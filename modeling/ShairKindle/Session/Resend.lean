import ShairKindle.Session.Epoch

/-!
# Resend requests (src/jitter.c, src/session.c)

The receiver asks the sender for what is missing: `jitter_next_resend` scans the ring's window from the
cursor, and `rx_thread` puts the run it returns on the wire as a 16-bit first number and a 16-bit count
(session.c:269-282).

| here               | there                                                   |
|--------------------|---------------------------------------------------------|
| `jitterNextResend` | `jitter_next_resend` (jitter.c:61)                      |
| `resendRequest`    | `first` and `count` of `rx_thread` (session.c:275-276)  |

The scan also passes over concealed and consumed slots. In a run of the session those lie behind the cursor
(`EpochInv.played`), so within the window it sees exactly what is held, and the run it returns is the first
gap: `to + 1` is held, hence at or below the reference, and a packet of the gap is read back as itself as long
as the reference has not moved 32768 numbers past it.
-/

namespace ShairKindle

/-- `first` and `count` of a request for `from` to `to` (session.c:275-276). -/
def resendRequest (r : Nat × Nat) : UInt16 × UInt16 := (UInt16.ofNat r.1, UInt16.ofNat (r.2 - r.1 + 1))

/-! ## The scan -/

/-- `r` is the first maximal run in the window from `lo` to `hi` that is not held, with a held number after
it in the window. -/
structure FirstGap (held : Nat → Bool) (lo hi : Nat) (r : Nat × Nat) : Prop where
  lo_le : lo ≤ r.1
  le : r.1 ≤ r.2
  lt_hi : r.2 + 1 < hi
  before : ∀ e, lo ≤ e → e < r.1 → held e = true
  missing : ∀ e, r.1 ≤ e → e ≤ r.2 → held e = false
  after : held (r.2 + 1) = true

/-- What the scan has seen when it comes to `e`: everything up to the hole is there, the hole is open. -/
def Scanned (held : Nat → Bool) (lo e : Nat) : Option Nat → Prop
  | none => ∀ x, lo ≤ x → x < e → held x = true
  | some start =>
    lo ≤ start ∧ start < e ∧ (∀ x, lo ≤ x → x < start → held x = true) ∧
      ∀ x, start ≤ x → x < e → held x = false

theorem resendScan_spec (j : Jitter) (lo : Nat) : ∀ (n e : Nat) (hole : Option Nat), lo ≤ e →
    Scanned j.settled lo e hole →
    match resendScan j n e hole with
    | some r => FirstGap j.settled lo (e + n) r
    | none => ∀ a b, lo ≤ a → a < b → b < e + n → j.settled a = false → j.settled b = false := by
  intro n
  induction n with
  | zero =>
    intro e hole hlo hs a b ha hab hb hna
    cases hole with
    | none => exact absurd (hs a ha (by omega)) (by simp [hna])
    | some start =>
      obtain ⟨_, _, hbefore, hopen⟩ := hs
      -- a number that is missing lies in the open hole, and so does everything after it
      have hle : start ≤ a := by
        by_contra hlt
        exact absurd (hbefore a ha (by omega)) (by simp [hna])
      exact hopen b (by omega) (by omega)
  | succ n ih =>
    intro e hole hlo hs
    have harith : e + (n + 1) = e + 1 + n := by omega
    rw [harith]
    cases he : j.settled e with
    | true =>
      simp only [resendScan, he, if_true]
      cases hole with
      | none =>
        refine ih (e + 1) none (by omega) fun x hx hlt => ?_
        rcases Nat.lt_succ_iff_lt_or_eq.1 hlt with hlt | rfl
        · exact hs x hx hlt
        · exact he
      | some start =>
        obtain ⟨hle, hlt, hbefore, hopen⟩ := hs
        have hlast : e - 1 + 1 = e := by omega
        exact ⟨hle, by dsimp only; omega, by dsimp only; omega, hbefore,
          fun x hx hx' => hopen x hx (by dsimp only at hx'; omega), by rw [hlast]; exact he⟩
    | false =>
      simp only [resendScan, he, Bool.false_eq_true, if_false]
      refine ih (e + 1) (some (hole.getD e)) (by omega) ?_
      cases hole with
      | none =>
        refine ⟨hlo, Nat.lt_succ_self e, hs, fun x hx hlt => ?_⟩
        obtain rfl : e = x := by dsimp only [Option.getD] at hx; omega
        exact he
      | some start =>
        obtain ⟨hle, hlt, hbefore, hopen⟩ := hs
        refine ⟨hle, by dsimp only [Option.getD]; omega, hbefore, fun x hx hlt' => ?_⟩
        rcases Nat.lt_succ_iff_lt_or_eq.1 hlt' with hlt' | rfl
        · exact hopen x hx hlt'
        · exact he

theorem jitterNextResend_spec (j : Jitter) :
    match jitterNextResend j with
    | some r => FirstGap j.settled j.playCursor (j.playCursor + jitterSlots) r
    | none => ∀ a b, j.playCursor ≤ a → a < b → b < j.playCursor + jitterSlots →
        j.settled a = false → j.settled b = false :=
  resendScan_spec j j.playCursor jitterSlots j.playCursor none (le_refl _) fun x hx hlt => by omega

/-! ## What the scan takes for settled -/

/-- From the cursor on, settled means held. -/
theorem EpochInv.settled_eq {j : Jitter} {tr : List Obs} (h : EpochInv j tr) {e : Nat} (he : j.playCursor ≤ e) :
    j.settled e = j.holds e := by
  rw [Bool.eq_iff_iff, holds_iff]
  simp only [Jitter.settled, Bool.and_eq_true, Bool.or_eq_true, beq_iff_eq]
  constructor
  · rintro ⟨⟨hg, hx⟩, (hst | hst) | hst⟩
    · exact ⟨hg, hx, hst⟩
    · have := h.played e hg (.inl hst)
      omega
    · have := h.played e hg (.inr hst)
      omega
  · rintro ⟨hg, hx, hst⟩
    exact ⟨⟨hg, hx⟩, .inl (.inl hst)⟩

theorem EpochInv.firstGap {j : Jitter} {tr : List Obs} (h : EpochInv j tr) {r : Nat × Nat}
    (hr : FirstGap j.settled j.playCursor (j.playCursor + jitterSlots) r) :
    FirstGap j.holds j.playCursor (j.playCursor + jitterSlots) r where
  lo_le := hr.lo_le
  le := hr.le
  lt_hi := hr.lt_hi
  before e he hlt := by rw [← h.settled_eq he]; exact hr.before e he hlt
  missing e he hle := by rw [← h.settled_eq (by have := hr.lo_le; omega)]; exact hr.missing e he hle
  after := by
    have := hr.lo_le
    have := hr.le
    rw [← h.settled_eq (by omega)]
    exact hr.after

/-! ## A packet that was asked for -/

/-- A packet of the first gap is accepted. -/
theorem EpochInv.gap_accepted {j : Jitter} {tr : List Obs} (h : EpochInv j tr) {r : Nat × Nat}
    (hr : FirstGap j.holds j.playCursor (j.playCursor + jitterSlots) r)
    (hnear : ∀ e, AcceptedNow tr e → e ≤ r.1 + 32767) {e : Nat} (he : r.1 ≤ e) (hle : e ≤ r.2)
    (wts : UInt32) {pl : List UInt8} (hpl : pl.length ≤ jitterMaxPayload) :
    (seqextSeq j.sx (UInt16.ofNat e)).map (·.1) = some e ∧ (jitterInsert j (UInt16.ofNat e) wts pl).2 = 0 := by
  have hlo := hr.lo_le
  have hb := h.boundary_le
  have hafter := h.holds_le hr.after
  -- the reference is past the gap, so it is not the boundary but an accepted packet
  have href : j.sx.seqRef ≤ r.1 + 32767 := by
    rcases h.ref with hbd | ha
    · omega
    · exact hnear _ ha
  have hseq := seqextSeq_near (s := j.sx) (e := e) (by omega) (by omega)
  exact ⟨hseq, (jitterInsert_accepts wts hpl hseq (by omega) (by omega) (hr.missing e he hle)).1⟩

/-! ## Requests are exact and can be met -/

/-- **Resend requests are exact and fulfillable.** In every state that fewer than `2 ^ 32` flushes and any
other operations of the session reach, `jitter_next_resend` returns a run exactly when the window holds a
number with a missing one before it; it is the first maximal missing run, at most 511 long, so that the
16-bit count is its length; and while every number accepted in this epoch is at most 32767 above its first,
each packet asked for on the wire is extended to the number meant and accepted. -/
theorem resend_exact_fulfillable (fpp : Int) (refSeq : UInt16) (refTs : UInt32) (ops : List Op)
    (hrun : SessionRun ops) (j : Jitter) (tr : List Obs)
    (hj : runOps (jitterInit fpp refSeq refTs) ops = (j, tr)) :
    ((jitterNextResend j).isSome = true ↔
      ∃ a b, j.playCursor ≤ a ∧ a < b ∧ b < j.playCursor + jitterSlots ∧
        j.holds a = false ∧ j.holds b = true) ∧
    ∀ r, jitterNextResend j = some r →
      FirstGap j.holds j.playCursor (j.playCursor + jitterSlots) r ∧
      1 ≤ r.2 - r.1 + 1 ∧ r.2 - r.1 + 1 ≤ 511 ∧
      (resendRequest r).2.toNat = r.2 - r.1 + 1 ∧
      ((∀ e, AcceptedNow tr e → e ≤ r.1 + 32767) →
        ∀ (i : Nat) (wts : UInt32) (pl : List UInt8),
          i < (resendRequest r).2.toNat → pl.length ≤ jitterMaxPayload →
          (seqextSeq j.sx ((resendRequest r).1 + UInt16.ofNat i)).map (·.1) = some (r.1 + i) ∧
          (jitterInsert j ((resendRequest r).1 + UInt16.ofNat i) wts pl).2 = 0) := by
  have h := EpochInv.run fpp refSeq refTs hrun
  rw [hj] at h
  dsimp only at h
  have hspec := jitterNextResend_spec j
  refine ⟨⟨fun hsome => ?_, fun ⟨a, b, ha, hab, hb, hna, hhb⟩ => ?_⟩, fun r hr => ?_⟩
  · obtain ⟨r, hr⟩ := Option.isSome_iff_exists.1 hsome
    rw [hr] at hspec
    have hgap := h.firstGap hspec
    exact ⟨r.2, r.2 + 1, hgap.lo_le.trans hgap.le, Nat.lt_succ_self _, hgap.lt_hi,
      hgap.missing _ hgap.le (le_refl _), hgap.after⟩
  · cases hr : jitterNextResend j with
    | some r => rfl
    | none =>
      rw [hr] at hspec
      have hnb := hspec a b ha hab hb (by rw [h.settled_eq ha]; exact hna)
      rw [h.settled_eq (by omega), hhb] at hnb
      exact absurd hnb (by decide)
  · rw [hr] at hspec
    have hgap := h.firstGap hspec
    have hlo := hgap.lo_le
    have hle := hgap.le
    have hhi : r.2 + 1 < j.playCursor + 512 := hgap.lt_hi
    have hcount : (resendRequest r).2.toNat = r.2 - r.1 + 1 := by
      simp only [resendRequest, UInt16.toNat_ofNat']
      omega
    refine ⟨hgap, by omega, by omega, hcount, fun hnear i wts pl hi hpl => ?_⟩
    rw [hcount] at hi
    have hwire : (resendRequest r).1 + UInt16.ofNat i = UInt16.ofNat (r.1 + i) := (UInt16.ofNat_add _ _).symm
    obtain ⟨hseq, hrc⟩ := h.gap_accepted hgap hnear (e := r.1 + i) (by omega) (by omega) wts hpl
    rw [hwire]
    exact ⟨hseq, hrc⟩

/-- Packets 0 and 3. -/
def oneGap : List Op := [.insert 0 0 [1], .insert 3 1056 [4]]

theorem resend_exact_fulfillable_one_gap :
    SessionRun oneGap ∧ jitterNextResend (runOps (jitterInit 352 0 0) oneGap).1 = some (1, 2) ∧
    (jitterInsert (runOps (jitterInit 352 0 0) oneGap).1 2 704 [3]).2 = 0 := by
  have hrun : SessionRun oneGap := ⟨by simp [oneGap, Op.OfSession], by decide⟩
  have hr : jitterNextResend (runOps (jitterInit 352 0 0) oneGap).1 = some (1, 2) := by decide +kernel
  have hnear : ∀ e, AcceptedNow (runOps (jitterInit 352 0 0) oneGap).2 e → e ≤ 1 + 32767 := by
    intro e he
    have htr : (runOps (jitterInit 352 0 0) oneGap).2 =
        [.insert (some 0) 0 [1] 0, .insert (some 3) 1056 [4] 0] := by decide +kernel
    rw [htr] at he
    by_contra hlt
    have h0 : ¬ 0 = e := by omega
    have h3 : ¬ 3 = e := by omega
    simp [AcceptedNow, lastInsert, acceptStep, h0, h3] at he
  exact ⟨hrun, hr, (((resend_exact_fulfillable 352 0 0 oneGap hrun _ _ rfl).2 (1, 2) hr).2.2.2.2 hnear
    1 704 [3] (by decide) (by decide)).2⟩

/-- Packet 100 played, `n` flushes to 99, then packet 101. -/
def flushedShort (n : Nat) : List Op :=
  [.insert 100 0 [7], .pop sessionDeadline] ++ (List.replicate n (.flush 99 0) ++ [.insert 101 352 [8]])

theorem flushedShort_ofSession (n : Nat) : ∀ o ∈ flushedShort n, o.OfSession := by
  intro o ho
  simp only [flushedShort, List.mem_cons, List.mem_append, List.not_mem_nil, or_false] at ho
  rcases ho with (rfl | rfl) | ho | rfl
  · trivial
  · rfl
  · rw [List.eq_of_mem_replicate ho]
    trivial
  · trivial

/-- After `2 ^ 32` flushes the slot of packet 100, played long ago, passes for settled: 99 and 100 are both
missing before 101, and the request is for 99 alone. -/
theorem lapped_generation_hides_gap :
    (∀ o ∈ flushedShort (2 ^ 32), o.OfSession) ∧
    jitterNextResend (runOps (jitterInit 352 100 0) (flushedShort (2 ^ 32))).1 = some (99, 99) ∧
    (runOps (jitterInit 352 100 0) (flushedShort (2 ^ 32))).1.playCursor = 99 ∧
    (runOps (jitterInit 352 100 0) (flushedShort (2 ^ 32))).1.holds 100 = false ∧
    (runOps (jitterInit 352 100 0) (flushedShort (2 ^ 32))).1.holds 101 = true := by
  have hrun : (runOps (jitterInit 352 100 0) (flushedShort (2 ^ 32))).1 =
      (jitterInsert
        { jitterFlush (runOps (jitterInit 352 100 0) [.insert 100 0 [7], .pop sessionDeadline]).1 99 0 with
          gen := (runOps (jitterInit 352 100 0) [.insert 100 0 [7], .pop sessionDeadline]).1.gen }
        101 352 [8]).1 := by
    rw [flushedShort, runOps_append, runOps_append, flushes_come_round 99 0 (by decide +kernel)]
    rfl
  refine ⟨flushedShort_ofSession _, ?_⟩
  rw [hrun]
  decide +kernel

end ShairKindle
