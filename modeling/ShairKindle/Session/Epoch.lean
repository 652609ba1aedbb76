import ShairKindle.Jitter.Play
import ShairKindle.Session.Resync

/-!
# The buffer within an epoch

What holds in every state the session's operations reach (`jitter_init`, inserts, pops with
`session_deadline`, resyncs, resend scans and flushes): the cursor stands between the epoch's boundary
and one past the sequence reference, everything received in this epoch lies at or below the reference,
and everything played or concealed in it lies behind the cursor. So the reference moves only with a packet
that is accepted, and a packet that is turned away changes nothing but a counter.

A slot belongs to the epoch when it carries the buffer's generation. The generation is a `uint32_t` and old
slots are never erased, so `2 ^ 32` flushes later the slots of an earlier epoch pass for the current one
(`lapped_generation_moves_reference`); the results are for runs with fewer.
-/

namespace ShairKindle

/-! ## The references -/

theorem seqextSeq_eq_some {s s' : Seqext} {w : UInt16} {v : Nat} (h : seqextSeq s w = some (v, s')) :
    s'.seqRef = max s.seqRef v ∧ (v ≤ s.seqRef → s' = s) := by
  simp only [seqextSeq] at h
  split_ifs at h
  · obtain ⟨rfl, rfl⟩ := Prod.mk.inj (Option.some.inj h)
    exact ⟨by dsimp only; omega, fun hle => by omega⟩
  · obtain ⟨rfl, rfl⟩ := Prod.mk.inj (Option.some.inj h)
    exact ⟨by omega, fun _ => rfl⟩

/-- A number within 32767 of the reference is read back from its low sixteen bits. -/
theorem seqextSeq_near {s : Seqext} {e : Nat} (hbelow : s.seqRef ≤ e + 32767) (habove : e ≤ s.seqRef + 32767) :
    (seqextSeq s (UInt16.ofNat e)).map (·.1) = some e := by
  have hd : Int.bmod (((UInt16.ofNat e).toNat : Int) - s.seqRef) (2 ^ 16) = (e : Int) - s.seqRef := by
    rw [UInt16.toNat_ofNat', Int.bmod_def]
    split <;> omega
  simp only [seqextSeq, hd]
  rw [if_neg (by omega), if_neg (by omega), Option.map_some]
  congr 1
  omega

/-- A packet that is turned away moves at most the reference and a counter. -/
theorem jitterInsert_refused {j : Jitter} {wseq : UInt16} {wts : UInt32} {pl : List UInt8}
    (h : (jitterInsert j wseq wts pl).2 ≠ 0) :
    (jitterInsert j wseq wts pl).1 = j ∨
    ∃ ext sx, seqextSeq j.sx wseq = some (ext, sx) ∧
      ((ext < j.boundary ∨ ext < j.playCursor) ∧
          (jitterInsert j wseq wts pl).1 = { j with sx := sx, late := addU32 j.late 1 } ∨
        j.holds ext = true ∧
          (jitterInsert j wseq wts pl).1 = { j with sx := sx, dupes := addU32 j.dupes 1 }) := by
  by_cases hlen : jitterMaxPayload < pl.length
  · left; simp only [jitterInsert, jitterInsertWith, hlen, if_true]
  cases hseq : seqextSeq j.sx wseq with
  | none => left; simp only [jitterInsert, jitterInsertWith, hlen, if_false, hseq]
  | some r =>
    obtain ⟨ext, sx⟩ := r
    refine .inr ⟨ext, sx, rfl, ?_⟩
    by_cases hb : ext < j.boundary
    · exact .inl ⟨.inl hb, by simp only [jitterInsert, jitterInsertWith, hlen, if_false, hseq, hb, if_true]⟩
    by_cases hc : ext < j.playCursor
    · exact .inl ⟨.inr hc, by simp only [jitterInsert, jitterInsertWith, hlen, if_false, hseq, hb, hc, if_true]⟩
    have hsx : ({ j with sx := sx } : Jitter).holds ext = j.holds ext := rfl
    cases hh : j.holds ext with
    | true => exact .inr ⟨rfl, by simp only [jitterInsert, jitterInsertWith, hlen, if_false, hseq, hb, hc, hsx, hh, if_true]⟩
    | false => simp [jitterInsert, jitterInsertWith, hlen, hseq, hb, hc, hsx, hh] at h

/-- One that is stored moves the reference up to its number. -/
theorem jitterInsert_ref {j : Jitter} {wseq : UInt16} {wts : UInt32} {pl : List UInt8} {ext : Nat}
    (hseq : (seqextSeq j.sx wseq).map (·.1) = some ext) (h : (jitterInsert j wseq wts pl).2 = 0) :
    (jitterInsert j wseq wts pl).1.sx.seqRef = max j.sx.seqRef ext := by
  by_cases hlen : jitterMaxPayload < pl.length
  · simp [jitterInsert, jitterInsertWith, hlen] at h
  cases hs : seqextSeq j.sx wseq with
  | none => simp [hs] at hseq
  | some r =>
    obtain ⟨e, sx⟩ := r
    obtain rfl : e = ext := by simpa [hs] using hseq
    have hpast : ¬ e < j.boundary ∧ ¬ e < j.playCursor ∧ ¬ ({ j with sx := sx } : Jitter).holds e = true := by
      simp only [jitterInsert, jitterInsertWith, hlen, if_false, hs] at h
      grind
    simp only [jitterInsert, jitterInsertWith, hlen, if_false, hs, hpast.1, hpast.2.1, if_neg hpast.2.2, store_seqRef]
    exact (seqextSeq_eq_some hs).1

/-- A packet that fits, is not late and is not held is stored. -/
theorem jitterInsert_accepts {j : Jitter} {wseq : UInt16} (wts : UInt32) {pl : List UInt8} {e : Nat}
    (hlen : pl.length ≤ jitterMaxPayload) (hseq : (seqextSeq j.sx wseq).map (·.1) = some e)
    (hb : j.boundary ≤ e) (hc : j.playCursor ≤ e) (hh : j.holds e = false) :
    (jitterInsert j wseq wts pl).2 = 0 ∧ Stored j (jitterInsert j wseq wts pl).1 e wts pl := by
  have hrc : (jitterInsert j wseq wts pl).2 = 0 := by
    cases hs : seqextSeq j.sx wseq with
    | none => simp [hs] at hseq
    | some r =>
      obtain ⟨ext, sx⟩ := r
      obtain rfl : ext = e := by simpa [hs] using hseq
      have hsx : ({ j with sx := sx } : Jitter).holds ext = false := hh
      simp only [jitterInsert, jitterInsertWith, hs]
      rw [if_neg (by omega), if_neg (by omega), if_neg (by omega), if_neg (by simp [hsx])]
  obtain ⟨hne, -⟩ | ⟨ext, hext, -, -, -, -, hst⟩ := jitterInsert_cases j wseq wts pl
  · exact absurd hrc hne
  · obtain rfl : ext = e := Option.some.inj (hext.symm.trans hseq)
    exact ⟨hrc, hst⟩

/-- The deadline has passed when a packet past the cursor, within the window and the ring, is held. -/
theorem sessionDeadline_iff {j : Jitter} {c : Nat} :
    sessionDeadline j c = true ↔
      ∃ e, c < e ∧ e ≤ c + concealWindow j.framesPerPkt ∧ e < c + jitterSlots ∧ j.holds e = true := by
  simp only [sessionDeadline, List.any_eq_true, List.mem_range'_1, jitterSlots]
  constructor
  · rintro ⟨e, he, hh⟩
    exact ⟨e, by omega, by omega, by omega, hh⟩
  · rintro ⟨e, h1, h2, h3, hh⟩
    exact ⟨e, by omega, hh⟩

/-! ## Generations -/

/-- After `n` flushes: the generation counts them modulo `2 ^ 32`, and a slot that was ever written carries
the generation of one of the epochs so far. -/
structure Generations (j : Jitter) (n : Nat) : Prop where
  gen_eq : j.gen = (1 + n) % 2 ^ 32
  written : ∀ e, (j.ring.get e).state ≠ .empty → ∃ k, k ≤ n ∧ (j.ring.get e).gen = (1 + k) % 2 ^ 32

theorem Generations.init (fpp : Int) (refSeq : UInt16) (refTs : UInt32) :
    Generations (jitterInit fpp refSeq refTs) 0 := by
  refine ⟨rfl, fun e h => ?_⟩
  simp [jitterInit, zeroSlot] at h

/-- A step that is no flush leaves each slot as it is or gives it the current generation. -/
theorem Generations.concat {j j' : Jitter} {tr : List Obs} {o : Obs} (h : Generations j (tr.countP Obs.isFlush))
    (hf : o.isFlush = false) (hgen : j'.gen = j.gen)
    (hring : ∀ e, j'.ring.get e = j.ring.get e ∨ (j'.ring.get e).gen = j.gen) :
    Generations j' ((tr ++ [o]).countP Obs.isFlush) := by
  have hcount : (tr ++ [o]).countP Obs.isFlush = tr.countP Obs.isFlush := by simp [hf]
  rw [hcount]
  refine ⟨hgen.trans h.gen_eq, fun e he => ?_⟩
  rcases hring e with hr | hr
  · rw [hr] at he ⊢
    exact h.written e he
  · exact ⟨_, le_refl _, hr.trans h.gen_eq⟩

/-- A flush begins an epoch none of the slots belongs to, as long as the generation has not come round. -/
theorem Generations.flush_fresh {j : Jitter} {n : Nat} (h : Generations j n) (hn : n + 1 < 2 ^ 32)
    (nseq : UInt16) (nts : UInt32) (e : Nat) (hne : (j.ring.get e).state ≠ .empty) :
    (j.ring.get e).gen ≠ (jitterFlush j nseq nts).gen := by
  obtain ⟨k, hk, hgen⟩ := h.written e hne
  simp only [jitterFlush, addU32, hgen, h.gen_eq]
  omega

theorem Generations.flush {j : Jitter} {n : Nat} (h : Generations j n) (nseq : UInt16) (nts : UInt32) :
    Generations (jitterFlush j nseq nts) (n + 1) := by
  refine ⟨?_, fun e he => ?_⟩
  · simp only [jitterFlush, addU32, h.gen_eq]
    omega
  · obtain ⟨k, hk, hgen⟩ := h.written e he
    exact ⟨k, by omega, hgen⟩

/-! ## The epoch -/

/-- Packet `e` was accepted since the last flush of the trace. -/
def AcceptedNow (tr : List Obs) (e : Nat) : Prop := (lastInsert tr e).isSome = true

theorem acceptedNow_concat {tr : List Obs} {o : Obs} {e : Nat} :
    AcceptedNow (tr ++ [o]) e ↔ o.isFlush = false ∧ (o.accepts e = true ∨ AcceptedNow tr e) := by
  unfold AcceptedNow
  rw [lastInsert_concat]
  cases o with
  | insert ext wts pl rc =>
    simp only [acceptStep, Obs.isFlush, Obs.accepts, Bool.and_eq_true, beq_iff_eq, true_and]
    split
    · simp_all
    · simp_all
  | flush => simp [acceptStep, Obs.isFlush]
  | pop s | resync s | resend s => simp [acceptStep, Obs.isFlush, Obs.accepts]

theorem acceptedNow_quiet {tr : List Obs} {o : Obs} (hf : o.isFlush = false) (ho : ∀ e, o.accepts e = false) {e : Nat} :
    AcceptedNow (tr ++ [o]) e ↔ AcceptedNow tr e := by
  rw [acceptedNow_concat]
  simp [hf, ho e]

/-- Where the buffer stands within its epoch. -/
structure EpochInv (j : Jitter) (tr : List Obs) : Prop where
  gens : Generations j (tr.countP Obs.isFlush)
  boundary_le : j.boundary ≤ j.playCursor
  cursor_le : j.playCursor ≤ j.sx.seqRef + 1
  received : ∀ e, j.live (j.ring.get e) = true → AcceptedNow tr (j.ring.get e).extSeq
  accepted : ∀ e, AcceptedNow tr e → e ≤ j.sx.seqRef
  played : ∀ e, (j.ring.get e).gen = j.gen →
    (j.ring.get e).state = .concealed ∨ (j.ring.get e).state = .consumed → (j.ring.get e).extSeq < j.playCursor
  ref : j.sx.seqRef = j.boundary ∨ AcceptedNow tr j.sx.seqRef

theorem EpochInv.holds_le {j : Jitter} {tr : List Obs} (h : EpochInv j tr) {e : Nat} (he : j.holds e = true) :
    e ≤ j.sx.seqRef := by
  obtain ⟨hg, hx, hs⟩ := holds_iff.1 he
  have hacc := h.received e (live_iff.2 ⟨hg, hs⟩)
  rw [hx] at hacc
  exact h.accepted e hacc

theorem EpochInv.init (fpp : Int) (refSeq : UInt16) (refTs : UInt32) :
    EpochInv (jitterInit fpp refSeq refTs) [] where
  gens := Generations.init fpp refSeq refTs
  boundary_le := le_refl _
  cursor_le := Nat.le_succ _
  received e h := by simp [jitterInit, zeroSlot, Jitter.live] at h
  accepted e h := by simp [AcceptedNow, lastInsert] at h
  played e _ h := by simp [jitterInit, zeroSlot] at h
  ref := .inl rfl

/-- A packet that is turned away: the reference stays, because what is late or a duplicate lies at or
below it. -/
theorem EpochInv.refused {j : Jitter} {tr : List Obs} (h : EpochInv j tr) {wseq : UInt16} {wts : UInt32}
    {pl : List UInt8} (hrc : (jitterInsert j wseq wts pl).2 ≠ 0) :
    (jitterInsert j wseq wts pl).1 = j ∨
    (jitterInsert j wseq wts pl).1 = { j with late := addU32 j.late 1 } ∨
    (jitterInsert j wseq wts pl).1 = { j with dupes := addU32 j.dupes 1 } := by
  have hb := h.boundary_le
  have hc := h.cursor_le
  obtain he | ⟨ext, sx, hseq, ⟨hlate, he⟩ | ⟨hdup, he⟩⟩ := jitterInsert_refused hrc
  · exact .inl he
  · have hsx : sx = j.sx := (seqextSeq_eq_some hseq).2 (by omega)
    rw [hsx] at he
    exact .inr (.inl he)
  · have hsx : sx = j.sx := (seqextSeq_eq_some hseq).2 (h.holds_le hdup)
    rw [hsx] at he
    exact .inr (.inr he)

/-- An operation of the epoch that touches neither slots nor references, and moves the cursor on at most
up to a packet that is held. -/
theorem EpochInv.moved {j j' : Jitter} {tr : List Obs} {o : Obs} (h : EpochInv j tr)
    (hf : o.isFlush = false) (ho : ∀ e, o.accepts e = false) (hring : j'.ring = j.ring)
    (hgen : j'.gen = j.gen) (hsx : j'.sx = j.sx) (hb : j'.boundary = j.boundary)
    (hle : j.playCursor ≤ j'.playCursor) (hcur : j'.playCursor ≤ j.sx.seqRef + 1) : EpochInv j' (tr ++ [o]) where
  gens := h.gens.concat hf hgen fun e => .inl (by rw [hring])
  boundary_le := by have := h.boundary_le; omega
  cursor_le := by rw [hsx]; exact hcur
  received e he := by
    rw [hring] at he ⊢
    exact (acceptedNow_quiet hf ho).2 (h.received e (by simpa [Jitter.live, hgen] using he))
  accepted e he := by
    rw [hsx]
    exact h.accepted e ((acceptedNow_quiet hf ho).1 he)
  played e he hst := by
    rw [hring] at he hst ⊢
    exact lt_of_lt_of_le (h.played e (he.trans hgen) hst) hle
  ref := by
    rw [hsx, hb, acceptedNow_quiet hf ho]
    exact h.ref

/-- A pop that writes `slot` to the cursor's place and moves on; the cursor's number is known to lie at or
below the reference. -/
theorem EpochInv.popped {j j' : Jitter} {tr : List Obs} {o : Obs} {slot : RingSlot} (h : EpochInv j tr)
    (hf : o.isFlush = false) (ho : ∀ e, o.accepts e = false)
    (hring : j'.ring = j.ring.set j.playCursor slot) (hgen : j'.gen = j.gen) (hsx : j'.sx = j.sx)
    (hb : j'.boundary = j.boundary) (hcur : j'.playCursor = j.playCursor + 1)
    (hslot : slot.gen = j.gen ∧ slot.extSeq = j.playCursor ∧ slot.state ≠ .received)
    (hle : j.playCursor ≤ j.sx.seqRef) : EpochInv j' (tr ++ [o]) where
  gens := by
    refine h.gens.concat hf hgen fun e => ?_
    rw [hring, CellRing.get_set]
    split
    · exact .inr hslot.1
    · exact .inl rfl
  boundary_le := by have := h.boundary_le; omega
  cursor_le := by rw [hsx, hcur]; omega
  received e he := by
    rw [hring, CellRing.get_set] at he ⊢
    split at he
    · exact absurd (live_iff.1 he).2 hslot.2.2
    · rename_i hne
      rw [if_neg hne]
      exact (acceptedNow_quiet hf ho).2 (h.received e (by simpa [Jitter.live, hgen] using he))
  accepted e he := by
    rw [hsx]
    exact h.accepted e ((acceptedNow_quiet hf ho).1 he)
  played e he hst := by
    rw [hring, CellRing.get_set] at he hst ⊢
    rw [hcur]
    split
    · rw [hslot.2.1]
      omega
    · rename_i hne
      rw [if_neg hne] at he hst
      have := h.played e (he.trans hgen) hst
      omega
  ref := by
    rw [hsx, hb, acceptedNow_quiet hf ho]
    exact h.ref

/-- A packet that is stored. -/
theorem EpochInv.stored {j j' : Jitter} {tr : List Obs} (h : EpochInv j tr) {ext : Nat} {wts : UInt32}
    {pl : List UInt8} (hs : Stored j j' ext wts pl) (href : j'.sx.seqRef = max j.sx.seqRef ext) :
    EpochInv j' (tr ++ [.insert (some ext) wts pl 0]) := by
  have hnew : AcceptedNow (tr ++ [.insert (some ext) wts pl 0]) ext := by
    simp [AcceptedNow, lastInsert_concat, acceptStep]
  refine ⟨?_, ?_, ?_, fun e he => ?_, fun e he => ?_, fun e he hst => ?_, ?_⟩
  · refine h.gens.concat rfl hs.gen fun e => ?_
    rw [hs.ring, CellRing.get_set]
    split
    · exact .inr rfl
    · exact .inl rfl
  · rw [hs.boundary, hs.playCursor]
    exact h.boundary_le
  · rw [hs.playCursor, href]
    have := h.cursor_le
    omega
  · rw [hs.ring, CellRing.get_set] at he ⊢
    split at he
    · rename_i heq
      rw [if_pos heq]
      exact hnew
    · rename_i hne
      rw [if_neg hne]
      exact acceptedNow_concat.2 ⟨rfl, .inr (h.received e (by simpa [Jitter.live, hs.gen] using he))⟩
  · rw [href]
    obtain ⟨_, hacc | hacc⟩ := acceptedNow_concat.1 he
    · obtain rfl : ext = e := by simpa [Obs.accepts] using hacc
      exact le_max_right _ _
    · exact le_max_of_le_left (h.accepted e hacc)
  · rw [hs.ring, CellRing.get_set] at he hst ⊢
    rw [hs.playCursor]
    split at hst
    · simp at hst
    · rename_i hne
      rw [if_neg hne] at he ⊢
      exact h.played e (he.trans hs.gen) hst
  · rw [href, hs.boundary]
    rcases le_total ext j.sx.seqRef with hle | hle
    · rw [max_eq_left hle]
      exact h.ref.imp_right fun ha => acceptedNow_concat.2 ⟨rfl, .inr ha⟩
    · rw [max_eq_right hle]
      exact .inr hnew

/-- **One operation of the session keeps the invariant**, as long as the generation has not come round. -/
theorem EpochInv.step {j : Jitter} {tr : List Obs} {o : Op} (h : EpochInv j tr) (ho : o.OfSession)
    (hok : (tr ++ [(jitterStep j o).2]).countP Obs.isFlush < 2 ^ 32) :
    EpochInv (jitterStep j o).1 (tr ++ [(jitterStep j o).2]) := by
  have hcur := h.cursor_le
  cases o with
  | insert wseq wts pl =>
    obtain ⟨hrc, hs⟩ | ⟨ext, hseq, _, _, _, hrc, hs⟩ := jitterInsert_cases j wseq wts pl
    · have hsx : (jitterInsert j wseq wts pl).1.sx = j.sx := by
        obtain he | he | he := h.refused hrc <;> rw [he]
      have ho : ∀ e, (jitterStep j (.insert wseq wts pl)).2.accepts e = false := by
        simp [jitterStep, Obs.accepts, hrc]
      exact h.moved rfl ho hs.ring hs.gen hsx hs.boundary (le_of_eq hs.playCursor.symm)
        (by rw [jitterStep, hs.playCursor]; exact hcur)
    · have href := jitterInsert_ref hseq hrc
      simp only [jitterStep, hseq, hrc]
      exact h.stored hs href
  | pop dl =>
    have hdl : dl = sessionDeadline := ho
    subst hdl
    obtain ⟨hh, he⟩ | ⟨_, hd, he⟩ | ⟨_, _, he⟩ := jitterPop_cases sessionDeadline j <;>
      simp only [jitterStep, he]
    · obtain ⟨hg, hx, _⟩ := holds_iff.1 hh
      exact h.popped rfl (fun _ => rfl) rfl rfl rfl rfl rfl ⟨hg, hx, by simp⟩ (h.holds_le hh)
    · obtain ⟨e, hlt, _, _, hheld⟩ := sessionDeadline_iff.1 hd
      have hle := h.holds_le hheld
      exact h.popped rfl (fun _ => rfl) rfl rfl rfl rfl rfl ⟨rfl, rfl, by simp⟩ (by omega)
    · exact h.moved rfl (fun _ => rfl) rfl rfl rfl rfl (le_refl _) hcur
  | tryResync =>
    obtain he | ⟨hi, r, _, _, hr, hle, hle', _, he⟩ := jitterTryResync_cases j <;> simp only [jitterStep, he]
    · exact h.moved rfl (fun _ => rfl) rfl rfl rfl rfl (le_refl _) hcur
    · have hheld := h.holds_le hr
      exact h.moved rfl (fun _ => rfl) rfl rfl rfl rfl hle (by dsimp only; omega)
  | nextResend => exact h.moved rfl (fun _ => rfl) rfl rfl rfl rfl (le_refl _) hcur
  | flush nseq nts =>
    have hn : tr.countP Obs.isFlush + 1 < 2 ^ 32 := by simpa [jitterStep, Obs.isFlush] using hok
    -- no slot belongs to the new epoch
    have hfresh := h.gens.flush_fresh hn nseq nts
    refine ⟨?_, le_refl _, Nat.le_succ _, fun e he => ?_, fun e he => ?_, fun e he hst => ?_, .inl rfl⟩
    · have hcount : (tr ++ [(jitterStep j (.flush nseq nts)).2]).countP Obs.isFlush =
          tr.countP Obs.isFlush + 1 := by simp [jitterStep, Obs.isFlush]
      rw [hcount]
      exact h.gens.flush nseq nts
    · obtain ⟨hg, hst⟩ := live_iff.1 he
      exact absurd hg (hfresh e (by rw [show (j.ring.get e).state = .received from hst]; simp))
    · exact absurd (acceptedNow_concat.1 he).1 (by simp [jitterStep, Obs.isFlush])
    · refine absurd he (hfresh e ?_)
      rcases hst with hst | hst
      · rw [show (j.ring.get e).state = .concealed from hst]
        simp
      · rw [show (j.ring.get e).state = .consumed from hst]
        simp

/-- The operations are the session's, and there are fewer flushes than generations. -/
structure SessionRun (ops : List Op) : Prop where
  ofSession : ∀ o ∈ ops, o.OfSession
  flushes : ops.countP Op.isFlush < 2 ^ 32

theorem EpochInv.run (fpp : Int) (refSeq : UInt16) (refTs : UInt32) {ops : List Op} (h : SessionRun ops) :
    EpochInv (runOps (jitterInit fpp refSeq refTs) ops).1 (runOps (jitterInit fpp refSeq refTs) ops).2 := by
  refine Machine.run_hist_of_allSteps (P := fun _ o => Op.OfSession o)
    (fun j tr => tr.countP Obs.isFlush < 2 ^ 32 → EpochInv j tr) (fun j tr o hj ho hok => ?_)
    (fun _ => EpochInv.init fpp refSeq refTs) ops (.of_forall _ ops fun o ho _ => h.ofSession o ho) ?_
  · refine (hj ?_).step ho hok
    rw [List.countP_append] at hok
    omega
  · rw [List.nil_append, countP_isFlush_run]
    exact h.flushes

/-! ## A packet that is turned away -/

/-- **A rejected packet changes nothing.** In every state that fewer than `2 ^ 32` flushes and any other
operations of the session reach: the cursor lies between the boundary and one past the sequence reference,
every packet received in this epoch lies at or below the reference, and an insert that returns -1 or 1
leaves the whole buffer as it is except that `late` or `dupes` may count one. -/
theorem rejected_changes_nothing (fpp : Int) (refSeq : UInt16) (refTs : UInt32) (ops : List Op)
    (hrun : SessionRun ops) (j : Jitter) (hj : (runOps (jitterInit fpp refSeq refTs) ops).1 = j) :
    (j.boundary ≤ j.playCursor ∧ j.playCursor ≤ j.sx.seqRef + 1 ∧
      ∀ e, j.live (j.ring.get e) = true → (j.ring.get e).extSeq ≤ j.sx.seqRef) ∧
    ∀ (wseq : UInt16) (wts : UInt32) (pl : List UInt8),
      (jitterInsert j wseq wts pl).2 = -1 ∨ (jitterInsert j wseq wts pl).2 = 1 →
      (jitterInsert j wseq wts pl).1 = j ∨
      (jitterInsert j wseq wts pl).1 = { j with late := addU32 j.late 1 } ∨
      (jitterInsert j wseq wts pl).1 = { j with dupes := addU32 j.dupes 1 } := by
  subst hj
  have h := EpochInv.run fpp refSeq refTs hrun
  refine ⟨⟨h.boundary_le, h.cursor_le, fun e he => h.accepted _ (h.received e he)⟩, fun wseq wts pl hrc => ?_⟩
  exact h.refused (by rcases hrc with hrc | hrc <;> rw [hrc] <;> decide)

/-- Packet 1 comes first and packet 0 is concealed. -/
def overtaken : List Op := [.insert 1 352 [7], .pop sessionDeadline]

theorem rejected_changes_nothing_late :
    SessionRun overtaken ∧ (jitterInsert (runOps (jitterInit 352 0 0) overtaken).1 0 0 [8]).2 = 1 ∧
    (jitterInsert (runOps (jitterInit 352 0 0) overtaken).1 0 0 [8]).1.sx =
      (runOps (jitterInit 352 0 0) overtaken).1.sx := by
  have hrun : SessionRun overtaken := ⟨by simp [overtaken, Op.OfSession], by decide⟩
  have hrc : (jitterInsert (runOps (jitterInit 352 0 0) overtaken).1 0 0 [8]).2 = 1 := by decide +kernel
  refine ⟨hrun, hrc, ?_⟩
  obtain he | he | he := (rejected_changes_nothing 352 0 0 _ hrun _ rfl).2 0 0 [8] (.inr hrc) <;> rw [he]

/-! ## When the generation comes round -/

theorem runOps_cons (j : Jitter) (o : Op) (ops : List Op) :
    (runOps j (o :: ops)).1 = (runOps (jitterStep j o).1 ops).1 := by
  rw [runOps, Machine.run_cons]

theorem runOps_append (j : Jitter) (xs ys : List Op) :
    (runOps j (xs ++ ys)).1 = (runOps (runOps j xs).1 ys).1 := by
  rw [runOps, Machine.run_append]

theorem flushes_run (nseq : UInt16) (nts : UInt32) (n : Nat) (j : Jitter) :
    (runOps j (List.replicate (n + 1) (.flush nseq nts))).1 =
      { jitterFlush j nseq nts with gen := (j.gen + (n + 1)) % 2 ^ 32 } := by
  induction n generalizing j with
  | zero => rfl
  | succ n ih =>
    have h := ih (jitterFlush j nseq nts)
    have hgen : ((jitterFlush j nseq nts).gen + (n + 1)) % 2 ^ 32 = (j.gen + (n + 1 + 1)) % 2 ^ 32 := by
      simp only [jitterFlush, addU32]
      omega
    rw [hgen] at h
    rw [List.replicate_succ, runOps_cons]
    exact h

/-- `2 ^ 32` flushes move the boundary and the references and leave the generation what it was. -/
theorem flushes_come_round (nseq : UInt16) (nts : UInt32) {j : Jitter} (hg : j.gen < 2 ^ 32) :
    (runOps j (List.replicate (2 ^ 32) (.flush nseq nts))).1 = { jitterFlush j nseq nts with gen := j.gen } := by
  have hn : 2 ^ 32 = (2 ^ 32 - 1) + 1 := by norm_num
  rw [hn, flushes_run]
  have hgen : (j.gen + (2 ^ 32 - 1 + 1)) % 2 ^ 32 = j.gen := by omega
  rw [hgen]

/-- Packet 100, then `n` flushes back to 0. -/
def flushedBack (n : Nat) : List Op := .insert 100 0 [7] :: List.replicate n (.flush 0 0)

theorem flushedBack_ofSession (n : Nat) : ∀ o ∈ flushedBack n, o.OfSession := by
  intro o ho
  rcases List.mem_cons.1 ho with rfl | ho
  · trivial
  · rw [List.eq_of_mem_replicate ho]
    trivial

/-- After `2 ^ 32` flushes the slot of packet 100 passes for one of the current epoch: packet 100 is turned
away as a duplicate, and the reference moves from 0 to 100 all the same. -/
theorem lapped_generation_moves_reference :
    (∀ o ∈ flushedBack (2 ^ 32), o.OfSession) ∧
    (runOps (jitterInit 352 0 0) (flushedBack (2 ^ 32))).1.sx.seqRef = 0 ∧
    (jitterInsert (runOps (jitterInit 352 0 0) (flushedBack (2 ^ 32))).1 100 0 [7]).2 = 1 ∧
    (jitterInsert (runOps (jitterInit 352 0 0) (flushedBack (2 ^ 32))).1 100 0 [7]).1.sx.seqRef = 100 := by
  have hrun : (runOps (jitterInit 352 0 0) (flushedBack (2 ^ 32))).1 =
      { jitterFlush (jitterInsert (jitterInit 352 0 0) 100 0 [7]).1 0 0 with
        gen := (jitterInsert (jitterInit 352 0 0) 100 0 [7]).1.gen } := by
    rw [flushedBack, runOps_cons]
    exact flushes_come_round 0 0 (by decide +kernel)
  refine ⟨flushedBack_ofSession _, ?_⟩
  rw [hrun]
  decide +kernel

end ShairKindle
