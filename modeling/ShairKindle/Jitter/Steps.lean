import ShairKindle.Jitter.Basic

/-!
# What each jitter operation can do

One inversion lemma for each operation of src/jitter.c. Everything proved about the buffer later
goes through these and never unfolds an operation again.
-/

namespace ShairKindle

theorem addU32_one {n : Nat} (h : n + 1 < 2 ^ 32) : addU32 n 1 = n + 1 := Nat.mod_eq_of_lt h

/-- The parts of the buffer that decide what is played: everything but the references and the
statistics. -/
structure SameBuf (j j' : Jitter) : Prop where
  ring : j'.ring = j.ring
  gen : j'.gen = j.gen
  playCursor : j'.playCursor = j.playCursor
  boundary : j'.boundary = j.boundary
  framesPerPkt : j'.framesPerPkt = j.framesPerPkt
  overwritten : j'.overwritten = j.overwritten

theorem holds_iff {j : Jitter} {e : Nat} :
    j.holds e = true ↔
      (j.ring.get e).gen = j.gen ∧ (j.ring.get e).extSeq = e ∧ (j.ring.get e).state = .received := by
  simp [Jitter.holds, and_assoc]

theorem live_iff {j : Jitter} {s : RingSlot} : j.live s = true ↔ s.gen = j.gen ∧ s.state = .received := by
  simp [Jitter.live]

/-- The buffer after packet `ext` was stored; a received packet that was in its slot is counted as
overwritten. -/
structure Stored (j j' : Jitter) (ext : Nat) (wts : UInt32) (pl : List UInt8) : Prop where
  ring : j'.ring = j.ring.set ext ⟨.received, j.gen, ext, wts, pl, pl.length⟩
  gen : j'.gen = j.gen
  playCursor : j'.playCursor = j.playCursor
  boundary : j'.boundary = j.boundary
  framesPerPkt : j'.framesPerPkt = j.framesPerPkt
  overwritten : j'.overwritten =
    if j.live (j.ring.get ext) then addU32 j.overwritten 1 else j.overwritten

theorem store_stored {j : Jitter} {ext : Nat} (wts : UInt32) (pl : List UInt8) (h : j.holds ext = false) :
    Stored j (j.store ext wts pl) ext wts pl := by
  refine ⟨by simp only [Jitter.store, seqextTs_low], rfl, rfl, rfl, rfl, ?_⟩
  have hne : j.live (j.ring.get ext) = true → (j.ring.get ext).extSeq ≠ ext := by
    intro hl he
    have := holds_iff.2 ⟨(live_iff.1 hl).1, he, (live_iff.1 hl).2⟩
    simp [h] at this
  by_cases hl : j.live (j.ring.get ext) = true
  · simp [Jitter.store, hl, hne hl]
  · simp [Jitter.store, hl]

theorem seqextTs_seqRef (s : Seqext) (w : UInt32) : (seqextTs s w).2.seqRef = s.seqRef := by
  simp only [seqextTs]
  split <;> rfl

theorem store_seqRef (j : Jitter) (ext : Nat) (wts : UInt32) (pl : List UInt8) :
    (j.store ext wts pl).sx.seqRef = j.sx.seqRef := by
  simp only [Jitter.store, seqextTs_seqRef]

/-- An insert is either turned away, which touches no slot, or stores its packet at the number
the wire sequence extends to. -/
theorem jitterInsert_cases (j : Jitter) (wseq : UInt16) (wts : UInt32) (pl : List UInt8) :
    ((jitterInsert j wseq wts pl).2 ≠ 0 ∧ SameBuf j (jitterInsert j wseq wts pl).1) ∨
    ∃ ext, (seqextSeq j.sx wseq).map (·.1) = some ext ∧ j.boundary ≤ ext ∧ j.playCursor ≤ ext ∧
      j.holds ext = false ∧ (jitterInsert j wseq wts pl).2 = 0 ∧
      Stored j (jitterInsert j wseq wts pl).1 ext wts pl := by
  by_cases hlen : jitterMaxPayload < pl.length
  · left; simp only [jitterInsert, jitterInsertWith, hlen, if_true]
    exact ⟨by decide, ⟨rfl, rfl, rfl, rfl, rfl, rfl⟩⟩
  cases hseq : seqextSeq j.sx wseq with
  | none =>
    left; simp only [jitterInsert, jitterInsertWith, hlen, if_false, hseq]
    exact ⟨by decide, ⟨rfl, rfl, rfl, rfl, rfl, rfl⟩⟩
  | some r =>
    obtain ⟨ext, sx⟩ := r
    -- the two `late` exits and the duplicate exit change a counter only
    by_cases hb : ext < j.boundary
    · left; simp only [jitterInsert, jitterInsertWith, hlen, if_false, hseq, hb, if_true]
      exact ⟨by decide, ⟨rfl, rfl, rfl, rfl, rfl, rfl⟩⟩
    by_cases hc : ext < j.playCursor
    · left; simp only [jitterInsert, jitterInsertWith, hlen, if_false, hseq, hb, hc, if_true]
      exact ⟨by decide, ⟨rfl, rfl, rfl, rfl, rfl, rfl⟩⟩
    have hsx : ({ j with sx := sx } : Jitter).holds ext = j.holds ext := rfl
    cases hh : j.holds ext with
    | true =>
      left; simp only [jitterInsert, jitterInsertWith, hlen, if_false, hseq, hb, hc, hsx, hh, if_true]
      exact ⟨by decide, ⟨rfl, rfl, rfl, rfl, rfl, rfl⟩⟩
    | false =>
      right
      have hst := store_stored wts pl (hsx.trans hh)
      refine ⟨ext, rfl, by omega, by omega, hh, ?_, ?_⟩
      · simp only [jitterInsert, jitterInsertWith, hlen, if_false, hseq, hb, hc, hsx, hh, Bool.false_eq_true]
      · simp only [jitterInsert, jitterInsertWith, hlen, if_false, hseq, hb, hc, hsx, hh, Bool.false_eq_true]
        exact ⟨hst.ring, hst.gen, hst.playCursor, hst.boundary, hst.framesPerPkt, hst.overwritten⟩

/-- A pop plays the packet at the cursor, conceals it, or stalls. -/
theorem jitterPop_cases (dl : Jitter → Nat → Bool) (j : Jitter) :
    (j.holds j.playCursor = true ∧
      jitterPop dl j =
        ({ j with
            ring := j.ring.set j.playCursor { j.ring.get j.playCursor with state := .consumed }
            playCursor := j.playCursor + 1 },
          some ⟨.data, j.playCursor, (j.ring.get j.playCursor).rtpTs, j.framesPerPkt,
            (j.ring.get j.playCursor).payload.take (j.ring.get j.playCursor).len,
            (j.ring.get j.playCursor).len⟩)) ∨
    (j.holds j.playCursor = false ∧ dl j j.playCursor = true ∧
      jitterPop dl j =
        ({ j with
            ring := j.ring.set j.playCursor
              { j.ring.get j.playCursor with
                gen := j.gen, extSeq := j.playCursor, state := .concealed }
            concealedCount := addU32 j.concealedCount 1
            lost := addU32 j.lost 1
            playCursor := j.playCursor + 1 },
          some ⟨.conceal, j.playCursor, 0, j.framesPerPkt, [], 0⟩)) ∨
    (j.holds j.playCursor = false ∧ dl j j.playCursor = false ∧ jitterPop dl j = (j, none)) := by
  by_cases hh : j.holds j.playCursor = true
  · left; exact ⟨hh, by simp only [jitterPop, hh, if_true]⟩
  · have hh' : j.holds j.playCursor = false := by simpa using hh
    by_cases hd : dl j j.playCursor = true
    · right; left; exact ⟨hh', hd, by simp only [jitterPop, hh', hd, Bool.false_eq_true, if_false, if_true]⟩
    · have hd' : dl j j.playCursor = false := by simpa using hd
      right; right; exact ⟨hh', hd', by simp only [jitterPop, hh', hd', Bool.false_eq_true, if_false]⟩

/-- The jump never goes back, and ends at most the pre-roll before the run. -/
theorem resyncTarget_spec {j : Jitter} {r : Nat} (h : j.playCursor ≤ r) :
    j.playCursor ≤ resyncTarget j r ∧ resyncTarget j r ≤ r ∧ r ≤ resyncTarget j r + resyncPreroll := by
  by_cases hp : resyncPreroll < r
  · by_cases hc : r - resyncPreroll < j.playCursor <;> simp only [resyncTarget, hp, hc, if_true, if_false] <;>
      omega
  · have hc : ¬ r < j.playCursor := by omega
    simp only [resyncTarget, hp, hc, if_false]
    omega

theorem resyncRunStart_spec (j : Jitter) (r : Nat) (hc : j.playCursor ≤ r) :
    j.playCursor ≤ resyncRunStart j r ∧ resyncRunStart j r ≤ r ∧
      (resyncRunStart j r < r → j.holds (resyncRunStart j r) = true) := by
  induction r with
  | zero => simpa [resyncRunStart] using hc
  | succ r ih =>
    by_cases h : j.playCursor < r + 1 ∧ j.holds r = true
    · obtain ⟨ih1, ih2, ih3⟩ := ih (by omega)
      simp only [resyncRunStart, h.1, h.2, decide_true, Bool.and_self, if_true]
      refine ⟨ih1, by omega, fun _ => ?_⟩
      by_cases hlt : resyncRunStart j r < r
      · exact ih3 hlt
      · rw [show resyncRunStart j r = r by omega]; exact h.2
    · have h' : (decide (j.playCursor < r + 1) && j.holds r) = false := by
        by_contra hn
        exact h (by simpa using hn)
      simp only [resyncRunStart, h', Bool.false_eq_true, if_false]
      exact ⟨hc, le_refl _, fun hlt => absurd hlt (lt_irrefl _)⟩

/-- A resync leaves everything alone, or moves the cursor to at most the pre-roll before the start
`r` of a run that is held, and reports how far. -/
theorem jitterTryResync_cases (j : Jitter) :
    jitterTryResync j = (j, none) ∨
    ∃ hi r, resyncHi j = some hi ∧ r = resyncRunStart j hi ∧ j.holds r = true ∧
      j.playCursor ≤ resyncTarget j r ∧ resyncTarget j r ≤ r ∧ r ≤ resyncTarget j r + resyncPreroll ∧
      jitterTryResync j =
        ({ j with
            playCursor := resyncTarget j r
            resyncCount := addU32 j.resyncCount 1
            resyncSkipped := addU32 j.resyncSkipped (resyncTarget j r - j.playCursor) },
          some (resyncTarget j r - j.playCursor)) := by
  cases hhi : resyncHi j with
  | none => left; simp only [jitterTryResync, hhi]
  | some hi =>
    by_cases hb : hi < j.playCursor + resyncBehind
    · left; simp only [jitterTryResync, hhi, hb, if_true]
    by_cases hr : hi - resyncRunStart j hi + 1 < resyncMinRun
    · left; simp only [jitterTryResync, hhi, hb, hr, if_true, if_false]
    · right
      obtain ⟨h1, h2, h3⟩ := resyncRunStart_spec j hi (by omega)
      obtain ⟨t1, t2, t3⟩ := resyncTarget_spec h1
      -- a run of eight ends past its start, so the walk back went through a held slot
      simp only [resyncMinRun] at hr
      exact ⟨hi, _, rfl, rfl, h3 (by omega), t1, t2, t3,
        by simp only [jitterTryResync, hhi, hb, hr, resyncMinRun, if_false]⟩

end ShairKindle
