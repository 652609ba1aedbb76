import ShairKindle.Session.Basic
import ShairKindle.Jitter.Play

/-!
# Where accepted packets go

Within one flush epoch every accepted packet should end up played, counted in `overwritten`, or
still in the ring. One path of src/jitter.c breaks the balance: `jitter_pop` marks the cursor's slot
`SLOT_CONCEALED` (jitter.c:47) without looking at what is in it. When the ring has been lapped that
slot can hold a received packet with another number, which then disappears uncounted;
`jitter_insert` counts the same loss (jitter.c:26). The only other way is the 32-bit counter
wrapping.

`leak` is what one step loses in this way, `balance_run` says the books are off by exactly the sum
of the leaks, and since leaks never cancel the balance holds iff no step of the run leaks.
-/

namespace ShairKindle

/-- The insert returned 0. -/
def Obs.accepted : Obs → Bool
  | .insert _ _ _ rc => rc == 0
  | _ => false

/-- The pop returned `POP_DATA`. -/
def Obs.dataPop : Obs → Bool
  | .pop (some a) => a.kind == .data
  | _ => false

/-- Ring slots of the current generation in state `SLOT_RECEIVED`. -/
def Jitter.received (j : Jitter) : Nat := j.ring.count j.live

/-- The insert would replace a received packet of another number (jitter.c:26). -/
def Jitter.overwrites (j : Jitter) (wseq : UInt16) (pl : List UInt8) : Bool :=
  decide (pl.length ≤ jitterMaxPayload) &&
    match seqextSeq j.sx wseq with
    | none => false
    | some (ext, _) =>
      decide (j.boundary ≤ ext) && decide (j.playCursor ≤ ext) && j.live (j.ring.get ext) &&
        (j.ring.get ext).extSeq != ext

/-- The pop would conceal on top of a received packet (jitter.c:43-47). -/
def Jitter.concealsOver (j : Jitter) (dl : Jitter → Nat → Bool) : Bool :=
  !j.holds j.playCursor && dl j j.playCursor && j.live (j.ring.get j.playCursor)

/-- The step loses no packet uncounted: a pop does not conceal on top of a received packet, and an
overwriting insert finds room in the 32-bit counter. -/
def KeepsCount (j : Jitter) : Op → Prop
  | .insert wseq _ pl => j.overwrites wseq pl = true → j.overwritten + 1 < 2 ^ 32
  | .pop dl => j.concealsOver dl = false
  | _ => True

instance (j : Jitter) : (o : Op) → Decidable (KeepsCount j o)
  | .insert wseq _ pl =>
    inferInstanceAs (Decidable (j.overwrites wseq pl = true → j.overwritten + 1 < 2 ^ 32))
  | .pop dl => inferInstanceAs (Decidable (j.concealsOver dl = false))
  | .tryResync | .nextResend | .flush _ _ => .isTrue trivial

/-- Packets by which one step puts the books off. -/
def leak (j : Jitter) : Op → Nat
  | .insert wseq _ pl =>
    if j.overwrites wseq pl then j.overwritten + 1 - addU32 j.overwritten 1 else 0
  | .pop dl => if j.concealsOver dl then 1 else 0
  | _ => 0

theorem leak_eq_zero_iff (j : Jitter) (o : Op) : leak j o = 0 ↔ KeepsCount j o := by
  cases o with
  | insert wseq wts pl =>
    by_cases h : j.overwrites wseq pl = true
    · simp only [leak, KeepsCount, h, if_true, addU32, true_imp_iff]; omega
    · simp [leak, KeepsCount, h]
  | pop dl => by_cases h : j.concealsOver dl = true <;> simp [leak, KeepsCount, h]
  | tryResync | nextResend | flush => simp [leak, KeepsCount]

/-- An accepted insert overwrites exactly when its slot is live. -/
theorem overwrites_of_accepted {j : Jitter} {wseq : UInt16} {wts : UInt32} {pl : List UInt8} {ext : Nat}
    (hrc : (jitterInsert j wseq wts pl).2 = 0) (hseq : (seqextSeq j.sx wseq).map (·.1) = some ext)
    (hb : j.boundary ≤ ext) (hc : j.playCursor ≤ ext) (hh : j.holds ext = false) :
    j.overwrites wseq pl = j.live (j.ring.get ext) := by
  have hlen : pl.length ≤ jitterMaxPayload := by
    by_contra hn
    simp [jitterInsert, jitterInsertWith, Nat.lt_of_not_le hn] at hrc
  obtain ⟨⟨ext', sx⟩, hs, rfl⟩ := Option.map_eq_some_iff.1 hseq
  have hne : j.live (j.ring.get ext') = true → (j.ring.get ext').extSeq ≠ ext' := by
    intro hl he
    have := holds_iff.2 ⟨(live_iff.1 hl).1, he, (live_iff.1 hl).2⟩
    simp [hh] at this
  simp only [Jitter.overwrites, hlen, hs, hb, hc, decide_true, Bool.true_and]
  cases hl : j.live (j.ring.get ext') with
  | true => simpa using hne hl
  | false => simp

/-- A rejected insert does not overwrite. -/
theorem overwrites_of_rejected {j : Jitter} {wseq : UInt16} {wts : UInt32} {pl : List UInt8}
    (hrc : (jitterInsert j wseq wts pl).2 ≠ 0) : j.overwrites wseq pl = false := by
  by_contra hn
  simp only [Jitter.overwrites, Bool.not_eq_false, Bool.and_eq_true, decide_eq_true_eq] at hn
  obtain ⟨hlen, hm⟩ := hn
  cases hs : seqextSeq j.sx wseq with
  | none => simp [hs] at hm
  | some r =>
    obtain ⟨ext, sx⟩ := r
    simp only [hs, Bool.and_eq_true, decide_eq_true_eq, bne_iff_ne] at hm
    obtain ⟨⟨⟨hb, hc⟩, hl⟩, hne⟩ := hm
    have hsx : ({ j with sx := sx } : Jitter).holds ext = false := by
      by_contra hh
      exact hne (holds_iff.1 (Bool.not_eq_false _ ▸ hh)).2.1
    exact hrc (by simp [jitterInsert, jitterInsertWith, Nat.not_lt.2 hlen, hs, Nat.not_lt.2 hb, Nat.not_lt.2 hc, hsx])

/-! ## One step -/

theorem received_congr {j j' : Jitter} (hg : j'.gen = j.gen) (hr : j'.ring = j.ring) :
    j'.received = j.received := by
  have hl : j'.live = j.live := by funext s; simp [Jitter.live, hg]
  rw [Jitter.received, hl, hr, Jitter.received]

theorem received_set (j j' : Jitter) {e : Nat} {v : RingSlot} (hg : j'.gen = j.gen)
    (hr : j'.ring = j.ring.set e v) :
    j'.received + (if j.live (j.ring.get e) then 1 else 0) = j.received + (if j.live v then 1 else 0) := by
  have hl : j'.live = j.live := by funext s; simp [Jitter.live, hg]
  rw [Jitter.received, hl, hr]
  exact CellRing.count_set j.live j.ring e v

/-- **The books of one step.** Outside a flush, what goes in is played, counted, kept or leaked. -/
theorem balance_step (j : Jitter) (o : Op) (hf : o.isFlush = false) :
    (if (jitterStep j o).2.accepted then 1 else 0) + j.overwritten + j.received =
      (if (jitterStep j o).2.dataPop then 1 else 0) + (jitterStep j o).1.overwritten +
        (jitterStep j o).1.received + leak j o := by
  cases o with
  | insert wseq wts pl =>
    simp only [jitterStep, Obs.dataPop, leak, Bool.false_eq_true, if_false]
    obtain ⟨hrc, hs⟩ | ⟨ext, hseq, hb, hc, hh, hrc, hs⟩ := jitterInsert_cases j wseq wts pl
    · simp [Obs.accepted, hrc, overwrites_of_rejected hrc, received_congr hs.gen hs.ring, hs.overwritten]
    · have hset := received_set j _ hs.gen hs.ring
      have hnew : j.live ⟨.received, j.gen, ext, wts, pl, pl.length⟩ = true := by simp [Jitter.live]
      rw [hnew] at hset
      simp only [Obs.accepted, hrc, beq_self_eq_true, if_true, hs.overwritten,
        overwrites_of_accepted hrc hseq hb hc hh]
      have hle : addU32 j.overwritten 1 ≤ j.overwritten + 1 := Nat.mod_le _ _
      cases hl : j.live (j.ring.get ext) <;> simp only [hl, if_true, Bool.false_eq_true, if_false] at hset ⊢ <;>
        omega
  | pop dl =>
    simp only [leak, Jitter.concealsOver]
    obtain ⟨hh, he⟩ | ⟨hh, hd, he⟩ | ⟨hh, hd, he⟩ := jitterPop_cases dl j
    · have hset := received_set j (jitterPop dl j).1 (by rw [he]) (by rw [he])
      have hold : j.live (j.ring.get j.playCursor) = true :=
        live_iff.2 ⟨(holds_iff.1 hh).1, (holds_iff.1 hh).2.2⟩
      have hnew : j.live { j.ring.get j.playCursor with state := .consumed } = false := by simp [Jitter.live]
      rw [hold, hnew] at hset
      simp only [he, if_true, Bool.false_eq_true, if_false] at hset
      simp only [jitterStep, he, Obs.accepted, Obs.dataPop, hh, beq_self_eq_true, if_true, Bool.not_true,
        Bool.false_and, Bool.false_eq_true, if_false]
      omega
    · have hset := received_set j (jitterPop dl j).1 (by rw [he]) (by rw [he])
      have hnew : j.live { j.ring.get j.playCursor with
          gen := j.gen, extSeq := j.playCursor, state := .concealed } = false := by simp [Jitter.live]
      rw [hnew] at hset
      simp only [he, Bool.false_eq_true, if_false] at hset
      have hk : (PopKind.conceal == PopKind.data) = false := by decide
      simp only [jitterStep, he, Obs.accepted, Obs.dataPop, hh, hd, hk, Bool.not_false, Bool.true_and,
        Bool.false_eq_true, if_false]
      omega
    · simp [jitterStep, he, Obs.accepted, Obs.dataPop, hh, hd]
  | tryResync =>
    have hb : (jitterTryResync j).1.received = j.received ∧
        (jitterTryResync j).1.overwritten = j.overwritten := by
      obtain he | ⟨_, _, _, _, _, _, _, _, he⟩ := jitterTryResync_cases j <;> rw [he]
      · exact ⟨rfl, rfl⟩
      · exact ⟨received_congr rfl rfl, rfl⟩
    simp [jitterStep, Obs.accepted, Obs.dataPop, leak, hb.1, hb.2]
  | nextResend => simp [jitterStep, Obs.accepted, Obs.dataPop, leak]
  | flush nseq nts => simp [Op.isFlush] at hf

/-! ## A run -/

/-- The leaks of a run, added up. -/
def leaks : Jitter → List Op → Nat
  | _, [] => 0
  | j, o :: ops => leak j o + leaks (jitterStep j o).1 ops

theorem leaks_eq_zero_iff (j : Jitter) (ops : List Op) :
    leaks j ops = 0 ↔ Machine.AllSteps jitterStep KeepsCount j ops := by
  induction ops generalizing j with
  | nil => simp [leaks, Machine.AllSteps]
  | cons o ops ih => simp only [leaks, Machine.AllSteps, Nat.add_eq_zero_iff, leak_eq_zero_iff, ih]

/-- The books of a run without a flush, off by its leaks. -/
theorem balance_run (j : Jitter) (ops : List Op) (hf : ∀ o ∈ ops, o.isFlush = false) :
    (runOps j ops).2.countP Obs.accepted + j.overwritten + j.received =
      (runOps j ops).2.countP Obs.dataPop + (runOps j ops).1.overwritten + (runOps j ops).1.received +
        leaks j ops := by
  induction ops generalizing j with
  | nil => simp [leaks]
  | cons o ops ih =>
    simp only [List.forall_mem_cons] at hf
    have h1 := balance_step j o hf.1
    have h2 := ih (jitterStep j o).1 hf.2
    simp only [runOps] at h2
    simp only [runOps, Machine.run_cons, List.countP_cons, leaks]
    omega

/-! ## The epoch -/

/-- The buffer at the start of a flush epoch: just initialised, or just flushed after any run of
operations with fewer flushes than the generation can count. -/
inductive EpochStart : Jitter → Prop
  | init (fpp : Int) (refSeq : UInt16) (refTs : UInt32) : EpochStart (jitterInit fpp refSeq refTs)
  | flush (fpp : Int) (refSeq : UInt16) (refTs : UInt32) (ops : List Op) (nseq : UInt16) (nts : UInt32)
      (h : ops.countP Op.isFlush < 2 ^ 32 - 2) :
      EpochStart (jitterFlush (runOps (jitterInit fpp refSeq refTs) ops).1 nseq nts)

/-- An epoch starts with nothing of its own in the ring. -/
theorem EpochStart.received_zero {j : Jitter} (h : EpochStart j) : j.received = 0 := by
  apply CellRing.count_eq_zero
  intro e
  cases h with
  | init fpp refSeq refTs => simp [jitterInit, zeroSlot, Jitter.live]
  | flush fpp refSeq refTs ops nseq nts hfl =>
    have hinv := Inv.run fpp refSeq refTs (ops ++ [.flush nseq nts])
      (by simp [Op.isFlush]; omega)
    rw [runOps, Machine.run_concat] at hinv
    -- after a flush `lastInsert` knows no packet, so no slot can be live
    by_contra hl
    have hs := (hinv.slot e (Bool.not_eq_false _ ▸ hl)).2.2
    simp [jitterStep, lastInsert_concat, acceptStep] at hs

/-- **Exactly when no accepted packet vanishes.** For every run without a flush from the start of an
epoch: the inserts that returned 0 are the data pops plus the increase of `overwritten` plus the
received slots still in the ring iff no step of the run conceals on top of a received packet or
overflows the counter. -/
theorem accepted_balance_iff (j : Jitter) (h : EpochStart j) (ops : List Op)
    (hf : ∀ o ∈ ops, o.isFlush = false) :
    (runOps j ops).2.countP Obs.accepted + j.overwritten =
        (runOps j ops).2.countP Obs.dataPop + (runOps j ops).1.overwritten + (runOps j ops).1.received ↔
      Machine.AllSteps jitterStep KeepsCount j ops := by
  have hb := balance_run j ops hf
  rw [h.received_zero] at hb
  rw [← leaks_eq_zero_iff]
  omega

/-- Number 0 is missing, 1 and 512 are in: the session's deadline conceals 0, and the slot it marks
holds packet 512. -/
def lappedRun : List Op := [.insert 1 352 [1], .insert 512 180224 [2], .pop sessionDeadline]

/-- The conceal destroys packet 512: two packets went in, one is accounted for. -/
theorem conceal_loses_packet :
    (runOps (jitterInit 352 0 0) (lappedRun.take 2)).1.holds 512 = true ∧
    (runOps (jitterInit 352 0 0) lappedRun).1.holds 512 = false ∧
    (runOps (jitterInit 352 0 0) lappedRun).2.countP Obs.accepted = 2 ∧
    (runOps (jitterInit 352 0 0) lappedRun).2.countP Obs.dataPop +
      ((runOps (jitterInit 352 0 0) lappedRun).1.overwritten - (jitterInit 352 0 0).overwritten) +
      (runOps (jitterInit 352 0 0) lappedRun).1.received = 1 := by
  decide +kernel

/-- A packet that comes and is played balances. -/
theorem accepted_balance_iff_played :
    (runOps (jitterInit 352 0 0) [.insert 0 0 [1], .pop sessionDeadline]).2.countP Obs.accepted + 0 =
      (runOps (jitterInit 352 0 0) [.insert 0 0 [1], .pop sessionDeadline]).2.countP Obs.dataPop +
        (runOps (jitterInit 352 0 0) [.insert 0 0 [1], .pop sessionDeadline]).1.overwritten +
        (runOps (jitterInit 352 0 0) [.insert 0 0 [1], .pop sessionDeadline]).1.received :=
  (accepted_balance_iff (jitterInit 352 0 0) (.init 352 0 0) [.insert 0 0 [1], .pop sessionDeadline]
    (by decide)).2 (by decide +kernel)

end ShairKindle
