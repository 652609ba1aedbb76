import ShairKindle.Jitter.Extend
import ShairKindle.Jitter.Steps

/-!
# What the player hears (src/jitter.c)

Over any run of the buffer's operations, with any deadline callback: pops walk the stream in
order, one number at a time except where a resync reports a jump (`cursor_run`), and a data pop
hands out exactly the packet that was last accepted under its number since the last flush.

Old packets are never erased. What keeps them from being played is the generation tag, so the
invariant `Inv` says what the slots of the current generation hold and that no slot is ahead of
it; a flush then starts with no slot of its own.

The buffer's numbers are unbounded here and 64 bits wide in the source. For fewer than `2 ^ 48` calls that
makes no difference (`buffer_exact_in_int64`).
-/

namespace ShairKindle

/-! ## Reading a trace -/

def Obs.isFlush : Obs → Bool
  | .flush => true
  | _ => false

/-- The insert stored a packet under number `e` (returned 0). -/
def Obs.accepts (e : Nat) : Obs → Bool
  | .insert ext _ _ rc => rc == 0 && ext == some e
  | _ => false

/-- Numbers a resync reports as skipped. -/
def Obs.skipped : Obs → Nat
  | .resync (some n) => n
  | _ => 0

/-- A successful pop. -/
def Obs.popped : Obs → Bool
  | .pop (some _) => true
  | _ => false

def Op.isFlush : Op → Bool
  | .flush _ _ => true
  | _ => false

/-- How one observation moves the packet last accepted under `e` in the current epoch. -/
def acceptStep (e : Nat) (last : Option (UInt32 × List UInt8)) : Obs → Option (UInt32 × List UInt8)
  | .insert ext wts pl rc => if rc = 0 ∧ ext = some e then some (wts, pl) else last
  | .flush => none
  | _ => last

/-- The packet last accepted under `e` since the last flush of the trace. -/
def lastInsert (tr : List Obs) (e : Nat) : Option (UInt32 × List UInt8) := tr.foldl (acceptStep e) none

theorem lastInsert_concat (tr : List Obs) (o : Obs) (e : Nat) :
    lastInsert (tr ++ [o]) e = acceptStep e (lastInsert tr e) o := by
  simp [lastInsert]

/-- `lastInsert` names a real insert, after the last flush and after every other accepted insert
of that number. -/
theorem lastInsert_some {tr : List Obs} {e : Nat} {wts : UInt32} {pl : List UInt8}
    (h : lastInsert tr e = some (wts, pl)) :
    ∃ old mid, tr = old ++ .insert (some e) wts pl 0 :: mid ∧
      ∀ o ∈ mid, o.isFlush = false ∧ o.accepts e = false := by
  induction tr using List.reverseRecOn with
  | nil => simp [lastInsert] at h
  | append_singleton tr o ih =>
    rw [lastInsert_concat] at h
    -- the last observation either is that insert or leaves the answer to the earlier ones
    have keep : lastInsert tr e = some (wts, pl) → o.isFlush = false → o.accepts e = false →
        ∃ old mid, tr ++ [o] = old ++ .insert (some e) wts pl 0 :: mid ∧
          ∀ o ∈ mid, o.isFlush = false ∧ o.accepts e = false := by
      intro hl hf ha
      obtain ⟨old, mid, rfl, hm⟩ := ih hl
      refine ⟨old, mid ++ [o], by simp, fun x hx => ?_⟩
      rcases List.mem_append.1 hx with hx | hx
      · exact hm x hx
      · rw [List.mem_singleton.1 hx]; exact ⟨hf, ha⟩
    cases o with
    | insert ext wts' pl' rc =>
      by_cases hc : rc = 0 ∧ ext = some e
      · obtain ⟨rfl, rfl⟩ := hc
        simp only [acceptStep, and_self, if_true, Option.some.injEq, Prod.mk.injEq] at h
        obtain ⟨rfl, rfl⟩ := h
        exact ⟨tr, [], rfl, by simp⟩
      · simp only [acceptStep, hc, if_false] at h
        exact keep h rfl (by simpa [Obs.accepts] using hc)
    | flush => simp [acceptStep] at h
    | pop s => exact keep h rfl rfl
    | resync s => exact keep h rfl rfl
    | resend s => exact keep h rfl rfl

theorem countP_isFlush_run (j : Jitter) (ops : List Op) :
    (runOps j ops).2.countP Obs.isFlush = ops.countP Op.isFlush := by
  induction ops generalizing j with
  | nil => rfl
  | cons o ops ih =>
    have hhd : (jitterStep j o).2.isFlush = o.isFlush := by cases o <;> rfl
    simp only [runOps, Machine.run_cons, List.countP_cons, hhd]
    rw [← ih (jitterStep j o).1]

/-! ## The cursor -/

/-- Outside a flush the cursor moves by the pops and the reported skips, and a pop returns the
number it stood at. -/
theorem cursor_step {j : Jitter} {o : Op} (hf : (jitterStep j o).2.isFlush = false) :
    (jitterStep j o).1.playCursor =
      j.playCursor + (if (jitterStep j o).2.popped then 1 else 0) + (jitterStep j o).2.skipped ∧
    ∀ a, (jitterStep j o).2 = .pop (some a) → a.extSeq = j.playCursor := by
  cases o with
  | insert wseq wts pl =>
    refine ⟨?_, fun a ha => by simp [jitterStep] at ha⟩
    simp only [jitterStep, Obs.popped, Obs.skipped, Bool.false_eq_true, if_false, Nat.add_zero]
    obtain ⟨_, hs⟩ | ⟨ext, _, _, _, _, _, hs⟩ := jitterInsert_cases j wseq wts pl
    · exact hs.playCursor
    · exact hs.playCursor
  | pop dl =>
    obtain ⟨_, he⟩ | ⟨_, _, he⟩ | ⟨_, _, he⟩ := jitterPop_cases dl j
    · exact ⟨by simp [jitterStep, he, Obs.popped, Obs.skipped],
        fun a ha => by simp only [jitterStep, he, Obs.pop.injEq, Option.some.injEq] at ha; rw [← ha]⟩
    · exact ⟨by simp [jitterStep, he, Obs.popped, Obs.skipped],
        fun a ha => by simp only [jitterStep, he, Obs.pop.injEq, Option.some.injEq] at ha; rw [← ha]⟩
    · exact ⟨by simp [jitterStep, he, Obs.popped, Obs.skipped], fun a ha => by simp [jitterStep, he] at ha⟩
  | tryResync =>
    refine ⟨?_, fun a ha => by simp [jitterStep] at ha⟩
    obtain he | ⟨hi, r, _, _, _, hle, _, _, he⟩ := jitterTryResync_cases j
    · simp only [jitterStep, he, Obs.popped, Obs.skipped, Bool.false_eq_true, if_false, Nat.add_zero]
    · simp only [jitterStep, he, Obs.popped, Obs.skipped, Bool.false_eq_true, if_false]; omega
  | nextResend => exact ⟨rfl, fun a ha => by simp [jitterStep] at ha⟩
  | flush nseq nts => simp [jitterStep, Obs.isFlush] at hf

/-- Over a run without a flush the cursor moves by its pops and its reported skips. -/
theorem cursor_run (j : Jitter) (ops : List Op) (hf : ∀ o ∈ (runOps j ops).2, o.isFlush = false) :
    (runOps j ops).1.playCursor =
      j.playCursor + (runOps j ops).2.countP Obs.popped + ((runOps j ops).2.map Obs.skipped).sum := by
  induction ops generalizing j with
  | nil => rfl
  | cons o ops ih =>
    simp only [runOps, Machine.run_cons, List.forall_mem_cons, List.countP_cons, List.map_cons,
      List.sum_cons] at hf ⊢
    have h1 := (cursor_step hf.1).1
    have h2 := ih _ hf.2
    simp only [runOps] at h2
    rw [h2, h1]
    omega

/-! ## What the slots hold -/

/-- The representation invariant over the trace so far: the generation counts the flushes, no slot
is ahead of it, and a received slot of the current generation sits at its own index and holds the
packet last accepted under its number. -/
structure Inv (j : Jitter) (tr : List Obs) : Prop where
  gen_eq : j.gen = 1 + tr.countP Obs.isFlush
  gen_le : ∀ e, (j.ring.get e).gen ≤ j.gen
  slot : ∀ e, j.live (j.ring.get e) = true →
    (j.ring.get e).extSeq % jitterSlots = e % jitterSlots ∧
    (j.ring.get e).len = (j.ring.get e).payload.length ∧
    lastInsert tr (j.ring.get e).extSeq = some ((j.ring.get e).rtpTs, (j.ring.get e).payload)

theorem Inv.init (fpp : Int) (refSeq : UInt16) (refTs : UInt32) : Inv (jitterInit fpp refSeq refTs) [] where
  gen_eq := rfl
  gen_le e := by simp [jitterInit, zeroSlot]
  slot e h := by simp [jitterInit, zeroSlot, Jitter.live] at h

/-- An observation that is no flush and no accepted insert leaves `Inv` to the buffer. -/
theorem Inv.of_sameSlots {j j' : Jitter} {tr : List Obs} {o : Obs} (h : Inv j tr)
    (hgen : j'.gen = j.gen) (hf : o.isFlush = false) (hacc : ∀ e, o.accepts e = false)
    (hring : ∀ e, (j'.ring.get e).gen ≤ j.gen ∧
      (j.live (j'.ring.get e) = true → j'.ring.get e = j.ring.get e)) :
    Inv j' (tr ++ [o]) := by
  have hlast : ∀ e, lastInsert (tr ++ [o]) e = lastInsert tr e := by
    intro e
    rw [lastInsert_concat]
    have ha := hacc e
    cases o with
    | insert ext wts pl rc =>
      have hn : ¬(rc = 0 ∧ ext = some e) := by simpa [Obs.accepts] using ha
      simp only [acceptStep, hn, if_false]
    | flush => simp [Obs.isFlush] at hf
    | pop s => rfl
    | resync s => rfl
    | resend s => rfl
  refine ⟨?_, fun e => hgen ▸ (hring e).1, fun e he => ?_⟩
  · rw [hgen, h.gen_eq]; simp [hf]
  · have he' : j.live (j'.ring.get e) = true := by simpa [Jitter.live, hgen] using he
    have heq := (hring e).2 he'
    rw [heq, hlast]
    exact h.slot e (heq ▸ he')

/-- **One operation keeps the invariant**, as long as the generation does not wrap. -/
theorem Inv.step {j : Jitter} {tr : List Obs} {o : Op} (h : Inv j tr)
    (hok : (tr ++ [(jitterStep j o).2]).countP Obs.isFlush < 2 ^ 32 - 1) :
    Inv (jitterStep j o).1 (tr ++ [(jitterStep j o).2]) := by
  cases o with
  | insert wseq wts pl =>
    simp only [jitterStep] at hok ⊢
    obtain ⟨hrc, hs⟩ | ⟨ext, hseq, _, _, _, hrc, hs⟩ := jitterInsert_cases j wseq wts pl
    · refine h.of_sameSlots hs.gen rfl (fun e => by simp [Obs.accepts, hrc]) fun e => ?_
      rw [hs.ring]; exact ⟨h.gen_le e, fun _ => rfl⟩
    · rw [hrc, hseq]
      refine ⟨by simpa [hs.gen, Obs.isFlush] using h.gen_eq, fun e => ?_, fun e hl => ?_⟩
      · rw [hs.ring, hs.gen, CellRing.get_set]
        split
        · exact le_refl _
        · exact h.gen_le e
      · simp only [hs.ring, CellRing.get_set, lastInsert_concat, acceptStep, true_and] at hl ⊢
        by_cases hm : e % jitterSlots = ext % jitterSlots
        · simp only [hm, if_true]; trivial
        · simp only [hm, if_false] at hl ⊢
          have hl' : j.live (j.ring.get e) = true := by simpa [Jitter.live, hs.gen] using hl
          obtain ⟨h1, h2, h3⟩ := h.slot e hl'
          -- a slot at another index carries another number, so this insert is not its last one
          have hne : ext ≠ (j.ring.get e).extSeq := fun hx => hm (by rw [hx, h1])
          simp only [Option.some.injEq, hne, if_false]
          exact ⟨h1, h2, h3⟩
  | pop dl =>
    simp only [jitterStep] at hok ⊢
    obtain ⟨_, he⟩ | ⟨_, _, he⟩ | ⟨_, _, he⟩ := jitterPop_cases dl j <;> rw [he]
    · refine h.of_sameSlots rfl rfl (fun _ => rfl) fun e => ?_
      simp only [CellRing.get_set]
      split
      · exact ⟨h.gen_le _, fun hl => by simp [Jitter.live] at hl⟩
      · exact ⟨h.gen_le e, fun _ => rfl⟩
    · refine h.of_sameSlots rfl rfl (fun _ => rfl) fun e => ?_
      simp only [CellRing.get_set]
      split
      · exact ⟨le_refl _, fun hl => by simp [Jitter.live] at hl⟩
      · exact ⟨h.gen_le e, fun _ => rfl⟩
    · exact h.of_sameSlots rfl rfl (fun _ => rfl) fun e => ⟨h.gen_le e, fun _ => rfl⟩
  | tryResync =>
    simp only [jitterStep] at hok ⊢
    obtain he | ⟨_, _, _, _, _, _, _, _, he⟩ := jitterTryResync_cases j <;> rw [he] <;>
      exact h.of_sameSlots rfl rfl (fun _ => rfl) fun e => ⟨h.gen_le e, fun _ => rfl⟩
  | nextResend => exact h.of_sameSlots rfl rfl (fun _ => rfl) fun e => ⟨h.gen_le e, fun _ => rfl⟩
  | flush nseq nts =>
    simp only [jitterStep] at hok ⊢
    have hlt : j.gen + 1 < 2 ^ 32 := by
      have := h.gen_eq
      simp only [List.countP_append, List.countP_singleton, Obs.isFlush, if_true] at hok
      omega
    have hg : (jitterFlush j nseq nts).gen = j.gen + 1 := addU32_one hlt
    refine ⟨?_, fun e => ?_, fun e hl => ?_⟩
    · rw [hg, h.gen_eq]; simp [Obs.isFlush]; omega
    · rw [hg]; exact Nat.le_succ_of_le (h.gen_le e)
    · have hle := h.gen_le e
      have := (live_iff.1 hl).1
      rw [hg] at this
      simp only [jitterFlush] at this
      omega

theorem Inv.run (fpp : Int) (refSeq : UInt16) (refTs : UInt32) (ops : List Op)
    (hok : ops.countP Op.isFlush < 2 ^ 32 - 1) :
    Inv (runOps (jitterInit fpp refSeq refTs) ops).1 (runOps (jitterInit fpp refSeq refTs) ops).2 := by
  refine Machine.run_hist Inv (fun tr => tr.countP Obs.isFlush < 2 ^ 32 - 1) ?_
    (Inv.init fpp refSeq refTs) (fun s tr i hs hok => hs.step hok) ops ?_
  · intro tr o h
    rw [List.countP_append] at h
    omega
  · exact (countP_isFlush_run _ ops).symm ▸ hok

/-- A data pop hands out the packet last accepted under the cursor's number. -/
theorem data_pop {j : Jitter} {tr : List Obs} (h : Inv j tr) {dl : Jitter → Nat → Bool} {a : JitterSlot}
    (hp : (jitterPop dl j).2 = some a) (hk : a.kind = .data) :
    lastInsert tr a.extSeq = some (a.rtpTs, a.payload) ∧ a.len = a.payload.length := by
  obtain ⟨hh, he⟩ | ⟨_, _, he⟩ | ⟨_, _, he⟩ := jitterPop_cases dl j <;> rw [he] at hp
  · cases hp
    obtain ⟨hg, hx, hst⟩ := holds_iff.1 hh
    obtain ⟨_, h2, h3⟩ := h.slot j.playCursor (live_iff.2 ⟨hg, hst⟩)
    rw [hx] at h3
    simp only [h2, List.take_length]
    exact ⟨h3, trivial⟩
  · cases hp; cases hk
  · cases hp

/-! ## The stream as played -/

/-- **Each packet is played once, in order, and as it came.** For every frame count and anchor and
every run with fewer than `2 ^ 32 - 1` flushes: two successful pops with no flush between them
return increasing numbers, and if no other successful pop lies between them the numbers differ by
one plus what the resyncs between them report as skipped. A data pop returns timestamp, bytes and
length of the last insert that stored its number, and no flush lies between the two. -/
theorem pops_play_once_in_order (fpp : Int) (refSeq : UInt16) (refTs : UInt32) (ops : List Op)
    (hfl : ops.countP Op.isFlush < 2 ^ 32 - 1) :
    (∀ (pre mid post : List Obs) (a b : JitterSlot),
      (runOps (jitterInit fpp refSeq refTs) ops).2 =
          pre ++ .pop (some a) :: (mid ++ .pop (some b) :: post) →
      (∀ o ∈ mid, o.isFlush = false) →
      a.extSeq < b.extSeq ∧
      ((∀ o ∈ mid, o.popped = false) → b.extSeq = a.extSeq + 1 + (mid.map Obs.skipped).sum)) ∧
    (∀ (pre post : List Obs) (a : JitterSlot),
      (runOps (jitterInit fpp refSeq refTs) ops).2 = pre ++ .pop (some a) :: post → a.kind = .data →
      ∃ old wts pl mid, pre = old ++ .insert (some a.extSeq) wts pl 0 :: mid ∧
        (∀ o ∈ mid, o.isFlush = false ∧ o.accepts a.extSeq = false) ∧
        a.rtpTs = wts ∧ a.payload = pl ∧ a.len = pl.length) := by
  constructor
  · intro pre mid post a b htr hmid
    obtain ⟨ops₁, o₁, rest, _, _, ho₁, hrest⟩ := Machine.run_split htr
    obtain ⟨ops₂, o₂, _, _, hmid', ho₂, _⟩ := Machine.run_split hrest
    -- the cursor stood at `a` before the first pop and at `b` before the second
    obtain ⟨hc₁, ha⟩ := cursor_step (j := (runOps (jitterInit fpp refSeq refTs) ops₁).1) (o := o₁)
      (by rw [ho₁]; rfl)
    rw [ho₁] at hc₁ ha
    have hcur := cursor_run (jitterStep (runOps (jitterInit fpp refSeq refTs) ops₁).1 o₁).1
      ops₂ (by rw [runOps, hmid']; exact hmid)
    obtain ⟨_, hb⟩ := cursor_step
      (j := (runOps (jitterStep (runOps (jitterInit fpp refSeq refTs) ops₁).1 o₁).1 ops₂).1) (o := o₂)
      (by rw [ho₂]; rfl)
    rw [runOps, hmid', hc₁, ← ha a rfl] at hcur
    have hbc := (hb b ho₂).trans hcur
    simp only [Obs.popped, Obs.skipped, if_true, Nat.add_zero] at hbc
    refine ⟨by omega, fun hnp => ?_⟩
    rw [List.countP_eq_zero.2 (fun o ho => by simp [hnp o ho])] at hbc
    omega
  · intro pre post a htr hk
    obtain ⟨ops₁, o₁, ops₂, rfl, hpre, ho₁, _⟩ := Machine.run_split htr
    have hfl₁ : ops₁.countP Op.isFlush < 2 ^ 32 - 1 := by rw [List.countP_append] at hfl; omega
    have hinv := Inv.run fpp refSeq refTs ops₁ hfl₁
    rw [runOps, hpre] at hinv
    cases o₁ with
    | pop dl =>
      simp only [jitterStep, Obs.pop.injEq] at ho₁
      obtain ⟨hl, hlen⟩ := data_pop hinv ho₁ hk
      obtain ⟨old, mid, rfl, hm⟩ := lastInsert_some hl
      exact ⟨old, a.rtpTs, a.payload, mid, rfl, hm, rfl, rfl, hlen⟩
    | insert wseq wts pl => simp [jitterStep] at ho₁
    | tryResync => simp [jitterStep] at ho₁
    | nextResend => simp [jitterStep] at ho₁
    | flush nseq nts => simp [jitterStep] at ho₁

/-- The aliasing flush of tests/test_jitter.c: 102 and 614 share a ring index, and what is popped
after the flush is the new packet. -/
theorem pops_play_once_in_order_across_flush :
    (runOps (jitterInit 352 102 10000)
      [.insert 102 10000 [1], .flush 614 50000, .insert 614 50000 [2, 3], .pop fun _ _ => false]).2 =
      [.insert (some 102) 10000 [1] 0, .flush, .insert (some 614) 50000 [2, 3] 0,
        .pop (some ⟨.data, 614, 50000, 352, [2, 3], 2⟩)] ∧
    ∃ old wts pl mid,
      [.insert (some 102) 10000 [1] 0, .flush, .insert (some 614) 50000 [2, 3] 0] =
        old ++ Obs.insert (some 614) wts pl 0 :: mid ∧
      (∀ o ∈ mid, o.isFlush = false ∧ o.accepts 614 = false) ∧
      (50000 : UInt32) = wts ∧ [2, 3] = pl ∧ 2 = pl.length := by
  have htrace : (runOps (jitterInit 352 102 10000)
      [.insert 102 10000 [1], .flush 614 50000, .insert 614 50000 [2, 3], .pop fun _ _ => false]).2 =
      [.insert (some 102) 10000 [1] 0, .flush, .insert (some 614) 50000 [2, 3] 0,
        .pop (some ⟨.data, 614, 50000, 352, [2, 3], 2⟩)] := by decide +kernel
  exact ⟨htrace, (pops_play_once_in_order 352 102 10000 _ (by decide)).2
    [.insert (some 102) 10000 [1] 0, .flush, .insert (some 614) 50000 [2, 3] 0] [] _ htrace rfl⟩

/-! ## In the source's widths -/

/-- The buffer with `seqext_seq` in its own widths. -/
def jitterStep64 (j : Jitter) : Op → Jitter × Obs
  | .insert wseq wts pl =>
    let r := jitterInsertWith seqextSeq64 j wseq wts pl
    (r.1, .insert ((seqextSeq64 j.sx wseq).map (·.1)) wts pl r.2)
  | o => jitterStep j o

theorem jitterStep64_eq {j : Jitter} (h : j.sx.seqRef + 32767 < 2 ^ 63) (o : Op) : jitterStep64 j o = jitterStep j o := by
  cases o with
  | insert wseq wts pl => simp only [jitterStep64, jitterStep, jitterInsert, jitterInsertWith, seqextSeq64_eq wseq h]
  | pop dl => rfl
  | tryResync => rfl
  | nextResend => rfl
  | flush nseq nts => rfl

theorem jitterInsert_seqRef_le (j : Jitter) (wseq : UInt16) (wts : UInt32) (pl : List UInt8) :
    (jitterInsert j wseq wts pl).1.sx.seqRef ≤ j.sx.seqRef + 32767 := by
  simp only [jitterInsert, jitterInsertWith]
  split
  · exact Nat.le_add_right _ _
  cases hseq : seqextSeq j.sx wseq with
  | none => exact Nat.le_add_right _ _
  | some r =>
    obtain ⟨ext, sx⟩ := r
    have hle := seqextSeq_seqRef_le hseq
    dsimp only
    split_ifs
    · exact hle
    · exact hle
    · exact hle
    · rw [store_seqRef]
      exact hle

/-- One call moves the reference by at most a packet's reach, or a flush sets it anew. -/
theorem seqRef_step (j : Jitter) (o : Op) : (jitterStep j o).1.sx.seqRef ≤ max (j.sx.seqRef + 32767) 65535 := by
  have hkeep : j.sx.seqRef ≤ max (j.sx.seqRef + 32767) 65535 := by omega
  cases o with
  | insert wseq wts pl => exact (jitterInsert_seqRef_le j wseq wts pl).trans (le_max_left _ _)
  | pop dl =>
    simp only [jitterStep]
    obtain ⟨_, he⟩ | ⟨_, _, he⟩ | ⟨_, _, he⟩ := jitterPop_cases dl j <;> rw [he] <;> exact hkeep
  | tryResync =>
    simp only [jitterStep]
    obtain he | ⟨_, _, _, _, _, _, _, _, he⟩ := jitterTryResync_cases j <;> rw [he] <;> exact hkeep
  | nextResend => exact hkeep
  | flush nseq nts =>
    have hseq : nseq.toNat < 2 ^ 16 := nseq.toNat_lt
    have hle : nseq.toNat ≤ 65535 := by omega
    exact hle.trans (le_max_right _ _)

/-- Each call of the run needs room for one more packet below `2 ^ 63`. -/
theorem run64_eq (ops : List Op) : ∀ j : Jitter, max (j.sx.seqRef + 32767) 65535 + ops.length * 32767 < 2 ^ 63 →
    Machine.run jitterStep64 j ops = runOps j ops := by
  induction ops with
  | nil => exact fun _ _ => rfl
  | cons o ops ih =>
    intro j h
    rw [List.length_cons] at h
    have hstep := jitterStep64_eq (j := j) (by omega) o
    have hle := seqRef_step j o
    rw [runOps, Machine.run_cons, Machine.run_cons, hstep, ih _ (by omega)]

/-- **The numbers fit.** For every frame count and anchor and every run of fewer than `2 ^ 48` calls, the buffer that
extends sequence numbers in the source's 64-bit types ends in the same state and shows the same as the one on
unbounded numbers. -/
theorem buffer_exact_in_int64 (fpp : Int) (refSeq : UInt16) (refTs : UInt32) (ops : List Op) (h : ops.length < 2 ^ 48) :
    Machine.run jitterStep64 (jitterInit fpp refSeq refTs) ops = runOps (jitterInit fpp refSeq refTs) ops := by
  have hseq : refSeq.toNat < 2 ^ 16 := refSeq.toNat_lt
  refine run64_eq ops _ ?_
  simp only [jitterInit, seqextInit]
  omega

/-- A packet before the wrap, one after it, and one that is too far away. -/
theorem buffer_exact_in_int64_wrap :
    (Machine.run jitterStep64 (jitterInit 352 65535 0)
      [.insert 65535 0 [1], .insert 1 704 [2], .insert 32769 0 [3], .pop fun _ _ => false]).2 =
      [.insert (some 65535) 0 [1] 0, .insert (some 65537) 704 [2] 0, .insert none 0 [3] (-1),
        .pop (some ⟨.data, 65535, 0, 352, [1], 1⟩)] := by
  rw [buffer_exact_in_int64 352 65535 0 _ (by decide)]
  decide +kernel

end ShairKindle
