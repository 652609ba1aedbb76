import ShairKindle.Session.Epoch

/-!
# When a missing packet is given up (src/session.c)

`session_deadline` decides whether `jitter_pop` waits for the packet at the cursor or plays silence in its
place; what was concealed is late when it comes. Its comment (session.c:122-125) gives a packet up once the
buffer has advanced `START_FILL_FRAMES` worth of packets beyond it. The loop (session.c:132-135) answers 1
for any packet held within that distance, so the very next packet is enough.

A run conceals only hopeless packets exactly when, at each pop that finds the cursor's packet missing and a
packet of the window held, the sequence reference stands a whole window ahead (`conceals_hopeless_iff`). Only
where the window is a single packet does that hold by itself.
-/

namespace ShairKindle

/-- Every packet that is concealed has been overtaken by an accepted one `w` or more numbers ahead. -/
def ConcealsHopeless (w : Nat) (tr : List Obs) : Prop :=
  ∀ pre slot post, tr = pre ++ .pop (some slot) :: post → slot.kind = .conceal →
    ∃ e, slot.extSeq + w ≤ e ∧ AcceptedNow pre e

/-- A packet that comes after it was concealed in the same epoch was reordered by `w` or more. -/
def LateIsFar (w : Nat) (tr : List Obs) : Prop :=
  ∀ pre slot mid wts pl rc post,
    tr = pre ++ .pop (some slot) :: (mid ++ .insert (some slot.extSeq) wts pl rc :: post) →
    slot.kind = .conceal → (∀ o ∈ mid, o.isFlush = false) →
    ∃ e, slot.extSeq + w ≤ e ∧ AcceptedNow (pre ++ .pop (some slot) :: mid) e

/-- A pop that does not give up early: the reference is a window ahead of the cursor, or the cursor's packet is
held, or no packet of the window is. -/
def GivesUpFar (j : Jitter) : Op → Prop
  | .pop _ =>
    j.playCursor + concealWindow j.framesPerPkt ≤ j.sx.seqRef ∨ j.holds j.playCursor = true ∨
      ∀ e ∈ List.range' (j.playCursor + 1) (min (concealWindow j.framesPerPkt) (jitterSlots - 1)),
        j.holds e = false
  | _ => True

instance (j : Jitter) : (o : Op) → Decidable (GivesUpFar j o)
  | .pop _ => by unfold GivesUpFar; infer_instance
  | .insert _ _ _ | .tryResync | .nextResend | .flush _ _ => .isTrue trivial

theorem concealWindow_pos (fpp : Int) : 1 ≤ concealWindow fpp := by
  simp only [concealWindow]
  split_ifs <;> omega

theorem AcceptedNow.append {tr mid : List Obs} {e : Nat} (h : AcceptedNow tr e)
    (hmid : ∀ o ∈ mid, o.isFlush = false) : AcceptedNow (tr ++ mid) e := by
  induction mid using List.reverseRecOn with
  | nil => simpa using h
  | append_singleton mid o ih =>
    rw [← List.append_assoc]
    exact acceptedNow_concat.2 ⟨hmid o (by simp), .inr (ih fun x hx => hmid x (by simp [hx]))⟩

/-- Overtaken when it was concealed, a packet still is when it comes. -/
theorem ConcealsHopeless.lateIsFar {w : Nat} {tr : List Obs} (h : ConcealsHopeless w tr) : LateIsFar w tr := by
  rintro pre slot mid wts pl rc post rfl hk hmid
  obtain ⟨e, hle, he⟩ := h pre slot _ rfl hk
  refine ⟨e, hle, he.append fun o ho => ?_⟩
  rcases List.mem_cons.1 ho with rfl | ho
  · rfl
  · exact hmid o ho

/-! ## One pop -/

/-- The reference is a window ahead of the cursor exactly when a packet that far ahead has been accepted. -/
theorem EpochInv.ref_ahead_iff {j : Jitter} {tr : List Obs} (h : EpochInv j tr) {w : Nat} (hw : 1 ≤ w) :
    j.playCursor + w ≤ j.sx.seqRef ↔ ∃ e, j.playCursor + w ≤ e ∧ AcceptedNow tr e := by
  have hb := h.boundary_le
  constructor
  · intro hle
    rcases h.ref with href | href
    · omega
    · exact ⟨_, hle, href⟩
  · rintro ⟨e, hle, he⟩
    exact hle.trans (h.accepted e he)

theorem EpochInv.pop_iff {j : Jitter} {tr : List Obs} (h : EpochInv j tr) :
    GivesUpFar j (.pop sessionDeadline) ↔
      ∀ slot, (jitterPop sessionDeadline j).2 = some slot → slot.kind = .conceal →
        ∃ e, slot.extSeq + concealWindow j.framesPerPkt ≤ e ∧ AcceptedNow tr e := by
  have hahead := h.ref_ahead_iff (concealWindow_pos j.framesPerPkt)
  obtain ⟨hh, he⟩ | ⟨hh, hd, he⟩ | ⟨hh, hd, he⟩ := jitterPop_cases sessionDeadline j
  -- the packet is there, it is given up, or the pop waits
  · refine ⟨fun _ slot hs hk => ?_, fun _ => .inr (.inl hh)⟩
    rw [he] at hs
    obtain rfl := Option.some.inj hs
    exact absurd hk (by simp)
  · constructor
    · rintro (hle | hheld | hnone) slot hs -
      · rw [he] at hs
        obtain rfl := Option.some.inj hs
        exact hahead.1 hle
      · rw [hh] at hheld
        exact absurd hheld (by decide)
      · obtain ⟨e, hmem, hheld⟩ := List.any_eq_true.1 hd
        rw [hnone e hmem] at hheld
        exact absurd hheld (by decide)
    · intro hall
      exact .inl (hahead.2 (hall _ (by rw [he]) rfl))
  · refine ⟨fun _ slot hs => ?_, fun _ => .inr (.inr fun e hmem => ?_)⟩
    · rw [he] at hs
      exact absurd hs (by simp)
    · have hany := List.any_eq_false.1 hd e hmem
      simpa using hany

/-- With a window of one packet the next packet is a whole window ahead. -/
theorem EpochInv.givesUpFar_of_one {j : Jitter} {tr : List Obs} (h : EpochInv j tr)
    (hw : concealWindow j.framesPerPkt = 1) (o : Op) : GivesUpFar j o := by
  cases o with
  | pop dl =>
    by_cases hnext : j.holds (j.playCursor + 1) = true
    · exact .inl (by rw [hw]; exact h.holds_le hnext)
    · refine .inr (.inr fun e he => ?_)
      rw [hw, List.mem_range'_1] at he
      obtain rfl : j.playCursor + 1 = e := by omega
      simpa using hnext
  | insert | tryResync | nextResend | flush => trivial

/-! ## The run -/

theorem SessionRun.of_append {xs ys : List Op} (h : SessionRun (xs ++ ys)) : SessionRun xs where
  ofSession o ho := h.ofSession o (by simp [ho])
  flushes := by
    have := h.flushes
    rw [List.countP_append] at this
    omega

/-- **A missing packet is concealed only when it is hopeless, exactly when every pop gives up far.** In every
run of the session's operations with fewer than `2 ^ 32` flushes: every packet concealed has been overtaken in
its epoch by an accepted packet a whole conceal window ahead, and one that comes late after all was reordered
by that much, if and only if `GivesUpFar` holds at each step. From 11026 frames a packet on, where the window
is one packet, it holds in every run. -/
theorem conceals_hopeless_iff (fpp : Int) (refSeq : UInt16) (refTs : UInt32) (ops : List Op)
    (hrun : SessionRun ops) (tr : List Obs) (htr : (runOps (jitterInit fpp refSeq refTs) ops).2 = tr) :
    (ConcealsHopeless (concealWindow fpp) tr ∧ LateIsFar (concealWindow fpp) tr ↔
      Machine.AllSteps jitterStep GivesUpFar (jitterInit fpp refSeq refTs) ops) ∧
    (11026 ≤ fpp → ConcealsHopeless (concealWindow fpp) tr) := by
  subst htr
  have hfar : ConcealsHopeless (concealWindow fpp) (runOps (jitterInit fpp refSeq refTs) ops).2 ↔
      Machine.AllSteps jitterStep GivesUpFar (jitterInit fpp refSeq refTs) ops := by
    rw [Machine.allSteps_iff_split]
    constructor
    · rintro hc pre o post rfl
      have hinv := EpochInv.run fpp refSeq refTs hrun.of_append
      cases o with
      | pop dl =>
        obtain rfl : dl = sessionDeadline := hrun.ofSession (.pop dl) (by simp)
        refine hinv.pop_iff.2 fun slot hs hk => ?_
        rw [framesPerPkt_run]
        refine hc _ slot (runOps (jitterStep (runOps (jitterInit fpp refSeq refTs) pre).1
          (.pop sessionDeadline)).1 post).2 ?_ hk
        rw [runOps, Machine.run_append, Machine.run_cons, ← hs]
        rfl
      | insert | tryResync | nextResend | flush => trivial
    · intro hall pre slot post heq hk
      obtain ⟨ops₁, o, ops₂, rfl, rfl, hobs, -⟩ := Machine.run_split heq
      have hinv := EpochInv.run fpp refSeq refTs hrun.of_append
      have hstep := hall ops₁ o ops₂ rfl
      cases o with
      | pop dl =>
        obtain rfl : dl = sessionDeadline := hrun.ofSession (.pop dl) (by simp)
        have := hinv.pop_iff.1 hstep slot (Obs.pop.inj hobs) hk
        rwa [framesPerPkt_run] at this
      | insert | tryResync | nextResend | flush => exact absurd hobs (by simp [jitterStep])
  refine ⟨⟨fun h => hfar.1 h.1, fun h => ⟨hfar.2 h, (hfar.2 h).lateIsFar⟩⟩, fun hbig => hfar.2 ?_⟩
  have hw : concealWindow fpp = 1 := by
    have hdiv : startFillFrames / fpp.toNat ≤ 1 := by
      rw [startFillFrames, Nat.div_le_iff_le_mul_add_pred (by omega)]
      omega
    have hpos : (if 0 < fpp then fpp.toNat else 1) = fpp.toNat := if_pos (by omega)
    simp only [concealWindow, hpos]
    split <;> omega
  rw [Machine.allSteps_iff_split]
  rintro pre o post rfl
  exact (EpochInv.run fpp refSeq refTs hrun.of_append).givesUpFar_of_one (by rw [framesPerPkt_run]; exact hw) o

/-- In order, nothing is ever concealed. -/
theorem conceals_hopeless_iff_in_order :
    SessionRun [.insert 0 0 [1], .insert 1 352 [2], .pop sessionDeadline] ∧
    ConcealsHopeless (concealWindow 352)
      (runOps (jitterInit 352 0 0) [.insert 0 0 [1], .insert 1 352 [2], .pop sessionDeadline]).2 := by
  have hrun : SessionRun [.insert 0 0 [1], .insert 1 352 [2], .pop sessionDeadline] :=
    ⟨by simp [Op.OfSession], by decide⟩
  exact ⟨hrun, ((conceals_hopeless_iff 352 0 0 _ hrun _ rfl).1.2 (by decide +kernel)).1⟩

/-- Packets 0 and 1 swapped: 0 is concealed although nothing past 1 has come, 61 packets short of the window,
and it is discarded as late when it comes. -/
theorem swapped_packet_discarded :
    SessionRun overtaken ∧
    (runOps (jitterInit 352 0 0) overtaken).2 =
      [.insert (some 1) 352 [7] 0, .pop (some ⟨.conceal, 0, 0, 352, [], 0⟩)] ∧
    concealWindow 352 = 62 ∧
    ¬ ConcealsHopeless (concealWindow 352) (runOps (jitterInit 352 0 0) overtaken).2 ∧
    (jitterInsert (runOps (jitterInit 352 0 0) overtaken).1 0 0 [8]).2 = 1 := by
  have htr : (runOps (jitterInit 352 0 0) overtaken).2 =
      [.insert (some 1) 352 [7] 0, .pop (some ⟨.conceal, 0, 0, 352, [], 0⟩)] := by decide +kernel
  refine ⟨⟨by simp [overtaken, Op.OfSession], by decide⟩, htr, by decide, fun h => ?_, by decide +kernel⟩
  rw [htr] at h
  obtain ⟨e, hle, he⟩ := h [.insert (some 1) 352 [7] 0] _ [] rfl rfl
  have hw : concealWindow 352 = 62 := by decide
  obtain rfl : 1 = e := by
    by_contra hne
    simp [AcceptedNow, lastInsert, acceptStep, hne] at he
  rw [hw] at hle
  omega

end ShairKindle
