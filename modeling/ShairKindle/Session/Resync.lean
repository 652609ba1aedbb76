import ShairKindle.Session.Basic
import ShairKindle.Jitter.Steps

/-!
# Does a resync get the player moving?

`jitter_try_resync` (jitter.c:93) jumps to `RESYNC_PREROLL = 16` packets before a contiguous received
run. Those 16 numbers are missing, so the player gets over them only by concealing, and
`session_deadline` (session.c:126) conceals a number only when a packet within the next
`START_FILL_FRAMES / frames_per_pkt` numbers is held. The comments at jitter.c:81 and session.c:38 ask
for that window to exceed the pre-roll and check it for a frame length of 352; sdp.c:157 accepts
frame lengths up to 16384.

`resync_moves_iff`: the player moves after every resync iff the frame length is at most 1378, the
largest with a window of 16.
-/

namespace ShairKindle

/-- An operation as the session makes it: pops use `session_deadline`. -/
def Op.OfSession : Op → Prop
  | .pop dl => dl = sessionDeadline
  | _ => True

/-- The buffer after `i` pops of the player, with nothing inserted in between. -/
def playerPops : Nat → Jitter → Jitter
  | 0, j => j
  | i + 1, j => playerPops i (jitterPop sessionDeadline j).1

/-- If a resync of `j` succeeds, the next pop does not stall, and popping goes on without a stall
until the cursor has reached the start of the run it jumped to. -/
def ResyncMoves (j : Jitter) : Prop :=
  ∀ hi skipped, resyncHi j = some hi → (jitterTryResync j).2 = some skipped →
    (jitterPop sessionDeadline (jitterTryResync j).1).2 ≠ none ∧
    ∀ i, (jitterTryResync j).1.playCursor + i < resyncRunStart j hi →
      (jitterPop sessionDeadline (playerPops i (jitterTryResync j).1)).2 ≠ none

/-! ## The run a resync jumps to -/

/-- Where the cursor stands after a successful resync: at most the pre-roll before a packet that is
held. -/
theorem resync_lands {j : Jitter} {hi skipped : Nat} (hhi : resyncHi j = some hi)
    (h : (jitterTryResync j).2 = some skipped) :
    (jitterTryResync j).1.playCursor ≤ resyncRunStart j hi ∧
    resyncRunStart j hi ≤ (jitterTryResync j).1.playCursor + resyncPreroll ∧
    (jitterTryResync j).1.holds (resyncRunStart j hi) = true ∧
    (jitterTryResync j).1.framesPerPkt = j.framesPerPkt := by
  obtain he | ⟨hi', r, hhi', rfl, hr, _, h2, h3, he⟩ := jitterTryResync_cases j
  · rw [he] at h; cases h
  · obtain rfl : hi' = hi := by rw [hhi] at hhi'; exact (Option.some.inj hhi').symm
    rw [he]
    exact ⟨h2, h3, hr, rfl⟩

/-! ## Popping up to a held packet -/

/-- A pop with a held packet at most one conceal window ahead of the cursor does not stall, and
keeps that packet unless it plays it. -/
theorem pop_toward {j : Jitter} {r : Nat} (hc : j.playCursor ≤ r)
    (hw : r ≤ j.playCursor + concealWindow j.framesPerPkt) (hs : r < j.playCursor + jitterSlots)
    (hr : j.holds r = true) :
    (jitterPop sessionDeadline j).2 ≠ none ∧
    (jitterPop sessionDeadline j).1.playCursor = j.playCursor + 1 ∧
    (jitterPop sessionDeadline j).1.framesPerPkt = j.framesPerPkt ∧
    (j.playCursor < r → (jitterPop sessionDeadline j).1.holds r = true) := by
  have hmod : j.playCursor < r → r % jitterSlots ≠ j.playCursor % jitterSlots := by
    simp only [jitterSlots] at hs ⊢; omega
  obtain ⟨hh, he⟩ | ⟨hh, hd, he⟩ | ⟨hh, hd, he⟩ := jitterPop_cases sessionDeadline j
  · rw [he]
    refine ⟨by simp, rfl, rfl, fun hlt => ?_⟩
    simpa only [Jitter.holds, CellRing.get_set_ne (hmod hlt)] using hr
  · rw [he]
    refine ⟨by simp, rfl, rfl, fun hlt => ?_⟩
    simpa only [Jitter.holds, CellRing.get_set_ne (hmod hlt)] using hr
  · -- a stall: the packet at `r` is past the cursor and inside the window, so the deadline has passed
    exfalso
    have hne : r ≠ j.playCursor := fun e => by rw [e, hh] at hr; exact Bool.noConfusion hr
    have hin : sessionDeadline j j.playCursor = true := by
      simp only [sessionDeadline, List.any_eq_true, List.mem_range'_1]
      refine ⟨r, ⟨by omega, ?_⟩, hr⟩
      simp only [jitterSlots] at hs ⊢
      omega
    rw [hd] at hin
    exact Bool.noConfusion hin

theorem playerPops_toward {j : Jitter} {r : Nat} (hc : j.playCursor ≤ r)
    (hw : r ≤ j.playCursor + concealWindow j.framesPerPkt) (hs : r < j.playCursor + jitterSlots)
    (hr : j.holds r = true) (i : Nat) (hi : j.playCursor + i ≤ r) :
    (jitterPop sessionDeadline (playerPops i j)).2 ≠ none := by
  induction i generalizing j with
  | zero => exact (pop_toward hc hw hs hr).1
  | succ i ih =>
    obtain ⟨_, hcur, hfpp, hhold⟩ := pop_toward hc hw hs hr
    exact ih (by omega) (by rw [hcur, hfpp]; omega) (by omega) (hhold (by omega)) (by omega)

/-- With a conceal window no smaller than the pre-roll, every successful resync moves the player. -/
theorem resyncMoves_of_window {j : Jitter} (hw : resyncPreroll ≤ concealWindow j.framesPerPkt) :
    ResyncMoves j := by
  intro hi skipped hhi h
  obtain ⟨h1, h2, h3, h4⟩ := resync_lands hhi h
  have hw' : resyncRunStart j hi ≤
      (jitterTryResync j).1.playCursor + concealWindow (jitterTryResync j).1.framesPerPkt := by
    rw [h4]; omega
  have hs : resyncRunStart j hi < (jitterTryResync j).1.playCursor + jitterSlots := by
    simp only [resyncPreroll, jitterSlots] at h2 ⊢; omega
  exact ⟨(pop_toward h1 hw' hs h3).1, fun i hi' => playerPops_toward h1 hw' hs h3 i (by omega)⟩

theorem framesPerPkt_step (j : Jitter) (o : Op) : (jitterStep j o).1.framesPerPkt = j.framesPerPkt := by
  cases o with
  | insert wseq wts pl =>
    obtain ⟨_, hs⟩ | ⟨_, _, _, _, _, _, hs⟩ := jitterInsert_cases j wseq wts pl <;> exact hs.framesPerPkt
  | pop dl =>
    simp only [jitterStep]
    obtain ⟨_, he⟩ | ⟨_, _, he⟩ | ⟨_, _, he⟩ := jitterPop_cases dl j <;> rw [he]
  | tryResync =>
    simp only [jitterStep]
    obtain he | ⟨_, _, _, _, _, _, _, _, he⟩ := jitterTryResync_cases j <;> rw [he]
  | nextResend => rfl
  | flush nseq nts => rfl

theorem framesPerPkt_run (fpp : Int) (refSeq : UInt16) (refTs : UInt32) (ops : List Op) :
    (runOps (jitterInit fpp refSeq refTs) ops).1.framesPerPkt = fpp :=
  Machine.run_inv (fun j => j.framesPerPkt = fpp) (fun j o h => (framesPerPkt_step j o).trans h) rfl ops

/-! ## A resync that wedges -/

/-- Sixteen packets from 144 on, with the cursor still at 0: enough for the start-fill gate at any
frame length past 1378, and far enough ahead for a resync. -/
def farAhead : List Op :=
  (List.range 16).map fun i => .insert (UInt16.ofNat (144 + i)) (UInt32.ofNat (i * 4096)) [1]

/-- Nothing an insert or a resync does depends on the frame length. -/
def Jitter.withFrames (j : Jitter) (f : Int) : Jitter := { j with framesPerPkt := f }

theorem jitterInsert_withFrames (j : Jitter) (f : Int) (wseq : UInt16) (wts : UInt32) (pl : List UInt8) :
    (jitterInsert (j.withFrames f) wseq wts pl).1 = (jitterInsert j wseq wts pl).1.withFrames f := by
  have hh : ∀ (sx : Seqext) (e : Nat),
      ({ j.withFrames f with sx := sx } : Jitter).holds e = ({ j with sx := sx } : Jitter).holds e :=
    fun _ _ => rfl
  simp only [jitterInsert, jitterInsertWith, hh]
  by_cases hl : jitterMaxPayload < pl.length
  · simp only [hl, if_true]
  · simp only [hl, if_false]
    cases hs : seqextSeq j.sx wseq with
    | none => simp only [Jitter.withFrames, hs]
    | some r =>
      simp only [Jitter.withFrames, hs]
      by_cases hb : r.1 < j.boundary
      · simp only [hb, if_true]
      by_cases hc : r.1 < j.playCursor
      · simp only [hb, hc, if_true, if_false]
      cases hd : ({ j with sx := r.2 } : Jitter).holds r.1 with
      | true => simp only [hb, hc, if_true, if_false]
      | false => simp only [hb, hc, if_false, Bool.false_eq_true]; rfl

theorem farAhead_withFrames (f : Int) :
    (runOps (jitterInit f 0 0) farAhead).1 = (runOps (jitterInit 352 0 0) farAhead).1.withFrames f := by
  have key : ∀ (is : List Nat) (j : Jitter),
      (runOps (j.withFrames f)
        (is.map fun i => .insert (UInt16.ofNat (144 + i)) (UInt32.ofNat (i * 4096)) [1])).1 =
      (runOps j (is.map fun i => .insert (UInt16.ofNat (144 + i)) (UInt32.ofNat (i * 4096)) [1])).1.withFrames f := by
    intro is
    induction is with
    | nil => intro j; rfl
    | cons i is ih =>
      intro j
      simp only [List.map_cons, runOps, Machine.run_cons]
      simp only [runOps] at ih
      rw [← ih, jitterStep, jitterStep, jitterInsert_withFrames]
  exact key (List.range 16) (jitterInit 352 0 0)

theorem resyncHi_withFrames (j : Jitter) (f : Int) : resyncHi (j.withFrames f) = resyncHi j := by
  unfold resyncHi; rfl

theorem resyncRunStart_withFrames (j : Jitter) (f : Int) (r : Nat) :
    resyncRunStart (j.withFrames f) r = resyncRunStart j r := by
  induction r with
  | zero => rfl
  | succ r ih =>
    have hh : (j.withFrames f).holds r = j.holds r := rfl
    have hc : (j.withFrames f).playCursor = j.playCursor := rfl
    simp only [resyncRunStart, ih, hh, hc]

theorem jitterTryResync_withFrames (j : Jitter) (f : Int) :
    jitterTryResync (j.withFrames f) = ((jitterTryResync j).1.withFrames f, (jitterTryResync j).2) := by
  have hc : (j.withFrames f).playCursor = j.playCursor := rfl
  have ht : ∀ r, resyncTarget (j.withFrames f) r = resyncTarget j r := fun _ => rfl
  simp only [jitterTryResync, resyncHi_withFrames, resyncRunStart_withFrames, ht, hc]
  cases resyncHi j with
  | none => rfl
  | some hi =>
    by_cases hb : hi < j.playCursor + resyncBehind
    · simp only [hb, if_true]
    by_cases hr : hi - resyncRunStart j hi + 1 < resyncMinRun
    · simp only [hb, hr, if_true, if_false]
    · simp only [hb, hr, if_false]; rfl

theorem farAhead_ofSession : ∀ o ∈ farAhead, Op.OfSession o := by
  intro o ho
  obtain ⟨i, _, rfl⟩ := List.mem_map.1 ho
  trivial

/-- The resync of `farAhead` succeeds and leaves the cursor at 128, sixteen before packet 144. -/
theorem farAhead_resync :
    resyncHi (runOps (jitterInit 352 0 0) farAhead).1 = some 159 ∧
    (jitterTryResync (runOps (jitterInit 352 0 0) farAhead).1).2 = some 128 ∧
    (jitterTryResync (runOps (jitterInit 352 0 0) farAhead).1).1.playCursor = 128 ∧
    ∀ i < 16, (jitterTryResync (runOps (jitterInit 352 0 0) farAhead).1).1.holds (128 + i) = false := by
  decide +kernel

/-- With a window short of the pre-roll that resync is followed by a stall. -/
theorem farAhead_stalls {f : Int} (hw : concealWindow f < resyncPreroll) :
    ¬ ResyncMoves (runOps (jitterInit f 0 0) farAhead).1 := by
  obtain ⟨hhi, hsk, hcur, hold⟩ := farAhead_resync
  intro h
  rw [farAhead_withFrames] at h
  have hpop := (h 159 128 (by rw [resyncHi_withFrames, hhi]) (by rw [jitterTryResync_withFrames, hsk])).1
  rw [jitterTryResync_withFrames] at hpop
  generalize (jitterTryResync (runOps (jitterInit 352 0 0) farAhead).1).1 = j at hpop hcur hold
  have hmiss : (j.withFrames f).holds (j.withFrames f).playCursor = false := by
    have := hold 0 (by omega)
    simpa [Jitter.withFrames, Jitter.holds, hcur] using this
  have hdl : sessionDeadline (j.withFrames f) (j.withFrames f).playCursor = false := by
    simp only [sessionDeadline, List.any_eq_false, List.mem_range'_1, resyncPreroll] at hw ⊢
    intro e he
    have hle : e = 128 + (e - 128) := by simp only [Jitter.withFrames, hcur] at he; omega
    have := hold (e - 128) (by simp only [Jitter.withFrames, hcur] at he; omega)
    rw [← hle] at this
    simpa [Jitter.withFrames, Jitter.holds] using this
  simp [jitterPop, hmiss, hdl] at hpop

theorem preroll_le_window_iff {fpp : Int} (h : 1 ≤ fpp) : resyncPreroll ≤ concealWindow fpp ↔ fpp ≤ 1378 := by
  obtain ⟨n, rfl⟩ := Int.eq_ofNat_of_zero_le (by omega : 0 ≤ fpp)
  have hn : 0 < n := by omega
  have hdiv : 16 ≤ 22050 / n ↔ 16 * n ≤ 22050 := Nat.le_div_iff_mul_le hn
  have hpos : (0 : Int) < (n : Int) := by omega
  simp only [concealWindow, startFillFrames, resyncPreroll, hpos, if_true, Int.toNat_natCast]
  split <;> omega

/-- **Exactly when a resync gets the player moving.** For every positive frame length (`sdp_parse`
accepts 1 to 16384), every successful resync in every state the session's operations reach is
followed by pops without a stall up to the run it jumped to, iff the frame length is at most 1378. -/
theorem resync_moves_iff (fpp : Int) (h1 : 1 ≤ fpp) :
    (∀ refSeq refTs ops, (∀ o ∈ ops, Op.OfSession o) →
      ResyncMoves (runOps (jitterInit fpp refSeq refTs) ops).1) ↔ fpp ≤ 1378 := by
  rw [← preroll_le_window_iff h1]
  constructor
  · intro h
    by_contra hw
    exact farAhead_stalls (Nat.lt_of_not_le hw) (h 0 0 farAhead farAhead_ofSession)
  · intro hw refSeq refTs ops _
    exact resyncMoves_of_window (by rw [framesPerPkt_run]; exact hw)

/-- The usual frame length is on the safe side. -/
theorem resync_moves_iff_at_352 : ResyncMoves (runOps (jitterInit 352 0 0) farAhead).1 :=
  (resync_moves_iff 352 (by decide)).2 (by decide) 0 0 farAhead farAhead_ofSession

/-- At frame length 4096, which sdp.c:157 names as canonical, the resync reports success and the
next pop stalls. -/
theorem resync_then_stall_at_4096 :
    (jitterTryResync (runOps (jitterInit 4096 0 0) farAhead).1).2 = some 128 ∧
    (jitterPop sessionDeadline (jitterTryResync (runOps (jitterInit 4096 0 0) farAhead).1).1).2 = none := by
  decide +kernel

end ShairKindle
