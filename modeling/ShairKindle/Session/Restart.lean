import ShairKindle.Session.Basic

/-!
# The sink restart after a flush (src/session.c, src/sink.cpp)

`session_flush` runs under the lock and only raises `sink_restart_pending`; the player takes the flag at
the top of its loop, before it takes the lock, and then calls `sink_flush`, which throws away whatever the
sink holds. Between the flag and the lock another flush may come and the receiver may fill the start gate
again, so the player can pop, decode and write packets of the new epoch while the flag is up: the next
turn of the loop throws them away.

But for the flag, what the threads share is what their locked sections make of it one after the other, so
results about those (`runSession`) hold here (`threads_take_turns`).

| here | there |
| --- | --- |
| `plLocked` | the locked section of `pl_thread` (session.c:313-346) |
| `Phase` | where `pl_thread` and `session_sink_write_all` are (session.c:298-362, :410-436) |
| `Player.held` | what the sink has accepted and not played: the pipe and the child's buffers (sink.cpp) |
| `flushes`, `seen` | no variables of the source: how many flushes there were, and how many at the last restart |
-/

namespace ShairKindle.Restart

/-- The locked section of one turn of `pl_thread` (session.c:313-346): the gate, the pop, the resync. -/
def plLocked (s : Session) : Session × PlayerOut :=
  if !s.fillReached then (s, .waitFill)
  else
    let s := { s with started := true }
    match jitterPop sessionDeadline s.jit with
    | (j, some slot) => ({ s with jit := j }, .play slot)
    | (j, none) =>
      let s := { s with jit := j }
      if s.resyncHold = 0 then
        match jitterTryResync s.jit with
        | (j, some skipped) => ({ s with jit := j, resyncHold := 64 }, .resynced skipped)
        | (j, none) => ({ s with jit := j }, .stall)
      else (s, .stall)

/-- The hold counted down (session.c:311). -/
def countDown (s : Session) : Session := { s with resyncHold := s.resyncHold - 1 }

/-- The session without the flag. -/
def unflagged (s : Session) : Session := { s with sinkRestartPending := false }

/-- A whole turn, when nothing comes between the flag and the lock. -/
theorem plIteration_eq (s : Session) : plIteration s = plLocked (countDown (unflagged s)) := rfl

inductive Origin
  | packet
  | silence
deriving DecidableEq, Repr

/-- A sample, with the number of flushes there had been when its slot was popped. -/
structure Sample where
  origin : Origin
  epoch : Nat
  value : Int16
deriving DecidableEq

/-- Where the player is. `check` and `write` are the two halves of a round of `session_sink_write_all`:
the look at the generation, and the call of `sink_write`. -/
inductive Phase
  | top
  | restart (lo hi : Nat)
  | lock
  | decode (slot : JitterSlot) (g epoch : Nat)
  | check (pcm : List Sample) (retries g : Nat)
  | write (pcm : List Sample) (retries g : Nat)
  | exited
deriving DecidableEq

structure Player where
  session : Session
  running : Bool
  phase : Phase
  flushes : Nat
  seen : Nat
  held : List Sample

/-- `session_start` (session.c:513). -/
def Player.start (frameLength : Int) (seq : UInt16) (ts : UInt32) : Player :=
  ⟨sessionStart frameLength seq ts, true, .top, 0, 0, []⟩

/-- `decoded` and `accepted` are what `session_decode_slot` and `sink_write` return; `played` and `lost`
are the sink's own doing. -/
inductive Input
  | rx (a : RtpAudio)
  | flush (seq : UInt16) (ts : UInt32)
  | stop
  | player
  | decoded (pcm : List Int16)
  | accepted (n : Int)
  | played (n : Nat)
  | lost

/-- `restarted lo hi xs`: the `sink_flush` for the flushes after number `lo` up to number `hi` discards
`xs`. -/
inductive Obs
  | silent
  | accepted (xs : List Sample)
  | restarted (lo hi : Nat) (discarded : List Sample)
deriving DecidableEq

/-- `pcm_cap` (session.c:524), which is also the length of one packet of silence. -/
def pcmCap (s : Session) : Nat := (s.framesPerPkt * 2).toNat

/-- `MAX_BACKOFF_RETRIES` (session.c:415). -/
def maxBackoffRetries : Nat := 200

/-- What the player goes on with after the lock (session.c:332-359). -/
def afterLock (s : Session) (epoch : Nat) : PlayerOut → Phase
  | .waitFill => .top
  | .stall => .top
  | .resynced _ => .check (List.replicate (pcmCap s) ⟨.silence, epoch, 0⟩) 0 s.gen
  | .play slot =>
    match slot.kind with
    | .data => .decode slot s.gen epoch
    | .conceal => .check (List.replicate (pcmCap s) ⟨.silence, epoch, 0⟩) 0 s.gen

/-- A step of the player that waits for nobody's answer. -/
def playerStep (P : Player) : Player × Obs :=
  match P.phase with
  | .top =>
    if !P.running then ({ P with phase := .exited }, .silent)
    else if P.session.sinkRestartPending then
      ({ P with
        session := { P.session with sinkRestartPending := false }
        phase := .restart P.seen P.flushes
        seen := P.flushes }, .silent)
    else ({ P with phase := .lock }, .silent)
  | .restart lo hi => ({ P with phase := .lock, held := [] }, .restarted lo hi P.held)
  | .lock =>
    -- the hold is the player's own: counting it down before or after taking the lock is one
    let r := plLocked (countDown P.session)
    ({ P with session := r.1, phase := afterLock r.1 P.flushes r.2 }, .silent)
  | .check pcm retries g =>
    if pcm = [] ∨ P.session.gen ≠ g ∨ P.running = false then ({ P with phase := .top }, .silent)
    else ({ P with phase := .write pcm retries g }, .silent)
  | _ => (P, .silent)

/-- `session_decode_slot` returns (session.c:350); no sample is a failure. -/
def decodedStep (P : Player) (pcm : List Int16) : Player :=
  match P.phase with
  | .decode _ g epoch =>
    if pcm = [] then { P with phase := .top }
    else { P with phase := .check ((pcm.take (pcmCap P.session)).map (⟨.packet, epoch, ·⟩)) 0 g }
  | _ => P

/-- `sink_write` returns (session.c:425-433). -/
def acceptedStep (P : Player) (n : Int) : Player × Obs :=
  match P.phase with
  | .write pcm retries g =>
    if n < 0 then ({ P with phase := .top }, .silent)
    else if n = 0 then
      if maxBackoffRetries < retries + 1 then ({ P with phase := .top }, .silent)
      else ({ P with phase := .check pcm (retries + 1) g }, .silent)
    else
      ({ P with phase := .check (pcm.drop n.toNat) 0 g, held := P.held ++ pcm.take n.toNat },
        .accepted (pcm.take n.toNat))
  | _ => (P, .silent)

def step (P : Player) : Input → Player × Obs
  | .rx a => ({ P with session := rxInsert P.session a }, .silent)
  | .flush seq ts => ({ P with session := sessionFlush P.session seq ts, flushes := P.flushes + 1 }, .silent)
  | .stop => ({ P with running := false }, .silent)
  | .player => playerStep P
  | .decoded pcm => (decodedStep P pcm, .silent)
  | .accepted n => acceptedStep P n
  | .played n => ({ P with held := P.held.drop n }, .silent)
  | .lost => ({ P with held := [] }, .silent)

abbrev run (frameLength : Int) (seq : UInt16) (ts : UInt32) (inputs : List Input) : Player × List Obs :=
  Machine.run step (.start frameLength seq ts) inputs

/-! ## The locked sections -/

/-- The locked section a step is, if it is one. -/
def lockedSection (P : Player) : Input → Option SessionEvent
  | .rx a => some (.rx a)
  | .flush seq ts => some (.flush seq ts)
  | .player => if P.phase = .lock then some .player else none
  | _ => none

/-- The locked sections of a run, in their order. -/
def lockedSections : Player → List Input → List SessionEvent
  | _, [] => []
  | P, i :: inputs => (lockedSection P i).toList ++ lockedSections (step P i).1 inputs

theorem rxInsert_unflagged (s : Session) (a : RtpAudio) : rxInsert (unflagged s) a = unflagged (rxInsert s a) := by
  have hstale : sessionRejectStaleAudio (unflagged s) a.rtptime = sessionRejectStaleAudio s a.rtptime := rfl
  unfold rxInsert
  rw [hstale]
  split <;> rfl

/-- The locked section neither looks at the flag nor moves it. -/
theorem plLocked_unflagged (s : Session) : plLocked (unflagged s) = (unflagged (plLocked s).1, (plLocked s).2) := by
  have hgate : (unflagged s).fillReached = s.fillReached := rfl
  have hjit : (unflagged s).jit = s.jit := rfl
  have hhold : (unflagged s).resyncHold = s.resyncHold := rfl
  simp only [plLocked, hgate, hjit, hhold]
  cases s.fillReached with
  | false => rfl
  | true =>
    rcases jitterPop sessionDeadline s.jit with ⟨j, - | slot⟩
    · by_cases hzero : s.resyncHold = 0
      · simp only [hzero, if_true]
        rcases jitterTryResync j with ⟨j', - | skipped⟩ <;> rfl
      · simp only [hzero, if_false]
        rfl
    · rfl

/-- What the lock gives the player is the whole turn's. -/
theorem plLocked_turn {s : Session} {P : Player} (h : unflagged s = unflagged P.session) :
    unflagged (plIteration s).1 = unflagged (plLocked (countDown P.session)).1 ∧
      (plIteration s).2 = (plLocked (countDown P.session)).2 := by
  have hcount : countDown (unflagged P.session) = unflagged (countDown P.session) := rfl
  rw [plIteration_eq, h, hcount, plLocked_unflagged]
  exact ⟨rfl, rfl⟩

theorem decodedStep_session (P : Player) (pcm : List Int16) : (decodedStep P pcm).session = P.session := by
  unfold decodedStep
  split
  · split <;> rfl
  · rfl

theorem acceptedStep_session (P : Player) (n : Int) : (acceptedStep P n).1.session = P.session := by
  unfold acceptedStep
  split
  · split
    · rfl
    · split
      · split <;> rfl
      · rfl
  · rfl

/-- The steps outside the lock move the flag at most. -/
theorem playerStep_unlocked {P : Player} (h : P.phase ≠ .lock) : unflagged (playerStep P).1.session = unflagged P.session := by
  unfold playerStep
  split
  · split
    · rfl
    · split <;> rfl
  · rfl
  · next hlock => exact absurd hlock h
  · split <;> rfl
  · rfl

theorem lockedSection_step {s : Session} {P : Player} (h : unflagged s = unflagged P.session) (i : Input) :
    unflagged (runSession s (lockedSection P i).toList).1 = unflagged (step P i).1.session := by
  cases i with
  | rx a =>
    change unflagged (rxInsert s a) = unflagged (rxInsert P.session a)
    rw [← rxInsert_unflagged, h, rxInsert_unflagged]
  | flush seq ts =>
    change unflagged (sessionFlush (unflagged s) seq ts) = unflagged (sessionFlush P.session seq ts)
    rw [h]
    rfl
  | player =>
    rw [lockedSection]
    split
    · next hlock =>
      refine (plLocked_turn h).1.trans ?_
      rw [step, playerStep, hlock]
    · next hlock => exact h.trans (playerStep_unlocked hlock).symm
  | decoded pcm =>
    refine h.trans (congrArg unflagged ?_)
    exact (decodedStep_session P pcm).symm
  | accepted n =>
    refine h.trans (congrArg unflagged ?_)
    exact (acceptedStep_session P n).symm
  | stop | played n | lost => exact h

theorem lockedSections_run (inputs : List Input) : ∀ (s : Session) (P : Player), unflagged s = unflagged P.session →
    unflagged (runSession s (lockedSections P inputs)).1 = unflagged (Machine.run step P inputs).1.session := by
  induction inputs with
  | nil => exact fun _ _ => id
  | cons i inputs ih =>
    intro s P h
    rw [lockedSections, runSession, Machine.run_append_fst, Machine.run_cons]
    exact ih _ _ (lockedSection_step h i)

/-- **The threads take turns.** In every interleaving of the receiver, the flushes and the player's single steps, the
session is, but for the restart flag, what the locked sections leave when each is one step and they come in the same
order; and when the player takes the lock, it goes on with what its whole turn returns there. -/
theorem threads_take_turns (frameLength : Int) (seq : UInt16) (ts : UInt32) (inputs : List Input) :
    let P := (run frameLength seq ts inputs).1
    let s := (runSession (sessionStart frameLength seq ts) (lockedSections (.start frameLength seq ts) inputs)).1
    unflagged s = unflagged P.session ∧
    (P.phase = .lock → unflagged (plIteration s).1 = unflagged (step P .player).1.session ∧
      (step P .player).1.phase = afterLock (step P .player).1.session P.flushes (plIteration s).2) := by
  intro P s
  have hsame : unflagged s = unflagged P.session := lockedSections_run inputs _ (.start frameLength seq ts) rfl
  refine ⟨hsame, fun hlock => ?_⟩
  obtain ⟨hses, hout⟩ := plLocked_turn hsame
  have hstep : step P .player = ({ P with
      session := (plLocked (countDown P.session)).1
      phase := afterLock (plLocked (countDown P.session)).1 P.flushes (plLocked (countDown P.session)).2 }, .silent) := by
    rw [step, playerStep, hlock]
  rw [hstep, hses, hout]
  exact ⟨rfl, rfl⟩

/-! ## What the player has in hand -/

/-- The player is about to decode, or to write, samples of the given origin and epoch. -/
def Phase.Carries (o : Origin) (e : Nat) : Phase → Prop
  | .decode _ _ epoch => o = .packet ∧ e = epoch
  | .check pcm _ _ => ∃ x ∈ pcm, x.origin = o ∧ x.epoch = e
  | .write pcm _ _ => ∃ x ∈ pcm, x.origin = o ∧ x.epoch = e
  | _ => False

theorem rxInsert_pending (s : Session) (a : RtpAudio) :
    (rxInsert s a).sinkRestartPending = s.sinkRestartPending := by
  unfold rxInsert
  split <;> rfl

theorem plLocked_pending (s : Session) : (plLocked s).1.sinkRestartPending = s.sinkRestartPending := by
  unfold plLocked
  split
  · rfl
  · dsimp only
    split
    · rfl
    · split
      · split <;> rfl
      · rfl

/-- After the lock the player carries only what it popped just now. -/
theorem carries_afterLock {s : Session} {epoch : Nat} {out : PlayerOut} {o : Origin} {e : Nat}
    (h : (afterLock s epoch out).Carries o e) :
    e = epoch ∧ (o = .packet → ∃ slot, out = .play slot ∧ slot.kind = .data) := by
  unfold afterLock at h
  split at h
  · exact h.elim
  · exact h.elim
  · obtain ⟨x, hx, rfl, rfl⟩ := h
    rw [List.eq_of_mem_replicate hx]
    simp
  · next slot =>
    split at h
    · next hk => exact ⟨h.2, fun _ => ⟨slot, rfl, hk⟩⟩
    · obtain ⟨x, hx, rfl, rfl⟩ := h
      rw [List.eq_of_mem_replicate hx]
      simp

/-! ## What one step does -/

/-- The step is the player's locked section, and it pops a packet. -/
def popsPacket (P : Player) : Input → Bool
  | .player =>
    match P.phase, (plLocked (countDown P.session)).2 with
    | .lock, .play slot => slot.kind == .data
    | _, _ => false
  | _ => false

/-- The newest epoch the sink may hold samples of: during a restart, that of the last restart before. -/
def Player.floor (P : Player) : Nat :=
  match P.phase with
  | .restart lo _ => lo
  | _ => P.seen

theorem Player.floor_eq_seen {P : Player} (h : ∀ lo hi, P.phase ≠ .restart lo hi) : P.floor = P.seen := by
  unfold Player.floor
  split
  · next lo hi hp => exact absurd hp (h lo hi)
  · rfl

/-- What a step can do to the samples: nothing, or one of the four that matter. -/
inductive Move (P : Player) (i : Input) : Player → Obs → Prop
  | quiet {P' : Player} (carries : ∀ o e, P'.phase.Carries o e → P.phase.Carries o e)
      (held : ∀ x ∈ P'.held, x ∈ P.held) (seen : P'.seen = P.seen) (floor : P'.floor = P.floor)
      (due : ∀ lo hi, P'.phase = .restart lo hi → P.phase = .restart lo hi) (flushes : P.flushes ≤ P'.flushes)
      (flag : P'.session.sinkRestartPending = false →
        P.session.sinkRestartPending = false ∧ P'.flushes = P.flushes) : Move P i P' .silent
  | taken (htop : P.phase = .top) : Move P i
      { P with
        session := { P.session with sinkRestartPending := false }
        phase := .restart P.seen P.flushes
        seen := P.flushes } .silent
  | restarted {lo hi : Nat} (hp : P.phase = .restart lo hi) :
      Move P i { P with phase := .lock, held := [] } (.restarted lo hi P.held)
  | popped {ses : Session} {p : Phase} (hp : P.phase = .lock) (hnext : ∀ lo hi, p ≠ .restart lo hi)
      (hcar : ∀ o e, p.Carries o e → e = P.flushes ∧ (o = .packet → popsPacket P i = true))
      (hflag : ses.sinkRestartPending = P.session.sinkRestartPending) :
      Move P i { P with session := ses, phase := p } .silent
  | accepted {pcm : List Sample} {retries g n : Nat} (hp : P.phase = .write pcm retries g) :
      Move P i { P with phase := .check (pcm.drop n) 0 g, held := P.held ++ pcm.take n } (.accepted (pcm.take n))

/-- The player goes on, with nothing in hand it had not before. -/
theorem Move.toPhase {P : Player} {i : Input} {p : Phase} (hcar : ∀ o e, p.Carries o e → P.phase.Carries o e)
    (hp : ∀ lo hi, p ≠ .restart lo hi) (hP : ∀ lo hi, P.phase ≠ .restart lo hi) :
    Move P i { P with phase := p } .silent := by
  refine .quiet hcar (fun _ h => h) rfl ?_ (fun lo hi h => absurd h (hp lo hi)) le_rfl fun h => ⟨h, rfl⟩
  rw [Player.floor_eq_seen hp, Player.floor_eq_seen hP]

/-- Another thread, or the sink, takes a step. -/
theorem Move.elsewhere {P P' : Player} {i : Input} (hphase : P'.phase = P.phase) (hseen : P'.seen = P.seen)
    (hheld : ∀ x ∈ P'.held, x ∈ P.held) (hle : P.flushes ≤ P'.flushes)
    (hflag : P'.session.sinkRestartPending = false →
      P.session.sinkRestartPending = false ∧ P'.flushes = P.flushes) : Move P i P' .silent := by
  refine .quiet (fun o e h => ?_) hheld hseen ?_ (fun lo hi h => ?_) hle hflag
  · rwa [hphase] at h
  · unfold Player.floor
    rw [hphase, hseen]
  · rwa [hphase] at h

theorem playerStep_move (P : Player) : Move P .player (playerStep P).1 (playerStep P).2 := by
  have hself : Move P .player P .silent := .elsewhere rfl rfl (fun _ h => h) le_rfl fun h => ⟨h, rfl⟩
  unfold playerStep
  split
  · next hp =>
    split
    · exact .toPhase (fun _ _ h => h.elim) (by simp) (by simp [hp])
    · split
      · exact .taken hp
      · exact .toPhase (fun _ _ h => h.elim) (by simp) (by simp [hp])
  · next lo hi hp => exact .restarted hp
  · next hp =>
    refine .popped hp ?_ ?_ (plLocked_pending _)
    · intro lo hi h
      unfold afterLock at h
      repeat' split at h
      all_goals cases h
    · intro o e h
      obtain ⟨he, hpop⟩ := carries_afterLock h
      refine ⟨he, fun ho => ?_⟩
      obtain ⟨slot, hout, hkind⟩ := hpop ho
      simp [popsPacket, hp, hout, hkind]
  · next pcm retries g hp =>
    split
    · exact .toPhase (fun _ _ h => h.elim) (by simp) (by simp [hp])
    · exact .toPhase (fun _ _ h => by rw [hp]; exact h) (by simp) (by simp [hp])
  · exact hself

theorem decodedStep_move (P : Player) (pcm : List Int16) : Move P (.decoded pcm) (decodedStep P pcm) .silent := by
  unfold decodedStep
  split
  · next slot g epoch hp =>
    split
    · exact .toPhase (fun _ _ h => h.elim) (by simp) (by simp [hp])
    · refine .toPhase (fun o e h => ?_) (by simp) (by simp [hp])
      obtain ⟨x, hx, rfl, rfl⟩ := h
      obtain ⟨v, -, rfl⟩ := List.mem_map.1 hx
      rw [hp]
      exact ⟨rfl, rfl⟩
  · exact .elsewhere rfl rfl (fun _ h => h) le_rfl fun h => ⟨h, rfl⟩

theorem acceptedStep_move (P : Player) (n : Int) :
    Move P (.accepted n) (acceptedStep P n).1 (acceptedStep P n).2 := by
  unfold acceptedStep
  split
  · next pcm retries g hp =>
    split
    · exact .toPhase (fun _ _ h => h.elim) (by simp) (by simp [hp])
    · split
      · split
        · exact .toPhase (fun _ _ h => h.elim) (by simp) (by simp [hp])
        · exact .toPhase (fun _ _ h => by rw [hp]; exact h) (by simp) (by simp [hp])
      · exact .accepted hp
  · exact .elsewhere rfl rfl (fun _ h => h) le_rfl fun h => ⟨h, rfl⟩

theorem step_move (P : Player) (i : Input) : Move P i (step P i).1 (step P i).2 := by
  cases i with
  | rx a => exact .elsewhere rfl rfl (fun _ h => h) le_rfl fun h => ⟨(rxInsert_pending _ a).symm.trans h, rfl⟩
  | flush seq ts => exact .elsewhere rfl rfl (fun _ h => h) (Nat.le_succ _) fun h => nomatch h
  | stop => exact .elsewhere rfl rfl (fun _ h => h) le_rfl fun h => ⟨h, rfl⟩
  | player => exact playerStep_move P
  | decoded pcm => exact decodedStep_move P pcm
  | accepted n => exact acceptedStep_move P n
  | played n => exact .elsewhere rfl rfl (fun _ h => List.mem_of_mem_drop h) le_rfl fun h => ⟨h, rfl⟩
  | lost => exact .elsewhere rfl rfl (fun _ h => nomatch h) le_rfl fun h => ⟨h, rfl⟩

/-! ## Nothing old after a restart -/

/-- No sample accepted after a restart is older than the flushes the restart is for. -/
def Follows (a b : Obs) : Prop :=
  ∀ lo hi discarded xs, a = .restarted lo hi discarded → b = .accepted xs → ∀ x ∈ xs, hi ≤ x.epoch

structure Ordered (P : Player) (tr : List Obs) : Prop where
  counts : P.seen ≤ P.flushes
  carries : ∀ o e, P.phase.Carries o e → P.seen ≤ e
  due : ∀ lo hi, P.phase = .restart lo hi → hi ≤ P.seen
  restarts : ∀ lo hi discarded, Obs.restarted lo hi discarded ∈ tr → hi ≤ P.seen
  follows : tr.Pairwise Follows

theorem ordered_start (frameLength : Int) (seq : UInt16) (ts : UInt32) :
    Ordered (.start frameLength seq ts) [] := by
  constructor <;> simp [Player.start, Phase.Carries]

theorem ordered_move {P P' : Player} {tr : List Obs} {i : Input} {o : Obs} (h : Ordered P tr)
    (hm : Move P i P' o) : Ordered P' (tr ++ [o]) := by
  have hfollows : (∀ xs, o = .accepted xs → ∀ x ∈ xs, P.seen ≤ x.epoch) → (tr ++ [o]).Pairwise Follows := by
    intro hacc
    refine List.pairwise_append.2 ⟨h.follows, List.pairwise_singleton _ _, ?_⟩
    rintro a ha b hb lo hi discarded xs rfl rfl x hx
    rw [List.mem_singleton] at hb
    exact (h.restarts lo hi discarded ha).trans (hacc xs hb.symm x hx)
  have hrestarts : ∀ {m : Nat}, P.seen ≤ m → (∀ lo hi discarded, o = .restarted lo hi discarded → hi ≤ m) →
      ∀ lo hi discarded, Obs.restarted lo hi discarded ∈ tr ++ [o] → hi ≤ m := by
    intro m hm ho lo hi discarded hmem
    rcases List.mem_append.1 hmem with hmem | hmem
    · exact (h.restarts lo hi discarded hmem).trans hm
    · exact ho lo hi discarded (List.mem_singleton.1 hmem).symm
  cases hm with
  | quiet carries held seen floor due flushes flag =>
    refine ⟨?_, ?_, ?_, ?_, hfollows (by simp)⟩
    · rw [seen]
      exact h.counts.trans flushes
    · rw [seen]
      exact fun o e hc => h.carries o e (carries o e hc)
    · rw [seen]
      exact fun lo hi hp => h.due lo hi (due lo hi hp)
    · exact hrestarts seen.ge (by simp)
  | taken htop =>
    refine ⟨le_rfl, fun _ _ hc => hc.elim, ?_, hrestarts h.counts (by simp), hfollows (by simp)⟩
    intro lo hi hp
    cases hp
    exact le_rfl
  | restarted hp =>
    refine ⟨h.counts, fun _ _ hc => hc.elim, by simp, hrestarts le_rfl ?_, hfollows (by simp)⟩
    intro lo hi discarded hd
    cases hd
    exact h.due _ _ hp
  | popped hp hnext hcar hflag =>
    refine ⟨h.counts, ?_, fun lo hi hr => absurd hr (hnext lo hi), hrestarts le_rfl (by simp), hfollows (by simp)⟩
    intro o e hc
    rw [(hcar o e hc).1]
    exact h.counts
  | @accepted pcm retries g n hp =>
    have hpcm : ∀ x ∈ pcm, P.seen ≤ x.epoch := by
      intro x hx
      refine h.carries x.origin x.epoch ?_
      rw [hp]
      exact ⟨x, hx, rfl, rfl⟩
    refine ⟨h.counts, ?_, by simp, hrestarts le_rfl (by simp), hfollows ?_⟩
    · rintro o e ⟨x, hx, rfl, rfl⟩
      exact hpcm x (List.mem_of_mem_drop hx)
    · intro xs hxs x hx
      cases hxs
      exact hpcm x (List.mem_of_mem_take hx)

/-- **Nothing old after a restart**, in every interleaving: the player reads the flag, restarts the sink
and pops one after the other. -/
theorem ordered_run (frameLength : Int) (seq : UInt16) (ts : UInt32) (inputs : List Input) :
    Ordered (run frameLength seq ts inputs).1 (run frameLength seq ts inputs).2 :=
  Machine.run_hist Ordered (fun _ => True) (fun _ _ _ => trivial) (ordered_start frameLength seq ts)
    (fun P _ i h _ => ordered_move h (step_move P i)) inputs trivial

/-! ## Nothing new discarded -/

/-- No packet is popped while a flush waits for its restart. -/
def PopsClear (P : Player) (i : Input) : Prop := popsPacket P i = true → P.session.sinkRestartPending = false

instance (P : Player) (i : Input) : Decidable (PopsClear P i) := inferInstanceAs (Decidable (_ → _))

structure Fresh (P : Player) (tr : List Obs) : Prop where
  flag : P.session.sinkRestartPending = false → P.seen = P.flushes
  carries : ∀ e, P.phase.Carries .packet e → e ≤ P.seen
  held : ∀ x ∈ P.held, x.origin = .packet → x.epoch ≤ P.floor
  kept : ∀ lo hi discarded, Obs.restarted lo hi discarded ∈ tr →
    ∀ x ∈ discarded, x.origin = .packet → x.epoch ≤ lo

theorem fresh_start (frameLength : Int) (seq : UInt16) (ts : UInt32) : Fresh (.start frameLength seq ts) [] := by
  constructor <;> simp [Player.start, Phase.Carries]

theorem fresh_move {P P' : Player} {tr : List Obs} {i : Input} {o : Obs} (h : Fresh P tr) (hi : PopsClear P i)
    (hm : Move P i P' o) : Fresh P' (tr ++ [o]) := by
  have hkept : (∀ lo hi discarded, o = .restarted lo hi discarded →
      ∀ x ∈ discarded, x.origin = .packet → x.epoch ≤ lo) →
      ∀ lo hi discarded, Obs.restarted lo hi discarded ∈ tr ++ [o] →
        ∀ x ∈ discarded, x.origin = .packet → x.epoch ≤ lo := by
    intro ho lo hi discarded hmem
    rcases List.mem_append.1 hmem with hmem | hmem
    · exact h.kept lo hi discarded hmem
    · exact ho lo hi discarded (List.mem_singleton.1 hmem).symm
  cases hm with
  | quiet carries held seen floor due flushes flag =>
    refine ⟨?_, ?_, ?_, hkept (by simp)⟩
    · intro hf
      obtain ⟨hp, hfl⟩ := flag hf
      rw [seen, hfl]
      exact h.flag hp
    · rw [seen]
      exact fun e hc => h.carries e (carries _ e hc)
    · rw [floor]
      exact fun x hx => h.held x (held x hx)
  | taken htop =>
    refine ⟨fun _ => rfl, fun _ hc => hc.elim, ?_, hkept (by simp)⟩
    -- until the restart is over the sink holds what it held, from before the last restart
    intro x hx ho
    have := h.held x hx ho
    rwa [Player.floor_eq_seen (by simp [htop])] at this
  | restarted hp =>
    refine ⟨h.flag, fun _ hc => hc.elim, by simp, hkept ?_⟩
    intro lo hi discarded hd x hx ho
    cases hd
    have := h.held x hx ho
    unfold Player.floor at this
    rwa [hp] at this
  | popped hp hnext hcar hflag =>
    refine ⟨fun hf => h.flag (hflag ▸ hf), ?_, ?_, hkept (by simp)⟩
    · intro e hc
      obtain ⟨rfl, hpop⟩ := hcar _ e hc
      exact (h.flag (hi (hpop rfl))).ge
    · rw [Player.floor_eq_seen hnext]
      intro x hx ho
      have := h.held x hx ho
      rwa [Player.floor_eq_seen (by simp [hp])] at this
  | @accepted pcm retries g n hp =>
    have hpcm : ∀ x ∈ pcm, x.origin = .packet → x.epoch ≤ P.seen := by
      intro x hx ho
      refine h.carries x.epoch ?_
      rw [hp]
      exact ⟨x, hx, ho, rfl⟩
    refine ⟨h.flag, ?_, ?_, hkept (by simp)⟩
    · rintro e ⟨x, hx, ho, rfl⟩
      exact hpcm x (List.mem_of_mem_drop hx) ho
    · rw [Player.floor_eq_seen (by simp)]
      intro x hx ho
      rcases List.mem_append.1 hx with hx | hx
      · have := h.held x hx ho
        rwa [Player.floor_eq_seen (by simp [hp])] at this
      · exact hpcm x (List.mem_of_mem_take hx) ho

theorem fresh_run (frameLength : Int) (seq : UInt16) (ts : UInt32) (inputs : List Input)
    (hin : Machine.AllSteps step PopsClear (.start frameLength seq ts) inputs) :
    Fresh (run frameLength seq ts inputs).1 (run frameLength seq ts inputs).2 := by
  simpa using Machine.run_hist_of_allSteps Fresh (fun P _ i h hi => fresh_move h hi (step_move P i))
    (fresh_start frameLength seq ts) inputs hin

/-- **A flush keeps the new epoch**, in every interleaving in which no packet is popped while the flag is
up: the `sink_flush` for flush `n` discards no sample of a packet popped after flush `n`, and after it the
sink accepts none of a packet popped before. -/
theorem flush_keeps_new_epoch (frameLength : Int) (seq : UInt16) (ts : UInt32) (inputs : List Input)
    (hin : Machine.AllSteps step PopsClear (.start frameLength seq ts) inputs) :
    (∀ lo hi discarded, Obs.restarted lo hi discarded ∈ (run frameLength seq ts inputs).2 →
      ∀ n, lo < n → n ≤ hi → ∀ x ∈ discarded, x.origin = .packet → x.epoch < n) ∧
    ∀ before lo hi discarded after, (run frameLength seq ts inputs).2 = before ++ .restarted lo hi discarded :: after →
      ∀ n, lo < n → n ≤ hi → ∀ xs, Obs.accepted xs ∈ after → ∀ x ∈ xs, n ≤ x.epoch := by
  constructor
  · intro lo hi discarded hmem n hlo _ x hx ho
    have := (fresh_run frameLength seq ts inputs hin).kept lo hi discarded hmem x hx ho
    omega
  · intro before lo hi discarded after htr n _ hhi xs hxs x hx
    have h := (ordered_run frameLength seq ts inputs).follows
    rw [htr] at h
    have hnext := (List.pairwise_cons.1 (List.pairwise_append.1 h).2.1).1 _ hxs
    exact hhi.trans (hnext lo hi discarded xs rfl rfl x hx)

/-- A packet of 4096 frames. -/
def packet (seq : UInt16) : RtpAudio := ⟨seq, 4096 * seq.toUInt32, [0]⟩

/-- The player's turn from the lock to the end of a packet of two samples, all accepted. -/
def playOne : List Input := [.player, .decoded [7, -7], .player, .accepted 2, .player]

/-- Six packets fill the gate, one is played, and a flush is serviced before anything else is popped. -/
def flushedInTime : List Input :=
  (List.range 6).map (fun k => .rx (packet (UInt16.ofNat k))) ++ .player :: playOne ++
    [.flush 100 409600, .player, .player, .player]

theorem flush_keeps_new_epoch_one :
    Obs.restarted 0 1 [⟨.packet, 0, 7⟩, ⟨.packet, 0, -7⟩] ∈ (run 4096 0 0 flushedInTime).2 ∧
      ∀ lo hi discarded, Obs.restarted lo hi discarded ∈ (run 4096 0 0 flushedInTime).2 →
        ∀ n, lo < n → n ≤ hi → ∀ x ∈ discarded, x.origin = .packet → x.epoch < n :=
  ⟨by decide +kernel, (flush_keeps_new_epoch 4096 0 0 flushedInTime (by decide +kernel)).1⟩

/-- The player has looked at the flag; before it takes the lock, a flush comes and six packets of the new
epoch fill the gate. -/
def flushedLate : List Input :=
  .player :: .flush 100 409600 :: (List.range 6).map (fun k => .rx (packet (UInt16.ofNat (100 + k)))) ++
    playOne ++ [.player, .player]

/-- **The new epoch discarded.** Two samples of the first packet popped after the flush are accepted by the
sink, and thrown away by the restart for that same flush. -/
theorem late_restart_discards_new_epoch :
    Obs.restarted 0 1 [⟨.packet, 1, 7⟩, ⟨.packet, 1, -7⟩] ∈ (run 4096 0 0 flushedLate).2 := by
  decide +kernel

end ShairKindle.Restart
