import ShairKindle.Supervisor.Lines

/-!
# The supervisor's lease

The kindlet's connection is the signal that the receiver should be up. `sup_step` turns what happens
on it into a lease: an accept starts one, a stop, the end of the connection or thirty seconds without a
sign of life end it, and the action returned is what the accept loop runs (`airplay-on`,
`airplay-off`).

| here | there |
| --- | --- |
| `SupState`     | `sup_state_t` (supervisor.h:31) |
| `supStateInit` | `sup_state_init` (supervisor.c:25) |
| `supStep`      | `sup_step` (supervisor.c:31) |

A time is an integer. The source counts milliseconds in `int64_t`, where the difference of two readings
of a clock that starts at zero cannot overflow.

`supStep_cases` says once what a step can do; `LeaseInv` relates the state to the trace of a run.
-/

namespace ShairKindle

inductive SupPhase
  | idle | active
  deriving Repr, DecidableEq

inductive SupAction
  | none | start | stop
  deriving Repr, DecidableEq

structure SupState where
  phase : SupPhase
  sessionId : Nat
  lastHbMs : Int
  deriving Repr, DecidableEq

def supHeartbeatTimeoutMs : Int := 30000

def supStateInit : SupState := ⟨.idle, 0, 0⟩

def supStep (s : SupState) (ev : SupEvent) (nowMs : Int) : SupState × SupAction :=
  match ev with
  | .accept => (⟨.active, (s.sessionId + 1) % 2 ^ 32, nowMs⟩, .start)
  | .heartbeat | .next | .prev | .playpause =>
    if s.phase = .active then ({ s with lastHbMs := nowMs }, .none) else (s, .none)
  | .stop | .eof => if s.phase = .active then ({ s with phase := .idle }, .stop) else (s, .none)
  | .tick =>
    if s.phase = .active ∧ nowMs - s.lastHbMs > supHeartbeatTimeoutMs then
      ({ s with phase := .idle }, .stop)
    else (s, .none)
  | .none => (s, .none)

/-- What a step leaves behind: the event, its time and the action. -/
structure SupObs where
  ev : SupEvent
  nowMs : Int
  act : SupAction
  deriving Repr, DecidableEq

def supMachine (s : SupState) (e : SupEvent × Int) : SupState × SupObs :=
  ((supStep s e.1 e.2).1, ⟨e.1, e.2, (supStep s e.1 e.2).2⟩)

/-- A run of the supervisor from its initial state. -/
def supRun (evs : List (SupEvent × Int)) : SupState × List SupObs := Machine.run supMachine supStateInit evs

theorem supRun_concat (evs : List (SupEvent × Int)) (e : SupEvent × Int) :
    supRun (evs ++ [e]) =
      ((supMachine (supRun evs).1 e).1, (supRun evs).2 ++ [(supMachine (supRun evs).1 e).2]) :=
  Machine.run_concat supStateInit evs e

/-! ## Reading a trace -/

/-- An accept, a heartbeat or a command: a sign of life. -/
def SupEvent.refreshes : SupEvent → Bool
  | .accept | .heartbeat | .next | .prev | .playpause => true
  | _ => false

/-- The actions other than `none`, in order. -/
def leaseActions (tr : List SupObs) : List SupAction := (tr.map SupObs.act).filter (· ≠ .none)

/-- Start, stop, start, … -/
def alternating (n : Nat) : List SupAction := (List.range n).map fun i => if i % 2 = 0 then .start else .stop

/-- The part of the trace from the last start on. -/
def currentLease (tr : List SupObs) : List SupObs :=
  tr.foldl (fun l o => if o.act = .start then [o] else l ++ [o]) []

/-- When the current lease last saw a sign of life. -/
def latestRefresh (tr : List SupObs) : Option Int :=
  ((currentLease tr).findRev? fun o => o.ev.refreshes).map SupObs.nowMs

theorem leaseActions_concat (tr : List SupObs) (o : SupObs) :
    leaseActions (tr ++ [o]) = leaseActions tr ++ if o.act = .none then [] else [o.act] := by
  by_cases h : o.act = .none <;> simp [leaseActions, h]

theorem alternating_succ (n : Nat) :
    alternating (n + 1) = alternating n ++ [if n % 2 = 0 then .start else .stop] := by
  simp [alternating, List.range_succ]

@[simp] theorem length_alternating (n : Nat) : (alternating n).length = n := by simp [alternating]

theorem getLast_alternating (n : Nat) : (alternating n).getLast? = some .start ↔ n % 2 = 1 := by
  cases n with
  | zero => simp [alternating]
  | succ n =>
    rw [alternating_succ, List.getLast?_concat, Option.some.injEq]
    split <;> simp <;> omega

theorem latestRefresh_concat (tr : List SupObs) (o : SupObs) (h : o.act = .start → o.ev.refreshes = true) :
    latestRefresh (tr ++ [o]) = if o.ev.refreshes then some o.nowMs else latestRefresh tr := by
  simp only [latestRefresh, currentLease, List.foldl_append, List.foldl_cons, List.foldl_nil]
  by_cases hs : o.act = .start
  · simp [hs, h hs]
  · by_cases hr : o.ev.refreshes <;> simp [hs, hr]

/-! ## What a step can do -/

theorem supStep_cases (s : SupState) (ev : SupEvent) (t : Int) :
    (ev = .accept ∧ supStep s ev t = (⟨.active, (s.sessionId + 1) % 2 ^ 32, t⟩, .start)) ∨
    (s.phase = .active ∧ ev.refreshes = false ∧ supStep s ev t = ({ s with phase := .idle }, .stop)) ∨
    (s.phase = .active ∧ ev.refreshes = true ∧ supStep s ev t = ({ s with lastHbMs := t }, .none)) ∨
    ((s.phase = .idle ∨ ev.refreshes = false) ∧ supStep s ev t = (s, .none)) := by
  cases hp : s.phase <;> cases ev <;> simp [supStep, SupEvent.refreshes, hp]
  exact lt_or_ge _ _

theorem supStep_tick_active (s : SupState) (t : Int) (h : s.phase = .active) :
    supStep s .tick t =
      if s.lastHbMs < t - supHeartbeatTimeoutMs then ({ s with phase := .idle }, .stop) else (s, .none) := by
  have hiff : t - s.lastHbMs > supHeartbeatTimeoutMs ↔ s.lastHbMs < t - supHeartbeatTimeoutMs := by omega
  simp only [supStep, h, true_and, hiff]

/-- A tick after which the lease is on found it on, with a sign of life in time, and changed nothing. -/
theorem supStep_tick_stays (s : SupState) (t : Int) (h : (supStep s .tick t).1.phase = .active) :
    (supStep s .tick t).1 = s ∧ t - supHeartbeatTimeoutMs ≤ s.lastHbMs := by
  cases hp : s.phase with
  | idle => simp [supStep, hp] at h
  | active =>
    rw [supStep_tick_active s t hp] at h ⊢
    split at h
    · cases h
    · rename_i hlt
      rw [if_neg hlt]
      exact ⟨rfl, not_lt.1 hlt⟩

/-! ## The invariant -/

/-- The state and the trace of a run agree: the actions alternate, a lease is on after an odd number of
them, its last sign of life is the one recorded, and the session number counts the starts. -/
structure LeaseInv (s : SupState) (tr : List SupObs) : Prop where
  alternate : leaseActions tr = alternating (leaseActions tr).length
  active_iff : s.phase = .active ↔ (leaseActions tr).length % 2 = 1
  refresh : s.phase = .active → latestRefresh tr = some s.lastHbMs
  starts : s.sessionId = (tr.countP fun o => o.act = .start) % 2 ^ 32

theorem LeaseInv.init : LeaseInv supStateInit [] := by
  refine ⟨rfl, ?_, ?_, rfl⟩ <;> simp [supStateInit, leaseActions]

/-- An action of the right kind extends the alternation. -/
theorem alternate_concat {l : List SupAction} {a : SupAction} (h : l = alternating l.length)
    (ha : a = if l.length % 2 = 0 then .start else .stop) :
    l ++ [a] = alternating (l ++ [a]).length := by
  rw [List.length_append, List.length_singleton, alternating_succ, ← ha, ← h]

/-- **One step keeps the invariant**, when an accept comes only while there is no lease. -/
theorem LeaseInv.step {s : SupState} {tr : List SupObs} {e : SupEvent × Int} (h : LeaseInv s tr)
    (hacc : e.1 = .accept → s.phase = .idle) :
    LeaseInv (supMachine s e).1 (tr ++ [(supMachine s e).2]) := by
  obtain ⟨ev, t⟩ := e
  simp only [supMachine]
  obtain ⟨hev, he⟩ | ⟨hp, hr, he⟩ | ⟨hp, hr, he⟩ | ⟨hor, he⟩ := supStep_cases s ev t
  · -- a new lease: the actions so far are even in number
    have hidle := hacc hev
    have heven : (leaseActions tr).length % 2 = 0 := by
      have := h.active_iff
      simp only [hidle, reduceCtorEq, false_iff] at this
      omega
    rw [he]
    refine ⟨?_, ?_, fun _ => ?_, ?_⟩
    · rw [leaseActions_concat]
      exact alternate_concat h.alternate (by simp [heven])
    · simp [leaseActions_concat]
      omega
    · rw [latestRefresh_concat _ _ (by simp [hev, SupEvent.refreshes])]
      simp [hev, SupEvent.refreshes]
    · simp [h.starts]
  · have hodd : (leaseActions tr).length % 2 = 1 := h.active_iff.1 hp
    rw [he]
    refine ⟨?_, ?_, by simp, by simpa using h.starts⟩
    · rw [leaseActions_concat]
      exact alternate_concat h.alternate (by simp [hodd])
    · simp [leaseActions_concat]
      omega
  · rw [he]
    refine ⟨by simpa [leaseActions_concat] using h.alternate, ?_, fun _ => ?_, by simpa using h.starts⟩
    · simpa [leaseActions_concat] using h.active_iff
    · rw [latestRefresh_concat _ _ (by simp)]
      simp [hr]
  · rw [he]
    refine ⟨by simpa [leaseActions_concat] using h.alternate, ?_, fun hp => ?_, by simpa using h.starts⟩
    · simpa [leaseActions_concat] using h.active_iff
    · have hr : ev.refreshes = false := by
        rcases hor with hi | hr
        · simp [hi] at hp
        · exact hr
      rw [latestRefresh_concat _ _ (by simp)]
      simpa [hr] using h.refresh hp

theorem LeaseInv.run (evs : List (SupEvent × Int))
    (hacc : Machine.AllSteps supMachine (fun s e => e.1 = .accept → s.phase = .idle) supStateInit evs) :
    LeaseInv (supRun evs).1 (supRun evs).2 :=
  Machine.run_hist_of_allSteps LeaseInv (fun _ _ _ h hp => h.step hp) LeaseInv.init evs hacc

/-! ## Lease safety -/

/-- **Lease safety.** In every run in which an accept comes only while there is no lease: the actions
alternate, beginning with a start, and a lease is on exactly when the last action is a start; a tick at
`t` that leaves the lease on finds a sign of life of this lease at `t - 30000` or later, and one that
finds none stops it; unknown lines, ticks, and anything but an accept while idle neither move the
deadline nor start a lease; and the session number counts the starts modulo `2 ^ 32`. -/
theorem lease_safety (evs : List (SupEvent × Int))
    (hacc : Machine.AllSteps supMachine (fun s e => e.1 = .accept → s.phase = .idle) supStateInit evs) :
    leaseActions (supRun evs).2 = alternating (leaseActions (supRun evs).2).length ∧
    ((supRun evs).1.phase = .active ↔ (leaseActions (supRun evs).2).getLast? = some .start) ∧
    (∀ t, (supRun (evs ++ [(.tick, t)])).1.phase = .active →
      ∃ r, latestRefresh (supRun (evs ++ [(.tick, t)])).2 = some r ∧ t - supHeartbeatTimeoutMs ≤ r) ∧
    (∀ t, (supRun evs).1.phase = .active →
      (¬∃ r, latestRefresh (supRun evs).2 = some r ∧ t - supHeartbeatTimeoutMs ≤ r) →
      (supStep (supRun evs).1 .tick t).2 = .stop ∧ (supStep (supRun evs).1 .tick t).1.phase = .idle) ∧
    (∀ ev t, (ev = .none ∨ ev = .tick ∨ (supRun evs).1.phase = .idle ∧ ev ≠ .accept) →
      (supStep (supRun evs).1 ev t).1.lastHbMs = (supRun evs).1.lastHbMs ∧
      ((supStep (supRun evs).1 ev t).1.phase = .active → (supRun evs).1.phase = .active) ∧
      (supStep (supRun evs).1 ev t).2 ≠ .start) ∧
    (supRun evs).1.sessionId = ((supRun evs).2.countP fun o => o.act = .start) % 2 ^ 32 := by
  have h := LeaseInv.run evs hacc
  refine ⟨h.alternate, ?_, fun t hact => ?_, fun t hact hno => ?_, fun ev t hev => ?_, h.starts⟩
  · rw [h.active_iff, h.alternate, getLast_alternating, length_alternating]
  · -- the tick itself keeps the invariant, so its trace still knows the last sign of life
    rw [supRun_concat] at hact ⊢
    obtain ⟨hsame, hin⟩ := supStep_tick_stays (supRun evs).1 t hact
    have hlast := (h.step (e := (.tick, t)) (by simp)).refresh hact
    simp only [supMachine, hsame] at hlast
    exact ⟨_, hlast, hin⟩
  · have hlt : (supRun evs).1.lastHbMs < t - supHeartbeatTimeoutMs :=
      not_le.1 fun hle => hno ⟨_, h.refresh hact, hle⟩
    rw [supStep_tick_active _ t hact, if_pos hlt]
    exact ⟨rfl, rfl⟩
  · rcases hev with rfl | rfl | ⟨hidle, hne⟩
    · exact ⟨rfl, id, by simp [supStep]⟩
    · obtain ⟨hx, -⟩ | ⟨hp, -, he⟩ | ⟨-, hr, -⟩ | ⟨-, he⟩ := supStep_cases (supRun evs).1 .tick t
      · cases hx
      · rw [he]
        exact ⟨rfl, fun _ => hp, by simp⟩
      · simp [SupEvent.refreshes] at hr
      · rw [he]
        exact ⟨rfl, id, by simp⟩
    · obtain ⟨hx, -⟩ | ⟨hp, -⟩ | ⟨hp, -⟩ | ⟨-, he⟩ := supStep_cases (supRun evs).1 ev t
      · exact absurd hx hne
      · simp [hidle] at hp
      · simp [hidle] at hp
      · rw [he]
        exact ⟨rfl, id, by simp⟩

/-- Two leases: one stopped by thirty seconds of silence, one still on. -/
def twoLeases : List (SupEvent × Int) :=
  [(.accept, 1000), (.next, 5000), (.tick, 35000), (.tick, 35001), (.heartbeat, 36000), (.accept, 40000)]

theorem lease_safety_two_leases :
    leaseActions (supRun twoLeases).2 = [.start, .stop, .start] ∧
    leaseActions (supRun twoLeases).2 = alternating (leaseActions (supRun twoLeases).2).length :=
  ⟨by decide, (lease_safety twoLeases (by decide)).1⟩

end ShairKindle
