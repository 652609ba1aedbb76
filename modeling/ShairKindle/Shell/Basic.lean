import ShairKindle.Lib.Run

/-! # The shell's lifecycle (`kindletshell/KindletShell.java`)

`start`, `stop` and `destroy` come from the framework; each `start` makes a worker thread, which waits
for the worker before it, installs and launches the native side, connects to it and publishes the lease.
All of them meet under `lifecycleLock`. One input is one synchronized block, or one call made outside
the lock that another thread can fall between.

| here                     | there                                                            |
|--------------------------|------------------------------------------------------------------|
| `Input.start`            | the synchronized block of `start` (KindletShell.java:167-179)    |
| `Input.stop`, `destroy`  | the synchronized block of `stop`, up to its first wait (:187)    |
| `Input.caller j`         | the next step of the `j`-th of these calls                       |
| `Input.worker i`         | the next step of the `i`-th worker (`runWorker`, :224)           |
| `Input.leaseDies c`      | a started lease closes itself (LeaseConnection.java:154)         |
| `Worker.call`            | how many calls there had been with the `start` that made it      |
| `Lease.owner`            | the worker that constructed it                                   |

The calls and the workers are kept for good, in the order of their synchronized blocks; a call or worker
that is over has phase `done`. What the calls made outside the lock do to the native side is not
modelled, only when they run.
-/

namespace ShairKindle.Shell

/-- What a call outside the lock did. -/
inductive Outcome
  | yes
  | no
  | throws
deriving DecidableEq, Repr

/-- `LAUNCH_ATTEMPTS` (KindletShell.java:130). -/
def launchAttempts : Nat := 3

/-- `READY_POLLS` (KindletShell.java:134). -/
def readyPolls : Nat := 5

/-- The attempts of `connectLoop` (KindletShell.java:301). -/
def connectAttempts : Nat := 15

/-- What a worker does next. `launch` is inside `launchNative`, `poll` in its pidfile observation. -/
inductive Phase
  | join
  | checkJoined
  | permissions
  | checkPermitted
  | install
  | checkInstalled
  | latch
  | gate (attempt : Nat)
  | launch (attempt : Nat)
  | poll (attempt i : Nat)
  | alive (attempt : Nat)
  | ready
  | unlatch (launched : Bool)
  | loop (i : Nat)
  | socket (i : Nat)
  | connect (i : Nat)
  | publish (c : Nat)
  | abandon (c : Nat)
  | done
deriving DecidableEq, Repr

structure Worker where
  g : Nat
  call : Nat
  phase : Phase
deriving DecidableEq, Repr

/-- What is left of a `start`, `stop` or `destroy` call after its synchronized block. -/
inductive CallPhase
  | await (c : Option Nat)
  | clear (c : Option Nat)
  | close (c : Option Nat)
  | teardown
  | done
deriving DecidableEq, Repr

inductive CallKind
  | start
  | stop
  | destroy
deriving DecidableEq, Repr

/-- `interlocked`: a `stop` has left its await loop because `launching` was false. -/
structure Call where
  kind : CallKind
  phase : CallPhase
  interlocked : Bool
deriving DecidableEq, Repr

structure Lease where
  owner : Nat
  started : Bool
  closed : Bool
deriving DecidableEq, Repr

structure State where
  generation : Nat
  stopped : Bool
  conn : Option Nat
  launching : Bool
  router : Option Nat
  workers : List Worker
  calls : List Call
  leases : List Lease
deriving DecidableEq, Repr

/-- After `create` (KindletShell.java:148). -/
def State.init : State := ⟨0, false, none, false, none, [], [], []⟩

inductive Input
  | start
  | stop
  | destroy
  | caller (j : Nat) (timeUp : Bool)
  | worker (i : Nat) (out : Outcome)
  | leaseDies (c : Nat)
deriving DecidableEq, Repr

/-! ## The framework's calls -/

/-- `generation++` on a Java `int`; it is only ever compared for equality. -/
def bump (g : Nat) : Nat := (g + 1) % 2 ^ 32

/-- `LeaseConnection.close` on lease `c`. -/
def closeLease (s : State) (c : Nat) : State :=
  { s with leases := s.leases.modify c fun l => { l with closed := true } }

/-- The synchronized block of `start` (KindletShell.java:167). -/
def start (s : State) : State :=
  { s with
    generation := bump s.generation
    stopped := false
    conn := none
    workers := s.workers ++ [⟨bump s.generation, s.calls.length + 1, .join⟩]
    calls := s.calls ++ [⟨.start, if s.conn = none then .done else .clear s.conn, false⟩] }

/-- The synchronized block of `stop` (KindletShell.java:187), up to its first wait. -/
def stop (s : State) (kind : CallKind) : State :=
  { s with
    generation := bump s.generation
    stopped := true
    conn := none
    calls := s.calls ++ [⟨kind, if s.launching then .await s.conn else .clear s.conn, !s.launching⟩] }

/-- The next step of a call. `timeUp`: the deadline of the await loop has passed, or its thread was
interrupted. -/
def callStep (s : State) (j : Nat) (k : Call) (timeUp : Bool) : State :=
  match k.phase with
  | .await c =>
    if !s.launching then { s with calls := s.calls.set j { k with phase := .clear c, interlocked := true } }
    else if timeUp then { s with calls := s.calls.set j { k with phase := .clear c } }
    else s
  | .clear c => { s with router := none, calls := s.calls.set j { k with phase := .close c } }
  | .close c =>
    let s' := match c with | some c => closeLease s c | none => s
    { s' with calls := s.calls.set j { k with phase := if k.kind = .start then .done else .teardown } }
  | .teardown => { s with calls := s.calls.set j { k with phase := .done } }
  | .done => s

/-! ## The workers -/

/-- `isCurrent` (KindletShell.java:341). -/
def isCurrent (s : State) (g : Nat) : Bool := s.generation == g && !s.stopped

/-- `prev.join()` returns (KindletShell.java:226). -/
def joined (s : State) (i : Nat) : Bool :=
  i == 0 || (s.workers[i - 1]?).all fun w => w.phase == .done

/-- Where a worker without shared effects goes next: the checks of `runWorker` (KindletShell.java:224)
and of `connectLoop` (:300), and the calls of `launchAndAwaitReady` (:256) outside the lock. -/
def nextPhase (s : State) (i : Nat) (w : Worker) (out : Outcome) : Phase :=
  match w.phase with
  | .join => if joined s i then .checkJoined else .join
  | .checkJoined => if isCurrent s w.g then .permissions else .done
  | .permissions => if out = .yes then .checkPermitted else .done
  | .checkPermitted => if isCurrent s w.g then .install else .done
  | .install => if out = .yes then .checkInstalled else .done
  | .checkInstalled => if isCurrent s w.g then .latch else .done
  | .gate a => if isCurrent s w.g then .launch a else .unlatch false
  | .launch a => if out = .throws then .unlatch false else .poll a 0
  | .poll a k =>
    match out with
    | .yes => .unlatch true
    | .throws => .unlatch false
    | .no => if k + 1 < readyPolls then .poll a (k + 1) else .alive a
  | .alive a =>
    match out with
    | .yes => if a + 1 < launchAttempts then .gate (a + 1) else .ready
    | .no => .ready
    | .throws => .unlatch false
  | .ready => .unlatch (out = .yes)
  | .loop k => if k < connectAttempts ∧ isCurrent s w.g then .socket k else .done
  | .socket k => if isCurrent s w.g then .connect k else .done
  | p => p

def setPhase (s : State) (i : Nat) (w : Worker) (p : Phase) : State :=
  { s with workers := s.workers.set i { w with phase := p } }

/-- The next step of worker `i`. -/
def workerStep (s : State) (i : Nat) (w : Worker) (out : Outcome) : State :=
  match w.phase with
  | .latch =>
    -- the latch of `launchAndAwaitReady` (KindletShell.java:257)
    if isCurrent s w.g then { setPhase s i w (.gate 0) with launching := true } else setPhase s i w .done
  | .unlatch launched =>
    { setPhase s i w (if launched then .loop 0 else .done) with launching := false }
  | .connect k =>
    -- a connected socket becomes a lease (:326), a failed attempt the next one (:307)
    if out = .yes then
      { setPhase s i w (.publish s.leases.length) with leases := s.leases ++ [⟨i, false, false⟩] }
    else setPhase s i w (.loop (k + 1))
  | .publish c =>
    if isCurrent s w.g then
      { setPhase s i w .done with
        conn := some c
        router := some c
        leases := s.leases.modify c fun l => { l with started := true } }
    else setPhase s i w (.abandon c)
  | .abandon c => closeLease (setPhase s i w .done) c
  | _ => setPhase s i w (nextPhase s i w out)

/-- One step of one thread. A thread that does not exist takes none. -/
def step (s : State) : Input → State × Unit
  | .start => (start s, ())
  | .stop => (stop s .stop, ())
  | .destroy => (stop s .destroy, ())
  | .caller j timeUp =>
    (match s.calls[j]? with
      | some k => callStep s j k timeUp
      | none => s, ())
  | .worker i out =>
    (match s.workers[i]? with
      | some w => workerStep s i w out
      | none => s, ())
  | .leaseDies c =>
    (match s.leases[c]? with
      | some l => if l.started then closeLease s c else s
      | none => s, ())

abbrev run (inputs : List Input) : State := (Machine.run step .init inputs).1

/-- A worker from its start to its published lease, everything working. -/
def publishRun (i : Nat) : List Input := List.replicate 15 (.worker i .yes)

/-- A restart without a `stop`, whose worker has published before the call of `start` goes on. -/
def eagerRestart : List Input :=
  .start :: publishRun 0 ++ .start :: publishRun 1 ++ [.caller 1 false, .caller 1 false]

/-! ## What a step does to the threads -/

theorem getElem?_set_iff {α : Type} {l : List α} {i j : Nat} {x y : α} (hi : i < l.length) :
    (l.set i x)[j]? = some y ↔ j = i ∧ y = x ∨ j ≠ i ∧ l[j]? = some y := by
  rw [List.getElem?_set]
  by_cases h : i = j
  · subst h
    simp [hi, eq_comm]
  · simp [h, Ne.symm h]

theorem getElem?_concat_iff {α : Type} {l : List α} {j : Nat} {x y : α} :
    (l ++ [x])[j]? = some y ↔ l[j]? = some y ∨ j = l.length ∧ y = x := by
  rw [List.getElem?_append]
  split
  · next h =>
    have : j ≠ l.length := by omega
    simp [this]
  · next h =>
    rw [List.getElem?_eq_none (by omega : l.length ≤ j), List.getElem?_singleton]
    by_cases hj : j = l.length
    · subst hj
      simp [eq_comm]
    · have : j - l.length ≠ 0 := by omega
      simp [hj, this]

/-- Where worker `i` is after its step. -/
def phaseAfter (s : State) (i : Nat) (w : Worker) (out : Outcome) : Phase :=
  match w.phase with
  | .latch => if isCurrent s w.g then .gate 0 else .done
  | .unlatch launched => if launched then .loop 0 else .done
  | .connect k => if out = .yes then .publish s.leases.length else .loop (k + 1)
  | .publish c => if isCurrent s w.g then .done else .abandon c
  | .abandon _ => .done
  | _ => nextPhase s i w out

theorem phaseAfter_done {s : State} {i : Nat} {w : Worker} {out : Outcome} (hw : w.phase = .done) :
    phaseAfter s i w out = .done := by
  simp [phaseAfter, nextPhase, hw]

@[simp] theorem closeLease_workers (s : State) (c : Nat) : (closeLease s c).workers = s.workers := rfl

theorem workerStep_workers (s : State) (i : Nat) (w : Worker) (out : Outcome) :
    (workerStep s i w out).workers = s.workers.set i { w with phase := phaseAfter s i w out } := by
  obtain ⟨g, call, phase⟩ := w
  cases phase <;> simp only [workerStep, phaseAfter] <;> first | rfl | (split <;> rfl)

/-- The threads after the step of one of them. -/
theorem workers_workerStep {s : State} {i : Nat} {w : Worker} (hw : s.workers[i]? = some w) (out : Outcome)
    {a : Nat} {u : Worker} :
    (workerStep s i w out).workers[a]? = some u ↔
      a = i ∧ u = { w with phase := phaseAfter s i w out } ∨ a ≠ i ∧ s.workers[a]? = some u := by
  rw [workerStep_workers]
  exact getElem?_set_iff (List.getElem?_eq_some_iff.1 hw).1

/-- What a worker never touches. -/
theorem workerStep_frame (s : State) (i : Nat) (w : Worker) (out : Outcome) :
    (workerStep s i w out).generation = s.generation ∧ (workerStep s i w out).stopped = s.stopped ∧
      (workerStep s i w out).calls = s.calls := by
  obtain ⟨g, call, phase⟩ := w
  cases phase <;> simp only [workerStep] <;>
    first | exact ⟨rfl, rfl, rfl⟩ | (split <;> exact ⟨rfl, rfl, rfl⟩)

/-- The latch of `launchAndAwaitReady` is only touched by its first and its last block. -/
theorem workerStep_launching (s : State) (i : Nat) (w : Worker) (out : Outcome) :
    (workerStep s i w out).launching =
      match w.phase with
      | .latch => isCurrent s w.g || s.launching
      | .unlatch _ => false
      | _ => s.launching := by
  obtain ⟨g, call, phase⟩ := w
  cases phase <;> simp only [workerStep] <;> first | rfl | (split <;> simp_all [setPhase])

/-- The rest of a call leaves the workers, the generation and the flags alone, and its own kind. -/
theorem callStep_frame (s : State) (j : Nat) (k : Call) (timeUp : Bool) :
    (callStep s j k timeUp).generation = s.generation ∧ (callStep s j k timeUp).stopped = s.stopped ∧
      (callStep s j k timeUp).launching = s.launching ∧ (callStep s j k timeUp).workers = s.workers ∧
      (callStep s j k timeUp).conn = s.conn := by
  obtain ⟨kind, phase, interlocked⟩ := k
  cases phase with
  | await c =>
    simp only [callStep]
    split
    · exact ⟨rfl, rfl, rfl, rfl, rfl⟩
    · split <;> exact ⟨rfl, rfl, rfl, rfl, rfl⟩
  | close c => cases c <;> exact ⟨rfl, rfl, rfl, rfl, rfl⟩
  | clear c => exact ⟨rfl, rfl, rfl, rfl, rfl⟩
  | teardown => exact ⟨rfl, rfl, rfl, rfl, rfl⟩
  | done => exact ⟨rfl, rfl, rfl, rfl, rfl⟩

/-- What is left of a call after its step. -/
def callAfter (s : State) (k : Call) (timeUp : Bool) : Call :=
  match k.phase with
  | .await c =>
    if !s.launching then { k with phase := .clear c, interlocked := true }
    else if timeUp then { k with phase := .clear c }
    else k
  | .clear c => { k with phase := .close c }
  | .close _ => { k with phase := if k.kind = .start then .done else .teardown }
  | .teardown => { k with phase := .done }
  | .done => k

theorem callStep_calls {s : State} {j : Nat} {k : Call} (hk : s.calls[j]? = some k) (timeUp : Bool) :
    (callStep s j k timeUp).calls = s.calls.set j (callAfter s k timeUp) := by
  have hself : s.calls.set j k = s.calls := by
    obtain ⟨hj, rfl⟩ := List.getElem?_eq_some_iff.1 hk
    exact List.set_getElem_self hj
  obtain ⟨kind, phase, interlocked⟩ := k
  cases phase with
  | await c =>
    simp only [callStep, callAfter]
    split
    · rfl
    · split
      · rfl
      · exact hself.symm
  | close c => cases c <;> rfl
  | clear c => rfl
  | teardown => rfl
  | done => exact hself.symm

/-- The calls after the step of one of them. -/
theorem calls_callStep {s : State} {j : Nat} {k : Call} (hk : s.calls[j]? = some k) (timeUp : Bool) {a : Nat}
    {u : Call} :
    (callStep s j k timeUp).calls[a]? = some u ↔
      a = j ∧ u = callAfter s k timeUp ∨ a ≠ j ∧ s.calls[a]? = some u := by
  rw [callStep_calls hk]
  exact getElem?_set_iff (List.getElem?_eq_some_iff.1 hk).1

@[simp] theorem callAfter_kind (s : State) (k : Call) (timeUp : Bool) : (callAfter s k timeUp).kind = k.kind := by
  unfold callAfter
  repeat' split
  all_goals rfl

theorem callAfter_await {s : State} {k : Call} {timeUp : Bool} {c : Option Nat}
    (h : (callAfter s k timeUp).phase = .await c) : k.phase = .await c := by
  obtain ⟨kind, phase, interlocked⟩ := k
  cases phase with
  | await d =>
    simp only [callAfter] at h
    split at h
    · cases h
    · split at h
      · cases h
      · exact h
  | clear d => cases h
  | close d =>
    simp only [callAfter] at h
    split at h <;> cases h
  | teardown => cases h
  | done => cases h

end ShairKindle.Shell
