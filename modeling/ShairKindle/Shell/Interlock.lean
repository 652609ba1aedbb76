import ShairKindle.Shell.Basic

/-! # The launch interlock

A worker joins the worker before it, so no two of them are ever past the join at once, and `launching`
is set exactly while one of them is between its latch and the `finally` of `launchAndAwaitReady`
(KindletShell.java:256-292). A `stop` that leaves its await loop because the latch is clear therefore
finds no launch under way, and none begins while the shell stays stopped.
-/

namespace ShairKindle.Shell

/-! ## One worker at a time -/

/-- Between the latch and the `finally` of `launchAndAwaitReady`. -/
def Phase.inLaunch : Phase → Bool
  | .gate _ => true
  | .launch _ => true
  | .poll _ _ => true
  | .alive _ => true
  | .ready => true
  | .unlatch _ => true
  | _ => false

/-- A worker past its join has outlived every worker before it. -/
def Serial (s : State) : Prop :=
  ∀ (i j : Nat) (w v : Worker), s.workers[i]? = some w → s.workers[j]? = some v → j < i → w.phase ≠ .join →
    v.phase = .done

theorem phaseAfter_ne_join {s : State} {i : Nat} {w : Worker} {out : Outcome}
    (h : phaseAfter s i w out ≠ .join) (hw : w.phase = .join) : joined s i = true := by
  simp only [phaseAfter, hw, nextPhase] at h
  by_contra hj
  simp [hj] at h

theorem serial_worker {s : State} {i : Nat} {w : Worker} (hs : Serial s) (hw : s.workers[i]? = some w)
    (out : Outcome) : Serial (workerStep s i w out) := by
  intro a b u v hu hv hab hjoin
  rw [workers_workerStep hw] at hu hv
  rcases hu with ⟨rfl, rfl⟩ | ⟨-, hu⟩
  · -- the worker that moved is the later one
    rcases hv with ⟨rfl, -⟩ | ⟨-, hv⟩
    · omega
    by_cases hwj : w.phase = .join
    · have hj := phaseAfter_ne_join hjoin hwj
      obtain ⟨m, rfl⟩ : ∃ m, a = m + 1 := ⟨a - 1, by omega⟩
      have hm : m < s.workers.length := by
        have := (List.getElem?_eq_some_iff.1 hw).1
        omega
      have hdone : s.workers[m].phase = .done := by simpa [joined, hm] using hj
      have hprev : s.workers[m]? = some s.workers[m] := List.getElem?_eq_getElem hm
      rcases Nat.lt_or_ge b m with hbm | hbm
      · exact hs m b _ v hprev hv hbm (by rw [hdone]; simp)
      · obtain rfl : b = m := by omega
        rw [hprev, Option.some.injEq] at hv
        rw [← hv]
        exact hdone
    · exact hs a b w v hw hv hab hwj
  · rcases hv with ⟨rfl, rfl⟩ | ⟨-, hv⟩
    · -- the worker that moved is the earlier one, so it was done already
      exact phaseAfter_done (hs a b u w hu hw hab hjoin)
    · exact hs a b u v hu hv hab hjoin

/-- A worker in a phase other than the join and the end is the only one. -/
theorem Serial.unique {s : State} (hs : Serial s) {i j : Nat} {w v : Worker} (hw : s.workers[i]? = some w)
    (hv : s.workers[j]? = some v) (hwa : w.phase ≠ .join ∧ w.phase ≠ .done)
    (hva : v.phase ≠ .join ∧ v.phase ≠ .done) : i = j := by
  rcases Nat.lt_trichotomy i j with h | h | h
  · exact absurd (hs j i v w hv hw h hva.1) hwa.2
  · exact h
  · exact absurd (hs i j w v hw hv h hwa.1) hva.2

theorem Phase.inLaunch_active {p : Phase} (h : p.inLaunch = true) : p ≠ .join ∧ p ≠ .done := by
  constructor <;> rintro rfl <;> cases h

/-! ## The latch -/

theorem inLaunch_phaseAfter (s : State) (i : Nat) (w : Worker) (out : Outcome) :
    (phaseAfter s i w out).inLaunch =
      match w.phase with
      | .latch => isCurrent s w.g
      | .unlatch _ => false
      | p => p.inLaunch := by
  obtain ⟨g, call, phase⟩ := w
  cases phase <;> simp only [phaseAfter, nextPhase]
  all_goals repeat' split
  all_goals first | rfl | simp_all [Phase.inLaunch]

/-- `launching` is set exactly while a worker is inside `launchAndAwaitReady`. -/
def Latched (s : State) : Prop :=
  s.launching = true ↔ ∃ (i : Nat) (w : Worker), s.workers[i]? = some w ∧ w.phase.inLaunch = true

theorem latched_worker {s : State} {i : Nat} {w : Worker} (hs : Serial s) (hl : Latched s)
    (hw : s.workers[i]? = some w) (out : Outcome) : Latched (workerStep s i w out) := by
  have hin := inLaunch_phaseAfter s i w out
  -- the other workers stay where they are
  have hrest : (∃ (a : Nat) (u : Worker), (workerStep s i w out).workers[a]? = some u ∧ u.phase.inLaunch = true) ↔
      (phaseAfter s i w out).inLaunch = true ∨
        ∃ (a : Nat) (u : Worker), a ≠ i ∧ s.workers[a]? = some u ∧ u.phase.inLaunch = true := by
    constructor
    · rintro ⟨a, u, hu, hp⟩
      rw [workers_workerStep hw] at hu
      rcases hu with ⟨rfl, rfl⟩ | ⟨hne, hu⟩
      · exact .inl hp
      · exact .inr ⟨a, u, hne, hu, hp⟩
    · rintro (hp | ⟨a, u, hne, hu, hp⟩)
      · exact ⟨i, _, (workers_workerStep hw out).2 (.inl ⟨rfl, rfl⟩), hp⟩
      · exact ⟨a, u, (workers_workerStep hw out).2 (.inr ⟨hne, hu⟩), hp⟩
  have hsplit : s.launching = true ↔ w.phase.inLaunch = true ∨
      ∃ (a : Nat) (u : Worker), a ≠ i ∧ s.workers[a]? = some u ∧ u.phase.inLaunch = true := by
    refine Iff.trans hl ?_
    constructor
    · rintro ⟨a, u, hu, hp⟩
      by_cases ha : a = i
      · subst ha
        rw [hw, Option.some.injEq] at hu
        exact .inl (hu ▸ hp)
      · exact .inr ⟨a, u, ha, hu, hp⟩
    · rintro (hp | ⟨a, u, -, hu, hp⟩)
      · exact ⟨i, w, hw, hp⟩
      · exact ⟨a, u, hu, hp⟩
  unfold Latched
  rw [hrest, hin, workerStep_launching]
  cases hp : w.phase <;> simp only [hp] at hsplit ⊢
  case latch =>
    have hnot : Phase.latch.inLaunch = false := rfl
    simp only [hnot, Bool.false_eq_true, false_or] at hsplit
    rw [Bool.or_eq_true, hsplit]
  case unlatch =>
    -- nobody else is inside: this worker is past its join and not done
    simp only [Bool.false_eq_true, false_or, false_iff, not_exists]
    rintro a u ⟨hne, hu, hq⟩
    exact hne (hs.unique hu hw (Phase.inLaunch_active hq) (by rw [hp]; simp))
  all_goals exact hsplit

/-! ## Stops and the starts after them -/

/-- No `start` has taken the lock after the `j`-th call. -/
def NoStartAfter (s : State) (j : Nat) : Prop :=
  ∀ (a : Nat) (k : Call), j < a → s.calls[a]? = some k → k.kind ≠ .start

theorem noStartAfter_callStep {s : State} {j : Nat} {k : Call} (hk : s.calls[j]? = some k) (timeUp : Bool)
    {a : Nat} (h : NoStartAfter (callStep s j k timeUp) a) : NoStartAfter s a := by
  intro b u hab hu
  by_cases hb : b = j
  · subst hb
    rw [hk, Option.some.injEq] at hu
    rw [← hu, ← callAfter_kind s k timeUp]
    exact h b _ hab ((calls_callStep hk timeUp).2 (.inl ⟨rfl, rfl⟩))
  · exact h b u hab ((calls_callStep hk timeUp).2 (.inr ⟨hb, hu⟩))

/-- A call becomes interlocked when it leaves its await loop on a clear latch. -/
theorem callAfter_interlocked {s : State} {k : Call} {timeUp : Bool}
    (h : (callAfter s k timeUp).interlocked = true) :
    k.interlocked = true ∨ (∃ c, k.phase = .await c) ∧ s.launching = false := by
  obtain ⟨kind, phase, interlocked⟩ := k
  cases phase with
  | await d =>
    simp only [callAfter] at h
    split at h
    · next hl => exact .inr ⟨⟨d, rfl⟩, by simpa using hl⟩
    · split at h <;> exact .inl h
  | clear d => exact .inl h
  | close d => exact .inl h
  | teardown => exact .inl h
  | done => exact .inl h

structure Interlock (s : State) : Prop where
  serial : Serial s
  latched : Latched s
  stops : ∀ (j : Nat) (k : Call), s.calls[j]? = some k →
    (k.interlocked = true ∨ ∃ c, k.phase = .await c) → k.kind ≠ .start
  stopped : ∀ (j : Nat) (k : Call), s.calls[j]? = some k → k.kind ≠ .start → NoStartAfter s j → s.stopped = true
  clear : ∀ (j : Nat) (k : Call), s.calls[j]? = some k → k.interlocked = true → NoStartAfter s j →
    s.launching = false

theorem interlock_init : Interlock .init := by
  constructor <;> simp [State.init, Serial, Latched]

/-- `start`: the new worker has to join, and every earlier call has a `start` after it. -/
theorem interlock_start {s : State} (h : Interlock s) : Interlock (start s) := by
  have hafter : ∀ j k, s.calls[j]? = some k → ¬NoStartAfter (start s) j := by
    intro j k hk hno
    have hj := (List.getElem?_eq_some_iff.1 hk).1
    exact hno s.calls.length _ hj (getElem?_concat_iff.2 (.inr ⟨rfl, rfl⟩)) rfl
  constructor
  · intro i j w v hw hv hij hjoin
    simp only [start, getElem?_concat_iff] at hw hv
    rcases hw with hw | ⟨rfl, rfl⟩
    · rcases hv with hv | ⟨rfl, rfl⟩
      · exact h.serial i j w v hw hv hij hjoin
      · have := (List.getElem?_eq_some_iff.1 hw).1
        omega
    · exact absurd rfl hjoin
  · refine Iff.trans h.latched ?_
    simp only [start, getElem?_concat_iff]
    constructor
    · rintro ⟨i, w, hw, hp⟩
      exact ⟨i, w, .inl hw, hp⟩
    · rintro ⟨i, w, hw | ⟨rfl, rfl⟩, hp⟩
      · exact ⟨i, w, hw, hp⟩
      · cases hp
  · intro j k hk hkind
    simp only [start, getElem?_concat_iff] at hk
    rcases hk with hk | ⟨rfl, rfl⟩
    · exact h.stops j k hk hkind
    · rcases hkind with hi | ⟨c, hc⟩
      · cases hi
      · dsimp only at hc
        split at hc <;> cases hc
  · intro j k hk hkind hno
    simp only [start, getElem?_concat_iff] at hk
    rcases hk with hk | ⟨rfl, rfl⟩
    · exact absurd hno (hafter j k hk)
    · exact absurd rfl hkind
  · intro j k hk hi hno
    simp only [start, getElem?_concat_iff] at hk
    rcases hk with hk | ⟨rfl, rfl⟩
    · exact absurd hno (hafter j k hk)
    · cases hi

/-- `stop`: it is marked as interlocked exactly when no launch is under way. -/
theorem interlock_stop {s : State} (h : Interlock s) (kind : CallKind) (hkind : kind ≠ .start) :
    Interlock (stop s kind) := by
  have hafter : ∀ j, NoStartAfter (stop s kind) j → NoStartAfter s j := by
    intro j hno a k hja hk
    exact hno a k hja (getElem?_concat_iff.2 (.inl hk))
  constructor
  · exact h.serial
  · exact h.latched
  · intro j k hk hi
    simp only [stop, getElem?_concat_iff] at hk
    rcases hk with hk | ⟨rfl, rfl⟩
    · exact h.stops j k hk hi
    · exact hkind
  · exact fun _ _ _ _ _ => rfl
  · intro j k hk hi hno
    simp only [stop, getElem?_concat_iff] at hk
    rcases hk with hk | ⟨rfl, rfl⟩
    · exact h.clear j k hk hi (hafter j hno)
    · show s.launching = false
      simpa using hi

/-- The rest of a call: a `stop` that leaves its await loop on a clear latch is interlocked from then on. -/
theorem interlock_caller {s : State} (h : Interlock s) {j : Nat} {k : Call} (hk : s.calls[j]? = some k)
    (timeUp : Bool) : Interlock (callStep s j k timeUp) := by
  obtain ⟨-, hstop, hlaunch, hwork, -⟩ := callStep_frame s j k timeUp
  constructor
  · unfold Serial
    rw [hwork]
    exact h.serial
  · unfold Latched
    rw [hlaunch, hwork]
    exact h.latched
  · intro a u hu hi
    rw [calls_callStep hk] at hu
    rcases hu with ⟨rfl, rfl⟩ | ⟨-, hu⟩
    · rw [callAfter_kind]
      rcases hi with hi | ⟨c, hc⟩
      · rcases callAfter_interlocked hi with hi | ⟨ha, -⟩
        · exact h.stops a k hk (.inl hi)
        · exact h.stops a k hk (.inr ha)
      · exact h.stops a k hk (.inr ⟨c, callAfter_await hc⟩)
    · exact h.stops a u hu hi
  · intro a u hu hkind hno
    rw [hstop]
    rw [calls_callStep hk] at hu
    rcases hu with ⟨rfl, rfl⟩ | ⟨-, hu⟩
    · exact h.stopped a k hk (by simpa using hkind) (noStartAfter_callStep hk timeUp hno)
    · exact h.stopped a u hu hkind (noStartAfter_callStep hk timeUp hno)
  · intro a u hu hi hno
    rw [hlaunch]
    rw [calls_callStep hk] at hu
    rcases hu with ⟨rfl, rfl⟩ | ⟨-, hu⟩
    · rcases callAfter_interlocked hi with hi | ⟨-, hl⟩
      · exact h.clear a k hk hi (noStartAfter_callStep hk timeUp hno)
      · exact hl
    · exact h.clear a u hu hi (noStartAfter_callStep hk timeUp hno)

/-- A worker: after an interlocked `stop` the shell is stopped, so no worker passes its latch. -/
theorem interlock_worker {s : State} (h : Interlock s) {i : Nat} {w : Worker} (hw : s.workers[i]? = some w)
    (out : Outcome) : Interlock (workerStep s i w out) := by
  obtain ⟨-, hstop, hcalls⟩ := workerStep_frame s i w out
  have hno : ∀ j, NoStartAfter (workerStep s i w out) j → NoStartAfter s j := by
    intro j
    unfold NoStartAfter
    rw [hcalls]
    exact id
  constructor
  · exact serial_worker h.serial hw out
  · exact latched_worker h.serial h.latched hw out
  · rw [hcalls]
    exact h.stops
  · rw [hcalls, hstop]
    exact fun j k hk hkind hj => h.stopped j k hk hkind (hno j hj)
  · rw [hcalls]
    intro j k hk hi hj
    have hclear := h.clear j k hk hi (hno j hj)
    have hst := h.stopped j k hk (h.stops j k hk (.inl hi)) (hno j hj)
    rw [workerStep_launching]
    cases hp : w.phase <;> simp [hclear, isCurrent, hst]

theorem interlock_step (s : State) (i : Input) (h : Interlock s) : Interlock (step s i).1 := by
  cases i with
  | start => exact interlock_start h
  | stop => exact interlock_stop h .stop (by simp)
  | destroy => exact interlock_stop h .destroy (by simp)
  | caller j timeUp =>
    simp only [step]
    split
    · next k hk => exact interlock_caller h hk timeUp
    · exact h
  | worker i out =>
    simp only [step]
    split
    · next w hw => exact interlock_worker h hw out
    · exact h
  | leaseDies c =>
    simp only [step]
    split
    · split
      · exact ⟨h.serial, h.latched, h.stops, h.stopped, h.clear⟩
      · exact h
    · exact h

theorem interlock_run (inputs : List Input) : Interlock (run inputs) :=
  Machine.run_inv Interlock interlock_step interlock_init inputs

/-- **The interlock**, in every interleaving of calls and workers: once a `stop` has left its await loop
on a clear latch, and until a later `start` has taken the lock, no worker is in `launchNative` or
observing the pidfile of a fork it made. -/
theorem no_launch_after_stop (inputs : List Input) (j : Nat) (k : Call) (hk : (run inputs).calls[j]? = some k)
    (hi : k.interlocked = true)
    (hno : ∀ (a : Nat) (k' : Call), j < a → (run inputs).calls[a]? = some k' → k'.kind ≠ .start) :
    ∀ w ∈ (run inputs).workers, (∀ attempt, w.phase ≠ .launch attempt) ∧ ∀ attempt n, w.phase ≠ .poll attempt n := by
  have h := interlock_run inputs
  intro w hw
  have hclear := h.clear j k hk hi hno
  have hout : w.phase.inLaunch = false := by
    by_contra hin
    obtain ⟨i, hi, rfl⟩ := List.mem_iff_getElem.1 hw
    have := h.latched.2 ⟨i, _, List.getElem?_eq_getElem hi, by simpa using hin⟩
    rw [hclear] at this
    cases this
  constructor
  · intro attempt hp
    rw [hp] at hout
    cases hout
  · intro attempt n hp
    rw [hp] at hout
    cases hout

/-- A worker inside `launchNative` when `stop` comes: the call waits, and is let go by the worker's
`finally` after it has seen the pidfile. -/
def stopDuringLaunch : List Input :=
  [.start] ++ List.replicate 8 (.worker 0 .yes) ++ [.stop, .worker 0 .yes, .worker 0 .yes, .caller 1 false,
    .worker 0 .yes, .caller 1 false]

theorem no_launch_after_stop_waiting :
    (run stopDuringLaunch).calls[1]? = some ⟨.stop, .clear none, true⟩ ∧
      ∀ w ∈ (run stopDuringLaunch).workers, (∀ attempt, w.phase ≠ .launch attempt) ∧
        ∀ attempt n, w.phase ≠ .poll attempt n := by
  have hk : (run stopDuringLaunch).calls[1]? = some ⟨.stop, .clear none, true⟩ := by decide +kernel
  refine ⟨hk, no_launch_after_stop stopDuringLaunch 1 _ hk rfl ?_⟩
  intro a k' ha hk'
  have hlen : (run stopDuringLaunch).calls.length = 2 := by decide +kernel
  have := (List.getElem?_eq_some_iff.1 hk').1
  omega

end ShairKindle.Shell
