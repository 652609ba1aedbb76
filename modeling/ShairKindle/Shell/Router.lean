import ShairKindle.Shell.Basic

/-! # The router and the published lease

`publish` sets `conn` and the router's lease together under the lock, but `start` and `stop` clear the
router after they have left it (KindletShell.java:180, :201). For `stop` that is harmless, since no worker
publishes while the shell is stopped. A `start` that replaces a lease has its new worker running by then:
if the worker publishes first, the clearing takes the new lease from the router.
-/

namespace ShairKindle.Shell

/-- The framework makes its calls one after another. -/
def OneAtATime (s : State) (i : Input) : Prop :=
  i = .start ∨ i = .stop ∨ i = .destroy → ∀ k ∈ s.calls, k.phase = .done

/-- The call is about to clear the router. -/
def CallPhase.clearing : CallPhase → Bool
  | .clear _ => true
  | _ => false

/-- A `start` that has a lease to replace clears the router before a worker has published. -/
def ClearsFirst (s : State) : Input → Prop
  | .caller j _ => ∀ k ∈ s.calls[j]?, k.kind = .start → k.phase.clearing = true → s.conn = none
  | _ => True

instance (s : State) (i : Input) : Decidable (OneAtATime s i) := inferInstanceAs (Decidable (_ → _))

instance (s : State) (i : Input) : Decidable (ClearsFirst s i) := by
  cases i <;> unfold ClearsFirst <;> infer_instance

/-- A call that still has to clear the router. -/
def CallPhase.clears : CallPhase → Bool
  | .await _ => true
  | .clear _ => true
  | _ => false

structure Routed (s : State) : Prop where
  last : ∀ (j : Nat) (k : Call), s.calls[j]? = some k → k.phase ≠ .done → j + 1 = s.calls.length
  agree : (∀ k ∈ s.calls, k.phase.clears = false) → s.router = s.conn
  stopping : ∀ k ∈ s.calls, k.kind ≠ .start → k.phase ≠ .done → s.stopped = true ∧ s.conn = none
  awaits : ∀ k ∈ s.calls, k.kind = .start → ∀ c, k.phase ≠ .await c

theorem routed_init : Routed .init := by
  constructor <;> simp [State.init]

/-- A call that begins, when all before it are over. -/
theorem routed_begin {s s' : State} (h : Routed s) (hdone : ∀ k ∈ s.calls, k.phase = .done) {k : Call}
    (hcs : s'.calls = s.calls ++ [k]) (hconn : s'.conn = none) (hrouter : s'.router = s.router)
    (hstop : k.kind ≠ .start → s'.stopped = true) (hclear : k.phase.clears = true ∨ s.conn = none)
    (haw : k.kind = .start → ∀ c, k.phase ≠ .await c) : Routed s' := by
  have hagree : s.router = s.conn := h.agree fun k hk => by rw [hdone k hk]; rfl
  have hmem : ∀ k' ∈ s'.calls, k' ∈ s.calls ∨ k' = k := by
    intro k' hk'
    rw [hcs] at hk'
    simpa using hk'
  constructor
  · intro j k' hk' hne
    rw [hcs, getElem?_concat_iff] at hk'
    rcases hk' with hk' | ⟨rfl, -⟩
    · exact absurd (hdone k' (List.mem_of_getElem? hk')) hne
    · simp [hcs]
  · intro hnone
    rcases hclear with hc | hc
    · have := hnone k (by simp [hcs])
      rw [hc] at this
      cases this
    · rw [hrouter, hagree, hc, hconn]
  · intro k' hk' hkind hne
    rcases hmem k' hk' with hk' | rfl
    · exact absurd (hdone k' hk') hne
    · exact ⟨hstop hkind, hconn⟩
  · intro k' hk' hkind
    rcases hmem k' hk' with hk' | rfl
    · exact h.awaits k' hk' hkind
    · exact haw hkind

/-- What a call does to the router: only its clearing step touches it. -/
theorem callStep_router (s : State) (j : Nat) (k : Call) (timeUp : Bool) :
    (callStep s j k timeUp).router = if k.phase.clearing then none else s.router := by
  obtain ⟨kind, phase, interlocked⟩ := k
  cases phase with
  | await c =>
    simp only [callStep]
    split
    · rfl
    · split <;> rfl
  | close c => cases c <;> rfl
  | clear c => rfl
  | teardown => rfl
  | done => rfl

theorem routed_caller {s : State} (h : Routed s) {j : Nat} {k : Call} (hk : s.calls[j]? = some k) (timeUp : Bool)
    (hfirst : k.kind = .start → k.phase.clearing = true → s.conn = none) :
    Routed (callStep s j k timeUp) := by
  obtain ⟨-, hst, -, -, hconn⟩ := callStep_frame s j k timeUp
  have hcs := callStep_calls hk timeUp
  have hrouter := callStep_router s j k timeUp
  have hkmem : k ∈ s.calls := List.mem_of_getElem? hk
  have hmem : ∀ u ∈ (callStep s j k timeUp).calls, u ∈ s.calls ∨ u = callAfter s k timeUp := by
    intro u hu
    rw [hcs] at hu
    exact List.mem_or_eq_of_mem_set hu
  have hdone : k.phase = .done → callAfter s k timeUp = k := by
    intro hd
    simp [callAfter, hd]
  constructor
  · intro a u hu hne
    rw [hcs, List.length_set]
    rw [calls_callStep hk] at hu
    rcases hu with ⟨rfl, rfl⟩ | ⟨-, hu⟩
    · exact h.last a k hk fun hd => hne (by rw [hdone hd]; exact hd)
    · exact h.last a u hu hne
  · intro hnone
    rw [hrouter, hconn]
    split
    · next hcl =>
      -- the clearing step: a `stop` has no lease to lose, and a `start` was quick enough
      by_cases hkind : k.kind = .start
      · exact (hfirst hkind hcl).symm
      · refine (h.stopping k hkmem hkind fun hd => ?_).2.symm
        rw [hd] at hcl
        cases hcl
    · next hcl =>
      apply h.agree
      intro u hu
      obtain ⟨a, ha, rfl⟩ := List.mem_iff_getElem.1 hu
      by_cases haj : a = j
      · subst haj
        have hself : s.calls[a] = k := by
          rw [List.getElem?_eq_getElem ha, Option.some.injEq] at hk
          exact hk
        rw [hself]
        have hafter := hnone (callAfter s k timeUp) (by
          rw [hcs]
          exact List.mem_set ha _)
        cases hp : k.phase with
        | await c =>
          -- a call that waits still has to clear the router afterwards
          simp only [callAfter, hp] at hafter
          repeat' split at hafter
          all_goals simp [CallPhase.clears, hp] at hafter
        | clear c => exact absurd (by rw [hp]; rfl) hcl
        | close c => rfl
        | teardown => rfl
        | done => rfl
      · exact hnone _ (List.mem_of_getElem? ((calls_callStep hk timeUp).2
          (.inr ⟨haj, List.getElem?_eq_getElem ha⟩)))
  · intro u hu hkind hne
    rw [hst, hconn]
    rcases hmem u hu with hu | rfl
    · exact h.stopping u hu hkind hne
    · refine h.stopping k hkmem (by simpa using hkind) fun hd => hne ?_
      rw [hdone hd]
      exact hd
  · intro u hu hkind c hc
    rcases hmem u hu with hu | rfl
    · exact h.awaits u hu hkind c hc
    · exact h.awaits k hkmem (by simpa using hkind) c (callAfter_await hc)

/-- A worker that publishes sets both; no other step of a worker touches either. -/
theorem workerStep_router (s : State) (i : Nat) (w : Worker) (out : Outcome) :
    (workerStep s i w out).router = s.router ∧ (workerStep s i w out).conn = s.conn ∨
      (workerStep s i w out).router = (workerStep s i w out).conn ∧ s.stopped = false := by
  obtain ⟨g, call, phase⟩ := w
  cases phase <;> simp only [workerStep]
  case publish c =>
    split
    · next hcur =>
      simp only [isCurrent, Bool.and_eq_true, Bool.not_eq_true'] at hcur
      exact .inr ⟨rfl, hcur.2⟩
    · exact .inl ⟨rfl, rfl⟩
  case latch => split <;> exact .inl ⟨rfl, rfl⟩
  case connect k => split <;> exact .inl ⟨rfl, rfl⟩
  all_goals exact .inl ⟨rfl, rfl⟩

theorem routed_worker {s : State} (h : Routed s) (i : Nat) (w : Worker) (out : Outcome) :
    Routed (workerStep s i w out) := by
  obtain ⟨-, hst, hcs⟩ := workerStep_frame s i w out
  rcases workerStep_router s i w out with ⟨hr, hc⟩ | ⟨hrc, hlive⟩
  · constructor
    · rw [hcs]
      exact h.last
    · rw [hcs, hr, hc]
      exact h.agree
    · rw [hcs, hst, hc]
      exact h.stopping
    · rw [hcs]
      exact h.awaits
  · constructor
    · rw [hcs]
      exact h.last
    · exact fun _ => hrc
    · -- nothing is published while a `stop` is under way
      rw [hcs]
      intro k hk hkind hne
      rw [(h.stopping k hk hkind hne).1] at hlive
      cases hlive
    · rw [hcs]
      exact h.awaits

theorem routed_stop {s : State} (h : Routed s) (hdone : ∀ k ∈ s.calls, k.phase = .done) (kind : CallKind)
    (hkind : kind ≠ .start) : Routed (stop s kind) := by
  refine routed_begin h hdone rfl rfl rfl (fun _ => rfl) (.inl ?_) (fun hk => absurd hk hkind)
  dsimp only
  split <;> rfl

theorem routed_step (s : State) (i : Input) (h : Routed s) (hp : OneAtATime s i ∧ ClearsFirst s i) :
    Routed (step s i).1 := by
  obtain ⟨hone, hfirst⟩ := hp
  cases i with
  | start =>
    refine routed_begin h (hone (.inl rfl)) rfl rfl rfl (fun hk => absurd rfl hk) ?_ ?_
    · by_cases hc : s.conn = none
      · exact .inr hc
      · exact .inl (by simp [hc, CallPhase.clears])
    · intro _ c
      dsimp only
      split <;> simp
  | stop => exact routed_stop h (hone (.inr (.inl rfl))) .stop (by simp)
  | destroy => exact routed_stop h (hone (.inr (.inr rfl))) .destroy (by simp)
  | caller j timeUp =>
    simp only [step]
    split
    · next k hk => exact routed_caller h hk timeUp (hfirst k hk)
    · exact h
  | worker i out =>
    simp only [step]
    split
    · next w hw => exact routed_worker h i w out
    · exact h
  | leaseDies c =>
    simp only [step]
    split
    · split
      · exact ⟨h.last, h.agree, h.stopping, h.awaits⟩
      · exact h
    · exact h

/-- **Keys reach the published lease**, in every interleaving of calls made one after another in which no
`start` clears the router after its own worker has published: whenever no call is under way, the router
holds exactly `conn`. -/
theorem router_holds_conn (inputs : List Input)
    (hin : Machine.AllSteps step (fun s i => OneAtATime s i ∧ ClearsFirst s i) .init inputs)
    (hidle : ∀ k ∈ (run inputs).calls, k.phase = .done) : (run inputs).router = (run inputs).conn := by
  have h : Routed (run inputs) := Machine.run_inv_of_allSteps Routed routed_step routed_init inputs hin
  exact h.agree fun k hk => by rw [hidle k hk]; rfl

/-- A restart whose `start` is through with the router before its worker gets anywhere. -/
def clearedInTime : List Input :=
  .start :: publishRun 0 ++ .start :: .caller 1 false :: .caller 1 false :: publishRun 1

theorem router_holds_conn_restart :
    (run clearedInTime).conn = some 1 ∧ (run clearedInTime).router = (run clearedInTime).conn :=
  ⟨by decide +kernel, router_holds_conn _ (by decide +kernel) (by decide +kernel)⟩

/-- The other order: the new worker publishes before its `start` clears the router. The lease stays
published, both calls are over, and no key reaches it any more. -/
theorem restart_empties_router :
    Machine.AllSteps step OneAtATime .init eagerRestart ∧
      (run eagerRestart).calls = [⟨.start, .done, false⟩, ⟨.start, .done, false⟩] ∧
      (run eagerRestart).conn = some 1 ∧ (run eagerRestart).router = none := by
  decide +kernel

end ShairKindle.Shell
