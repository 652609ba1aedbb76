import ShairKindle.Shell.Basic

/-! # Who holds a lease

A lease belongs to the worker that constructed it, then to `conn`, then to the call that detached it, and
each hand-over is made under the lock; the last holder closes it outside the lock. The only comparison
that could let two workers publish is that of `generation`, a Java `int`: it tells two workers apart as
long as no worker is still running 2^32 calls after the `start` that made it.
-/

namespace ShairKindle.Shell

/-! ## Holders -/

/-- The lease a worker has constructed and not yet published or closed. -/
def Phase.holds : Phase → Option Nat
  | .publish c => some c
  | .abandon c => some c
  | _ => none

/-- The lease a call has detached and not yet closed. -/
def CallPhase.holds : CallPhase → Option Nat
  | .await c => c
  | .clear c => c
  | .close c => c
  | _ => none

/-- Workers about to publish lease `c`. -/
def privateTo (s : State) (c : Nat) : Nat := (s.workers.map (·.phase)).count (.publish c)

/-- Threads whose next step on a lease is to close `c`. -/
def detachedTo (s : State) (c : Nat) : Nat :=
  (s.workers.map (·.phase)).count (.abandon c) + (s.calls.map (·.phase.holds)).count (some c)

/-- Whether `c` is the current `conn`. -/
def published (s : State) (c : Nat) : Nat := if s.conn = some c then 1 else 0

/-- All who hold lease `c`. -/
def holders (s : State) (c : Nat) : Nat := privateTo s c + published s c + detachedTo s c

theorem count_map_set {α β : Type} [BEq β] (f : α → β) {l : List α} {i : Nat} {x : α}
    (hx : l[i]? = some x) (y : α) (b : β) :
    ((l.set i y).map f).count b + (if f x == b then 1 else 0) = (l.map f).count b + if f y == b then 1 else 0 := by
  induction l generalizing i with
  | nil => cases hx
  | cons a l ih =>
    cases i with
    | zero =>
      simp only [List.getElem?_cons_zero, Option.some.injEq] at hx
      subst hx
      simp only [List.set_cons_zero, List.map_cons, List.count_cons]
      omega
    | succ i =>
      have := ih hx
      simp only [List.set_cons_succ, List.map_cons, List.count_cons]
      omega

/-- The holders after a step of worker `i`. -/
theorem holders_worker {s s' : State} {i : Nat} {w : Worker} {p : Phase} (hw : s.workers[i]? = some w)
    (hws : s'.workers = s.workers.set i { w with phase := p }) (hc : s'.calls = s.calls) (c : Nat) :
    holders s' c + (if w.phase.holds = some c then 1 else 0) + published s c =
      holders s c + (if p.holds = some c then 1 else 0) + published s' c := by
  have h1 := count_map_set (·.phase) hw { w with phase := p } (.publish c)
  have h2 := count_map_set (·.phase) hw { w with phase := p } (.abandon c)
  simp only [holders, privateTo, detachedTo, hws, hc]
  have e1 : (if w.phase.holds = some c then 1 else 0) =
      (if w.phase = .publish c then 1 else 0) + if w.phase = .abandon c then 1 else 0 := by
    cases w.phase <;> simp [Phase.holds]
  have e2 : (if p.holds = some c then 1 else 0) =
      (if p = .publish c then 1 else 0) + if p = .abandon c then 1 else 0 := by
    cases p <;> simp [Phase.holds]
  rw [e1, e2]
  simp only [beq_iff_eq] at h1 h2
  omega

/-- The holders after a step of call `j`. -/
theorem holders_caller {s s' : State} {j : Nat} {k k' : Call} (hk : s.calls[j]? = some k)
    (hws : s'.workers = s.workers) (hcs : s'.calls = s.calls.set j k') (hconn : s'.conn = s.conn) (c : Nat) :
    holders s' c + (if k.phase.holds = some c then 1 else 0) =
      holders s c + if k'.phase.holds = some c then 1 else 0 := by
  have h := count_map_set (·.phase.holds) hk k' (some c)
  simp only [beq_iff_eq] at h
  simp only [holders, privateTo, detachedTo, published, hws, hcs, hconn]
  omega

/-- A call that begins takes `conn` over. -/
theorem holders_begin {s s' : State} {k : Call} {ws : List Worker} (hws : s'.workers = s.workers ++ ws)
    (hjoin : ∀ w ∈ ws, w.phase = .join) (hcs : s'.calls = s.calls ++ [k]) (hconn : s'.conn = none)
    (hk : k.phase.holds = s.conn) (c : Nat) : holders s' c = holders s c := by
  have h1 : (ws.map (·.phase)).count (.publish c) = 0 := by
    rw [List.count_eq_zero, List.mem_map]
    rintro ⟨w, hw, hp⟩
    rw [hjoin w hw] at hp
    cases hp
  have h2 : (ws.map (·.phase)).count (.abandon c) = 0 := by
    rw [List.count_eq_zero, List.mem_map]
    rintro ⟨w, hw, hp⟩
    rw [hjoin w hw] at hp
    cases hp
  simp only [holders, privateTo, detachedTo, published, hws, hcs, hconn, List.map_append, List.count_append,
    List.map_singleton, h1, h2, hk, List.count_singleton, reduceCtorEq, if_false, beq_iff_eq]
  omega

/-! ## The invariant -/

structure Owned (s : State) : Prop where
  gen : s.generation = s.calls.length % 2 ^ 32
  worker : ∀ (i : Nat) (w : Worker), s.workers[i]? = some w → w.g = w.call % 2 ^ 32 ∧ w.call ≤ s.calls.length
  order : ∀ (i j : Nat) (w v : Worker), s.workers[i]? = some w → s.workers[j]? = some v → i < j → w.call < v.call
  conn : ∀ c, s.conn = some c → s.stopped = false ∧ ∃ l w, s.leases[c]? = some l ∧
    s.workers[l.owner]? = some w ∧ w.call = s.calls.length ∧ w.phase = .done
  publishing : ∀ (i : Nat) (w : Worker) (c : Nat), s.workers[i]? = some w → w.phase = .publish c →
    ∃ l, s.leases[c]? = some l ∧ l.owner = i
  fresh : ∀ c, s.leases.length ≤ c → holders s c = 0
  held : ∀ (c : Nat) (l : Lease), s.leases[c]? = some l → l.closed = false → holders s c = 1

/-- No worker is still running 2^32 calls after the `start` that made it. -/
def Young (s : State) (_ : Input) : Prop :=
  ∀ w ∈ s.workers, w.phase ≠ .done → s.calls.length < w.call + 2 ^ 32

instance (s : State) (i : Input) : Decidable (Young s i) := inferInstanceAs (Decidable (∀ w ∈ s.workers, _))

theorem owned_init : Owned .init := by
  constructor <;> simp [State.init, holders, privateTo, published, detachedTo]

/-- A worker that finds itself current is the one of the last call, which was its `start`. -/
theorem Owned.current {s : State} (h : Owned s) {i : Nat} {w : Worker} (hw : s.workers[i]? = some w)
    (hy : s.calls.length < w.call + 2 ^ 32) (hcur : isCurrent s w.g = true) :
    w.call = s.calls.length ∧ s.stopped = false := by
  obtain ⟨hg, hle⟩ := h.worker i w hw
  simp only [isCurrent, Bool.and_eq_true, beq_iff_eq, Bool.not_eq_true'] at hcur
  obtain ⟨hgen, hst⟩ := hcur
  rw [h.gen, hg] at hgen
  exact ⟨by omega, hst⟩

/-- The leases a step may only add to, close or start: every one keeps its owner, and none opens again. -/
structure Evolves (s s' : State) : Prop where
  keeps : ∀ (c : Nat) (l : Lease), s.leases[c]? = some l → ∃ l', s'.leases[c]? = some l' ∧ l'.owner = l.owner
  came : ∀ (c : Nat) (l' : Lease), s'.leases[c]? = some l' → c < s.leases.length →
    ∃ l, s.leases[c]? = some l ∧ (l'.closed = false → l.closed = false)

theorem evolves_of_eq {s s' : State} (h : s'.leases = s.leases) : Evolves s s' := by
  constructor
  · intro c l hl
    exact ⟨l, by rw [h]; exact hl, rfl⟩
  · intro c l' hl' _
    exact ⟨l', by rw [← h]; exact hl', id⟩

theorem evolves_of_modify {s s' : State} {c : Nat} {f : Lease → Lease} (h : s'.leases = s.leases.modify c f)
    (hown : ∀ l, (f l).owner = l.owner) (hcl : ∀ l, (f l).closed = false → l.closed = false) : Evolves s s' := by
  constructor
  · intro a l hl
    rw [h, List.getElem?_modify, hl]
    by_cases hac : c = a
    · exact ⟨f l, by simp [hac], hown l⟩
    · exact ⟨l, by simp [hac], rfl⟩
  · intro a l' hl' ha
    rw [h, List.getElem?_modify, List.getElem?_eq_getElem ha] at hl'
    refine ⟨s.leases[a], List.getElem?_eq_getElem ha, ?_⟩
    by_cases hac : c = a
    · simp only [hac, if_true, Option.map_eq_map, Option.map_some, Option.some.injEq] at hl'
      rw [← hl']
      exact hcl _
    · simp only [hac, if_false, Option.map_eq_map, Option.map_some, Option.some.injEq] at hl'
      rw [← hl']
      exact id

/-! ## Steps of a worker -/

section WorkerStep

variable {s s' : State} {i : Nat} {w : Worker} {p : Phase}

/-- The lease in `conn` is still the one its worker published. -/
theorem Owned.conn_kept (h : Owned s) (hw : s.workers[i]? = some w)
    (hws : s'.workers = s.workers.set i { w with phase := p }) (hcs : s'.calls = s.calls)
    (hst : s'.stopped = s.stopped) (hdone : w.phase = .done → p = .done) (hev : Evolves s s') {c : Nat}
    (hc : s.conn = some c) : s'.stopped = false ∧ ∃ l w', s'.leases[c]? = some l ∧
      s'.workers[l.owner]? = some w' ∧ w'.call = s'.calls.length ∧ w'.phase = .done := by
  obtain ⟨hstop, l, v, hl, hv, hcall, hphase⟩ := h.conn c hc
  obtain ⟨l', hl', hown⟩ := hev.keeps c l hl
  have hi := (List.getElem?_eq_some_iff.1 hw).1
  rw [hst, hcs, hws]
  refine ⟨hstop, l', ?_⟩
  by_cases hil : l.owner = i
  · rw [hil, hw, Option.some.injEq] at hv
    subst hv
    refine ⟨{ w with phase := p }, hl', ?_, hcall, hdone hphase⟩
    rw [hown, hil]
    exact (getElem?_set_iff hi).2 (.inl ⟨rfl, rfl⟩)
  · refine ⟨v, hl', ?_, hcall, hphase⟩
    rw [hown]
    exact (getElem?_set_iff hi).2 (.inr ⟨hil, hv⟩)

/-- A step of worker `i` that keeps the calls and the leases' owners. -/
theorem Owned.move (h : Owned s) (hw : s.workers[i]? = some w)
    (hws : s'.workers = s.workers.set i { w with phase := p }) (hcs : s'.calls = s.calls)
    (hgen : s'.generation = s.generation) (hev : Evolves s s')
    (hconn : ∀ c, s'.conn = some c → s'.stopped = false ∧ ∃ l w', s'.leases[c]? = some l ∧
      s'.workers[l.owner]? = some w' ∧ w'.call = s'.calls.length ∧ w'.phase = .done)
    (hpub : ∀ c, p = .publish c → ∃ l, s'.leases[c]? = some l ∧ l.owner = i)
    (hfresh : ∀ c, s'.leases.length ≤ c → holders s' c = 0)
    (hheld : ∀ (c : Nat) (l : Lease), s'.leases[c]? = some l → l.closed = false → holders s' c = 1) :
    Owned s' := by
  have hi := (List.getElem?_eq_some_iff.1 hw).1
  have hsame : ∀ (a : Nat) (u : Worker), s'.workers[a]? = some u →
      ∃ v, s.workers[a]? = some v ∧ u.g = v.g ∧ u.call = v.call := by
    intro a u hu
    rw [hws, getElem?_set_iff hi] at hu
    rcases hu with ⟨rfl, rfl⟩ | ⟨-, hu⟩
    · exact ⟨w, hw, rfl, rfl⟩
    · exact ⟨u, hu, rfl, rfl⟩
  constructor
  · rw [hgen, hcs]
    exact h.gen
  · intro a u hu
    obtain ⟨v, hv, hg, hc⟩ := hsame a u hu
    rw [hg, hc, hcs]
    exact h.worker a v hv
  · intro a b u v hu hv hab
    obtain ⟨u', hu', -, huc⟩ := hsame a u hu
    obtain ⟨v', hv', -, hvc⟩ := hsame b v hv
    rw [huc, hvc]
    exact h.order a b u' v' hu' hv' hab
  · exact hconn
  · intro a u c hu hp
    rw [hws, getElem?_set_iff hi] at hu
    rcases hu with ⟨rfl, rfl⟩ | ⟨-, hu⟩
    · exact hpub c hp
    · obtain ⟨l, hl, hown⟩ := h.publishing a u c hu hp
      obtain ⟨l', hl', hown'⟩ := hev.keeps c l hl
      exact ⟨l', hl', hown'.trans hown⟩
  · exact hfresh
  · exact hheld

/-- A step that neither takes nor gives a lease away. -/
theorem Owned.plain (h : Owned s) (hw : s.workers[i]? = some w)
    (hws : s'.workers = s.workers.set i { w with phase := p }) (hcs : s'.calls = s.calls)
    (hgen : s'.generation = s.generation) (hst : s'.stopped = s.stopped) (hc : s'.conn = s.conn)
    (hl : s'.leases = s.leases) (hdone : w.phase = .done → p = .done) (hholds : p.holds = w.phase.holds)
    (hpub : ∀ c, p = .publish c → w.phase = .publish c) : Owned s' := by
  have hev := evolves_of_eq hl
  have hhold : ∀ c, holders s' c = holders s c := by
    intro c
    have := holders_worker hw hws hcs c
    simp only [published, hc, hholds] at this
    omega
  refine h.move hw hws hcs hgen hev ?_ ?_ ?_ ?_
  · intro c hcc
    exact h.conn_kept hw hws hcs hst hdone hev (hc ▸ hcc)
  · intro c hp
    rw [hl]
    exact h.publishing i w c hw (hpub c hp)
  · intro c hcl
    rw [hhold]
    exact h.fresh c (by rw [← hl]; exact hcl)
  · intro c l hcl hopen
    rw [hhold]
    exact h.held c l (by rw [← hl]; exact hcl) hopen

/-- A connected socket becomes a new lease, private to its worker. -/
theorem Owned.construct (h : Owned s) (hw : s.workers[i]? = some w) (k : Nat) (hph : w.phase = .connect k) :
    Owned { setPhase s i w (.publish s.leases.length) with leases := s.leases ++ [⟨i, false, false⟩] } := by
  set s' : State := { setPhase s i w (.publish s.leases.length) with leases := s.leases ++ [⟨i, false, false⟩] }
    with hs'
  have hev : Evolves s s' := by
    constructor
    · intro c l hl
      exact ⟨l, getElem?_concat_iff.2 (.inl hl), rfl⟩
    · intro c l' hl' hc
      rw [hs', getElem?_concat_iff] at hl'
      rcases hl' with hl' | ⟨rfl, -⟩
      · exact ⟨l', hl', id⟩
      · omega
  have hhold : ∀ c, holders s' c = holders s c + if s.leases.length = c then 1 else 0 := by
    intro c
    have := holders_worker hw (rfl : s'.workers = _) rfl c
    simp only [hph, Phase.holds, reduceCtorEq, if_false, Option.some.injEq] at this
    have hp : published s' c = published s c := rfl
    omega
  refine h.move hw rfl rfl rfl hev ?_ ?_ ?_ ?_
  · intro c hc
    exact h.conn_kept hw (rfl : s'.workers = _) rfl rfl (by rw [hph]; simp) hev hc
  · rintro c ⟨rfl⟩
    exact ⟨_, getElem?_concat_iff.2 (.inr ⟨rfl, rfl⟩), rfl⟩
  · intro c hc
    have hlen : s'.leases.length = s.leases.length + 1 := by simp [hs']
    rw [hlen] at hc
    rw [hhold, h.fresh c (by omega), if_neg (by omega)]
  · intro c l hl hopen
    rw [hs', getElem?_concat_iff] at hl
    rw [hhold]
    rcases hl with hl | ⟨rfl, -⟩
    · have := (List.getElem?_eq_some_iff.1 hl).1
      rw [h.held c l hl hopen, if_neg (by omega)]
    · rw [h.fresh _ le_rfl, if_pos rfl]

/-- The current worker hands its lease to `conn`, which is empty: nobody else publishes under this
generation. -/
theorem Owned.publish (h : Owned s) (hw : s.workers[i]? = some w) (c : Nat) (hph : w.phase = .publish c)
    (hy : s.calls.length < w.call + 2 ^ 32) (hcur : isCurrent s w.g = true) :
    Owned { setPhase s i w .done with
      conn := some c, router := some c, leases := s.leases.modify c fun l => { l with started := true } } := by
  set s' : State := { setPhase s i w .done with
    conn := some c, router := some c, leases := s.leases.modify c fun l => { l with started := true } } with hs'
  obtain ⟨hcall, hst⟩ := h.current hw hy hcur
  have hi := (List.getElem?_eq_some_iff.1 hw).1
  have hempty : s.conn = none := by
    cases hc : s.conn with
    | none => rfl
    | some c' =>
      obtain ⟨-, l, v, -, hv, hvc, hvp⟩ := h.conn c' hc
      -- its worker would be this one, which has not finished
      rcases Nat.lt_trichotomy l.owner i with hlt | heq | hlt
      · have := h.order _ _ _ _ hv hw hlt
        omega
      · rw [heq, hw, Option.some.injEq] at hv
        rw [← hv, hph] at hvp
        cases hvp
      · have := h.order _ _ _ _ hw hv hlt
        omega
  have hev : Evolves s s' := evolves_of_modify rfl (fun _ => rfl) (fun _ => id)
  have hhold : ∀ a, holders s' a = holders s a := by
    intro a
    have := holders_worker hw (rfl : s'.workers = _) rfl a
    simp only [hph, Phase.holds, published, hempty, reduceCtorEq, if_false, Option.some.injEq] at this
    have hp : (if s'.conn = some a then 1 else 0) = if c = a then 1 else 0 := by simp [hs']
    omega
  refine h.move hw rfl rfl rfl hev ?_ (by simp) ?_ ?_
  · rintro a ⟨rfl⟩
    obtain ⟨l, hl, hown⟩ := h.publishing i w c hw hph
    obtain ⟨l', hl', hown'⟩ := hev.keeps c l hl
    refine ⟨hst, l', { w with phase := .done }, hl', ?_, hcall, rfl⟩
    rw [hown', hown]
    exact (getElem?_set_iff hi).2 (.inl ⟨rfl, rfl⟩)
  · intro a ha
    have hlen : s'.leases.length = s.leases.length := by simp [hs']
    rw [hhold]
    exact h.fresh a (by omega)
  · intro a l' hl' hopen
    have hlen : s'.leases.length = s.leases.length := by simp [hs']
    have ha := (List.getElem?_eq_some_iff.1 hl').1
    obtain ⟨l, hl, hcl⟩ := hev.came a l' hl' (by omega)
    rw [hhold]
    exact h.held a l hl (hcl hopen)

end WorkerStep

/-- `close` on a lease: it has no claim on anybody any more. -/
theorem Owned.close_lease {s s' : State} {c : Nat} (hev : Evolves s s') (hl : s'.leases = (closeLease s c).leases)
    (hfresh : ∀ a, s.leases.length ≤ a → holders s' a = 0)
    (hheld : ∀ (a : Nat) (l : Lease), a ≠ c → s.leases[a]? = some l → l.closed = false → holders s' a = 1) :
    (∀ a, s'.leases.length ≤ a → holders s' a = 0) ∧
      ∀ (a : Nat) (l : Lease), s'.leases[a]? = some l → l.closed = false → holders s' a = 1 := by
  have hlen : s'.leases.length = s.leases.length := by rw [hl]; simp [closeLease]
  constructor
  · intro a ha
    exact hfresh a (by omega)
  · intro a l' hl' hopen
    have ha := (List.getElem?_eq_some_iff.1 hl').1
    obtain ⟨l, hls, hcl⟩ := hev.came a l' hl' (by omega)
    refine hheld a l ?_ hls (hcl hopen)
    rintro rfl
    rw [hl] at hl'
    simp only [closeLease, List.getElem?_modify, hls, if_true, Option.map_eq_map, Option.map_some,
      Option.some.injEq] at hl'
    rw [← hl'] at hopen
    cases hopen

theorem nextPhase_holds (s : State) (i : Nat) (w : Worker) (out : Outcome) (h : w.phase.holds = none) :
    (nextPhase s i w out).holds = none := by
  obtain ⟨g, call, phase⟩ := w
  cases phase <;> simp only [nextPhase]
  all_goals repeat' split
  all_goals first | rfl | exact h

theorem owned_worker {s : State} (h : Owned s) {i : Nat} {w : Worker} (hw : s.workers[i]? = some w)
    (out : Outcome) (hy : w.phase ≠ .done → s.calls.length < w.call + 2 ^ 32) :
    Owned (workerStep s i w out) := by
  cases hph : w.phase with
  | connect k =>
    simp only [workerStep, hph]
    split
    · exact h.construct hw k hph
    · exact h.plain hw (rfl : (setPhase s i w _).workers = _) rfl rfl rfl rfl rfl (by simp [hph])
        (by simp [hph, Phase.holds]) (by simp)
  | publish c =>
    simp only [workerStep, hph]
    split
    · next hcur => exact h.publish hw c hph (hy (by rw [hph]; simp)) hcur
    · exact h.plain hw (rfl : (setPhase s i w _).workers = _) rfl rfl rfl rfl rfl (by simp [hph])
        (by simp [hph, Phase.holds]) (by simp)
  | abandon c =>
    simp only [workerStep, hph]
    have hev : Evolves s (closeLease (setPhase s i w .done) c) :=
      evolves_of_modify rfl (fun _ => rfl) (fun _ hcl => by cases hcl)
    have hhold : ∀ a, holders (closeLease (setPhase s i w .done) c) a + (if c = a then 1 else 0) = holders s a := by
      intro a
      have := holders_worker hw (rfl : (closeLease (setPhase s i w .done) c).workers = _) rfl a
      simp only [hph, Phase.holds, reduceCtorEq, if_false, Option.some.injEq] at this
      have hp : published (closeLease (setPhase s i w .done) c) a = published s a := rfl
      omega
    obtain ⟨hfresh, hheld⟩ := Owned.close_lease hev rfl
      (fun a ha => by have := hhold a; have := h.fresh a ha; omega)
      (fun a l hac hl ho => by have := hhold a; rw [if_neg (Ne.symm hac)] at this; have := h.held a l hl ho; omega)
    refine h.move hw (rfl : (closeLease (setPhase s i w .done) c).workers = _) rfl rfl hev ?_ (by simp) hfresh hheld
    intro a ha
    exact h.conn_kept hw (rfl : (closeLease (setPhase s i w .done) c).workers = _) rfl rfl (by simp [hph]) hev ha
  | latch =>
    simp only [workerStep, hph]
    split
    · exact h.plain hw (rfl : (setPhase s i w (.gate 0)).workers = _) rfl rfl rfl rfl rfl (by simp [hph])
        (by simp [hph, Phase.holds]) (by simp)
    · exact h.plain hw (rfl : (setPhase s i w _).workers = _) rfl rfl rfl rfl rfl (by simp [hph])
        (by simp [hph, Phase.holds]) (by simp)
  | unlatch launched =>
    simp only [workerStep, hph]
    refine h.plain hw (rfl : (setPhase s i w _).workers = _) rfl rfl rfl rfl rfl (by simp [hph]) ?_ ?_
    · cases launched <;> simp [hph, Phase.holds]
    · cases launched <;> simp
  | _ =>
    simp only [workerStep, hph]
    have hnone := nextPhase_holds s i w out (by rw [hph]; rfl)
    refine h.plain hw (rfl : (setPhase s i w _).workers = _) rfl rfl rfl rfl rfl ?_ ?_ ?_
    · intro hd
      simp [nextPhase, hd]
    · rw [hnone, hph]
      rfl
    · intro c hc
      rw [hc] at hnone
      cases hnone

/-! ## Steps of a call -/

/-- The step of a call leaves the workers and `conn` where they are. -/
theorem Owned.call_move {s s' : State} (h : Owned s) (hws : s'.workers = s.workers)
    (hlen : s'.calls.length = s.calls.length) (hgen : s'.generation = s.generation)
    (hst : s'.stopped = s.stopped) (hconn : s'.conn = s.conn) (hev : Evolves s s')
    (hfresh : ∀ c, s'.leases.length ≤ c → holders s' c = 0)
    (hheld : ∀ (c : Nat) (l : Lease), s'.leases[c]? = some l → l.closed = false → holders s' c = 1) :
    Owned s' := by
  constructor
  · rw [hgen, hlen]
    exact h.gen
  · rw [hws, hlen]
    exact h.worker
  · rw [hws]
    exact h.order
  · rw [hconn, hst, hws, hlen]
    intro c hc
    obtain ⟨hs, l, w, hl, hw, hcall, hph⟩ := h.conn c hc
    obtain ⟨l', hl', hown⟩ := hev.keeps c l hl
    exact ⟨hs, l', w, hl', by rw [hown]; exact hw, hcall, hph⟩
  · rw [hws]
    intro i w c hw hp
    obtain ⟨l, hl, hown⟩ := h.publishing i w c hw hp
    obtain ⟨l', hl', hown'⟩ := hev.keeps c l hl
    exact ⟨l', hl', hown'.trans hown⟩
  · exact hfresh
  · exact hheld

theorem owned_caller {s : State} (h : Owned s) {j : Nat} {k : Call} (hk : s.calls[j]? = some k) (timeUp : Bool) :
    Owned (callStep s j k timeUp) := by
  obtain ⟨hgen, hst, -, hws, hconn⟩ := callStep_frame s j k timeUp
  have hcs := callStep_calls hk timeUp
  have hlen : (callStep s j k timeUp).calls.length = s.calls.length := by rw [hcs, List.length_set]
  have hhold := holders_caller hk hws hcs hconn
  by_cases hclose : ∃ c, k.phase = .close (some c)
  · obtain ⟨c, hp⟩ := hclose
    have hl : (callStep s j k timeUp).leases = (closeLease s c).leases := by simp [callStep, hp]
    have hev : Evolves s (callStep s j k timeUp) :=
      evolves_of_modify hl (fun _ => rfl) (fun _ hcl => by cases hcl)
    have hafter : (callAfter s k timeUp).phase.holds = none := by
      simp only [callAfter, hp]
      split <;> rfl
    have hbefore : k.phase.holds = some c := by rw [hp]; rfl
    simp only [hbefore, hafter, reduceCtorEq, if_false, Option.some.injEq] at hhold
    obtain ⟨hfresh, hheld⟩ := Owned.close_lease hev hl
      (fun a ha => by have := hhold a; have := h.fresh a ha; omega)
      (fun a l hac hls ho => by
        have := hhold a
        rw [if_neg (Ne.symm hac)] at this
        have := h.held a l hls ho
        omega)
    exact h.call_move hws hlen hgen hst hconn hev hfresh hheld
  · have hsame : (callAfter s k timeUp).phase.holds = k.phase.holds := by
      unfold callAfter
      cases hp : k.phase with
      | await c => dsimp only; repeat' split
                   all_goals simp [CallPhase.holds, hp]
      | clear c => rfl
      | close c =>
        cases c with
        | none => dsimp only; split <;> rfl
        | some c => exact absurd ⟨c, hp⟩ hclose
      | teardown => rfl
      | done => simp [hp]
    have hl : (callStep s j k timeUp).leases = s.leases := by
      unfold callStep
      cases hp : k.phase with
      | await c => dsimp only; repeat' split
                   all_goals rfl
      | clear c => rfl
      | close c =>
        cases c with
        | none => rfl
        | some c => exact absurd ⟨c, hp⟩ hclose
      | teardown => rfl
      | done => rfl
    rw [hsame] at hhold
    refine h.call_move hws hlen hgen hst hconn (evolves_of_eq hl) ?_ ?_
    · intro c hc
      have := hhold c
      have := h.fresh c (by rw [← hl]; exact hc)
      omega
    · intro c l hcl ho
      have := hhold c
      have := h.held c l (by rw [← hl]; exact hcl) ho
      omega

/-- A call that begins: the generation moves on, and `conn` goes to the call. -/
theorem owned_begin {s s' : State} (h : Owned s) {k : Call} {ws : List Worker}
    (hws : s'.workers = s.workers ++ ws)
    (hnew : ws = [] ∨ ws = [⟨bump s.generation, s.calls.length + 1, .join⟩])
    (hcs : s'.calls = s.calls ++ [k]) (hgen : s'.generation = bump s.generation)
    (hconn : s'.conn = none) (hk : k.phase.holds = s.conn) (hl : s'.leases = s.leases) : Owned s' := by
  have hlen : s'.calls.length = s.calls.length + 1 := by simp [hcs]
  have hg : bump s.generation = (s.calls.length + 1) % 2 ^ 32 := by
    have := h.gen
    unfold bump
    omega
  have hget : ∀ (a : Nat) (u : Worker), s'.workers[a]? = some u → s.workers[a]? = some u ∨
      a = s.workers.length ∧ u = ⟨bump s.generation, s.calls.length + 1, .join⟩ := by
    intro a u hu
    rw [hws] at hu
    rcases hnew with rfl | rfl
    · rw [List.append_nil] at hu
      exact .inl hu
    · exact getElem?_concat_iff.1 hu
  have hhold := holders_begin hws (by rcases hnew with rfl | rfl <;> simp) hcs hconn hk
  constructor
  · rw [hgen, hlen, hg]
  · intro i w hw
    rw [hlen]
    rcases hget i w hw with hw | ⟨-, rfl⟩
    · obtain ⟨h1, h2⟩ := h.worker i w hw
      exact ⟨h1, by omega⟩
    · exact ⟨hg, le_rfl⟩
  · intro i j w v hw hv hij
    rcases hget i w hw with hw | ⟨rfl, rfl⟩
    · rcases hget j v hv with hv | ⟨-, rfl⟩
      · exact h.order i j w v hw hv hij
      · have := (h.worker i w hw).2
        dsimp only
        omega
    · rcases hget j v hv with hv | ⟨rfl, -⟩
      · have := (List.getElem?_eq_some_iff.1 hv).1
        omega
      · omega
  · intro c hc
    rw [hconn] at hc
    cases hc
  · intro i w c hw hp
    rw [hl]
    rcases hget i w hw with hw | ⟨-, rfl⟩
    · exact h.publishing i w c hw hp
    · cases hp
  · intro c hc
    rw [hhold]
    exact h.fresh c (by rw [← hl]; exact hc)
  · intro c l hcl ho
    rw [hhold]
    exact h.held c l (by rw [← hl]; exact hcl) ho

theorem owned_stop {s : State} (h : Owned s) (kind : CallKind) : Owned (stop s kind) := by
  refine owned_begin h (List.append_nil s.workers).symm (.inl rfl) rfl rfl rfl ?_ rfl
  dsimp only
  split <;> rfl

theorem owned_step (s : State) (i : Input) (h : Owned s) (hy : Young s i) : Owned (step s i).1 := by
  cases i with
  | start =>
    refine owned_begin h rfl (.inr rfl) rfl rfl rfl ?_ rfl
    dsimp only
    split
    · next hc => rw [hc]; rfl
    · rfl
  | stop => exact owned_stop h .stop
  | destroy => exact owned_stop h .destroy
  | caller j timeUp =>
    simp only [step]
    split
    · next k hk => exact owned_caller h hk timeUp
    · exact h
  | worker i out =>
    simp only [step]
    split
    · next w hw => exact owned_worker h hw out (hy w (List.mem_of_getElem? hw))
    · exact h
  | leaseDies c =>
    simp only [step]
    split
    · split
      · have hev : Evolves s (closeLease s c) := evolves_of_modify rfl (fun _ => rfl) (fun _ hcl => by cases hcl)
        obtain ⟨hfresh, hheld⟩ := Owned.close_lease hev rfl (fun a ha => h.fresh a ha)
          (fun a l _ hl ho => h.held a l hl ho)
        exact h.call_move rfl rfl rfl rfl rfl hev hfresh hheld
      · exact h
    · exact h

theorem owned_run (inputs : List Input) (hy : Machine.AllSteps step Young .init inputs) : Owned (run inputs) :=
  Machine.run_inv_of_allSteps Owned owned_step owned_init inputs hy

/-! ## No stopped shell keeps a live lease -/

/-- **One holder for every open lease**, in every interleaving in which no worker is still running 2^32
calls after its `start`: `conn` is set only while the shell is not stopped, to a lease of the worker of
the last `start`, which is the last call; and a lease that is not closed is private to the worker about
to publish it, or is `conn`, or has been detached to exactly one thread, which closes it next. -/
theorem open_lease_held_once (inputs : List Input) (hy : Machine.AllSteps step Young .init inputs) :
    let s := run inputs
    (∀ c, s.conn = some c → s.stopped = false ∧ ∃ l w, s.leases[c]? = some l ∧ s.workers[l.owner]? = some w ∧
      l.owner + 1 = s.workers.length ∧ w.call = s.calls.length ∧ w.g = s.generation) ∧
    ∀ (c : Nat) (l : Lease), s.leases[c]? = some l →
      l.closed = true ∨ privateTo s c + published s c + detachedTo s c = 1 := by
  intro s
  have h : Owned s := owned_run inputs hy
  constructor
  · intro c hc
    obtain ⟨hst, l, w, hl, hw, hcall, -⟩ := h.conn c hc
    refine ⟨hst, l, w, hl, hw, ?_, hcall, ?_⟩
    · -- a later worker would come from a later call
      have hlt := (List.getElem?_eq_some_iff.1 hw).1
      by_contra hne
      obtain ⟨v, hv⟩ : ∃ v, s.workers[l.owner + 1]? = some v :=
        ⟨s.workers[l.owner + 1], List.getElem?_eq_getElem (by omega)⟩
      have := h.order _ _ _ _ hw hv (Nat.lt_succ_self _)
      have := (h.worker _ _ hv).2
      omega
    · rw [(h.worker _ _ hw).1, h.gen, hcall]
  · intro c l hl
    cases hc : l.closed with
    | true => exact .inl rfl
    | false => exact .inr (h.held c l hl hc)

/-- The old lease is detached and closed, the new one published. -/
theorem open_lease_held_once_restart :
    (run eagerRestart).conn = some 1 ∧ (run eagerRestart).stopped = false ∧
      ∀ (c : Nat) (l : Lease), (run eagerRestart).leases[c]? = some l → l.closed = true ∨
        privateTo (run eagerRestart) c + published (run eagerRestart) c + detachedTo (run eagerRestart) c = 1 := by
  have h := open_lease_held_once eagerRestart (by decide +kernel)
  have hc : (run eagerRestart).conn = some 1 := by decide +kernel
  exact ⟨hc, (h.1 1 hc).1, h.2⟩

/-! ## The generation comes round -/

/-- A whole `stop` call, the `j`-th call. -/
def stopCall (j : Nat) : List Input := [.stop, .caller j false, .caller j false, .caller j false]

/-- Stopped, with a worker that has connected and not yet taken the lock to publish. -/
def halted (g : Nat) (calls : List Call) : State :=
  ⟨g, true, none, false, none, [⟨1, 1, .publish 0⟩], calls, [⟨0, false, false⟩]⟩

theorem stopCall_halted (g : Nat) (calls : List Call) :
    (Machine.run step (halted g calls) (stopCall calls.length)).1 =
      halted (bump g) (calls ++ [⟨.stop, .done, true⟩]) := by
  simp [stopCall, Machine.run_cons, step, stop, halted, callStep]

theorem stopCalls_halted (n g : Nat) (calls : List Call) :
    (Machine.run step (halted g calls) ((List.range' calls.length n).flatMap stopCall)).1 =
      halted (bump^[n] g) (calls ++ List.replicate n ⟨.stop, .done, true⟩) := by
  induction n generalizing g calls with
  | zero => simp
  | succ n ih =>
    have hnext := ih (bump g) (calls ++ [⟨.stop, .done, true⟩])
    rw [List.length_append, List.length_singleton] at hnext
    rw [List.range'_succ, List.flatMap_cons, Machine.run_append, stopCall_halted, hnext, List.replicate_succ,
      List.append_assoc]
    rfl

theorem iterate_bump (n g : Nat) (hg : g < 2 ^ 32) : bump^[n] g = (g + n) % 2 ^ 32 := by
  induction n with
  | zero => exact (Nat.mod_eq_of_lt hg).symm
  | succ n ih =>
    rw [Function.iterate_succ_apply', ih, bump]
    omega

/-- One more `start`, and the old worker publishes before the new one does. -/
def restart : List Input := [.start, .worker 0 .yes] ++ publishRun 1

theorem restart_halted (calls : List Call) :
    (Machine.run step (halted 0 calls) restart).1 =
      ⟨1, false, some 1, false, some 1, [⟨1, 1, .done⟩, ⟨1, calls.length + 1, .done⟩],
        calls ++ [⟨.start, .done, false⟩], [⟨0, true, false⟩, ⟨1, true, false⟩]⟩ := by
  simp [restart, publishRun, List.replicate, Machine.run_cons, step, start, halted, workerStep, nextPhase, isCurrent, joined,
    setPhase, bump, connectAttempts]

/-- A worker connects, and the shell is stopped. -/
def stopConnected : List Input := [.start] ++ List.replicate 14 (.worker 0 .yes) ++ stopCall 1

theorem run_stopConnected : run stopConnected = halted 2 [⟨.start, .done, false⟩, ⟨.stop, .done, true⟩] := by
  decide +kernel

/-- A worker connects; the framework stops the shell `n + 1` times and starts it again; the worker
publishes, and so does the new one. -/
def lateWorker (n : Nat) : List Input := stopConnected ++ (List.range' 2 n).flatMap stopCall ++ restart

theorem run_lateWorker (n : Nat) (hn : (2 + n) % 2 ^ 32 = 0) :
    run (lateWorker n) =
      ⟨1, false, some 1, false, some 1, [⟨1, 1, .done⟩, ⟨1, n + 3, .done⟩],
        [⟨.start, .done, false⟩, ⟨.stop, .done, true⟩] ++ List.replicate n ⟨.stop, .done, true⟩ ++
          [⟨.start, .done, false⟩], [⟨0, true, false⟩, ⟨1, true, false⟩]⟩ := by
  have hstops := stopCalls_halted n 2 [⟨.start, .done, false⟩, ⟨.stop, .done, true⟩]
  rw [iterate_bump n 2 (by norm_num), hn, List.length_cons, List.length_singleton] at hstops
  have hfirst : (Machine.run step .init stopConnected).1 = _ := run_stopConnected
  rw [run, lateWorker, Machine.run_append_fst, Machine.run_append_fst, hfirst, hstops, restart_halted]
  simp

theorem lateWorker_unheld (n : Nat) (hn : (2 + n) % 2 ^ 32 = 0) :
    (run (lateWorker n)).leases[0]? = some ⟨0, true, false⟩ ∧
      privateTo (run (lateWorker n)) 0 + published (run (lateWorker n)) 0 + detachedTo (run (lateWorker n)) 0 = 0 := by
  rw [run_lateWorker n hn]
  refine ⟨rfl, ?_⟩
  simp [privateTo, published, detachedTo, CallPhase.holds, List.count_replicate]

/-- **A lease nobody closes.** After 2^32 calls the generation is that of a worker which is still about to
publish: it publishes, the new worker publishes over it, and its lease stays open with no holder. -/
theorem late_worker_leaks_lease :
    (run (lateWorker (2 ^ 32 - 2))).leases[0]? = some ⟨0, true, false⟩ ∧
      privateTo (run (lateWorker (2 ^ 32 - 2))) 0 + published (run (lateWorker (2 ^ 32 - 2))) 0 +
        detachedTo (run (lateWorker (2 ^ 32 - 2))) 0 = 0 :=
  lateWorker_unheld (2 ^ 32 - 2) (by norm_num)

end ShairKindle.Shell
