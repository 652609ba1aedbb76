import Mathlib.Order.RelClasses
import Mathlib.Tactic

/-!
# Programs that may fail or be killed

A program works on a store by single operations. Each of them may fail, which leaves the store as it
was, and before each of them the process may be killed; `Faults` says when. What such a program can
promise is therefore a promise about every way out of it: `Triple P x Q C` gives a condition `Q` for
the value it returns and a condition `C` for the store an exception or a kill leaves behind. When the
promise is that the store only ever moves along a preorder `R`, the rules of `Keeps` are all that is
needed: they compose, they frame what `R` preserves, and they follow loops. `Keeps` promises nothing about
getting to the end; that a program does when nothing disturbs it is what `Runs` says.
-/

namespace Crash

/-- Which operations fail, and before which the process is killed; operations are numbered. -/
structure Faults where
  dies : Option Nat
  fails : Nat → Bool

/-- How a program ends without a value. -/
inductive Halt (ε : Type)
  | thrown (e : ε)
  | killed
deriving DecidableEq

/-- A program: from the store and the number of operations done to a result and the same. -/
def Prog (σ ε α : Type) : Type := Faults → σ × Nat → Except (Halt ε) α × (σ × Nat)

namespace Prog

variable {σ ε α β : Type}

instance : Monad (Prog σ ε) where
  pure a := fun _ s => (.ok a, s)
  bind x f := fun F s =>
    match x F s with
    | (.ok a, s') => f a F s'
    | (.error h, s') => (.error h, s')

/-- Throw an exception. -/
def throw (e : ε) : Prog σ ε α := fun _ s => (.error (.thrown e), s)

/-- Look at the store. -/
def peek (f : σ → α) : Prog σ ε α := fun _ s => (.ok (f s.1), s)

/-- One operation; it fails if it has to or if it cannot be done. -/
def op (f : σ → Option (α × σ)) : Prog σ ε (Option α) := fun F s =>
  if F.dies = some s.2 then (.error .killed, s)
  else
    match if F.fails s.2 then none else f s.1 with
    | some (a, s') => (.ok (some a), (s', s.2 + 1))
    | none => (.ok none, (s.1, s.2 + 1))

/-- An operation that reads. -/
def query (f : σ → Option α) : Prog σ ε (Option α) := op fun s => (f s).map (·, s)

/-- An operation that changes the store; tells whether it succeeded. -/
def attempt (f : σ → Option σ) : Prog σ ε Bool := do
  let r ← op fun s => (f s).map ((), ·)
  return r.isSome

/-- The store a run leaves. -/
def after (x : Prog σ ε α) (F : Faults) (s : σ) : σ := (x F (s, 0)).2.1

end Prog

open Prog

variable {σ ε α β : Type}

/-! ## Triples -/

/-- From a store in `P` the program returns with `Q`, or leaves a store in `C`. -/
def Triple (P : σ → Prop) (x : Prog σ ε α) (Q : α → σ → Prop) (C : σ → Prop) : Prop :=
  ∀ F s, P s.1 →
    match x F s with
    | (.ok a, s') => Q a s'.1
    | (.error _, s') => C s'.1

variable {P P' : σ → Prop} {Q Q' : α → σ → Prop} {C C' : σ → Prop}

theorem Triple.weaken {x : Prog σ ε α} (h : Triple P x Q C) (hP : ∀ s, P' s → P s) (hQ : ∀ a s, Q a s → Q' a s)
    (hC : ∀ s, C s → C' s) : Triple P' x Q' C' := by
  intro F s hs
  have := h F s (hP s.1 hs)
  revert this
  rcases x F s with ⟨_ | a, s'⟩
  · exact hC s'.1
  · exact hQ a s'.1

theorem Triple.bind {x : Prog σ ε α} {f : α → Prog σ ε β} {Q' : β → σ → Prop} (hx : Triple P x Q C)
    (hf : ∀ a, Triple (Q a) (f a) Q' C) : Triple P (x >>= f) Q' C := by
  intro F s hs
  have hout := hx F s hs
  simp only [Bind.bind]
  revert hout
  rcases x F s with ⟨_ | a, s'⟩
  · exact id
  · exact hf a F s'

theorem Triple.pure {a : α} (h : ∀ s, P s → Q a s) : Triple P (Pure.pure a : Prog σ ε α) Q C := fun _ s hs => h s.1 hs

theorem Triple.op {f : σ → Option (α × σ)} {Q : Option α → σ → Prop} (hkill : ∀ s, P s → C s)
    (hfail : ∀ s, P s → Q none s) (hdone : ∀ s a s', P s → f s = some (a, s') → Q (some a) s') :
    Triple P (op f : Prog σ ε (Option α)) Q C := by
  rintro F ⟨s, n⟩ hs
  unfold Prog.op
  by_cases hd : F.dies = some n
  · simp only [hd, if_true]
    exact hkill s hs
  · simp only [hd, if_false]
    cases hF : F.fails n with
    | true => exact hfail s hs
    | false =>
      cases hf : f s with
      | none => simpa [hf] using hfail s hs
      | some r => simpa [hf] using hdone s r.1 r.2 hs hf

/-! ## Programs that move along a preorder -/

/-- Every way out of the program leaves a store the first one is related to. -/
def Keeps (R : σ → σ → Prop) (P : σ → Prop) (x : Prog σ ε α) (Q : α → σ → Prop) : Prop :=
  ∀ s₀, Triple (fun s => s = s₀ ∧ P s) x (fun a s => R s₀ s ∧ Q a s) (R s₀)

variable {R : σ → σ → Prop}

theorem Keeps.weaken {x : Prog σ ε α} (h : Keeps R P x Q) (hP : ∀ s, P' s → P s) (hQ : ∀ a s, Q a s → Q' a s) :
    Keeps R P' x Q' := fun s₀ =>
  (h s₀).weaken (fun s hs => ⟨hs.1, hP s hs.2⟩) (fun a s hs => ⟨hs.1, hQ a s hs.2⟩) fun _ => id

theorem Keeps.mono {x : Prog σ ε α} {R' : σ → σ → Prop} (h : Keeps R P x Q) (hR : ∀ s s', R s s' → R' s s') :
    Keeps R' P x Q := fun s₀ =>
  (h s₀).weaken (fun _ => id) (fun _ s hs => ⟨hR s₀ s hs.1, hs.2⟩) fun s => hR s₀ s

/-- The store that is left is related to the first one. -/
theorem Keeps.after {x : Prog σ ε α} (h : Keeps R P x Q) (F : Faults) {s : σ} (hs : P s) : R s (x.after F s) := by
  have hout := h s F (s, 0) ⟨rfl, hs⟩
  unfold Prog.after
  revert hout
  rcases x F (s, 0) with ⟨_ | a, s'⟩
  · exact id
  · exact And.left

/-- What `R` preserves is kept along. -/
theorem Keeps.frame {x : Prog σ ε α} {A : σ → Prop} (h : Keeps R P x Q) (hA : ∀ s s', R s s' → A s → A s') :
    Keeps R (fun s => P s ∧ A s) x (fun a s => Q a s ∧ A s) := by
  intro s₀ F s hs
  obtain ⟨rfl, hP, hAs⟩ := hs
  have hout := h s.1 F s ⟨rfl, hP⟩
  revert hout
  rcases x F s with ⟨_ | a, s'⟩
  · exact id
  · exact fun hout => ⟨hout.1, hout.2, hA _ _ hout.1 hAs⟩

section Preorder

variable [IsPreorder σ R]

theorem Keeps.pure {a : α} (h : ∀ s, P s → Q a s) : Keeps R P (Pure.pure a : Prog σ ε α) Q := fun _ =>
  Triple.pure fun s hs => ⟨hs.1 ▸ refl s, h s hs.2⟩

theorem Keeps.throw {e : ε} : Keeps R P (Prog.throw e : Prog σ ε α) Q := fun s₀ F s hs => by
  obtain ⟨rfl, -⟩ := hs
  exact refl s.1

theorem Keeps.peek {f : σ → α} : Keeps R P (Prog.peek f : Prog σ ε α) (fun a s => P s ∧ f s = a) :=
  fun _ _ s hs => ⟨hs.1 ▸ refl s.1, hs.2, rfl⟩

theorem Keeps.bind {x : Prog σ ε α} {f : α → Prog σ ε β} {Q' : β → σ → Prop} (hx : Keeps R P x Q)
    (hf : ∀ a, Keeps R (Q a) (f a) Q') : Keeps R P (x >>= f) Q' := by
  intro s₀
  refine (hx s₀).bind fun a F s hs => ?_
  have hout := hf a s.1 F s ⟨rfl, hs.2⟩
  revert hout
  rcases f a F s with ⟨_ | b, s'⟩
  · exact fun hout => IsTrans.trans _ _ _ hs.1 hout
  · exact fun hout => ⟨IsTrans.trans _ _ _ hs.1 hout.1, hout.2⟩

theorem Keeps.query {f : σ → Option α} :
    Keeps R P (Prog.query f : Prog σ ε (Option α)) (fun r s => P s ∧ ∀ a, r = some a → f s = some a) := by
  intro s₀
  refine Triple.op (fun s hs => hs.1 ▸ refl s) (fun s hs => ⟨hs.1 ▸ refl s, hs.2, by simp⟩) ?_
  rintro s a s' ⟨rfl, hs⟩ hf
  simp only [Option.map_eq_some_iff, Prod.mk.injEq] at hf
  obtain ⟨b, hb, rfl, rfl⟩ := hf
  exact ⟨refl s, hs, by simpa using hb⟩

theorem Keeps.attempt {f : σ → Option σ} {Q : Bool → σ → Prop}
    (hdone : ∀ s s', P s → f s = some s' → R s s' ∧ Q true s') (hfail : ∀ s, P s → Q false s) :
    Keeps R P (Prog.attempt f : Prog σ ε Bool) Q := by
  intro s₀
  refine Triple.bind (Q := fun r s => R s₀ s ∧ Q r.isSome s) ?_ fun r => Triple.pure fun s hs => hs
  refine Triple.op (fun s hs => hs.1 ▸ refl s) (fun s hs => ⟨hs.1 ▸ refl s, hfail s hs.2⟩) ?_
  rintro s u s' ⟨rfl, hs⟩ hf
  simp only [Option.map_eq_some_iff, Prod.mk.injEq] at hf
  obtain ⟨t, ht, -, rfl⟩ := hf
  exact hdone s t hs ht

omit [IsPreorder σ R] in
theorem Keeps.ite {c : Prop} [Decidable c] {x y : Prog σ ε α} (hx : c → Keeps R P x Q) (hy : ¬ c → Keeps R P y Q) :
    Keeps R P (if c then x else y) Q := by
  split
  · exact hx ‹_›
  · exact hy ‹_›

/-- A loop whose body keeps `P` and establishes `D` for its element, which `R` preserves. -/
theorem Keeps.forM {l : List α} {f : α → Prog σ ε PUnit} {D : α → σ → Prop}
    (hf : ∀ a ∈ l, Keeps R P (f a) (fun _ s => P s ∧ D a s)) (hD : ∀ a s s', R s s' → D a s → D a s') :
    Keeps R P (l.forM f) (fun _ s => P s ∧ ∀ a ∈ l, D a s) := by
  induction l with
  | nil => exact Keeps.pure fun s hs => ⟨hs, by simp⟩
  | cons a l ih =>
    have ih' := ih fun b hb => hf b (List.mem_cons_of_mem a hb)
    refine (hf a List.mem_cons_self).bind fun _ => (ih'.frame (hD a)).weaken (fun _ => id) ?_
    rintro - s ⟨⟨hP, hl⟩, ha⟩
    exact ⟨hP, by simpa using ⟨ha, hl⟩⟩

/-- A loop whose body keeps `P`. -/
theorem Keeps.forM_keep {l : List α} {f : α → Prog σ ε PUnit} (hf : ∀ a ∈ l, Keeps R P (f a) (fun _ => P)) :
    Keeps R P (l.forM f) (fun _ => P) := by
  induction l with
  | nil => exact Keeps.pure fun _ => id
  | cons a l ih => exact (hf a List.mem_cons_self).bind fun _ => ih fun b hb => hf b (List.mem_cons_of_mem a hb)

end Preorder

/-! ## Undisturbed runs -/

/-- Nothing fails and nobody kills. -/
def Faults.quiet : Faults := ⟨none, fun _ => false⟩

/-- Undisturbed, the program returns `a` and leaves `s'`. -/
def Runs (x : Prog σ ε α) (s : σ) (a : α) (s' : σ) : Prop := ∀ n, ∃ n', x .quiet (s, n) = (.ok a, (s', n'))

section Runs

variable {x : Prog σ ε α} {a : α} {b : β} {s s' s'' : σ}

theorem Runs.pure : Runs (Pure.pure a : Prog σ ε α) s a s := fun n => ⟨n, rfl⟩

theorem Runs.peek {f : σ → α} : Runs (Prog.peek f : Prog σ ε α) s (f s) s := fun n => ⟨n, rfl⟩

theorem Runs.bind {f : α → Prog σ ε β} (hx : Runs x s a s') (hf : Runs (f a) s' b s'') : Runs (x >>= f) s b s'' := by
  intro n
  obtain ⟨n', hn'⟩ := hx n
  obtain ⟨n'', hn''⟩ := hf n'
  refine ⟨n'', ?_⟩
  simp only [Bind.bind, hn', hn'']

theorem Runs.op_some {f : σ → Option (α × σ)} (h : f s = some (a, s')) :
    Runs (op f : Prog σ ε (Option α)) s (some a) s' := by
  intro n
  exact ⟨n + 1, by simp [Prog.op, Faults.quiet, h]⟩

theorem Runs.op_none {f : σ → Option (α × σ)} (h : f s = none) : Runs (op f : Prog σ ε (Option α)) s none s := by
  intro n
  exact ⟨n + 1, by simp [Prog.op, Faults.quiet, h]⟩

theorem Runs.query {f : σ → Option α} : Runs (Prog.query f : Prog σ ε (Option α)) s (f s) s := by
  unfold Prog.query
  cases h : f s with
  | none => exact Runs.op_none (by simp [h])
  | some a => exact Runs.op_some (by simp [h])

theorem Runs.attempt_some {f : σ → Option σ} (h : f s = some s') : Runs (Prog.attempt f : Prog σ ε Bool) s true s' :=
  Runs.bind (Runs.op_some (a := ()) (by simp [h])) Runs.pure

theorem Runs.attempt_none {f : σ → Option σ} (h : f s = none) : Runs (Prog.attempt f : Prog σ ε Bool) s false s :=
  Runs.bind (Runs.op_none (by simp [h])) Runs.pure

/-- A loop that keeps an invariant over the elements done. -/
theorem Runs.forM_split {f : α → Prog σ ε PUnit} (I : List α → σ → Prop) {l : List α} (h : I [] s)
    (hf : ∀ done a todo t, l = done ++ a :: todo → I done t → ∃ t', Runs (f a) t ⟨⟩ t' ∧ I (done ++ [a]) t') :
    ∃ s', Runs (l.forM f) s ⟨⟩ s' ∧ I l s' := by
  suffices hsuf : ∀ (todo done : List α) (t : σ), l = done ++ todo → I done t →
      ∃ s', Runs (todo.forM f) t ⟨⟩ s' ∧ I l s' from hsuf l [] s rfl h
  intro todo
  induction todo with
  | nil =>
    intro done t hl hI
    rw [List.append_nil] at hl
    exact ⟨t, Runs.pure, hl ▸ hI⟩
  | cons a todo ih =>
    intro done t hl hI
    obtain ⟨t', ht', hI'⟩ := hf done a todo t hl hI
    obtain ⟨s', hs', hl'⟩ := ih (done ++ [a]) t' (by simp [hl]) hI'
    exact ⟨s', ht'.bind hs', hl'⟩

/-- The same when no element comes twice. -/
theorem Runs.forM {f : α → Prog σ ε PUnit} (I : List α → σ → Prop) (l : List α) (s : σ) (h : I [] s)
    (hf : ∀ done a t, I done t → a ∈ l → a ∉ done → ∃ t', Runs (f a) t ⟨⟩ t' ∧ I (done ++ [a]) t') (hn : l.Nodup) :
    ∃ s', Runs (l.forM f) s ⟨⟩ s' ∧ I l s' := by
  refine Runs.forM_split I h fun done a todo t hl hI => hf done a t hI (by simp [hl]) fun hmem => ?_
  rw [hl] at hn
  exact (List.nodup_append'.1 hn).2.2 hmem List.mem_cons_self

theorem Runs.after (h : Runs x s a s') : x.after .quiet s = s' := by
  obtain ⟨n, hn⟩ := h 0
  rw [Prog.after, hn]

/-- What a program keeps it keeps when it runs undisturbed. -/
theorem Keeps.runs (h : Keeps R P x Q) (hs : P s) (hx : Runs x s a s') : R s s' ∧ Q a s' := by
  obtain ⟨n, hn⟩ := hx 0
  have hout := h s .quiet (s, 0) ⟨rfl, hs⟩
  rw [hn] at hout
  exact hout

/-- Undisturbed, `x` from `s` comes to what `y` does from `s'`. -/
def Leads (x : Prog σ ε α) (s : σ) (y : Prog σ ε α) (s' : σ) : Prop :=
  ∀ n, ∃ n', x .quiet (s, n) = y .quiet (s', n')

theorem Leads.refl (x : Prog σ ε α) (s : σ) : Leads x s x s := fun n => ⟨n, rfl⟩

/-- A program whose first part runs comes to its second. -/
theorem Runs.leads {f : α → Prog σ ε β} {y : Prog σ ε β} (hx : Runs x s a s') (hf : Leads (f a) s' y s'') :
    Leads (x >>= f) s y s'' := by
  intro n
  obtain ⟨n', hn'⟩ := hx n
  obtain ⟨n'', hn''⟩ := hf n'
  refine ⟨n'', ?_⟩
  simp only [Bind.bind, hn', hn'']

theorem Leads.runs {y : Prog σ ε α} (h : Leads x s y s') (hy : Runs y s' a s'') : Runs x s a s'' := by
  intro n
  obtain ⟨n', hn'⟩ := h n
  obtain ⟨n'', hn''⟩ := hy n'
  exact ⟨n'', hn'.trans hn''⟩

/-- Undisturbed from the start, the program returns `a` and leaves `s'`. -/
def Returns (x : Prog σ ε α) (s : σ) (a : α) (s' : σ) : Prop := ∃ n, x .quiet (s, 0) = (.ok a, (s', n))

theorem Runs.returns (h : Runs x s a s') : Returns x s a s' := h 0

end Runs

/-! ## When no operation fails -/

/-- No operation fails that can be done; the process may still be killed. -/
def Faults.Calm (F : Faults) : Prop := ∀ n, F.fails n = false

/-- `Triple` for the faults in `K`. -/
def Under (K : Faults → Prop) (P : σ → Prop) (x : Prog σ ε α) (Q : α → σ → Prop) (C : σ → Prop) : Prop :=
  ∀ F, K F → ∀ s, P s.1 →
    match x F s with
    | (.ok a, s') => Q a s'.1
    | (.error _, s') => C s'.1

section Under

variable {K : Faults → Prop}

theorem Triple.under {x : Prog σ ε α} (h : Triple P x Q C) : Under K P x Q C := fun F _ s hs => h F s hs

/-- What a program keeps it keeps under any faults. -/
theorem Keeps.under {x : Prog σ ε α} (h : Keeps R P x Q) (s₀ : σ) :
    Under K (fun s => s = s₀ ∧ P s) x (fun a s => R s₀ s ∧ Q a s) (R s₀) := (h s₀).under

theorem Under.weaken {x : Prog σ ε α} (h : Under K P x Q C) (hP : ∀ s, P' s → P s) (hQ : ∀ a s, Q a s → Q' a s)
    (hC : ∀ s, C s → C' s) : Under K P' x Q' C' := by
  intro F hF s hs
  have hout := h F hF s (hP s.1 hs)
  revert hout
  rcases x F s with ⟨_ | a, s'⟩
  · exact hC s'.1
  · exact hQ a s'.1

theorem Under.and {x : Prog σ ε α} (h : Under K P x Q C) (h' : Under K P x Q' C) :
    Under K P x (fun a s => Q a s ∧ Q' a s) C := by
  intro F hF s hs
  have hout := h F hF s hs
  have hout' := h' F hF s hs
  revert hout hout'
  rcases x F s with ⟨_ | a, s'⟩
  · exact fun h _ => h
  · exact fun h h' => ⟨h, h'⟩

theorem Under.bind {x : Prog σ ε α} {f : α → Prog σ ε β} {Q' : β → σ → Prop} (hx : Under K P x Q C)
    (hf : ∀ a, Under K (Q a) (f a) Q' C) : Under K P (x >>= f) Q' C := by
  intro F hF s hs
  have hout := hx F hF s hs
  simp only [Bind.bind]
  revert hout
  rcases x F s with ⟨_ | a, s'⟩
  · exact id
  · exact hf a F hF s'

theorem Under.pure {a : α} (h : ∀ s, P s → Q a s) : Under K P (Pure.pure a : Prog σ ε α) Q C :=
  (Triple.pure h).under

theorem Under.throw {e : ε} (h : ∀ s, P s → C s) : Under K P (Prog.throw e : Prog σ ε α) Q C := fun _ _ s hs => h s.1 hs

theorem Under.peek {f : σ → α} : Under K P (Prog.peek f : Prog σ ε α) (fun a s => P s ∧ f s = a) C :=
  fun _ _ _ hs => ⟨hs, rfl⟩

theorem Under.ite {c : Prop} [Decidable c] {x y : Prog σ ε α} (hx : c → Under K P x Q C) (hy : ¬ c → Under K P y Q C) :
    Under K P (if c then x else y) Q C := by
  split
  · exact hx ‹_›
  · exact hy ‹_›

/-- What holds anyway. -/
theorem Under.const {x : Prog σ ε α} {c : Prop} (h : c) : Under K P x (fun _ _ => c) (fun _ => True) := by
  intro F _ s _
  rcases x F s with ⟨_ | a, s'⟩
  · trivial
  · exact h

/-- The store that is left. -/
theorem Under.after {x : Prog σ ε α} {F : Faults} {s : σ} (h : Under K P x (fun _ => C) C) (hF : K F) (hs : P s) :
    C (x.after F s) := by
  have hout := h F hF (s, 0) hs
  unfold Prog.after
  revert hout
  rcases x F (s, 0) with ⟨_ | a, s'⟩ <;> exact id

/-- From one store at a time. -/
theorem Under.of_forall {x : Prog σ ε α} (h : ∀ s, P s → Under K (· = s) x Q C) : Under K P x Q C :=
  fun F hF s hs => h s.1 hs F hF s rfl

/-- A loop that keeps an invariant over the elements done. -/
theorem Under.forM {l : List α} {f : α → Prog σ ε PUnit} {I : List α → σ → Prop}
    (hf : ∀ done a todo, l = done ++ a :: todo → Under K (I done) (f a) (fun _ => I (done ++ [a])) C) :
    Under K (I []) (l.forM f) (fun _ => I l) C := by
  suffices hsuf : ∀ (todo done : List α), l = done ++ todo → Under K (I done) (todo.forM f) (fun _ => I l) C from
    hsuf l [] rfl
  intro todo
  induction todo with
  | nil =>
    intro done hl
    rw [List.append_nil] at hl
    exact Under.pure fun s hs => hl ▸ hs
  | cons a todo ih =>
    intro done hl
    exact (hf done a todo hl).bind fun _ => ih (done ++ [a]) (by simp [hl])

section Calm

variable (hK : ∀ F, K F → F.Calm)
include hK

theorem Under.op {f : σ → Option (α × σ)} {Q : Option α → σ → Prop} (hkill : ∀ s, P s → C s)
    (hnone : ∀ s, P s → f s = none → Q none s) (hdone : ∀ s a s', P s → f s = some (a, s') → Q (some a) s') :
    Under K P (op f : Prog σ ε (Option α)) Q C := by
  rintro F hF ⟨s, n⟩ hs
  unfold Prog.op
  by_cases hd : F.dies = some n
  · simp only [hd, if_true]
    exact hkill s hs
  · simp only [hd, if_false, hK F hF n, Bool.false_eq_true]
    cases hf : f s with
    | none => exact hnone s hs hf
    | some r => exact hdone s r.1 r.2 hs hf

theorem Under.query {f : σ → Option α} (hkill : ∀ s, P s → C s) :
    Under K P (Prog.query f : Prog σ ε (Option α)) (fun r s => P s ∧ f s = r) C := by
  refine Under.op hK hkill (fun s hs hf => ⟨hs, by simpa using hf⟩) fun s a s' hs hf => ?_
  simp only [Option.map_eq_some_iff, Prod.mk.injEq] at hf
  obtain ⟨b, hb, rfl, rfl⟩ := hf
  exact ⟨hs, hb⟩

theorem Under.attempt {f : σ → Option σ} {Q : Bool → σ → Prop} (hkill : ∀ s, P s → C s)
    (hdone : ∀ s s', P s → f s = some s' → Q true s') (hfail : ∀ s, P s → f s = none → Q false s) :
    Under K P (Prog.attempt f : Prog σ ε Bool) Q C := by
  refine Under.bind (Q := fun r s => Q r.isSome s) ?_ fun r => Under.pure fun s hs => hs
  refine Under.op hK hkill (fun s hs hf => hfail s hs (by simpa using hf)) fun s u s' hs hf => ?_
  simp only [Option.map_eq_some_iff, Prod.mk.injEq] at hf
  obtain ⟨t, ht, -, rfl⟩ := hf
  exact hdone s t hs ht

end Calm

end Under

/-! ## What undisturbed runs end with -/

/-- If the program returns undisturbed, it returns with `Q`. -/
abbrev Ends (P : σ → Prop) (x : Prog σ ε α) (Q : α → σ → Prop) : Prop := Under (· = .quiet) P x Q (fun _ => True)

theorem quiet_calm : ∀ F : Faults, F = .quiet → F.Calm := by
  rintro F rfl n
  rfl

/-- A program that runs undisturbed ends in the one way it runs. -/
theorem Runs.ends {x : Prog σ ε α} {s s' : σ} {a : α} (h : Runs x s a s') :
    Under (· = .quiet) (· = s) x (fun b t => b = a ∧ t = s') C := by
  rintro F rfl ⟨t, n⟩ rfl
  obtain ⟨n', hn'⟩ := h n
  rw [hn']
  exact ⟨rfl, rfl⟩

/-- What a program comes to ends as the program does. -/
theorem Leads.ends {x y : Prog σ ε α} {s s' : σ} (h : Leads x s y s') (hy : Under (· = .quiet) (· = s') y Q C) :
    Under (· = .quiet) (· = s) x Q C := by
  rintro F rfl ⟨t, n⟩ rfl
  obtain ⟨n', hn'⟩ := h n
  rw [hn']
  exact hy .quiet rfl (s', n') rfl

theorem Ends.returns {x : Prog σ ε α} {s s' : σ} {a : α} (h : Ends P x Q) (hs : P s) (hx : Returns x s a s') : Q a s' := by
  obtain ⟨n, hn⟩ := hx
  have hout := h .quiet rfl (s, 0) hs
  rw [hn] at hout
  exact hout

end Crash
