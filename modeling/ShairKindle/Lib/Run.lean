import Mathlib.Data.List.Basic
import Mathlib.Tactic

/-!
# Runs of a machine

A machine is a step function that takes a state and an input and returns the next state and
what the caller observes. `run` feeds it a list of inputs and collects the observations in
order. The rules here are the ones every development over such a machine needs: runs compose
(`run_append`), an observed trace splits where its run splits (`run_split`), an invariant kept
by each step holds along the run (`run_inv`), also when it mentions the observations so far
(`run_hist`) or when the steps have to meet a side condition (`run_inv_of_allSteps`,
`run_hist_of_allSteps`).
-/

namespace Machine

variable {σ ι ω : Type*}

/-- Feed the inputs one after another, one observation for each. -/
def run (step : σ → ι → σ × ω) : σ → List ι → σ × List ω
  | s, [] => (s, [])
  | s, i :: is =>
    let t := run step (step s i).1 is
    (t.1, (step s i).2 :: t.2)

variable {step : σ → ι → σ × ω}

@[simp] theorem run_nil (s : σ) : run step s [] = (s, []) := rfl

theorem run_cons (s : σ) (i : ι) (is : List ι) :
    run step s (i :: is) =
      ((run step (step s i).1 is).1, (step s i).2 :: (run step (step s i).1 is).2) := rfl

theorem run_append (s : σ) (xs ys : List ι) :
    run step s (xs ++ ys) =
      ((run step (run step s xs).1 ys).1, (run step s xs).2 ++ (run step (run step s xs).1 ys).2) := by
  induction xs generalizing s with
  | nil => rfl
  | cons x xs ih => simp only [List.cons_append, run_cons, ih]

theorem run_append_fst (s : σ) (xs ys : List ι) :
    (run step s (xs ++ ys)).1 = (run step (run step s xs).1 ys).1 := by rw [run_append]

theorem run_concat (s : σ) (xs : List ι) (x : ι) :
    run step s (xs ++ [x]) =
      ((step (run step s xs).1 x).1, (run step s xs).2 ++ [(step (run step s xs).1 x).2]) := by
  rw [run_append]; rfl

/-- One observation for each input. -/
theorem length_run (s : σ) (is : List ι) : (run step s is).2.length = is.length := by
  induction is generalizing s with
  | nil => rfl
  | cons i is ih => simp only [run_cons, List.length_cons, ih]

/-- The trace of a run splits at an observation exactly where the run itself splits. -/
theorem run_split {s : σ} {is : List ι} {pre post : List ω} {o : ω}
    (h : (run step s is).2 = pre ++ o :: post) :
    ∃ is₁ i is₂, is = is₁ ++ i :: is₂ ∧ (run step s is₁).2 = pre ∧
      (step (run step s is₁).1 i).2 = o ∧
      (run step (step (run step s is₁).1 i).1 is₂).2 = post := by
  induction pre generalizing s is with
  | nil =>
    cases is with
    | nil => simp at h
    | cons i is =>
      simp only [run_cons, List.nil_append, List.cons.injEq] at h
      exact ⟨[], i, is, rfl, rfl, h.1, h.2⟩
  | cons p pre ih =>
    cases is with
    | nil => simp at h
    | cons i is =>
      simp only [run_cons, List.cons_append, List.cons.injEq] at h
      obtain ⟨is₁, k, is₂, rfl, h1, h2, h3⟩ := ih h.2
      exact ⟨i :: is₁, k, is₂, rfl, by simp [run_cons, h.1, h1], h2, h3⟩

/-- What one step keeps, a run keeps. -/
theorem run_inv (Inv : σ → Prop) (hstep : ∀ s i, Inv s → Inv (step s i).1) {s : σ} (h : Inv s)
    (is : List ι) : Inv (run step s is).1 := by
  induction is generalizing s with
  | nil => exact h
  | cons i is ih => exact ih (hstep s i h)

/-- An invariant over the state and the trace so far. `Ok` bounds the trace (it passes to
shorter traces) and may be used by each step. -/
theorem run_hist (Inv : σ → List ω → Prop) (Ok : List ω → Prop)
    (hmono : ∀ tr o, Ok (tr ++ [o]) → Ok tr) {s : σ} (h0 : Inv s [])
    (hstep : ∀ s tr i, Inv s tr → Ok (tr ++ [(step s i).2]) →
      Inv (step s i).1 (tr ++ [(step s i).2])) (is : List ι) (hok : Ok (run step s is).2) :
    Inv (run step s is).1 (run step s is).2 := by
  induction is using List.reverseRecOn with
  | nil => exact h0
  | append_singleton is i ih =>
    rw [run_concat] at hok ⊢
    exact hstep _ _ _ (ih (hmono _ _ hok)) hok

/-- An invariant over the state and the inputs so far. `Ok` bounds the inputs (it passes to shorter lists) and may be
used by each step. -/
theorem run_inputs (Inv : σ → List ι → Prop) (Ok : List ι → Prop) (hmono : ∀ is i, Ok (is ++ [i]) → Ok is) {s : σ}
    (h0 : Inv s []) (hstep : ∀ s is i, Inv s is → Ok (is ++ [i]) → Inv (step s i).1 (is ++ [i])) (is : List ι)
    (hok : Ok is) : Inv (run step s is).1 is := by
  induction is using List.reverseRecOn with
  | nil => exact h0
  | append_singleton is i ih =>
    rw [run_concat]
    exact hstep _ _ _ (ih (hmono _ _ hok)) hok

/-- Every step of the run from `s` meets `P` in the state it is taken from. -/
def AllSteps (step : σ → ι → σ × ω) (P : σ → ι → Prop) : σ → List ι → Prop
  | _, [] => True
  | s, i :: is => P s i ∧ AllSteps step P (step s i).1 is

instance AllSteps.decidable {P : σ → ι → Prop} [hP : ∀ s i, Decidable (P s i)] :
    (s : σ) → (is : List ι) → Decidable (AllSteps step P s is)
  | _, [] => .isTrue trivial
  | s, i :: is =>
    have := AllSteps.decidable (P := P) (step s i).1 is
    inferInstanceAs (Decidable (P s i ∧ AllSteps step P (step s i).1 is))

/-- Step by step: wherever the inputs are split, the step there meets `P`. -/
theorem allSteps_iff_split {P : σ → ι → Prop} (s : σ) (is : List ι) :
    AllSteps step P s is ↔ ∀ is₁ i is₂, is = is₁ ++ i :: is₂ → P (run step s is₁).1 i := by
  induction is generalizing s with
  | nil => simp [AllSteps]
  | cons i is ih =>
    constructor
    · rintro ⟨hi, his⟩ is₁ k is₂ heq
      rcases is₁ with - | ⟨x, is₁⟩
      · obtain ⟨rfl, rfl⟩ := List.cons.inj heq
        exact hi
      · obtain ⟨rfl, rfl⟩ := List.cons.inj heq
        exact (ih _).1 his is₁ k is₂ rfl
    · intro h
      refine ⟨h [] i is rfl, (ih _).2 fun is₁ k is₂ heq => ?_⟩
      exact h (i :: is₁) k is₂ (by rw [heq, List.cons_append])

/-- A condition that every one of the inputs meets in every state. -/
theorem AllSteps.of_forall {P : σ → ι → Prop} (s : σ) (is : List ι) (h : ∀ i ∈ is, ∀ s, P s i) :
    AllSteps step P s is := by
  induction is generalizing s with
  | nil => trivial
  | cons i is ih => exact ⟨h i (by simp) s, ih _ fun j hj => h j (by simp [hj])⟩

/-- An invariant over the state and the trace so far, when every step meets `P`. -/
theorem run_hist_of_allSteps {P : σ → ι → Prop} (Inv : σ → List ω → Prop)
    (hstep : ∀ s tr i, Inv s tr → P s i → Inv (step s i).1 (tr ++ [(step s i).2])) {s : σ} {tr : List ω}
    (h : Inv s tr) (is : List ι) (hp : AllSteps step P s is) :
    Inv (run step s is).1 (tr ++ (run step s is).2) := by
  induction is generalizing s tr with
  | nil => simpa using h
  | cons i is ih =>
    have := ih (hstep s tr i h hp.1) hp.2
    rwa [List.append_assoc] at this

/-- An invariant of the state alone, when every step meets `P`. -/
theorem run_inv_of_allSteps {P : σ → ι → Prop} (Inv : σ → Prop)
    (hstep : ∀ s i, Inv s → P s i → Inv (step s i).1) {s : σ} (h : Inv s) (is : List ι)
    (hp : AllSteps step P s is) : Inv (run step s is).1 := by
  induction is generalizing s with
  | nil => exact h
  | cons i is ih => exact ih (hstep s i h hp.1) hp.2

end Machine
