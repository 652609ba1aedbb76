import ShairKindle.Lib.Run

/-!
# Readers of a stream in chunks

A reader takes a stream piece by piece: it consumes a chunk and emits any number of outputs. `Fits`
says which chunks it can be given in a state (how much room its buffer has). If a chunk may always be
cut in two without changing what the reader does (`Splits`), the way the stream is cut does not
matter: every run equals the run that is given single elements (`Splits.run_eq`), so any two cuttings
of one stream end in the same state with the same outputs (`Splits.chunking`).
-/

namespace Machine

variable {σ α ω : Type*}

/-- Cutting a chunk in two, where it fits and the invariant holds, changes nothing. -/
structure Splits (step : σ → List α → σ × List ω) (Inv : σ → Prop) (Fits : σ → List α → Prop) : Prop where
  inv : ∀ s c, Inv s → Fits s c → Inv (step s c).1
  cut : ∀ s a b, Inv s → a ≠ [] → b ≠ [] → Fits s (a ++ b) →
    Fits s a ∧ Fits (step s a).1 b ∧
      step s (a ++ b) = ((step (step s a).1 b).1, (step s a).2 ++ (step (step s a).1 b).2)

variable {step : σ → List α → σ × List ω} {Inv : σ → Prop} {Fits : σ → List α → Prop}

/-- One chunk equals its elements one by one. -/
theorem Splits.chunk_eq (h : Splits step Inv Fits) : ∀ (c : List α) (s : σ), Inv s → c ≠ [] → Fits s c →
    step s c = ((run step s (c.map ([·]))).1, (run step s (c.map ([·]))).2.flatten)
  | [], s, _, hne, _ => absurd rfl hne
  | [x], s, _, _, _ => by simp [run_cons]
  | x :: y :: c, s, hi, _, hf => by
    obtain ⟨hx, hr, he⟩ := h.cut s [x] (y :: c) hi (by simp) (by simp) hf
    have ih := h.chunk_eq (y :: c) (step s [x]).1 (h.inv s [x] hi hx) (by simp) hr
    rw [List.singleton_append] at he
    rw [he, ih]
    simp only [List.map_cons, run_cons, List.flatten_cons]

/-- A run over chunks equals the run over single elements. -/
theorem Splits.run_eq (h : Splits step Inv Fits) (hne : ∀ s c, Fits s c → c ≠ []) {s : σ} (hi : Inv s)
    (cs : List (List α)) (hf : AllSteps step Fits s cs) :
    ((run step s cs).1, (run step s cs).2.flatten) =
      ((run step s (cs.flatten.map ([·]))).1, (run step s (cs.flatten.map ([·]))).2.flatten) := by
  induction cs generalizing s with
  | nil => rfl
  | cons c cs ih =>
    have ih' := ih (h.inv s c hi hf.1) hf.2
    have hc := h.chunk_eq c s hi (hne s c hf.1) hf.1
    simp only [Prod.mk.injEq] at ih'
    rw [List.flatten_cons, List.map_append, run_append, run_cons]
    rw [hc] at ih' ⊢
    simp only [List.flatten_cons, List.flatten_append, ih'.1, ih'.2]

/-- **The cutting does not matter.** -/
theorem Splits.chunking (h : Splits step Inv Fits) (hne : ∀ s c, Fits s c → c ≠ []) {s : σ} (hi : Inv s)
    {cs ds : List (List α)} (hc : AllSteps step Fits s cs) (hd : AllSteps step Fits s ds)
    (heq : cs.flatten = ds.flatten) :
    (run step s cs).1 = (run step s ds).1 ∧ (run step s cs).2.flatten = (run step s ds).2.flatten := by
  have h1 := h.run_eq hne hi cs hc
  have h2 := h.run_eq hne hi ds hd
  rw [heq, ← h2] at h1
  exact Prod.mk.inj h1

end Machine
