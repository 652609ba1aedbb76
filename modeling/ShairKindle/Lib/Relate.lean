import ShairKindle.Lib.Crash

/-!
# Two programs side by side

`Sim P x y Q` runs two programs, each on its own store, under the same faults: from stores related by `P` both
return, with values and stores related by `Q`, or neither does. They do the same operations in the same order,
so that a fault meets them at the same point. The rules follow the program text, one construct at a time.
-/

namespace Crash

open Prog

variable {σ τ ε α β γ δ : Type}

/-- From stores in `P` both programs return with `Q`, after equally many operations, or neither returns. -/
def Sim (P : σ → τ → Prop) (x : Prog σ ε α) (y : Prog τ ε β) (Q : α → β → σ → τ → Prop) : Prop :=
  ∀ F s t n, P s t →
    match x F (s, n), y F (t, n) with
    | (.ok a, s'), (.ok b, t') => s'.2 = t'.2 ∧ Q a b s'.1 t'.1
    | (.error _, _), (.error _, _) => True
    | _, _ => False

/-- The same value, from stores in `P`. -/
def Same (P : σ → τ → Prop) (a b : α) (s : σ) (t : τ) : Prop := a = b ∧ P s t

namespace Sim

variable {P P' : σ → τ → Prop} {x : Prog σ ε α} {y : Prog τ ε β} {Q Q' : α → β → σ → τ → Prop}

theorem weaken (h : Sim P x y Q) (hP : ∀ s t, P' s t → P s t) (hQ : ∀ a b s t, Q a b s t → Q' a b s t) :
    Sim P' x y Q' := by
  intro F s t n hs
  have hout := h F s t n (hP s t hs)
  revert hout
  rcases x F (s, n) with ⟨_ | a, s'⟩ <;> rcases y F (t, n) with ⟨_ | b, t'⟩
  · exact id
  · exact id
  · exact id
  · exact fun hout => ⟨hout.1, hQ _ _ _ _ hout.2⟩

theorem pure {a : α} {b : β} (h : ∀ s t, P s t → Q a b s t) :
    Sim P (Pure.pure a : Prog σ ε α) (Pure.pure b : Prog τ ε β) Q := fun _ s t _ hs => ⟨rfl, h s t hs⟩

theorem throw {e e' : ε} : Sim P (Prog.throw e : Prog σ ε α) (Prog.throw e' : Prog τ ε β) Q := fun _ _ _ _ _ => trivial

theorem peek {f : σ → α} {g : τ → β} (h : ∀ s t, P s t → Q (f s) (g t) s t) :
    Sim P (Prog.peek f : Prog σ ε α) (Prog.peek g : Prog τ ε β) Q := fun _ s t _ hs => ⟨rfl, h s t hs⟩

theorem bind {f : α → Prog σ ε γ} {g : β → Prog τ ε δ} {Q' : γ → δ → σ → τ → Prop} (hx : Sim P x y Q)
    (hf : ∀ a b, Sim (Q a b) (f a) (g b) Q') : Sim P (x >>= f) (y >>= g) Q' := by
  intro F s t n hs
  have hout := hx F s t n hs
  simp only [Bind.bind]
  revert hout
  rcases x F (s, n) with ⟨_ | a, s'⟩ <;> rcases y F (t, n) with ⟨_ | b, t'⟩
  · exact id
  · exact False.elim
  · exact False.elim
  · rintro ⟨hn, hQ⟩
    obtain ⟨s', k⟩ := s'
    obtain ⟨t', l⟩ := t'
    obtain rfl : k = l := hn
    exact hf a b F s' t' k hQ

/-- When both compute the same value first. -/
theorem bind_same {y : Prog τ ε α} {f : α → Prog σ ε γ} {g : α → Prog τ ε δ} {Q' : γ → δ → σ → τ → Prop}
    (hx : Sim P x y (Same P')) (hf : ∀ a, Sim P' (f a) (g a) Q') : Sim P (x >>= f) (y >>= g) Q' := by
  refine hx.bind fun a b F s t n hs => ?_
  obtain ⟨rfl, hs⟩ := hs
  exact hf a F s t n hs

/-- When both look first, and see the same. -/
theorem peek_bind {f : σ → α} {g : τ → α} {k : α → Prog σ ε γ} {l : α → Prog τ ε δ} {Q' : γ → δ → σ → τ → Prop}
    (h : ∀ s t, P s t → f s = g t) (hk : ∀ a, Sim (fun s t => P s t ∧ g t = a) (k a) (l a) Q') :
    Sim P (Prog.peek f >>= k) (Prog.peek g >>= l) Q' := by
  intro F s t n hs
  simp only [Bind.bind, Prog.peek]
  rw [h s t hs]
  exact hk (g t) F s t n ⟨hs, rfl⟩

theorem ite {c d : Prop} [Decidable c] [Decidable d] {x' : Prog σ ε α} {y' : Prog τ ε β} (hcd : c ↔ d)
    (hx : c → Sim P x y Q) (hy : ¬ c → Sim P x' y' Q) : Sim P (if c then x else x') (if d then y else y') Q := by
  by_cases hc : c
  · rw [if_pos hc, if_pos (hcd.1 hc)]
    exact hx hc
  · rw [if_neg hc, if_neg fun hd => hc (hcd.2 hd)]
    exact hy hc

/-- From one pair of stores at a time. -/
theorem of_forall (h : ∀ s t, P s t → Sim (fun s' t' => s' = s ∧ t' = t) x y Q) : Sim P x y Q := fun F s t n hs =>
  h s t hs F s t n ⟨rfl, rfl⟩

theorem op {f : σ → Option (α × σ)} {g : τ → Option (β × τ)} {Q : Option α → Option β → σ → τ → Prop}
    (hfail : ∀ s t, P s t → Q none none s t)
    (hdone : ∀ s t, P s t → Option.Rel (fun a b => Q (some a.1) (some b.1) a.2 b.2) (f s) (g t)) :
    Sim P (op f : Prog σ ε (Option α)) (op g : Prog τ ε (Option β)) Q := by
  intro F s t n hs
  unfold Prog.op
  by_cases hd : F.dies = some n
  · simp only [hd, if_true]
  · simp only [hd, if_false]
    cases hF : F.fails n with
    | true => exact ⟨rfl, hfail s t hs⟩
    | false =>
      have hfg := hdone s t hs
      cases hf : f s <;> cases hg : g t
      · exact ⟨rfl, hfail s t hs⟩
      · rw [hf, hg] at hfg
        cases hfg
      · rw [hf, hg] at hfg
        cases hfg
      · rw [hf, hg] at hfg
        cases hfg with
        | some h => exact ⟨rfl, h⟩

theorem query {f : σ → Option α} {g : τ → Option α} (h : ∀ s t, P s t → f s = g t) :
    Sim P (Prog.query f : Prog σ ε (Option α)) (Prog.query g : Prog τ ε (Option α)) (Same P) := by
  refine op (fun s t hs => ⟨rfl, hs⟩) fun s t hs => ?_
  rw [h s t hs]
  cases g t with
  | none => exact .none
  | some a => exact .some ⟨rfl, hs⟩

theorem attempt {f : σ → Option σ} {g : τ → Option τ} (hP : ∀ s t, P s t → P' s t)
    (h : ∀ s t, P s t → Option.Rel P' (f s) (g t)) :
    Sim P (Prog.attempt f : Prog σ ε Bool) (Prog.attempt g : Prog τ ε Bool) (Same P') := by
  have hop : Sim P (Prog.op fun s => (f s).map ((), ·) : Prog σ ε (Option Unit))
      (Prog.op fun t => (g t).map ((), ·) : Prog τ ε (Option Unit)) (Same P') := by
    refine op (fun s t hs => ⟨rfl, hP s t hs⟩) fun s t hs => ?_
    have hfg := h s t hs
    cases hf : f s <;> cases hg : g t
    · exact .none
    · rw [hf, hg] at hfg
      cases hfg
    · rw [hf, hg] at hfg
      cases hfg
    · rw [hf, hg] at hfg
      cases hfg with
      | some h => exact .some ⟨rfl, h⟩
  exact hop.bind_same fun r => pure fun s t hs => ⟨rfl, hs⟩

/-- A loop over the same list whose bodies keep `P`. -/
theorem forM {l : List α} {f : α → Prog σ ε PUnit} {g : α → Prog τ ε PUnit}
    (h : ∀ a ∈ l, Sim P (f a) (g a) (Same P)) : Sim P (l.forM f) (l.forM g) (Same P) := by
  induction l with
  | nil => exact pure fun s t hs => ⟨rfl, hs⟩
  | cons a l ih => exact bind_same (h a List.mem_cons_self) fun _ => ih fun b hb => h b (List.mem_cons_of_mem a hb)

/-- What the second program ends with the first ends with too. -/
theorem ends {y : Prog τ ε α} {Q : α → τ → Prop} (h : Sim P x y (Same P')) {s : σ} {t : τ} (hs : P s t)
    (hy : Ends (· = t) y Q) : Ends (· = s) x (fun a s' => ∃ t', P' s' t' ∧ Q a t') := by
  rintro F hF ⟨_, n⟩ rfl
  have hout := h F _ t n hs
  have hy' := hy F hF (t, n) rfl
  revert hout hy'
  rcases x F _ with ⟨_ | a, s'⟩ <;> rcases y F (t, n) with ⟨_ | b, t'⟩
  · exact fun _ _ => trivial
  · exact fun _ _ => trivial
  · exact fun hout _ => hout.elim
  · rintro ⟨-, rfl, hP⟩ hQ
    exact ⟨t'.1, hP, hQ⟩

/-- What the second program returns the first returns too. -/
theorem returns {y : Prog τ ε α} (h : Sim P x y (Same P')) {s : σ} {t t' : τ} (hs : P s t) {a : α} (hy : Returns y t a t') :
    ∃ s', Returns x s a s' ∧ P' s' t' := by
  obtain ⟨n, hn⟩ := hy
  have hout := h .quiet s t 0 hs
  rw [hn] at hout
  rcases hx : x .quiet (s, 0) with ⟨_ | b, s', k⟩
  · rw [hx] at hout
    cases hout
  · rw [hx] at hout
    obtain ⟨-, rfl, hP⟩ := hout
    exact ⟨s', ⟨k, hx⟩, hP⟩

end Sim

end Crash
