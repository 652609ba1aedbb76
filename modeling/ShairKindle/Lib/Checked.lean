import Mathlib.Data.List.Basic

/-!
# Computations with every access checked

A computation over arrays ends with a value, stops at an access outside an array, or is still running when its fuel is
used up. `Ensures c post` says that it ends, without such an access, and with a value that meets `post`; the rules
follow the shape of the computation.
-/

inductive Checked (α : Type)
  | done (a : α)
  | fault
  | running
  deriving DecidableEq, Repr

namespace Checked

variable {α β γ : Type}

def bind : Checked α → (α → Checked β) → Checked β
  | .done a, f => f a
  | .fault, _ => .fault
  | .running, _ => .running

def load (m : List γ) (i : Nat) : Checked γ :=
  match m[i]? with
  | some a => .done a
  | none => .fault

def store (m : List γ) (i : Nat) (a : γ) : Checked (List γ) := if i < m.length then .done (m.set i a) else .fault

def Ensures (c : Checked α) (post : α → Prop) : Prop := ∃ a, c = .done a ∧ post a

theorem ensures_done {post : α → Prop} {a : α} (h : post a) : Ensures (.done a) post := ⟨a, rfl, h⟩

theorem Ensures.bind {c : Checked α} {f : α → Checked β} {mid : α → Prop} {post : β → Prop} (h : Ensures c mid)
    (hf : ∀ a, mid a → Ensures (f a) post) : Ensures (c.bind f) post := by
  obtain ⟨a, rfl, ha⟩ := h
  exact hf a ha

theorem Ensures.mono {c : Checked α} {post post' : α → Prop} (h : Ensures c post) (himp : ∀ a, post a → post' a) :
    Ensures c post' := by
  obtain ⟨a, rfl, ha⟩ := h
  exact ⟨a, rfl, himp a ha⟩

theorem load_eq {m : List γ} {i : Nat} (h : i < m.length) : load m i = .done m[i] := by
  rw [load, List.getElem?_eq_getElem h]

theorem ensures_load {m : List γ} {i : Nat} (h : i < m.length) : Ensures (load m i) fun a => m[i]? = some a := by
  rw [load_eq h]
  exact ensures_done (List.getElem?_eq_getElem h)

theorem ensures_store {m : List γ} {i : Nat} (a : γ) (h : i < m.length) :
    Ensures (store m i a) fun m' => m' = m.set i a := by
  rw [store, if_pos h]
  exact ensures_done rfl

end Checked
