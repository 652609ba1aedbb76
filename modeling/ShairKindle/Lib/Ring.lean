import Mathlib.Data.Fintype.Card
import Mathlib.Algebra.BigOperators.Group.Finset.Basic
import Mathlib.Tactic

/-!
# Rings of `n` cells

A ring holds `n` cells and is addressed by an unbounded position: position `e` lives in cell
`e % n`, so positions that differ by a multiple of `n` share a cell. `get_set` says what a write
does to every position, `count_set` what it does to the number of cells a predicate holds of.
-/

/-- `n` cells, addressed modulo `n`. -/
structure CellRing (n : Nat) (α : Type*) where
  cells : Fin n → α

namespace CellRing

variable {n : Nat} [NeZero n] {α : Type*}

/-- The cell of position `e`. -/
def get (r : CellRing n α) (e : Nat) : α := r.cells (Fin.ofNat n e)

/-- Overwrite the cell of position `e`. -/
def set (r : CellRing n α) (e : Nat) (v : α) : CellRing n α :=
  ⟨fun i => if i = Fin.ofNat n e then v else r.cells i⟩

/-- Every cell holds `v`. -/
def const (n : Nat) (v : α) : CellRing n α := ⟨fun _ => v⟩

@[simp] theorem get_const (v : α) (e : Nat) : (const n v).get e = v := rfl

theorem get_set (r : CellRing n α) (e e' : Nat) (v : α) :
    (r.set e v).get e' = if e' % n = e % n then v else r.get e' := by
  have h : Fin.ofNat n e' = Fin.ofNat n e ↔ e' % n = e % n := by simp [Fin.ext_iff]
  simp only [get, set, h]

/-- Positions a multiple of `n` apart share a cell. -/
theorem get_congr (r : CellRing n α) {e e' : Nat} (h : e % n = e' % n) : r.get e = r.get e' :=
  congrArg r.cells (Fin.ext h)

@[simp] theorem get_set_self (r : CellRing n α) (e : Nat) (v : α) : (r.set e v).get e = v := by
  simp [get_set]

theorem get_set_ne {r : CellRing n α} {e e' : Nat} {v : α} (h : e' % n ≠ e % n) :
    (r.set e v).get e' = r.get e' := by
  simp [get_set, h]

/-- How many cells `p` holds of. -/
def count (p : α → Bool) (r : CellRing n α) : Nat := ∑ i, if p (r.cells i) then 1 else 0

/-- A write takes the old cell out of the count and puts the new one in. -/
theorem count_set (p : α → Bool) (r : CellRing n α) (e : Nat) (v : α) :
    (r.set e v).count p + (if p (r.get e) then 1 else 0) = r.count p + (if p v then 1 else 0) := by
  have hsplit : ∀ q : CellRing n α, q.count p =
      (if p (q.get e) then 1 else 0) +
        ∑ i ∈ Finset.univ.erase (Fin.ofNat n e), if p (q.cells i) then 1 else 0 := by
    intro q
    rw [count, ← Finset.add_sum_erase _ _ (Finset.mem_univ (Fin.ofNat n e))]
    rfl
  have hrest : (∑ i ∈ Finset.univ.erase (Fin.ofNat n e), if p ((r.set e v).cells i) then 1 else 0) =
      ∑ i ∈ Finset.univ.erase (Fin.ofNat n e), if p (r.cells i) then 1 else 0 := by
    refine Finset.sum_congr rfl fun i hi => ?_
    simp only [set, Finset.ne_of_mem_erase hi, if_false]
  rw [hsplit (r.set e v), hsplit r, hrest, get_set_self]
  omega

theorem count_eq_zero {p : α → Bool} {r : CellRing n α} (h : ∀ e, p (r.get e) = false) :
    r.count p = 0 := by
  refine Finset.sum_eq_zero fun i _ => ?_
  have hi : r.get i.val = r.cells i := by simp [get]
  simp [← hi, h]

end CellRing
