import Mathlib.Data.List.Basic
import Mathlib.Tactic

/-!
# Cipher block chaining

A message is cut into blocks of `w` symbols. Each block is mixed with the ciphertext of the block before it (the
first one with the initial vector) and then enciphered; what is left after `n` blocks stays as it is. Nothing is
said about the cipher but that deciphering undoes it on whole blocks.
-/

namespace Cbc

variable {α : Type*}

def encrypt (enc : List α → List α) (mix : α → α → α) (w : Nat) : Nat → List α → List α → List α
  | 0, _, p => p
  | n + 1, iv, p =>
    let c := enc (List.zipWith mix (p.take w) iv)
    c ++ encrypt enc mix w n c (p.drop w)

def decrypt (dec : List α → List α) (mix : α → α → α) (w : Nat) : Nat → List α → List α → List α
  | 0, _, c => c
  | n + 1, iv, c => List.zipWith mix (dec (c.take w)) iv ++ decrypt dec mix w n (c.take w) (c.drop w)

/-- On blocks of `w` symbols, `dec` undoes `enc`. -/
structure Inverse (enc dec : List α → List α) (w : Nat) : Prop where
  length_enc : ∀ b : List α, b.length = w → (enc b).length = w
  dec_enc : ∀ b : List α, b.length = w → dec (enc b) = b

variable {enc dec : List α → List α} {mix : α → α → α} {w : Nat}

theorem zipWith_cancel (hmix : ∀ a b, mix (mix a b) b = a) : ∀ {p iv : List α}, p.length = iv.length →
    List.zipWith mix (List.zipWith mix p iv) iv = p
  | [], _, _ => rfl
  | a :: p, b :: iv, h => by
    rw [List.zipWith_cons_cons, List.zipWith_cons_cons, hmix, zipWith_cancel hmix (Nat.succ.inj h)]

theorem length_mixed (mix : α → α → α) {p iv : List α} (hiv : iv.length = w) (hp : w ≤ p.length) :
    (List.zipWith mix (p.take w) iv).length = w := by
  rw [List.length_zipWith, List.length_take]
  omega

theorem length_encrypt (h : Inverse enc dec w) (n : Nat) : ∀ {iv p : List α}, iv.length = w → n * w ≤ p.length →
    (encrypt enc mix w n iv p).length = p.length := by
  induction n with
  | zero => exact fun _ _ => rfl
  | succ n ih =>
    intro iv p hiv hp
    rw [Nat.succ_mul] at hp
    have hc := h.length_enc _ (length_mixed mix hiv (by omega : w ≤ p.length))
    rw [encrypt, List.length_append, ih hc (by rw [List.length_drop]; omega), hc, List.length_drop]
    omega

/-- **Deciphering undoes enciphering**, block by block from the initial vector on. -/
theorem decrypt_encrypt (h : Inverse enc dec w) (hmix : ∀ a b, mix (mix a b) b = a) (n : Nat) :
    ∀ {iv p : List α}, iv.length = w → n * w ≤ p.length →
      decrypt dec mix w n iv (encrypt enc mix w n iv p) = p := by
  induction n with
  | zero => exact fun _ _ => rfl
  | succ n ih =>
    intro iv p hiv hp
    rw [Nat.succ_mul] at hp
    have hm := length_mixed mix hiv (by omega : w ≤ p.length)
    have hc := h.length_enc _ hm
    rw [encrypt, decrypt, List.take_left' hc, List.drop_left' hc, h.dec_enc _ hm, ih hc (by rw [List.length_drop]; omega),
      zipWith_cancel hmix (by rw [List.length_take]; omega), List.take_append_drop]

end Cbc
