import ShairKindle.Lib.Bytes

/-!
# Bytes as groups of six bits

`sextets` cuts a byte string into numbers of six bits, most significant bit first, the last one
filled up with zero bits; `octets` puts numbers of six bits together to bytes and drops what does
not fill one. Three bytes are four sextets, so both go by such groups. `octets` undoes `sextets`
(`octets_sextets`); the other way round a list of sextets comes back up to the bits that `octets`
dropped (`sextets_octets`).
-/

namespace Bytes

/-- The bytes in groups of six bits. -/
def sextets : Bytes → List Nat
  | x :: y :: z :: xs =>
    x.toNat / 4 :: (x.toNat % 4 * 16 + y.toNat / 16) :: (y.toNat % 16 * 4 + z.toNat / 64) :: z.toNat % 64 :: sextets xs
  | [x, y] => [x.toNat / 4, x.toNat % 4 * 16 + y.toNat / 16, y.toNat % 16 * 4]
  | [x] => [x.toNat / 4, x.toNat % 4 * 16]
  | [] => []

/-- The whole bytes in a list of sextets. -/
def octets : List Nat → Bytes
  | a :: b :: c :: d :: vs =>
    UInt8.ofNat (a * 4 + b / 16) :: UInt8.ofNat (b % 16 * 16 + c / 4) :: UInt8.ofNat (c % 4 * 64 + d) :: octets vs
  | [a, b, c] => [UInt8.ofNat (a * 4 + b / 16), UInt8.ofNat (b % 16 * 16 + c / 4)]
  | [a, b] => [UInt8.ofNat (a * 4 + b / 16)]
  | [_] => []
  | [] => []

theorem sextets_lt (x : Bytes) : ∀ v ∈ sextets x, v < 64 := by
  fun_induction sextets x with
  | case1 x y z xs ih =>
    have := x.toNat_lt
    have := y.toNat_lt
    have := z.toNat_lt
    simp only [List.mem_cons]
    rintro v (rfl | rfl | rfl | rfl | hv)
    · omega
    · omega
    · omega
    · omega
    · exact ih v hv
  | case2 x y =>
    have := x.toNat_lt
    have := y.toNat_lt
    simp only [List.mem_cons, List.not_mem_nil, or_false]
    omega
  | case3 x =>
    have := x.toNat_lt
    simp only [List.mem_cons, List.not_mem_nil, or_false]
    omega
  | case4 => simp

theorem length_octets (vs : List Nat) : (octets vs).length = 6 * vs.length / 8 := by
  fun_induction octets vs with
  | case1 a b c d vs ih =>
    simp only [List.length_cons, ih]
    omega
  | case2 | case3 | case4 | case5 => simp

/-- No byte string has one sextet more than a number of whole groups. -/
theorem length_sextets (x : Bytes) : (sextets x).length = (8 * x.length + 5) / 6 := by
  fun_induction sextets x with
  | case1 x y z xs ih =>
    simp only [List.length_cons, ih]
    omega
  | case2 | case3 | case4 => simp

/-- A byte is given by its number. -/
theorem ofNat_eq_of_toNat {x : UInt8} {n : Nat} (h : n = x.toNat) : UInt8.ofNat n = x := by
  rw [h, UInt8.ofNat_toNat]

/-- **The bytes come back.** -/
theorem octets_sextets (x : Bytes) : octets (sextets x) = x := by
  fun_induction sextets x with
  | case1 x y z xs ih =>
    have := x.toNat_lt
    have := y.toNat_lt
    have := z.toNat_lt
    rw [octets, ih, ofNat_eq_of_toNat (x := x) (by omega), ofNat_eq_of_toNat (x := y) (by omega),
      ofNat_eq_of_toNat (x := z) (by omega)]
  | case2 x y =>
    have := x.toNat_lt
    have := y.toNat_lt
    rw [octets, ofNat_eq_of_toNat (x := x) (by omega), ofNat_eq_of_toNat (x := y) (by omega)]
  | case3 x =>
    rw [octets, ofNat_eq_of_toNat (x := x) (by omega)]
  | case4 => rfl

/-- The list with the low `k` bits of its last number set to zero. -/
def clearLast (k : Nat) : List Nat → List Nat
  | [] => []
  | [v] => [v / 2 ^ k * 2 ^ k]
  | v :: vs => v :: clearLast k vs

theorem clearLast_cons (k v : Nat) {vs : List Nat} (h : vs ≠ []) : clearLast k (v :: vs) = v :: clearLast k vs := by
  cases vs with
  | nil => exact absurd rfl h
  | cons w vs => rfl

theorem clearLast_zero (vs : List Nat) : clearLast 0 vs = vs := by
  induction vs with
  | nil => rfl
  | cons v vs ih =>
    cases vs with
    | nil => simp [clearLast]
    | cons w vs => rw [clearLast_cons _ _ (by simp), ih]

theorem clearLast_concat (k v : Nat) (vs : List Nat) : clearLast k (vs ++ [v]) = vs ++ [v / 2 ^ k * 2 ^ k] := by
  induction vs with
  | nil => rfl
  | cons w vs ih => rw [List.cons_append, clearLast_cons _ _ (by simp), ih, List.cons_append]

/-- **The sextets come back**, up to the low bits of the last one that fill no byte. -/
theorem sextets_octets {vs : List Nat} (hvs : ∀ v ∈ vs, v < 64) (hlen : vs.length % 4 ≠ 1) :
    sextets (octets vs) = clearLast (6 * vs.length % 8) vs := by
  induction vs using octets.induct with
  | case1 a b c d vs ih =>
    simp only [List.mem_cons, forall_eq_or_imp] at hvs
    obtain ⟨ha, hb, hc, hd, hvs⟩ := hvs
    simp only [List.length_cons] at hlen ⊢
    have hrest := ih hvs (by omega)
    have hmod : 6 * (vs.length + 1 + 1 + 1 + 1) % 8 = 6 * vs.length % 8 := by omega
    rw [octets, sextets, hmod, clearLast_cons _ _ (by simp), clearLast_cons _ _ (by simp), clearLast_cons _ _ (by simp),
      hrest]
    simp only [UInt8.toNat_ofNat']
    -- the fourth sextet is the last one only if nothing follows, and then no bit is unused
    have hlast : d :: clearLast (6 * vs.length % 8) vs = clearLast (6 * vs.length % 8) (d :: vs) := by
      by_cases hnil : vs = []
      · subst hnil
        exact (clearLast_zero [d]).symm
      · exact (clearLast_cons _ _ hnil).symm
    rw [← hlast]
    congr 1
    · omega
    congr 1
    · omega
    congr 1
    · omega
    congr 1
    omega
  | case2 a b c =>
    simp only [List.mem_cons, List.not_mem_nil, or_false, forall_eq_or_imp, forall_eq] at hvs
    obtain ⟨ha, hb, hc⟩ := hvs
    have hpow : 2 ^ (6 * [a, b, c].length % 8) = 4 := by simp
    simp only [octets, sextets, UInt8.toNat_ofNat', clearLast, hpow]
    congr 1
    · omega
    congr 1
    · omega
    congr 1
    omega
  | case3 a b =>
    simp only [List.mem_cons, List.not_mem_nil, or_false, forall_eq_or_imp, forall_eq] at hvs
    obtain ⟨ha, hb⟩ := hvs
    have hpow : 2 ^ (6 * [a, b].length % 8) = 16 := by simp
    simp only [octets, sextets, UInt8.toNat_ofNat', clearLast, hpow]
    congr 1
    · omega
    congr 1
    omega
  | case4 a => simp at hlen
  | case5 => rfl

end Bytes
