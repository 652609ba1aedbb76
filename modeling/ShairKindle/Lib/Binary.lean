import Mathlib.Data.Int.Log
import Mathlib.Data.Rat.Floor

/-!
# Binary floating point

A number of a binary format is an exact rational or one of two infinities; an operation is the exact one followed by
`Format.round`, which takes the nearest multiple of the unit in the last place, the even one where two are as near, and an
infinity from `2 ^ maxExp` on. NaN is not a `Value`, and the two zeros are one.
-/

namespace Binary

/-- `precision` significant bits, a unit in the last place of at least `2 ^ minExp`, and numbers below `2 ^ maxExp`. -/
structure Format where
  precision : Nat
  minExp : Int
  maxExp : Int

/-- The C `float` of IEEE 754. -/
def single : Format := ⟨24, -149, 128⟩

/-- The C `double`. -/
def double : Format := ⟨53, -1074, 1024⟩

inductive Value
  | infinite (neg : Bool)
  | finite (x : ℚ)
  deriving DecidableEq

/-! ## Rounding -/

/-- The nearest integer, and of two the even one. -/
def roundEven (q : ℚ) : ℤ :=
  if Int.fract q < 1 / 2 then ⌊q⌋
  else if 1 / 2 < Int.fract q then ⌊q⌋ + 1
  else if ⌊q⌋ % 2 = 0 then ⌊q⌋ else ⌊q⌋ + 1

namespace Format

variable (f : Format)

/-- The exponent of the unit in the last place of a number as large as `x`. -/
def ulpExp (x : ℚ) : ℤ := max f.minExp (Int.log 2 |x| - f.precision + 1)

/-- The number nearest to `x` if exponents had no upper end. -/
def nearest (x : ℚ) : ℚ := roundEven (x / 2 ^ f.ulpExp x) * 2 ^ f.ulpExp x

def round (x : ℚ) : Value :=
  if 2 ^ f.maxExp ≤ |f.nearest x| then .infinite (decide (x < 0)) else .finite (f.nearest x)

end Format

namespace Value

/-- An exact operation and its rounding. It is for operations that leave an infinity as it is: a conversion, or a finite
number added or a positive one multiplied with. -/
def step (f : Format) (op : ℚ → ℚ) : Value → Value
  | .infinite neg => .infinite neg
  | .finite x => f.round (op x)

def le (v : Value) (c : ℚ) : Bool :=
  match v with
  | .infinite neg => neg
  | .finite x => decide (x ≤ c)

def ge (v : Value) (c : ℚ) : Bool :=
  match v with
  | .infinite neg => !neg
  | .finite x => decide (c ≤ x)

/-- The conversion to an integer drops the fraction; that of an infinity is undefined. -/
def truncate : Value → Option ℤ
  | .infinite _ => none
  | .finite x => some (if 0 ≤ x then ⌊x⌋ else ⌈x⌉)

end Value

/-! ## Bounds survive rounding -/

theorem le_roundEven {q : ℚ} {n : ℤ} (h : (n : ℚ) ≤ q) : n ≤ roundEven q := by
  have hn : n ≤ ⌊q⌋ := Int.le_floor.2 h
  unfold roundEven
  split_ifs <;> omega

theorem roundEven_le {q : ℚ} {n : ℤ} (h : q ≤ n) : roundEven q ≤ n := by
  have hn : ⌊q⌋ ≤ n := Int.floor_le_iff.2 (h.trans_lt (by linarith))
  rcases hn.lt_or_eq with hlt | heq
  · unfold roundEven
    split_ifs <;> omega
  · -- `q` is `n` itself
    have hq : Int.fract q = 0 := by
      refine le_antisymm ?_ (Int.fract_nonneg q)
      rw [Int.fract, heq]
      exact sub_nonpos.2 h
    rw [roundEven, if_pos (by rw [hq]; norm_num), heq]

namespace Format

variable {f : Format} {x b : ℚ}

theorem ulp_pos (e : ℤ) : (0 : ℚ) < 2 ^ e := zpow_pos two_pos e

theorem nearest_nonneg (hx : 0 ≤ x) : 0 ≤ f.nearest x := by
  have hquot : 0 ≤ x / 2 ^ f.ulpExp x := div_nonneg hx (ulp_pos _).le
  have hround : 0 ≤ roundEven (x / 2 ^ f.ulpExp x) := le_roundEven (by rwa [Int.cast_zero])
  exact mul_nonneg (Int.cast_nonneg hround) (ulp_pos _).le

/-- A larger number has the larger unit. -/
theorem ulpExp_mono (hx : 0 < x) (hb : x ≤ b) : f.ulpExp x ≤ f.ulpExp b := by
  have hlog : Int.log 2 |x| ≤ Int.log 2 |b| := by
    rw [abs_of_pos hx, abs_of_pos (hx.trans_le hb)]
    exact Int.log_mono_right hx hb
  unfold ulpExp
  omega

/-- A number of the format is a multiple of every smaller unit. -/
theorem exact_multiple (hb : f.nearest b = b) {e : ℤ} (he : e ≤ f.ulpExp b) : ∃ k : ℤ, b / 2 ^ e = k := by
  obtain ⟨j, hj⟩ := Int.le.dest he
  refine ⟨roundEven (b / 2 ^ f.ulpExp b) * 2 ^ j, ?_⟩
  have hunit : (2 : ℚ) ^ f.ulpExp b = 2 ^ j * 2 ^ e := by
    rw [← hj, zpow_add₀ two_ne_zero, zpow_natCast, mul_comm]
  calc b / 2 ^ e = roundEven (b / 2 ^ f.ulpExp b) * 2 ^ f.ulpExp b / 2 ^ e := by rw [← nearest, hb]
    _ = roundEven (b / 2 ^ f.ulpExp b) * 2 ^ j := by
      rw [hunit, ← mul_assoc, mul_div_cancel_right₀ _ (ulp_pos e).ne']
    _ = _ := by push_cast; rfl

/-- Rounding does not step over a number of the format. -/
theorem nearest_le (hx : 0 ≤ x) (hb : x ≤ b) (hexact : f.nearest b = b) : f.nearest x ≤ b := by
  have hpow := ulp_pos (f.ulpExp x)
  rcases hx.eq_or_lt with rfl | hpos
  · have hzero : roundEven (0 / 2 ^ f.ulpExp 0) ≤ 0 := roundEven_le (by simp)
    exact (mul_nonpos_of_nonpos_of_nonneg (Int.cast_nonpos.2 hzero) hpow.le).trans hb
  · obtain ⟨k, hk⟩ := exact_multiple hexact (ulpExp_mono hpos hb)
    have hround : roundEven (x / 2 ^ f.ulpExp x) ≤ k := roundEven_le (by rw [← hk]; gcongr)
    calc f.nearest x = roundEven (x / 2 ^ f.ulpExp x) * 2 ^ f.ulpExp x := rfl
      _ ≤ k * 2 ^ f.ulpExp x := by gcongr
      _ = b := by rw [← hk, div_mul_cancel₀ b hpow.ne']

/-- A result between 0 and a number of the format is rounded to one between them. -/
theorem round_between (hx : 0 ≤ x) (hb : x ≤ b) (hexact : f.nearest b = b) (hmax : b < 2 ^ f.maxExp) :
    ∃ y, f.round x = .finite y ∧ 0 ≤ y ∧ y ≤ b := by
  have hnonneg := nearest_nonneg (f := f) hx
  have hle := nearest_le hx hb hexact
  refine ⟨f.nearest x, ?_, hnonneg, hle⟩
  rw [round, if_neg]
  rw [abs_of_nonneg hnonneg, not_le]
  exact hle.trans_lt hmax

end Format

end Binary
