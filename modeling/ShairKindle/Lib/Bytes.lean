import Mathlib.Data.List.TakeWhile
import Mathlib.Tactic

/-!
# Byte strings

C string handling over lists of bytes: `memchr` cuts a range at the first occurrence of a byte,
`lines` is what repeated `memchr` for the line feed yields, `strstr` finds a substring in a
NUL-terminated copy, and `ciEq` is comparison up to ASCII case. A bounded pointer range of the
source is a list here, so a pointer into it is the suffix it starts.
-/

abbrev Bytes := List UInt8

namespace Bytes

/-- The bytes of an ASCII literal. -/
def ascii (s : String) : Bytes := s.toList.map fun c => UInt8.ofNat c.toNat

/-- The range before the first `c` and the range after it. -/
def memchr (c : UInt8) : Bytes → Option (Bytes × Bytes)
  | [] => none
  | x :: xs => if x = c then some ([], xs) else (memchr c xs).map fun r => (x :: r.1, r.2)

theorem memchr_eq_some_iff {c : UInt8} : ∀ {s a b : Bytes}, memchr c s = some (a, b) ↔ s = a ++ c :: b ∧ c ∉ a
  | [], a, b => by simp [memchr]
  | x :: xs, a, b => by
    by_cases hx : x = c
    · subst hx
      constructor
      · intro h
        simp only [memchr, if_true, Option.some.injEq, Prod.mk.injEq] at h
        obtain ⟨rfl, rfl⟩ := h
        simp
      · rintro ⟨h, hn⟩
        cases a with
        | nil => simp only [List.nil_append, List.cons.injEq, true_and] at h; simp [memchr, h]
        | cons y a =>
          simp only [List.cons_append, List.cons.injEq] at h
          exact absurd (h.1 ▸ List.mem_cons_self) hn
    · simp only [memchr, hx, if_false, Option.map_eq_some_iff, Prod.mk.injEq]
      constructor
      · rintro ⟨⟨a', b'⟩, h, rfl, rfl⟩
        obtain ⟨rfl, hn⟩ := memchr_eq_some_iff.1 h
        refine ⟨rfl, ?_⟩
        simp only [List.mem_cons, not_or]
        exact ⟨fun h => hx h.symm, hn⟩
      · rintro ⟨h, hn⟩
        cases a with
        | nil => simp only [List.nil_append, List.cons.injEq] at h; exact absurd h.1 hx
        | cons y a =>
          simp only [List.cons_append, List.cons.injEq] at h
          obtain ⟨rfl, rfl⟩ := h
          simp only [List.mem_cons, not_or] at hn
          exact ⟨(a, b), memchr_eq_some_iff.2 ⟨rfl, hn.2⟩, rfl, rfl⟩

/-! ## Lines -/

/-- The lines a walk by `memchr` over line feeds visits, without their line feeds; what follows the
last line feed is not a line. -/
def lines : Bytes → List Bytes
  | [] => []
  | x :: xs =>
    if x = 10 then [] :: lines xs
    else match lines xs with
      | [] => []
      | l :: ls => (x :: l) :: ls

theorem length_lines (a : Bytes) : (lines (a ++ [10])).length = a.count 10 + 1 := by
  induction a with
  | nil => simp [lines]
  | cons x a ih =>
    by_cases hx : x = 10
    · subst hx
      simp [lines, ih]
    · simp only [List.cons_append, lines, hx, if_false]
      cases hl : lines (a ++ [10]) with
      | nil => simp [hl] at ih
      | cons l ls =>
        rw [hl] at ih
        simpa [List.count_cons, hx] using ih

/-- A text that ends in a line feed contributes its lines in front of what follows. -/
theorem lines_append (a b : Bytes) : lines (a ++ 10 :: b) = lines (a ++ [10]) ++ lines b := by
  induction a with
  | nil => simp [lines]
  | cons x a ih =>
    by_cases hx : x = 10
    · simp [lines, hx, ih]
    · have hlen := length_lines a
      simp only [List.cons_append, lines, hx, if_false, ih]
      cases hl : lines (a ++ [10]) with
      | nil => simp [hl] at hlen
      | cons l ls => rfl

/-! ## Case and substrings -/

/-- `tolower` in the C locale. -/
def toLower (c : UInt8) : UInt8 := if 65 ≤ c && c ≤ 90 then c + 32 else c

/-- Equal length and equal up to ASCII case. -/
def ciEq (a b : Bytes) : Bool := a.map toLower == b.map toLower

/-- A range read as a C string: it ends at the first NUL. -/
def cstr (s : Bytes) : Bytes := s.takeWhile (· != 0)

/-- Letters stay letters: a byte below them is only its own lower case. -/
theorem toLower_eq_iff {c k : UInt8} (hk : k < 65) : toLower c = k ↔ c = k := by
  unfold toLower
  split_ifs with h
  · simp only [Bool.and_eq_true, decide_eq_true_eq, UInt8.le_iff_toNat_le, UInt8.lt_iff_toNat_lt] at h hk
    have h65 : (65 : UInt8).toNat = 65 := rfl
    have h90 : (90 : UInt8).toNat = 90 := rfl
    have hadd : (c + 32).toNat = c.toNat + 32 := by
      rw [UInt8.toNat_add]
      have h32 : (32 : UInt8).toNat = 32 := rfl
      omega
    constructor <;> intro he <;> subst he <;> omega
  · rfl

theorem mem_map_toLower {s : Bytes} {k : UInt8} (hk : k < 65) : k ∈ s.map toLower ↔ k ∈ s := by
  simp [List.mem_map, toLower_eq_iff hk]

theorem cstr_of_notMem {s : Bytes} (h : (0 : UInt8) ∉ s) : cstr s = s := by
  rw [cstr, List.takeWhile_eq_self_iff]
  intro c hc
  have hne : c ≠ 0 := fun h0 => h (h0 ▸ hc)
  simpa using hne

theorem cstr_append_nul (s r : Bytes) : cstr (s ++ 0 :: r) = cstr s := by
  induction s with
  | nil => rfl
  | cons c s ih =>
    rw [cstr] at ih
    rw [List.cons_append, cstr, cstr, List.takeWhile_cons, List.takeWhile_cons, ih, cstr]

theorem nul_notMem_cstr (s : Bytes) : (0 : UInt8) ∉ cstr s := by
  intro h
  simpa using List.mem_takeWhile_imp h

/-- The suffix of `s` right after the first occurrence of `key`. -/
def afterStr (key : Bytes) : Bytes → Option Bytes
  | [] => if key = [] then some [] else none
  | x :: xs => if key.isPrefixOf (x :: xs) then some ((x :: xs).drop key.length) else afterStr key xs

/-- A key whose first byte does not occur before it is found where it stands. -/
theorem afterStr_append {k : UInt8} {a : Bytes} (key b : Bytes) (h : k ∉ a) :
    afterStr (k :: key) (a ++ (k :: key) ++ b) = some b := by
  induction a with
  | nil =>
    have hpre : (k :: key).isPrefixOf ((k :: key) ++ b) = true := List.isPrefixOf_iff_prefix.2 (List.prefix_append _ _)
    rw [List.cons_append] at hpre
    rw [List.nil_append, List.cons_append, afterStr, if_pos hpre, ← List.cons_append, List.drop_left]
  | cons x a ih =>
    have hne : (k == x) = false := by
      rw [beq_eq_false_iff_ne]
      exact fun he => h (by simp [he])
    rw [List.cons_append, List.cons_append, afterStr, List.isPrefixOf, hne, Bool.false_and, if_neg (by decide)]
    exact ih fun hm => h (by simp [hm])

/-- The big-endian number in `c[i..i+2)`. -/
def be16At (c : Bytes) (i : Nat) : Nat := (c.getD i 0).toNat * 256 + (c.getD (i + 1) 0).toNat

/-! ## Decimal numbers -/

def isDigit (c : UInt8) : Bool := 48 ≤ c && c ≤ 57

/-- The value of a run of digits. -/
def decimalValue (s : Bytes) : Nat := s.foldl (fun v c => v * 10 + (c.toNat - 48)) 0

/-- The number a text denotes: some value iff it is a non-empty run of digits. -/
def decimal (s : Bytes) : Option Nat :=
  if s ≠ [] ∧ s.all isDigit then some (decimalValue s) else none

/-- One digit of the overflow-checked accumulation `v = v * 10 + d`. -/
def pushDigit (longMax v : Nat) (c : UInt8) : Option Nat :=
  if !isDigit c then none
  else
    let d := c.toNat - 48
    if (longMax - d) / 10 < v then none else some (v * 10 + d)

theorem pushDigit_eq_some {longMax v w : Nat} {c : UInt8} (h : pushDigit longMax v c = some w) :
    isDigit c = true ∧ w = v * 10 + (c.toNat - 48) := by
  simp only [pushDigit] at h
  split at h
  · cases h
  · rename_i hd
    split at h
    · cases h
    · exact ⟨by simpa using hd, (Option.some.inj h).symm⟩

theorem foldlM_pushDigit {longMax : Nat} : ∀ {s : Bytes} {v w : Nat},
    s.foldlM (pushDigit longMax) v = some w →
      s.all isDigit = true ∧ w = s.foldl (fun v c => v * 10 + (c.toNat - 48)) v
  | [], v, w, h => by
    simp only [List.foldlM_nil, Option.pure_def, Option.some.injEq] at h
    exact ⟨rfl, h.symm⟩
  | c :: s, v, w, h => by
    simp only [List.foldlM_cons, Option.bind_eq_bind, Option.bind_eq_some_iff] at h
    obtain ⟨u, hu, hw⟩ := h
    obtain ⟨hd, rfl⟩ := pushDigit_eq_some hu
    obtain ⟨hall, rfl⟩ := foldlM_pushDigit hw
    exact ⟨by simp [hd, hall], rfl⟩

/-- A digit is taken while the number stays within bounds. -/
theorem pushDigit_of_le {longMax v : Nat} {c : UInt8} (hc : isDigit c = true) (h : v * 10 + (c.toNat - 48) ≤ longMax) :
    pushDigit longMax v c = some (v * 10 + (c.toNat - 48)) := by
  simp only [pushDigit, hc, Bool.not_true, Bool.false_eq_true, if_false]
  rw [if_neg (by omega)]

theorem le_foldl_digits (s : Bytes) (v : Nat) : v ≤ s.foldl (fun v c => v * 10 + (c.toNat - 48)) v := by
  induction s generalizing v with
  | nil => exact le_rfl
  | cons c s ih => exact (by omega : v ≤ v * 10 + (c.toNat - 48)).trans (ih _)

/-- Digits whose number is within bounds are all taken. -/
theorem foldlM_pushDigit_of_le {longMax : Nat} {s : Bytes} {v : Nat} (hs : s.all isDigit = true)
    (h : s.foldl (fun v c => v * 10 + (c.toNat - 48)) v ≤ longMax) :
    s.foldlM (pushDigit longMax) v = some (s.foldl (fun v c => v * 10 + (c.toNat - 48)) v) := by
  induction s generalizing v with
  | nil => rfl
  | cons c s ih =>
    simp only [List.all_cons, Bool.and_eq_true] at hs
    have hle := (le_foldl_digits s (v * 10 + (c.toNat - 48))).trans h
    rw [List.foldlM_cons, pushDigit_of_le hs.1 hle]
    exact ih hs.2 h

/-- A digit of a printed number, as a character and as a byte. -/
theorem digit_of_mem_toDigits {n : Nat} {d : Char} (h : d ∈ Nat.toDigits 10 n) : 48 ≤ d.toNat ∧ d.toNat ≤ 57 := by
  have hdig := Nat.isDigit_of_mem_toDigits (by decide) (by decide) h
  simp only [Char.isDigit, Bool.and_eq_true, decide_eq_true_eq, UInt32.le_iff_toNat_le] at hdig
  exact hdig

/-- A number in decimal: digits only. -/
theorem isDigit_ascii_toString {n : Nat} {c : UInt8} (h : c ∈ ascii (toString n)) : isDigit c = true := by
  simp only [ascii, toString, Nat.repr, String.toList_ofList, List.mem_map] at h
  obtain ⟨d, hd, rfl⟩ := h
  obtain ⟨hlo, hhi⟩ := digit_of_mem_toDigits hd
  simp only [isDigit, Bool.and_eq_true, decide_eq_true_eq, UInt8.le_iff_toNat_le, UInt8.toNat_ofNat']
  have hmod : d.toNat % 2 ^ 8 = d.toNat := by omega
  rw [hmod]
  exact ⟨hlo, hhi⟩

theorem foldl_digits_map (ds : List Char) (hds : ∀ d ∈ ds, 48 ≤ d.toNat ∧ d.toNat ≤ 57) (v : Nat) :
    (ds.map fun d => UInt8.ofNat d.toNat).foldl (fun v c => v * 10 + (c.toNat - 48)) v = Nat.ofDigitChars 10 ds v := by
  induction ds generalizing v with
  | nil => rfl
  | cons d ds ih =>
    obtain ⟨hlo, hhi⟩ := hds d (by simp)
    have hd : (UInt8.ofNat d.toNat).toNat = d.toNat := by
      rw [UInt8.toNat_ofNat']
      omega
    have hstep : v * 10 + (d.toNat - 48) = 10 * v + (d.toNat - 48) := by omega
    rw [List.map_cons, List.foldl_cons, hd, hstep]
    exact ih (fun e he => hds e (by simp [he])) _

/-- A printed number denotes itself. -/
theorem decimal_ascii_toString (n : Nat) : decimal (ascii (toString n)) = some n := by
  have hall : (ascii (toString n)).all isDigit = true := List.all_eq_true.2 fun c => isDigit_ascii_toString
  have htext : ascii (toString n) = (Nat.toDigits 10 n).map fun d => UInt8.ofNat d.toNat := by
    simp only [ascii, toString, Nat.repr, String.toList_ofList]
  have hval : decimalValue (ascii (toString n)) = n := by
    rw [decimalValue, htext, foldl_digits_map _ fun d => digit_of_mem_toDigits]
    exact Nat.ofDigitChars_toDigits (by decide) (by decide)
  have hne : ascii (toString n) ≠ [] := by
    rw [htext]
    simp [Nat.toDigits_ne_nil]
  rw [decimal, if_pos ⟨hne, hall⟩, hval]

end Bytes
