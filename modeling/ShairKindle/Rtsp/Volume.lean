import ShairKindle.Lib.Binary
import ShairKindle.Lib.Bytes

/-!
# The volume a text names (src/raop_volume.c, src/rtsp.c:170-176)

A sender names the volume as decibels in text. `rtsp_handle` reads it with `atof`, casts it to `float`, drops it if it is
NaN and turns it into a percentage. `atof` is the one of C: blanks, a sign, then an infinity, a NaN, a hexadecimal or a
decimal number, of which the longest prefix counts and the rest is ignored; a text that starts with none of these is 0.
Each operation on `float` is rounded by itself, as on a machine that evaluates it in that type.

| here | there |
| --- | --- |
| `atof`              | `atof` of the C library; `none` is NaN |
| `raopVolumeDbToPct` | `raop_volume_db_to_pct` (raop_volume.c:2) |
| `volumePct`         | rtsp.c:170-174, `none` where `isnan` holds |
-/

namespace ShairKindle

open Bytes Binary

/-! ## `atof` -/

/-- `isspace` in the C locale. -/
def isSpace (c : UInt8) : Bool := c == 32 || (9 ≤ c && c ≤ 13)

/-- Whether a minus sign stands in front, and the text behind the sign. -/
def signOf : Bytes → Bool × Bytes
  | 45 :: r => (true, r)
  | 43 :: r => (false, r)
  | r => (false, r)

def isXDigit (c : UInt8) : Bool := isDigit c || (97 ≤ toLower c && toLower c ≤ 102)

/-- The value of a run of hexadecimal digits. -/
def hexValue (s : Bytes) : Nat :=
  s.foldl (fun v c => v * 16 + if isDigit c then c.toNat - 48 else (toLower c).toNat - 87) 0

/-- The exponent behind the letter `mark`, or 0: a sign and decimal digits. -/
def exponent (mark : UInt8) : Bytes → Int
  | [] => 0
  | c :: r =>
    let (neg, digits) := signOf r
    if toLower c ≠ mark then 0
    else if neg then -(decimalValue (digits.takeWhile isDigit) : Int)
    else decimalValue (digits.takeWhile isDigit)

/-- Digits, of which those behind a point count `perDigit` powers of `radix` less each, and an exponent. With no digit the
value is 0. -/
def scanNumber (digit : UInt8 → Bool) (value : Bytes → Nat) (radix perDigit : Nat) (mark : UInt8) (s : Bytes) : ℚ :=
  let whole := s.takeWhile digit
  let (frac, rest) := match s.dropWhile digit with
    | 46 :: r => (r.takeWhile digit, r.dropWhile digit)
    | r => ([], r)
  value (whole ++ frac) * (radix : ℚ) ^ (exponent mark rest - perDigit * frac.length)

/-- The number behind the sign, exactly. -/
def unsignedNumber (s : Bytes) : ℚ :=
  if ciEq (s.take 2) (ascii "0x") then scanNumber isXDigit hexValue 2 4 112 (s.drop 2)
  else scanNumber isDigit decimalValue 10 1 101 s

def atof (s : Bytes) : Option Value :=
  let (neg, r) := signOf (s.dropWhile isSpace)
  if ciEq (r.take 3) (ascii "nan") then none
  else if ciEq (r.take 3) (ascii "inf") then some (.infinite neg)
  else some (double.round (if neg then -unsignedNumber r else unsignedNumber r))

/-! ## The percentage -/

/-- `(db + 30.0f) / 30.0f * 100.0f` and `+ 0.5f`, one rounding each. -/
def pctPlusHalf (db : Value) : Value :=
  (((db.step single (· + 30)).step single (· / 30)).step single (· * 100)).step single (· + 1 / 2)

/-- `none` is a conversion to `int` that C leaves undefined. -/
def raopVolumeDbToPct (db : Value) : Option Int :=
  if db.le (-30) then some 0
  else if db.ge 0 then some 100
  else (pctPlusHalf db).truncate

def volumePct (text : Bytes) : Option Int := (atof text).bind fun db => raopVolumeDbToPct (db.step single id)

/-- The steps of the formula stay between 0 and a number of the format: 30, 1, 100 and 100.5. -/
theorem pctPlusHalf_between {x : ℚ} (hlow : -30 < x) (hhigh : x < 0) :
    ∃ y, pctPlusHalf (.finite x) = .finite y ∧ 0 ≤ y ∧ y ≤ 201 / 2 := by
  obtain ⟨a, ha, ha₀, ha₁⟩ := Format.round_between (f := single) (x := x + 30) (b := 30) (by linarith) (by linarith)
    (by decide +kernel) (by decide +kernel)
  obtain ⟨b, hb, hb₀, hb₁⟩ := Format.round_between (f := single) (x := a / 30) (b := 1) (by linarith) (by linarith)
    (by decide +kernel) (by decide +kernel)
  obtain ⟨c, hc, hc₀, hc₁⟩ := Format.round_between (f := single) (x := b * 100) (b := 100) (by linarith) (by linarith)
    (by decide +kernel) (by decide +kernel)
  obtain ⟨y, hy, hy₀, hy₁⟩ := Format.round_between (f := single) (x := c + 1 / 2) (b := 201 / 2) (by linarith)
    (by linarith) (by decide +kernel) (by decide +kernel)
  refine ⟨y, ?_, hy₀, hy₁⟩
  simp only [pctPlusHalf, Value.step, ha, hb, hc, hy]

/-- **A percentage.** The conversion is always defined, and its result lies between 0 and 100. -/
theorem raopVolumeDbToPct_percent (db : Value) : ∃ pct, raopVolumeDbToPct db = some pct ∧ 0 ≤ pct ∧ pct ≤ 100 := by
  unfold raopVolumeDbToPct
  split_ifs with hlow hhigh
  · exact ⟨0, rfl, by decide, by decide⟩
  · exact ⟨100, rfl, by decide, by decide⟩
  · cases db with
    | infinite neg => cases neg <;> simp [Value.le, Value.ge] at hlow hhigh
    | finite x =>
      simp only [Value.le, Value.ge, decide_eq_true_eq, not_le] at hlow hhigh
      obtain ⟨y, hy, hy₀, hy₁⟩ := pctPlusHalf_between hlow hhigh
      refine ⟨⌊y⌋, by rw [hy, Value.truncate, if_pos hy₀], Int.floor_nonneg.2 hy₀, ?_⟩
      exact Int.floor_le_iff.2 (hy₁.trans_lt (by norm_num))

theorem volumePct_percent {text : Bytes} {pct : Int} (h : volumePct text = some pct) : 0 ≤ pct ∧ pct ≤ 100 := by
  obtain ⟨db, -, hdb⟩ := Option.bind_eq_some_iff.1 h
  obtain ⟨pct', hpct, hrange⟩ := raopVolumeDbToPct_percent (db.step single id)
  obtain rfl := Option.some.inj (hdb.symm.trans hpct)
  exact hrange

/-! ## Texts that name no volume -/

/-- The text starts with a NaN: behind blanks and at most one sign stands `nan`, in any case. -/
def ReadsNan (text : Bytes) : Prop :=
  ∃ blanks sign word rest, text = blanks ++ (sign ++ (word ++ rest)) ∧ (∀ c ∈ blanks, isSpace c = true) ∧
    (sign = [] ∨ sign = [43] ∨ sign = [45]) ∧ ciEq word (ascii "nan") = true

theorem signOf_split (s : Bytes) :
    ∃ sign, s = sign ++ (signOf s).2 ∧ (sign = [] ∨ sign = [43] ∨ sign = [45]) := by
  unfold signOf
  split
  · exact ⟨[45], rfl, .inr (.inr rfl)⟩
  · exact ⟨[43], rfl, .inr (.inl rfl)⟩
  · exact ⟨[], rfl, .inl rfl⟩

/-- A word in place of a number starts with a letter, so that neither blanks nor a sign hide it. -/
theorem dropWhile_isSpace_letter {c : UInt8} (hc : 65 ≤ c) (r : Bytes) {sign : Bytes}
    (hsign : sign = [] ∨ sign = [43] ∨ sign = [45]) :
    (sign ++ c :: r).dropWhile isSpace = sign ++ c :: r ∧ (signOf (sign ++ c :: r)).2 = c :: r := by
  have hspace : isSpace c = false := by
    simp only [isSpace, Bool.or_eq_false_iff, beq_eq_false_iff_ne, Bool.and_eq_false_iff, decide_eq_false_iff_not]
    constructor
    · rintro rfl
      exact absurd hc (by decide)
    · exact .inr fun h => absurd (UInt8.le_trans hc h) (by decide)
  rcases hsign with rfl | rfl | rfl
  · refine ⟨by rw [List.nil_append, List.dropWhile_cons_of_neg (by rw [hspace]; decide)], ?_⟩
    rw [List.nil_append, signOf]
    · intro r' h
      obtain ⟨rfl, -⟩ := List.cons.inj h
      exact absurd hc (by decide)
    · intro r' h
      obtain ⟨rfl, -⟩ := List.cons.inj h
      exact absurd hc (by decide)
  · exact ⟨rfl, rfl⟩
  · exact ⟨rfl, rfl⟩

theorem atof_eq_none_iff (text : Bytes) : atof text = none ↔ ReadsNan text := by
  have hread : atof text = none ↔ ciEq ((signOf (text.dropWhile isSpace)).2.take 3) (ascii "nan") = true := by
    unfold atof
    dsimp only
    split_ifs with hnan hinf
    · exact iff_of_true rfl hnan
    · exact iff_of_false nofun hnan
    · exact iff_of_false nofun hnan
  rw [hread]
  constructor
  · intro hnan
    obtain ⟨sign, hsplit, hsign⟩ := signOf_split (text.dropWhile isSpace)
    refine ⟨text.takeWhile isSpace, sign, _, (signOf (text.dropWhile isSpace)).2.drop 3, ?_,
      fun c hc => List.mem_takeWhile_imp hc, hsign, hnan⟩
    rw [List.take_append_drop, ← hsplit, List.takeWhile_append_dropWhile]
  · rintro ⟨blanks, sign, word, rest, rfl, hblanks, hsign, hword⟩
    have hlower : word.map toLower = ascii "nan" := by
      rw [ciEq, beq_iff_eq] at hword
      exact hword.trans (by decide)
    have hlen : word.length = 3 := by
      rw [← List.length_map toLower, hlower]
      decide
    obtain ⟨c, r, rfl⟩ : ∃ c r, word = c :: r := List.exists_cons_of_length_pos (by omega)
    have hc : 65 ≤ c := by
      refine UInt8.not_lt.1 fun hlt => ?_
      have hself : toLower c = c := (toLower_eq_iff hlt).2 rfl
      rw [List.map_cons, hself] at hlower
      obtain ⟨rfl, -⟩ := List.cons.inj (hlower.trans (by decide : ascii "nan" = 110 :: [97, 110]))
      exact absurd hlt (by decide)
    obtain ⟨hdrop, htail⟩ := dropWhile_isSpace_letter hc (r ++ rest) hsign
    rw [List.dropWhile_append_of_pos hblanks, List.cons_append, hdrop, htail, ← List.cons_append,
      List.take_left' hlen]
    exact hword

/-- No volume is read exactly from a text that starts with a NaN; any other names one, 0 dB if it is no number. -/
theorem volumePct_eq_none_iff (text : Bytes) : volumePct text = none ↔ ReadsNan text := by
  rw [← atof_eq_none_iff, volumePct, Option.bind_eq_none_iff]
  constructor
  · intro h
    cases hdb : atof text with
    | none => rfl
    | some db =>
      obtain ⟨pct, hpct, -⟩ := raopVolumeDbToPct_percent (db.step single id)
      exact absurd (h db hdb) (by rw [hpct]; nofun)
  · intro h db hdb
    rw [h] at hdb
    cases hdb

example : volumePct (ascii " -144") = some 0 := by decide +kernel
example : volumePct (ascii " -14.5\r\n") = some 52 := by decide +kernel
example : volumePct (ascii "\t-0x1.Ep+3 dB") = some 50 := by decide +kernel
example : volumePct (ascii " -NaN") = none := by decide +kernel

end ShairKindle
