import ShairKindle.Rtsp.Sdp
import ShairKindle.Rtsp.Slices

/-!
# The number lists of an ANNOUNCE body (src/sdp.c:119-151)

`Uints` is the text format: runs of digits with spaces between them, blanks around them. `parseUintList` accepts
exactly those texts. `uintLoopW` is the digit loop again with every operation of the source's `long` checked; none
ever overflows.

| here | source |
|---|---|
| `uintLoopW`, `parseUintBoundedW` | `parse_uint_bounded` (sdp.c:122) in a `long` of `w` bits |
| `parseUintListW` | `parse_uint_list` (sdp.c:141) |
-/

namespace ShairKindle

open Bytes

/-! ## The format -/

/-- A number of the list: how many spaces stand before it, and its digits. -/
structure UintRun where
  gap : Nat
  digits : Bytes
  digits_ne_nil : digits ≠ []
  digits_all : digits.all isDigit = true

def UintRun.text (r : UintRun) : Bytes := List.replicate r.gap 32 ++ r.digits

/-- `n` numbers, at least one space between any two, then spaces and tabs. Leading zeros are part of a number and a
number has any length, but its value fits an `int`. -/
structure Uints (n : Nat) (p : Bytes) (vs : List Nat) : Prop where
  exists_runs : ∃ (runs : List UintRun) (tail : Bytes), runs.length = n ∧ p = runs.flatMap UintRun.text ++ tail ∧
    (∀ r ∈ runs.tail, 1 ≤ r.gap) ∧ (∀ c ∈ tail, c = 32 ∨ c = 9) ∧ vs = runs.map (decimalValue ·.digits)
  le_intMax : ∀ v ∈ vs, v ≤ intMax

/-! ## One number -/

theorem takeWhile_digits {run rest : Bytes} (hrun : run.all isDigit = true) (hrest : ∀ c ∈ rest.head?, isDigit c = false) :
    (run ++ rest).takeWhile isDigit = run ∧ (run ++ rest).dropWhile isDigit = rest := by
  have hall : ∀ c ∈ run, isDigit c = true := List.all_eq_true.1 hrun
  rw [List.takeWhile_append_of_pos hall, List.dropWhile_append_of_pos hall]
  cases rest with
  | nil => simp
  | cons c rest => simp [hrest c rfl]

theorem head?_dropWhile_digits (p : Bytes) : ∀ c ∈ (p.dropWhile isDigit).head?, isDigit c = false := by
  intro c hc
  have := List.head?_dropWhile_not isDigit p
  rw [Option.mem_def.1 hc] at this
  simpa using this

/-- **One number.** The whole run of digits is read, provided its value fits an `int`. -/
theorem parseUintBounded_eq_some_iff {longMax : Nat} (hlong : intMax ≤ longMax) {p rest : Bytes} {v : Nat} :
    parseUintBounded longMax p = some (v, rest) ↔
      ∃ run, p = run ++ rest ∧ run ≠ [] ∧ run.all isDigit = true ∧ (∀ c ∈ rest.head?, isDigit c = false) ∧
        v = decimalValue run ∧ v ≤ intMax := by
  constructor
  · intro h
    rw [parseUintBounded] at h
    split at h
    · cases h
    · next hne =>
      split at h
      · cases h
      · next v' hfold =>
        split at h
        · cases h
        · next hle =>
          obtain ⟨rfl, rfl⟩ := Prod.mk.inj (Option.some.inj h)
          obtain ⟨hall, hval⟩ := foldlM_pushDigit hfold
          exact ⟨_, List.takeWhile_append_dropWhile.symm, hne, hall, head?_dropWhile_digits p, hval, not_lt.1 hle⟩
  · rintro ⟨run, rfl, hne, hall, hrest, rfl, hle⟩
    obtain ⟨htake, hdrop⟩ := takeWhile_digits hall hrest
    have hfold : run.foldlM (pushDigit longMax) 0 = some (decimalValue run) :=
      foldlM_pushDigit_of_le hall (hle.trans hlong)
    simp only [parseUintBounded, htake, hdrop, hfold, if_neg hne, if_neg (not_lt.2 hle)]

/-! ## The list -/

theorem dropWhile_spaces (k : Nat) {q : Bytes} (hq : ∀ c ∈ q.head?, c ≠ 32) :
    (List.replicate k 32 ++ q).dropWhile (· == 32) = q := by
  rw [List.dropWhile_append_of_pos (by simp +contextual)]
  cases q with
  | nil => rfl
  | cons c q => exact List.dropWhile_cons_of_neg (by simpa using hq c rfl)

theorem eq_spaces_append (p : Bytes) : ∃ k, p = List.replicate k 32 ++ p.dropWhile (· == 32) := by
  refine ⟨(p.takeWhile (· == 32)).length, ?_⟩
  have hall : p.takeWhile (· == 32) = List.replicate (p.takeWhile (· == 32)).length 32 := by
    refine List.eq_replicate_of_mem fun c hc => ?_
    simpa using List.mem_takeWhile_imp hc
  rw [← hall, List.takeWhile_append_dropWhile]

theorem UintRun.head?_digits (r : UintRun) (rest : Bytes) : ∃ c, (r.digits ++ rest).head? = some c ∧ isDigit c = true := by
  obtain ⟨c, cs, hcs⟩ := List.exists_cons_of_ne_nil r.digits_ne_nil
  have hall := r.digits_all
  rw [hcs, List.all_cons, Bool.and_eq_true] at hall
  exact ⟨c, by rw [hcs]; rfl, hall.1⟩

/-- What follows a number starts with no digit, for there is a gap before the next one. -/
theorem head?_runs {runs : List UintRun} {tail : Bytes} (hgap : ∀ r ∈ runs, 1 ≤ r.gap) (htail : ∀ c ∈ tail, c = 32 ∨ c = 9) :
    ∀ c ∈ (runs.flatMap UintRun.text ++ tail).head?, isDigit c = false := by
  have hblank : ∀ c : UInt8, c = 32 ∨ c = 9 → isDigit c = false := by
    rintro c (rfl | rfl) <;> decide
  intro c hc
  cases runs with
  | nil =>
    cases tail with
    | nil => cases hc
    | cons d tail =>
      obtain rfl : d = c := Option.some.inj hc
      exact hblank d (htail d List.mem_cons_self)
  | cons r runs =>
    obtain ⟨k, hk⟩ := Nat.exists_eq_add_of_le' (hgap r List.mem_cons_self)
    rw [List.flatMap_cons, UintRun.text, hk, List.replicate_succ] at hc
    exact hblank c (.inl (Option.some.inj hc).symm)

/-- Only the first number of a list may stand without a space before it. -/
theorem gaps_of_head? {runs : List UintRun} {tail : Bytes} (hgap : ∀ r ∈ runs.tail, 1 ≤ r.gap)
    (hhead : ∀ c ∈ (runs.flatMap UintRun.text ++ tail).head?, isDigit c = false) : ∀ r ∈ runs, 1 ≤ r.gap := by
  cases runs with
  | nil => simp
  | cons r runs =>
    intro x hx
    rcases List.mem_cons.1 hx with rfl | hx
    · by_contra hzero
      obtain ⟨c, hc, hdigit⟩ := x.head?_digits (runs.flatMap UintRun.text ++ tail)
      have hfalse := hhead c (by
        rw [List.flatMap_cons, UintRun.text, Nat.lt_one_iff.1 (not_le.1 hzero), List.replicate_zero, List.nil_append,
          List.append_assoc]
        exact hc)
      rw [hdigit] at hfalse
      cases hfalse
    · exact hgap x hx

theorem UintRun.dropWhile_text (r : UintRun) (rest : Bytes) :
    (r.text ++ rest).dropWhile (· == 32) = r.digits ++ rest := by
  obtain ⟨c, hc, hdigit⟩ := r.head?_digits rest
  rw [UintRun.text, List.append_assoc]
  refine dropWhile_spaces _ fun d hd => ?_
  rw [hc] at hd
  obtain rfl := Option.some.inj hd
  rintro rfl
  exact absurd hdigit (by decide)

theorem uints_zero_iff {p : Bytes} {vs : List Nat} : Uints 0 p vs ↔ (∀ c ∈ p, c = 32 ∨ c = 9) ∧ vs = [] := by
  constructor
  · rintro ⟨⟨runs, tail, hn, rfl, -, htail, rfl⟩, -⟩
    obtain rfl := List.eq_nil_of_length_eq_zero hn
    exact ⟨htail, rfl⟩
  · rintro ⟨hblank, rfl⟩
    exact ⟨⟨[], p, rfl, rfl, by simp, hblank, rfl⟩, by simp⟩

/-- The list, number by number: a number ends where the digits end. -/
theorem uints_succ_iff {n : Nat} {p : Bytes} {vs : List Nat} :
    Uints (n + 1) p vs ↔ ∃ (r : UintRun) (rest : Bytes) (vs' : List Nat), p = r.text ++ rest ∧
      vs = decimalValue r.digits :: vs' ∧ decimalValue r.digits ≤ intMax ∧ (∀ c ∈ rest.head?, isDigit c = false) ∧
      Uints n rest vs' := by
  constructor
  · rintro ⟨⟨runs, tail, hn, rfl, hgap, htail, rfl⟩, hle⟩
    obtain ⟨r, runs, rfl⟩ := List.exists_cons_of_length_eq_add_one hn
    rw [List.map_cons, List.forall_mem_cons] at hle
    refine ⟨r, runs.flatMap UintRun.text ++ tail, _, ?_, rfl, hle.1, head?_runs hgap htail, ?_, hle.2⟩
    · rw [List.flatMap_cons, List.append_assoc]
    · exact ⟨runs, tail, Nat.succ.inj hn, rfl, fun x hx => hgap x (List.mem_of_mem_tail hx), htail, rfl⟩
  · rintro ⟨r, rest, vs', rfl, rfl, hle, hhead, ⟨runs, tail, hn, rfl, hgap, htail, rfl⟩, hles⟩
    refine ⟨⟨r :: runs, tail, by rw [List.length_cons, hn], ?_, gaps_of_head? hgap hhead, htail, rfl⟩, ?_⟩
    · rw [List.flatMap_cons, List.append_assoc]
    · rw [List.forall_mem_cons]
      exact ⟨hle, hles⟩

theorem parseUintList_succ_iff {longMax n : Nat} {p : Bytes} {vs : List Nat} :
    parseUintList longMax (n + 1) p = some vs ↔ ∃ v rest vs', vs = v :: vs' ∧
      parseUintBounded longMax (p.dropWhile (· == 32)) = some (v, rest) ∧ parseUintList longMax n rest = some vs' := by
  rw [parseUintList]
  split
  · next h => simp [h]
  · next v rest h =>
    rw [h, Option.map_eq_some_iff]
    constructor
    · rintro ⟨vs', h', rfl⟩
      exact ⟨v, rest, vs', rfl, rfl, h'⟩
    · rintro ⟨v', rest', vs', rfl, hq, h'⟩
      obtain ⟨rfl, rfl⟩ := Prod.mk.inj (Option.some.inj hq)
      exact ⟨vs', h', rfl⟩

theorem parseUintList_eq_some_iff {longMax : Nat} (hlong : intMax ≤ longMax) (n : Nat) (p : Bytes) (vs : List Nat) :
    parseUintList longMax n p = some vs ↔ Uints n p vs := by
  induction n generalizing p vs with
  | zero =>
    have hblanks : p.dropWhile (fun c => c == 32 || c == 9) = [] ↔ ∀ c ∈ p, c = 32 ∨ c = 9 := by
      simp [List.dropWhile_eq_nil_iff]
    rw [parseUintList, uints_zero_iff, ← hblanks]
    split
    · next hall => simp [hall, eq_comm]
    · next hrest => simp [hrest]
  | succ n ih =>
    rw [parseUintList_succ_iff, uints_succ_iff]
    constructor
    · rintro ⟨v, rest, vs', rfl, hone, hlist⟩
      obtain ⟨run, hp, hne, hall, hrest, rfl, hle⟩ := (parseUintBounded_eq_some_iff hlong).1 hone
      obtain ⟨k, hk⟩ := eq_spaces_append p
      refine ⟨⟨k, run, hne, hall⟩, rest, vs', ?_, rfl, hle, hrest, (ih rest vs').1 hlist⟩
      rw [hk, hp, UintRun.text, List.append_assoc]
    · rintro ⟨r, rest, vs', rfl, rfl, hle, hrest, hlist⟩
      refine ⟨_, rest, vs', rfl, (parseUintBounded_eq_some_iff hlong).2 ?_, (ih rest vs').2 hlist⟩
      exact ⟨r.digits, r.dropWhile_text rest, r.digits_ne_nil, r.digits_all, hrest, rfl, hle⟩

/-! ## In a `long` of the machine -/

/-- The digit loop of `parse_uint_bounded` (sdp.c:126-131), every operation checked: the number and what follows. The
outer `none` is an overflow, the inner one the return value -1. -/
def uintLoopW (w : Nat) : Bytes → Int → Option (Option (Int × Bytes))
  | [], v => some (some (v, []))
  | c :: cs, v =>
    if c < 48 ∨ 57 < c then some (some (v, c :: cs))
    else
      (checkLong w (2 ^ (w - 1) - 1 - (c.toNat - 48))).bind fun room =>
        if room.tdiv 10 < v then some none
        else
          (checkLong w (v * 10)).bind fun t =>
            (checkLong w (t + (c.toNat - 48))).bind fun v => uintLoopW w cs v

def parseUintBoundedW (w : Nat) : Bytes → Option (Option (Int × Bytes))
  | [] => some none
  | c :: cs =>
    if c < 48 ∨ 57 < c then some none
    else (uintLoopW w (c :: cs) 0).map fun r => r.bind fun q => if (intMax : Int) < q.1 then none else some q

def parseUintListW (w : Nat) : Nat → Bytes → Option (Option (List Int))
  | 0, p => some (if p.dropWhile (fun c => c == 32 || c == 9) = [] then some [] else none)
  | count + 1, p =>
    match parseUintBoundedW w (p.dropWhile (· == 32)) with
    | none => none
    | some none => some none
    | some (some q) => (parseUintListW w count q.2).map fun r => r.map (q.1 :: ·)

theorem isDigit_eq_false_iff {c : UInt8} : isDigit c = false ↔ c < 48 ∨ 57 < c := by
  rw [isDigit, Bool.and_eq_false_iff, decide_eq_false_iff_not, decide_eq_false_iff_not, UInt8.not_le, UInt8.not_le]

/-- The loop is the one of `parse_nonneg_long` on the run of digits. -/
theorem uintLoopW_eq (w : Nat) (p : Bytes) (v : Int) :
    uintLoopW w p v = (parseNonnegLongFrom w (p.takeWhile isDigit) v).map fun r => r.map (·, p.dropWhile isDigit) := by
  induction p generalizing v with
  | nil => rfl
  | cons c p ih =>
    rw [uintLoopW]
    by_cases hd : isDigit c = true
    · have hno : ¬ (c < 48 ∨ 57 < c) := by
        rw [← isDigit_eq_false_iff, hd]
        decide
      rw [List.takeWhile_cons_of_pos hd, List.dropWhile_cons_of_pos hd, parseNonnegLongFrom, if_neg hno, if_neg hno]
      -- the two bodies differ only in what they do with the final value
      cases checkLong w (2 ^ (w - 1) - 1 - ((c.toNat : Int) - 48)) with
      | none => rfl
      | some room =>
        simp only [Option.bind_some]
        split
        · rfl
        · cases checkLong w (v * 10) with
          | none => rfl
          | some t =>
            simp only [Option.bind_some]
            cases checkLong w (t + ((c.toNat : Int) - 48)) with
            | none => rfl
            | some v' => exact ih v'
    · have hyes := isDigit_eq_false_iff.1 (eq_false_of_ne_true hd)
      rw [List.takeWhile_cons_of_neg hd, List.dropWhile_cons_of_neg hd, if_pos hyes]
      rfl

section Width

variable {w longMax : Nat}

theorem parseUintBoundedW_eq (hmax : longMax + 1 = 2 ^ (w - 1)) (h9 : 9 ≤ longMax) (p : Bytes) :
    parseUintBoundedW w p = some ((parseUintBounded longMax p).map fun q => (Int.ofNat q.1, q.2)) := by
  cases p with
  | nil => rfl
  | cons c p =>
    rw [parseUintBoundedW, parseUintBounded]
    by_cases hd : isDigit c = true
    · have hno : ¬ (c < 48 ∨ 57 < c) := by
        rw [← isDigit_eq_false_iff, hd]
        decide
      have hne : ¬ (c :: p).takeWhile isDigit = [] := by
        rw [List.takeWhile_cons_of_pos hd]
        simp
      have hloop := parseNonnegLongFrom_eq hmax h9 ((c :: p).takeWhile isDigit) 0
      rw [if_neg hno, if_neg hne, uintLoopW_eq, show (0 : Int) = (0 : Nat) from rfl, hloop]
      cases ((c :: p).takeWhile isDigit).foldlM (pushDigit longMax) 0 with
      | none => rfl
      | some v =>
        have hcast : (intMax : Int) < Int.ofNat v ↔ intMax < v := Int.ofNat_lt
        simp only [Option.map_some, Option.bind_some]
        by_cases hbig : intMax < v
        · rw [if_pos hbig, if_pos (hcast.2 hbig)]
          rfl
        · rw [if_neg hbig, if_neg fun h => hbig (hcast.1 h)]
          rfl
    · have hyes := isDigit_eq_false_iff.1 (eq_false_of_ne_true hd)
      rw [if_pos hyes, if_pos (List.takeWhile_cons_of_neg hd)]
      rfl

theorem parseUintListW_eq (hmax : longMax + 1 = 2 ^ (w - 1)) (h9 : 9 ≤ longMax) (n : Nat) (p : Bytes) :
    parseUintListW w n p = some ((parseUintList longMax n p).map (List.map Int.ofNat)) := by
  induction n generalizing p with
  | zero =>
    rw [parseUintListW, parseUintList]
    split <;> rfl
  | succ n ih =>
    rw [parseUintListW, parseUintList, parseUintBoundedW_eq hmax h9]
    cases parseUintBounded longMax (p.dropWhile (· == 32)) with
    | none => rfl
    | some q =>
      simp only [Option.map_some]
      rw [ih]
      cases parseUintList longMax n q.2 <;> rfl

end Width

/-- **The list is read exactly.** In a `long` of 32, 64 or any larger number of bits no step of the accumulation
overflows on any text, and the call succeeds exactly on the texts of the format, with the numbers they hold. -/
theorem parseUintList_exact {w : Nat} (hw : 32 ≤ w) (n : Nat) (p : Bytes) :
    parseUintListW w n p = some ((parseUintList (2 ^ (w - 1) - 1) n p).map (List.map Int.ofNat)) ∧
      ∀ vs, parseUintList (2 ^ (w - 1) - 1) n p = some vs ↔ Uints n p vs := by
  have hpos : 2 ^ (w - 1) - 1 + 1 = 2 ^ (w - 1) := Nat.sub_add_cancel Nat.one_le_two_pow
  have hlong : intMax ≤ 2 ^ (w - 1) - 1 := Nat.sub_le_sub_right (Nat.pow_le_pow_right (by decide) (by omega)) 1
  have h9 : 9 ≤ 2 ^ (w - 1) - 1 := le_trans (by decide) hlong
  exact ⟨parseUintListW_eq hpos h9 n p, parseUintList_eq_some_iff hlong n p⟩

/-- `" 007  42 "` and a tab, read as two numbers on a 32-bit machine. -/
theorem parseUintList_two_numbers :
    32 ≤ 32 ∧ parseUintListW 32 2 [32, 48, 48, 55, 32, 32, 52, 50, 32, 9] = some (some [7, 42]) ∧
      Uints 2 [32, 48, 48, 55, 32, 32, 52, 50, 32, 9] [7, 42] := by
  obtain ⟨hw, hgrammar⟩ := parseUintList_exact (le_refl 32) 2 [32, 48, 48, 55, 32, 32, 52, 50, 32, 9]
  have hread : parseUintList (2 ^ (32 - 1) - 1) 2 [32, 48, 48, 55, 32, 32, 52, 50, 32, 9] = some [7, 42] := by decide
  refine ⟨le_refl 32, ?_, (hgrammar _).1 hread⟩
  rw [hw, hread]
  rfl

end ShairKindle
