import ShairKindle.Lib.Utf8
import ShairKindle.Lib.Words

/-!
# The speaker's name (src/raop_name.c)

The configured name becomes part of a DNS-SD instance label, so `raop_name_sanitize` drops what may not stand there,
squeezes white space, and cuts the rest at 50 bytes, at the start of a character.

| here | there |
| --- | --- |
| `filterLoop`       | the loop into the 200-byte scratch (raop_name.c:14) |
| `backOff`          | `while (n > 0 && (tmp[n] & 0xC0) == 0x80) n--` (raop_name.c:33) |
| `raopNameSanitize` | `raop_name_sanitize` (raop_name.c:6); the result is `out` up to its NUL |

C strings are their bytes before the NUL, `none` is a null pointer. `cleaned` is the name before it is cut: what is
kept of the input, squeezed. The scratch holds its first 200 bytes (`filterLoop_eq`), so cutting the scratch is cutting
`cleaned` (`raopNameSanitize_eq`).
-/

namespace ShairKindle

open Bytes Words Utf8

/-! ## The model -/

def raopNameMaxBytes : Nat := 50

/-- `sizeof tmp - 1`. -/
def scratchBytes : Nat := raopNameMaxBytes * 4

def defaultName : Bytes := ascii "ShairKindle"

def isWs (c : UInt8) : Bool := c == 32 || c == 9

/-- Controls, DEL, dots and at signs. -/
def dropped (c : UInt8) : Bool := decide (c < 0x20) || c == 0x7f || c == 46 || c == 64

structure Scratch where
  tmp : Bytes
  pendingSpace : Bool
  seen : Bool
  deriving DecidableEq, Repr

def filterLoop : Bytes → Scratch → Scratch
  | [], s => s
  | c :: cs, s =>
    if scratchBytes ≤ s.tmp.length then s
    else if dropped c then filterLoop cs s
    else if isWs c then filterLoop cs (if s.seen then { s with pendingSpace := true } else s)
    else if s.pendingSpace then
      if scratchBytes ≤ (s.tmp ++ [32]).length then { s with tmp := s.tmp ++ [32], pendingSpace := false }
      else filterLoop cs ⟨s.tmp ++ [32] ++ [c], false, true⟩
    else filterLoop cs ⟨s.tmp ++ [c], s.pendingSpace, true⟩

def backOff (tmp : Bytes) : Nat → Nat
  | 0 => 0
  | n + 1 => if tmp.getD (n + 1) 0 &&& 0xC0 = 0x80 then backOff tmp n else n + 1

def raopNameSanitize (input : Option Bytes) (outCap : Nat) : Bytes :=
  let start : Scratch := ⟨[], false, false⟩
  let tmp := (input.elim start fun s => filterLoop s start).tmp
  if tmp = [] then defaultName.take (min defaultName.length (outCap - 1))
  else
    let cap := min raopNameMaxBytes (outCap - 1)
    if cap < tmp.length then tmp.take (backOff tmp cap) else tmp

/-- The name before it is cut: the bytes kept, words separated by one space. -/
def cleaned (input : Option Bytes) : Bytes := squeeze 32 ((input.getD []).filter (!dropped ·))

/-! ## The scratch -/

/-- What the loop would still write if the scratch had no end. A pending space is a space in front of the rest. -/
def Scratch.toWrite (s : Scratch) (kept : Bytes) : Bytes :=
  if s.seen then squeezeRest 32 (if s.pendingSpace then 32 :: kept else kept) else squeeze 32 kept

theorem space_of_isWs {c : UInt8} (hd : dropped c = false) (hw : isWs c = true) : c = 32 := by
  simp only [isWs, Bool.or_eq_true, beq_iff_eq] at hw
  refine hw.resolve_right ?_
  rintro rfl
  exact absurd hd (by decide)

theorem ne_space_of_not_isWs {c : UInt8} (hw : isWs c = false) : c ≠ 32 := by
  rintro rfl
  exact absurd hw (by decide)

theorem squeezeRest_space_space (s : Bytes) : squeezeRest 32 (32 :: 32 :: s) = squeezeRest 32 (32 :: s) := by
  rw [squeezeRest, if_pos rfl, squeeze_sep, squeezeRest, if_pos rfl]

theorem Scratch.toWrite_nil (s : Scratch) : s.toWrite [] = [] := by
  rw [Scratch.toWrite]
  split_ifs <;> simp [squeezeRest]

/-- White space is remembered once something is written. -/
theorem Scratch.toWrite_space {s : Scratch} (kept : Bytes) :
    s.toWrite (32 :: kept) = (if s.seen then { s with pendingSpace := true } else s : Scratch).toWrite kept := by
  cases hs : s.seen with
  | false => simp [Scratch.toWrite, hs, squeeze_sep]
  | true =>
    cases hp : s.pendingSpace with
    | false => simp [Scratch.toWrite, hs, hp]
    | true => simp [Scratch.toWrite, hs, hp, squeezeRest_space_space]

theorem Scratch.toWrite_pending {s : Scratch} (hs : s.seen = true) (hp : s.pendingSpace = true) {c : UInt8} (hc : c ≠ 32)
    (kept : Bytes) : s.toWrite (c :: kept) = 32 :: c :: squeezeRest 32 kept := by
  simp only [Scratch.toWrite, hs, hp, if_true, squeezeRest, squeeze_cons hc, reduceCtorEq, if_false]

theorem Scratch.toWrite_direct {s : Scratch} (hp : s.pendingSpace = false) {c : UInt8} (hc : c ≠ 32) (kept : Bytes) :
    s.toWrite (c :: kept) = c :: squeezeRest 32 kept := by
  cases hs : s.seen <;> simp [Scratch.toWrite, hs, hp, squeezeRest, squeeze_cons hc, hc]

/-- **The loop.** It writes what is to be written, as far as the scratch goes. -/
theorem filterLoop_eq (cs : Bytes) : ∀ {s : Scratch}, s.tmp.length ≤ scratchBytes → (s.pendingSpace = true → s.seen = true) →
    (filterLoop cs s).tmp = (s.tmp ++ s.toWrite (cs.filter (!dropped ·))).take scratchBytes := by
  induction cs with
  | nil =>
    intro s hlen _
    rw [filterLoop, List.filter_nil, s.toWrite_nil, List.append_nil, List.take_of_length_le hlen]
  | cons c cs ih =>
    intro s hlen hpend
    rw [filterLoop]
    by_cases hfull : scratchBytes ≤ s.tmp.length
    · rw [if_pos hfull, List.take_append_of_le_length hfull, List.take_of_length_le hlen]
    rw [if_neg hfull]
    by_cases hd : dropped c = true
    · rw [if_pos hd, List.filter_cons_of_neg (by simp [hd])]
      exact ih hlen hpend
    rw [if_neg hd, List.filter_cons_of_pos (by simp [hd])]
    by_cases hw : isWs c = true
    · rw [if_pos hw, space_of_isWs (eq_false_of_ne_true hd) hw, Scratch.toWrite_space]
      by_cases hs : s.seen = true
      · rw [if_pos hs]
        exact @ih { s with pendingSpace := true } hlen fun _ => hs
      · rw [if_neg hs]
        exact ih hlen hpend
    have hc : c ≠ 32 := ne_space_of_not_isWs (eq_false_of_ne_true hw)
    rw [if_neg hw]
    cases hp : s.pendingSpace with
    | true =>
      rw [if_pos rfl, Scratch.toWrite_pending (hpend hp) hp hc]
      split
      · next hlast =>
        -- the space takes the last byte
        have hlen' : (s.tmp ++ [32]).length = scratchBytes := by
          rw [List.length_append, List.length_singleton] at hlast ⊢
          omega
        rw [List.append_cons s.tmp 32 (c :: _), List.take_append_of_le_length hlen'.ge, List.take_of_length_le hlen'.le]
      · next hroom =>
        rw [List.length_append, List.length_singleton] at hroom
        have hih := @ih ⟨s.tmp ++ [32] ++ [c], false, true⟩ (by simp; omega) (by simp)
        rw [hih]
        simp [Scratch.toWrite]
    | false =>
      have hih := @ih ⟨s.tmp ++ [c], false, true⟩ (by simp; omega) (by simp)
      rw [if_neg (by decide), Scratch.toWrite_direct hp hc, hih]
      simp [Scratch.toWrite]

/-! ## The cut -/

/-- The loop stops at the last byte up to `n` that begins a character, or at the start. -/
theorem backOff_spec (t : Bytes) (n : Nat) : backOff t n ≤ n ∧ (backOff t n = 0 ∨ ¬ IsCont (t.getD (backOff t n) 0)) ∧
    ∀ j, backOff t n < j → j ≤ n → IsCont (t.getD j 0) := by
  induction n with
  | zero => exact ⟨le_refl 0, .inl rfl, fun j h0 hj => by omega⟩
  | succ n ih =>
    rw [backOff]
    split
    · next hcont =>
      refine ⟨Nat.le_succ_of_le ih.1, ih.2.1, fun j hj hjn => ?_⟩
      rcases Nat.lt_or_eq_of_le hjn with hlt | rfl
      · exact ih.2.2 j hj (Nat.lt_succ_iff.1 hlt)
      · exact hcont
    · next hfirst => exact ⟨le_refl _, .inr hfirst, fun j hj hjn => by omega⟩

theorem backOff_take {m n : Nat} (t : Bytes) (h : n < m) : backOff (t.take m) n = backOff t n := by
  induction n with
  | zero => rfl
  | succ n ih =>
    have hget : (t.take m).getD (n + 1) 0 = t.getD (n + 1) 0 := by
      rw [List.getD_eq_getElem?_getD, List.getElem?_take_of_lt h, ← List.getD_eq_getElem?_getD]
    rw [backOff, backOff, hget, ih (by omega)]

/-- **`raop_name_sanitize` cuts the cleaned name**, although it sees only the first 200 bytes of it. -/
theorem raopNameSanitize_eq (input : Option Bytes) {outCap : Nat} (hcap : 51 ≤ outCap) :
    raopNameSanitize input outCap =
      if cleaned input = [] then defaultName
      else if (cleaned input).length ≤ raopNameMaxBytes then cleaned input
      else (cleaned input).take (backOff (cleaned input) raopNameMaxBytes) := by
  have htmp : (input.elim (⟨[], false, false⟩ : Scratch) fun s => filterLoop s ⟨[], false, false⟩).tmp =
      (cleaned input).take scratchBytes := by
    cases input with
    | none => rfl
    | some s => exact @filterLoop_eq s ⟨[], false, false⟩ (Nat.zero_le _) (by simp)
  have hmin : min raopNameMaxBytes (outCap - 1) = raopNameMaxBytes := Nat.min_eq_left (by rw [raopNameMaxBytes]; omega)
  have hdefault : defaultName.take (min defaultName.length (outCap - 1)) = defaultName := by
    have hlen : defaultName.length = 11 := by decide
    rw [Nat.min_eq_left (by omega), List.take_length]
  have hempty : (cleaned input).take scratchBytes = [] ↔ cleaned input = [] := by
    rw [List.take_eq_nil_iff]
    exact or_iff_right (by decide)
  rw [raopNameSanitize]
  dsimp only
  rw [htmp, hmin, hdefault]
  by_cases hnil : cleaned input = []
  · rw [if_pos (hempty.2 hnil), if_pos hnil]
  rw [if_neg (mt hempty.1 hnil), if_neg hnil, backOff_take _ (by decide), List.length_take, List.take_take]
  have hback := (backOff_spec (cleaned input) raopNameMaxBytes).1
  have hsizes : raopNameMaxBytes = 50 ∧ scratchBytes = 200 := ⟨rfl, rfl⟩
  by_cases hshort : (cleaned input).length ≤ raopNameMaxBytes
  · rw [if_neg (by omega), if_pos hshort, List.take_of_length_le (by omega)]
  · rw [if_pos (by omega), if_neg hshort, Nat.min_eq_left (by omega)]

/-! ## The contract -/

/-- A name that may stand in a label. -/
structure NameOk (out : Bytes) : Prop where
  ne_nil : out ≠ []
  length_le : out.length ≤ raopNameMaxBytes
  bytes : ∀ c ∈ out, 0x20 ≤ c ∧ c ≠ 0x7f ∧ c ≠ 46 ∧ c ≠ 64
  tidy : Tidy 32 out

/-- The result may stand in a label, and sanitizing it again changes nothing. -/
structure Sanitizes (input : Option Bytes) (outCap : Nat) : Prop where
  ok : NameOk (raopNameSanitize input outCap)
  again : raopNameSanitize (some (raopNameSanitize input outCap)) outCap = raopNameSanitize input outCap

/-- The text need not be cut, or the last character to begin within 50 bytes neither begins it nor follows a space. -/
def CutsClean (t : Bytes) : Prop :=
  t.length ≤ raopNameMaxBytes ∨ ∃ k, 0 < k ∧ k ≤ raopNameMaxBytes ∧ t.getD (k - 1) 0 ≠ 32 ∧ ¬ IsCont (t.getD k 0) ∧
    ∀ j, k < j → j ≤ raopNameMaxBytes → IsCont (t.getD j 0)

theorem dropped_eq_false_iff {c : UInt8} : dropped c = false ↔ 0x20 ≤ c ∧ c ≠ 0x7f ∧ c ≠ 46 ∧ c ≠ 64 := by
  simp only [dropped, Bool.or_eq_false_iff, decide_eq_false_iff_not, UInt8.not_lt, beq_eq_false_iff_ne, and_assoc]

theorem tidy_cleaned (input : Option Bytes) : Tidy 32 (cleaned input) := tidy_squeeze _

theorem bytes_cleaned (input : Option Bytes) : ∀ c ∈ cleaned input, 0x20 ≤ c ∧ c ≠ 0x7f ∧ c ≠ 46 ∧ c ≠ 64 := by
  intro c hc
  have hmem := List.mem_filter.1 (mem_squeeze hc)
  exact dropped_eq_false_iff.1 (by simpa using hmem.2)

theorem cleaned_of_ok {out : Bytes} (h : NameOk out) : cleaned (some out) = out := by
  have hall : out.filter (!dropped ·) = out := by
    rw [List.filter_eq_self]
    intro c hc
    rw [dropped_eq_false_iff.2 (h.bytes c hc)]
    rfl
  rw [cleaned, Option.getD_some, hall, squeeze_of_tidy h.tidy]

theorem sanitize_of_ok {out : Bytes} (h : NameOk out) {outCap : Nat} (hcap : 51 ≤ outCap) :
    raopNameSanitize (some out) outCap = out := by
  rw [raopNameSanitize_eq _ hcap, cleaned_of_ok h, if_neg h.ne_nil, if_pos h.length_le]

theorem nameOk_default : NameOk defaultName := by
  have hall : defaultName.all (fun c => !dropped c && c != 32) = true := by decide
  have hkept : ∀ c ∈ defaultName, dropped c = false ∧ c ≠ 32 := by
    intro c hc
    simpa using List.all_eq_true.1 hall c hc
  refine ⟨by decide, by decide, fun c hc => dropped_eq_false_iff.1 (hkept c hc).1, fun h => ?_, fun h => ?_, by decide⟩
  · exact (hkept 32 (List.mem_of_head? h)).2 rfl
  · exact (hkept 32 (List.mem_of_getLast? h)).2 rfl

/-- The beginning of a tidy text is tidy if it does not end in a space. -/
theorem tidy_take {t : Bytes} (h : Tidy 32 t) {k : Nat} (hk : 0 < k) (hlen : k ≤ t.length) :
    Tidy 32 (t.take k) ↔ t.getD (k - 1) 0 ≠ 32 := by
  have hlast : (t.take k).getLast? = some (t.getD (k - 1) 0) := by
    have hlt : k - 1 < t.length := by omega
    rw [List.getLast?_eq_getElem?, List.length_take_of_le hlen, List.getElem?_take_of_lt (by omega),
      List.getElem?_eq_getElem hlt, List.getD_eq_getElem?_getD, List.getElem?_eq_getElem hlt]
    rfl
  constructor
  · intro htake heq
    exact htake.last (by rw [hlast, heq])
  · intro hne
    refine ⟨?_, fun heq => hne (Option.some.inj (hlast.symm.trans heq)), h.single.take k⟩
    rw [List.head?_take, if_neg (by omega)]
    exact h.head

/-- **The contract holds exactly where the cut is clean.** For every name, null included, and every buffer of at least
51 bytes: the result is a name of 1 to 50 bytes without controls, dots, at signs and stray spaces, and stays the same
when it is sanitized again, if and only if cutting the cleaned name at the last character boundary up to 50 bytes
leaves neither nothing nor a space at the end. -/
theorem sanitizes_iff_cutsClean (input : Option Bytes) {outCap : Nat} (hcap : 51 ≤ outCap) :
    Sanitizes input outCap ↔ CutsClean (cleaned input) := by
  have hok : Sanitizes input outCap ↔ NameOk (raopNameSanitize input outCap) :=
    ⟨fun h => h.ok, fun h => ⟨h, sanitize_of_ok h hcap⟩⟩
  rw [hok, raopNameSanitize_eq input hcap]
  by_cases hnil : cleaned input = []
  · rw [if_pos hnil, hnil]
    exact iff_of_true nameOk_default (.inl (by decide))
  rw [if_neg hnil]
  by_cases hshort : (cleaned input).length ≤ raopNameMaxBytes
  · rw [if_pos hshort]
    exact iff_of_true ⟨hnil, hshort, bytes_cleaned input, tidy_cleaned input⟩ (.inl hshort)
  rw [if_neg hshort]
  obtain ⟨hle, hfirst, hconts⟩ := backOff_spec (cleaned input) raopNameMaxBytes
  constructor
  · intro h
    have hpos : 0 < backOff (cleaned input) raopNameMaxBytes :=
      Nat.pos_of_ne_zero fun h0 => h.ne_nil (by rw [h0, List.take_zero])
    have hlast := (tidy_take (tidy_cleaned input) hpos (by omega)).1 h.tidy
    exact .inr ⟨_, hpos, hle, hlast, hfirst.resolve_left hpos.ne', hconts⟩
  · rintro (h | ⟨k, hpos, hk, hlast, hkfirst, hkconts⟩)
    · exact absurd h hshort
    -- the boundary is unique
    have hback : backOff (cleaned input) raopNameMaxBytes = k := by
      rcases Nat.lt_trichotomy (backOff (cleaned input) raopNameMaxBytes) k with hlt | heq | hgt
      · exact absurd (hconts k hlt hk) hkfirst
      · exact heq
      · exact absurd (hkconts _ hgt hle) (hfirst.resolve_left (by omega))
    rw [hback]
    refine ⟨?_, ?_, fun c hc => bytes_cleaned input c (List.mem_of_mem_take hc), ?_⟩
    · rw [Ne, List.take_eq_nil_iff, not_or]
      exact ⟨hpos.ne', hnil⟩
    · rw [List.length_take]
      omega
    · exact (tidy_take (tidy_cleaned input) hpos (by omega)).2 hlast

/-- A name with stray spaces and a dot, short enough. -/
theorem sanitizes_short : 51 ≤ 64 ∧ Sanitizes (some (ascii " Living  room. ")) 64 :=
  ⟨by decide, (sanitizes_iff_cutsClean _ (by decide)).2 (.inl (by decide +kernel))⟩

/-- A word of 49 letters before a space and another word ends in the space, which a second pass takes away. Of 51
continuation bytes nothing is left. -/
theorem cut_leaves_space_or_nothing :
    raopNameSanitize (some (List.replicate 49 120 ++ [32, 121])) 51 = List.replicate 49 120 ++ [32] ∧
      raopNameSanitize (some (List.replicate 49 120 ++ [32])) 51 = List.replicate 49 120 ∧
      raopNameSanitize (some (List.replicate 51 0x80)) 51 = [] ∧
      ¬ Sanitizes (some (List.replicate 49 120 ++ [32, 121])) 51 ∧ ¬ Sanitizes (some (List.replicate 51 0x80)) 51 := by
  have hcut : raopNameSanitize (some (List.replicate 49 120 ++ [32, 121])) 51 = List.replicate 49 120 ++ [32] := by
    decide +kernel
  have hnone : raopNameSanitize (some (List.replicate 51 0x80)) 51 = [] := by decide +kernel
  refine ⟨hcut, by decide +kernel, hnone, fun h => ?_, fun h => ?_⟩
  · have hlast := h.ok.tidy.last
    rw [hcut] at hlast
    exact hlast (by simp)
  · exact h.ok.ne_nil hnone

/-! ## Whole characters -/

def keptChar (c : Char) : Bool := !(decide (c.toNat < 0x20) || c.toNat == 0x7f || c == '.' || c == '@')

/-- The name before it is cut, in characters. -/
def cleanedChars (cs : List Char) : List Char := squeeze ' ' (cs.filter keptChar)

theorem dropped_of_ascii {c : Char} (hc : c.toNat < 128) : (!dropped (UInt8.ofNat c.toNat)) = keptChar c := by
  have hbyte : (UInt8.ofNat c.toNat).toNat = c.toNat := UInt8.toNat_ofNat_of_lt' (by simp [UInt8.size]; omega)
  have hbeq : ∀ d : Char, d.toNat < 128 → ((UInt8.ofNat c.toNat == UInt8.ofNat d.toNat) = (c == d)) := by
    intro d hd
    have hd' : (UInt8.ofNat d.toNat).toNat = d.toNat := UInt8.toNat_ofNat_of_lt' (by simp [UInt8.size]; omega)
    rw [Bool.eq_iff_iff, beq_iff_eq, beq_iff_eq, ← UInt8.toNat_inj, hbyte, hd', Char.toNat_inj]
  have hdel : (UInt8.ofNat c.toNat == 0x7f) = (c.toNat == 0x7f) := by
    rw [Bool.eq_iff_iff, beq_iff_eq, beq_iff_eq, ← UInt8.toNat_inj, hbyte]
    rfl
  have hctl : decide (UInt8.ofNat c.toNat < 0x20) = decide (c.toNat < 0x20) := by
    rw [decide_eq_decide, UInt8.lt_iff_toNat_lt, hbyte]
    rfl
  rw [dropped, keptChar, hctl, hdel, ← hbeq '.' (by decide), ← hbeq '@' (by decide)]
  rfl

/-- Filtering the bytes filters the characters. -/
theorem filter_encode (cs : List Char) : (encode cs).filter (!dropped ·) = encode (cs.filter keptChar) := by
  induction cs with
  | nil => rfl
  | cons c cs ih =>
    rw [encode_cons, List.filter_append, ih, List.filter_cons]
    rcases utf8EncodeChar_cases c with ⟨hc, henc⟩ | ⟨hc, hwide⟩
    · rw [henc, List.filter_cons, dropped_of_ascii hc]
      split
      · rw [encode_cons, henc]
        rfl
      · rfl
    · have hkeep : keptChar c = true := by
        have hdot : c ≠ '.' := by rintro rfl; exact absurd hc (by decide)
        have hat : c ≠ '@' := by rintro rfl; exact absurd hc (by decide)
        have h20 : ¬ c.toNat < 0x20 := by omega
        have h7f : c.toNat ≠ 0x7f := by omega
        simp [keptChar, hdot, hat, h20, h7f]
      have hall : (String.utf8EncodeChar c).filter (!dropped ·) = String.utf8EncodeChar c := by
        rw [List.filter_eq_self]
        intro x hx
        have hx' := hwide x hx
        have hkept : dropped x = false := by
          rw [dropped_eq_false_iff, UInt8.le_iff_toNat_le]
          refine ⟨le_trans (by decide) hx', ?_, ?_, ?_⟩ <;> rintro rfl <;> exact absurd hx' (by decide)
        rw [hkept]
        rfl
      rw [hall, if_pos hkeep, encode_cons]

theorem cleaned_encode (cs : List Char) : cleaned (some (encode cs)) = encode (cleanedChars cs) := by
  rw [cleaned, Option.getD_some, filter_encode, cleanedChars]
  refine squeeze_flatMap (by decide) (fun c hc => ?_) _
  refine ⟨fun hmem => ?_, String.utf8EncodeChar_ne_nil⟩
  rcases utf8EncodeChar_cases c with ⟨hlt, henc⟩ | ⟨-, hwide⟩
  · rw [henc, List.mem_singleton, ← UInt8.toNat_inj, UInt8.toNat_ofNat_of_lt' (by simp [UInt8.size]; omega)] at hmem
    exact hc (Char.toNat_inj.1 hmem.symm)
  · exact absurd (hwide 32 hmem) (by decide)

theorem getD_eq_of_getElem? {t : Bytes} {i : Nat} (h : i < t.length) : t[i]? = some (t.getD i 0) := by
  rw [List.getD_eq_getElem?_getD, List.getElem?_eq_getElem h]
  rfl

/-- **The cut falls between characters.** For every UTF-8 name of any length and every buffer of at least 51 bytes, the
result is UTF-8: the default name if nothing is left of the input, and otherwise the longest run of whole characters
from the start of the cleaned name that has at most 50 bytes. -/
theorem sanitize_utf8 (cs : List Char) {outCap : Nat} (hcap : 51 ≤ outCap) :
    Valid (raopNameSanitize (some (encode cs)) outCap) ∧
      cleaned (some (encode cs)) = encode (cleanedChars cs) ∧
      (cleanedChars cs = [] → raopNameSanitize (some (encode cs)) outCap = defaultName) ∧
      (cleanedChars cs ≠ [] → ∃ k, raopNameSanitize (some (encode cs)) outCap = encode ((cleanedChars cs).take k) ∧
        (encode ((cleanedChars cs).take k)).length ≤ raopNameMaxBytes ∧
        ∀ j, (encode ((cleanedChars cs).take j)).length ≤ raopNameMaxBytes →
          (encode ((cleanedChars cs).take j)).length ≤ (encode ((cleanedChars cs).take k)).length) := by
  have hdefault : defaultName = encode "ShairKindle".toList := by decide +kernel
  have hempty : encode (cleanedChars cs) = [] ↔ cleanedChars cs = [] := by
    rw [encode, List.flatMap_eq_nil_iff]
    refine ⟨fun h => ?_, fun h => by simp [h]⟩
    cases hfull : cleanedChars cs with
    | nil => rfl
    | cons c full => exact absurd (h c (hfull ▸ List.mem_cons_self)) String.utf8EncodeChar_ne_nil
  have hcut : cleanedChars cs ≠ [] → ∃ k, raopNameSanitize (some (encode cs)) outCap = encode ((cleanedChars cs).take k) ∧
      (encode ((cleanedChars cs).take k)).length ≤ raopNameMaxBytes ∧
      ∀ j, (encode ((cleanedChars cs).take j)).length ≤ raopNameMaxBytes →
        (encode ((cleanedChars cs).take j)).length ≤ (encode ((cleanedChars cs).take k)).length := by
    intro hne
    rw [raopNameSanitize_eq _ hcap, cleaned_encode, if_neg (mt hempty.1 hne)]
    by_cases hshort : (encode (cleanedChars cs)).length ≤ raopNameMaxBytes
    · -- nothing is cut
      refine ⟨(cleanedChars cs).length, by rw [if_pos hshort, List.take_length], by rwa [List.take_length], fun j _ => ?_⟩
      rw [List.take_length]
      conv_rhs => rw [← List.take_append_drop j (cleanedChars cs), encode, List.flatMap_append, List.length_append]
      exact Nat.le_add_right _ _
    · rw [if_neg hshort]
      obtain ⟨hle, hfirst, hconts⟩ := backOff_spec (encode (cleanedChars cs)) raopNameMaxBytes
      obtain ⟨k, hk⟩ : ∃ k, (encode (cleanedChars cs)).take (backOff (encode (cleanedChars cs)) raopNameMaxBytes) =
          encode ((cleanedChars cs).take k) := by
        rcases hfirst with h0 | hfirst
        · exact ⟨0, by rw [h0]; rfl⟩
        · exact take_encode_of_boundary (getD_eq_of_getElem? (by omega)) hfirst
      have hlen : (encode ((cleanedChars cs).take k)).length = backOff (encode (cleanedChars cs)) raopNameMaxBytes := by
        rw [← hk, List.length_take_of_le (by omega)]
      refine ⟨k, hk, by omega, fun j hj => ?_⟩
      -- a boundary behind the cut would have stopped the loop
      by_contra hlong
      have hcont := hconts _ (by omega) hj
      exact not_isCont_at_boundary (getD_eq_of_getElem? (by omega)) hcont
  refine ⟨?_, cleaned_encode cs, fun hnil => ?_, hcut⟩
  · by_cases hnil : cleanedChars cs = []
    · refine ⟨"ShairKindle".toList, ?_⟩
      rw [raopNameSanitize_eq _ hcap, cleaned_encode, if_pos (hempty.2 hnil), hdefault]
    · obtain ⟨k, hk, -⟩ := hcut hnil
      exact ⟨_, hk⟩
  · rw [raopNameSanitize_eq _ hcap, cleaned_encode, if_pos (hempty.2 hnil)]

/-- Seventeen euro signs take 51 bytes; sixteen of them are kept. -/
theorem sanitize_utf8_euros :
    51 ≤ 51 ∧ Valid (raopNameSanitize (some (encode (List.replicate 17 '€'))) 51) :=
  ⟨le_refl 51, (sanitize_utf8 (List.replicate 17 '€') (le_refl 51)).1⟩

end ShairKindle
