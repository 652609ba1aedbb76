import ShairKindle.Lib.Bytes

/-!
# UTF-8 texts as bytes

A text is valid if it encodes some characters. A byte of the form `10xxxxxx` continues a character and every other byte
begins one, so the characters' boundaries can be told from the bytes alone (`take_encode_of_boundary`,
`not_isCont_at_boundary`).
-/

namespace Utf8

open Bytes

def encode (cs : List Char) : Bytes := cs.flatMap String.utf8EncodeChar

def Valid (s : Bytes) : Prop := ∃ cs, s = encode cs

/-- A continuation byte. -/
def IsCont (b : UInt8) : Prop := b &&& 0xC0 = 0x80

instance (b : UInt8) : Decidable (IsCont b) := inferInstanceAs (Decidable (b &&& 0xC0 = 0x80))

theorem encode_cons (c : Char) (cs : List Char) : encode (c :: cs) = String.utf8EncodeChar c ++ encode cs :=
  List.flatMap_cons

/-! ## The bytes of a character -/

theorem isCont_iff (b : UInt8) : IsCont b ↔ 128 ≤ b.toNat ∧ b.toNat < 192 := by
  have key : ∀ n : Fin 256, UInt8.ofNat n &&& 0xC0 = 0x80 ↔ 128 ≤ n.val ∧ n.val < 192 := by decide +kernel
  simpa [IsCont] using key ⟨b.toNat, b.toNat_lt⟩

/-- The first byte begins the character and the others continue it; one of ASCII is the byte itself, and the first byte
of any other is none of ASCII. -/
structure CharBytes (c : Char) (b : UInt8) (bs : Bytes) : Prop where
  bytes : String.utf8EncodeChar c = b :: bs
  first : ¬ IsCont b
  others : ∀ x ∈ bs, IsCont x
  ascii : c.toNat < 128 → bs = [] ∧ b.toNat = c.toNat
  wide : 128 ≤ c.toNat → 128 ≤ b.toNat

theorem exists_charBytes (c : Char) : ∃ b bs, CharBytes c b bs := by
  have hbyte : ∀ {n : Nat}, n < 256 → (UInt8.ofNat n).toNat = n := fun h => UInt8.toNat_ofNat_of_lt' (by simpa [UInt8.size])
  have hcont : ∀ n : Nat, IsCont (UInt8.ofNat (n % 64 + 128)) := fun n => by
    rw [isCont_iff, hbyte (by omega)]
    omega
  have hall : ∀ ns : List Nat, ∀ x ∈ ns.map fun n => UInt8.ofNat (n % 64 + 128), IsCont x := fun ns x hx => by
    obtain ⟨n, -, rfl⟩ := List.mem_map.1 hx
    exact hcont n
  have hval : c.val.toNat = c.toNat := rfl
  have henc := String.utf8EncodeChar.eq_1 c
  rw [hval] at henc
  split_ifs at henc with h1 h2 h3
  · have hb := @hbyte c.toNat (by omega)
    refine ⟨_, _, henc, ?_, by simp, fun _ => ⟨rfl, hb⟩, fun h => by omega⟩
    rw [isCont_iff, hb]
    omega
  · have hb := @hbyte (c.toNat / 64 % 32 + 192) (by omega)
    refine ⟨_, _, henc, ?_, hall [c.toNat], fun h => by omega, fun _ => by rw [hb]; omega⟩
    rw [isCont_iff, hb]
    omega
  · have hb := @hbyte (c.toNat / 4096 % 16 + 224) (by omega)
    refine ⟨_, _, henc, ?_, hall [c.toNat / 64, c.toNat], fun h => by omega, fun _ => by rw [hb]; omega⟩
    rw [isCont_iff, hb]
    omega
  · have hb := @hbyte (c.toNat / 262144 % 8 + 240) (by omega)
    refine ⟨_, _, henc, ?_, hall [c.toNat / 4096, c.toNat / 64, c.toNat], fun h => by omega, fun _ => by rw [hb]; omega⟩
    rw [isCont_iff, hb]
    omega

/-- The characters of ASCII are bytes, and the bytes of the others are not of ASCII. -/
theorem utf8EncodeChar_cases (c : Char) :
    (c.toNat < 128 ∧ String.utf8EncodeChar c = [UInt8.ofNat c.toNat]) ∨
      (128 ≤ c.toNat ∧ ∀ x ∈ String.utf8EncodeChar c, 128 ≤ x.toNat) := by
  obtain ⟨b, bs, h⟩ := exists_charBytes c
  by_cases hc : c.toNat < 128
  · obtain ⟨rfl, hb⟩ := h.ascii hc
    refine .inl ⟨hc, ?_⟩
    rw [h.bytes, ← hb, UInt8.ofNat_toNat]
  · refine .inr ⟨not_lt.1 hc, fun x hx => ?_⟩
    rw [h.bytes] at hx
    rcases List.mem_cons.1 hx with rfl | hx
    · exact h.wide (not_lt.1 hc)
    · exact ((isCont_iff x).1 (h.others x hx)).1

/-! ## Boundaries -/

/-- A text cut where no character goes on is the text of its first characters. -/
theorem take_encode_of_boundary : ∀ {cs : List Char} {i : Nat} {b : UInt8}, (encode cs)[i]? = some b → ¬ IsCont b →
    ∃ j, (encode cs).take i = encode (cs.take j)
  | [], i, b, hb, _ => by cases hb
  | c :: cs, i, b, hb, hcont => by
    obtain ⟨b₀, bs, h⟩ := exists_charBytes c
    cases i with
    | zero => exact ⟨0, rfl⟩
    | succ i =>
      rw [encode_cons, h.bytes, List.cons_append, List.getElem?_cons_succ] at hb
      rcases Nat.lt_or_ge i bs.length with hin | hout
      · -- inside the first character
        rw [List.getElem?_append_left hin] at hb
        exact absurd (h.others b (List.mem_of_getElem? hb)) hcont
      · rw [List.getElem?_append_right hout] at hb
        obtain ⟨j, hj⟩ := take_encode_of_boundary hb hcont
        refine ⟨j + 1, ?_⟩
        rw [encode_cons, List.take_succ_cons, encode_cons, h.bytes, List.cons_append, List.take_succ_cons,
          List.take_append, List.take_of_length_le hout, hj, List.cons_append]

/-- The byte behind whole characters begins the next one. -/
theorem not_isCont_at_boundary : ∀ {cs : List Char} {j : Nat} {b : UInt8},
    (encode cs)[(encode (cs.take j)).length]? = some b → ¬ IsCont b
  | [], _, b, hb => by cases hb
  | c :: cs, 0, b, hb => by
    obtain ⟨b₀, bs, h⟩ := exists_charBytes c
    rw [encode_cons, h.bytes] at hb
    obtain rfl := Option.some.inj hb
    exact h.first
  | c :: cs, j + 1, b, hb => by
    rw [List.take_succ_cons, encode_cons, encode_cons, List.length_append,
      List.getElem?_append_right (Nat.le_add_right _ _), Nat.add_sub_cancel_left] at hb
    exact not_isCont_at_boundary hb

end Utf8
