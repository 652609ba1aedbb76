import ShairKindle.Lib.Sextets
import ShairKindle.Rtsp.Sdp

/-!
# Base64 both ways (src/b64.c, src/apple_response.c:6, src/sdp.c:35)

`b64_nopad` writes the reply to the sender's challenge, `b64_decode` reads the key and the IV, and
`b64_decoded_upper_bound` tells, before the decoder runs, how many bytes it would write. The three
are separate code. Here encoder and decoder are both related to the plain regrouping of
`Lib/Sextets.lean`: the encoder writes the sextets of its input as characters (`b64Nopad_eq`); the
decoder takes exactly the texts whose characters other than blanks are some sextets and then padding,
and writes the octets of these (`b64Decode_eq_iff`). Its accumulator is never masked and overflows on
long inputs; only the low 14 bits are ever looked at (`b64Push_emit`).
-/

namespace ShairKindle

open Bytes

/-! ## The encoder -/

/-- The table `T` of `b64_nopad`. -/
def b64Table : Bytes := ascii "ABCDEFGHIJKLMNOPQRSTUVWXYZabcdefghijklmnopqrstuvwxyz0123456789+/"

/-- `T[v]`. -/
def b64Char (v : Nat) : UInt8 := b64Table.getD v 0

/-- `b64_nopad` (apple_response.c:6), without the NUL it puts behind the text. -/
def b64Nopad : Bytes → Bytes
  | x :: y :: z :: xs =>
    let v := x.toNat <<< 16 ||| y.toNat <<< 8 ||| z.toNat
    b64Char (v >>> 18 &&& 63) :: b64Char (v >>> 12 &&& 63) :: b64Char (v >>> 6 &&& 63) :: b64Char (v &&& 63) ::
      b64Nopad xs
  | [x, y] =>
    let v := x.toNat <<< 16 ||| y.toNat <<< 8
    [b64Char (v >>> 18 &&& 63), b64Char (v >>> 12 &&& 63), b64Char (v >>> 6 &&& 63)]
  | [x] =>
    let v := x.toNat <<< 16
    [b64Char (v >>> 18 &&& 63), b64Char (v >>> 12 &&& 63)]
  | [] => []

theorem sixBits (v k : Nat) : v >>> k &&& 63 = v / 2 ^ k % 64 := by
  rw [Nat.shiftRight_eq_div_pow]
  exact Nat.and_two_pow_sub_one_eq_mod _ 6

theorem lowSixBits (v : Nat) : v &&& 63 = v % 64 := Nat.and_two_pow_sub_one_eq_mod v 6

theorem twoBytes (x y : UInt8) : x.toNat <<< 16 ||| y.toNat <<< 8 = x.toNat * 65536 + y.toNat * 256 := by
  have hy := y.toNat_lt
  rw [← Nat.shiftLeft_add_eq_or_of_lt (by rw [Nat.shiftLeft_eq]; omega), Nat.shiftLeft_eq, Nat.shiftLeft_eq]

theorem threeBytes (x y z : UInt8) :
    x.toNat <<< 16 ||| y.toNat <<< 8 ||| z.toNat = x.toNat * 65536 + y.toNat * 256 + z.toNat := by
  have hshift : x.toNat * 65536 + y.toNat * 256 = (x.toNat * 256 + y.toNat) <<< 8 := by
    rw [Nat.shiftLeft_eq]
    omega
  rw [twoBytes, hshift, ← Nat.shiftLeft_add_eq_or_of_lt z.toNat_lt]

/-- The encoder writes the sextets as characters. -/
theorem b64Nopad_eq (x : Bytes) : b64Nopad x = (sextets x).map b64Char := by
  fun_induction b64Nopad x with
  | case1 x y z xs v ih =>
    have := x.toNat_lt
    have := y.toNat_lt
    have := z.toNat_lt
    have hv : v = x.toNat * 65536 + y.toNat * 256 + z.toNat := threeBytes x y z
    have h1 : v / 2 ^ 18 % 64 = x.toNat / 4 := by omega
    have h2 : v / 2 ^ 12 % 64 = x.toNat % 4 * 16 + y.toNat / 16 := by omega
    have h3 : v / 2 ^ 6 % 64 = y.toNat % 16 * 4 + z.toNat / 64 := by omega
    have h4 : v % 64 = z.toNat % 64 := by omega
    rw [sixBits, sixBits, sixBits, lowSixBits, h1, h2, h3, h4, ih]
    rfl
  | case2 x y v =>
    have := x.toNat_lt
    have := y.toNat_lt
    have hv : v = x.toNat * 65536 + y.toNat * 256 := twoBytes x y
    have h1 : v / 2 ^ 18 % 64 = x.toNat / 4 := by omega
    have h2 : v / 2 ^ 12 % 64 = x.toNat % 4 * 16 + y.toNat / 16 := by omega
    have h3 : v / 2 ^ 6 % 64 = y.toNat % 16 * 4 := by omega
    rw [sixBits, sixBits, sixBits, h1, h2, h3]
    rfl
  | case3 x v =>
    have := x.toNat_lt
    have hv : v = x.toNat * 65536 := Nat.shiftLeft_eq _ _
    have h1 : v / 2 ^ 18 % 64 = x.toNat / 4 := by omega
    have h2 : v / 2 ^ 12 % 64 = x.toNat % 4 * 16 := by omega
    rw [sixBits, sixBits, h1, h2]
    rfl
  | case4 => rfl

/-! ## Characters -/

theorem b64Char_table : ∀ v : Fin 64,
    b64Val (b64Char v) = some v.1 ∧ b64Blank (b64Char v) = false ∧ b64Char v ≠ 61 := by decide +kernel

theorem b64Val_table : ∀ c : Fin 256, ∀ v ∈ b64Val (UInt8.ofNat c), v < 64 ∧ UInt8.ofNat c = b64Char v := by
  decide +kernel

theorem b64Val_b64Char {v : Nat} (hv : v < 64) : b64Val (b64Char v) = some v := (b64Char_table ⟨v, hv⟩).1

theorem b64Blank_b64Char {v : Nat} (hv : v < 64) : b64Blank (b64Char v) = false := (b64Char_table ⟨v, hv⟩).2.1

theorem b64Char_ne_pad {v : Nat} (hv : v < 64) : b64Char v ≠ 61 := (b64Char_table ⟨v, hv⟩).2.2

theorem b64Val_eq_some {c : UInt8} {v : Nat} (h : b64Val c = some v) : v < 64 ∧ c = b64Char v := by
  have hc := b64Val_table ⟨c.toNat, c.toNat_lt⟩ v
  simp only [UInt8.ofNat_toNat] at hc
  exact hc h

/-! ## The decoder's loop -/

/-- What one data character does to the decoder's locals (b64.c:27-35) when there is room. -/
def b64Push (s : B64State) (v : Nat) : B64State :=
  let acc := (s.acc <<< 6 ||| v) % 2 ^ 32
  if 8 ≤ s.bits + 6 then
    ⟨acc, s.bits + 6 - 8, s.out ++ [UInt8.ofNat (acc >>> (s.bits + 6 - 8))], s.n + 1, false⟩
  else ⟨acc, s.bits + 6, s.out, s.n + 1, false⟩

@[simp] theorem b64Push_seenPad (s : B64State) (v : Nat) : (b64Push s v).seenPad = false := by
  unfold b64Push
  dsimp only
  split <;> rfl

theorem length_out_le_b64Push (s : B64State) (v : Nat) : s.out.length ≤ (b64Push s v).out.length := by
  unfold b64Push
  dsimp only
  split <;> simp

theorem length_out_le_foldl (s : B64State) (vs : List Nat) : s.out.length ≤ (vs.foldl b64Push s).out.length := by
  induction vs generalizing s with
  | nil => exact le_rfl
  | cons v vs ih => exact (length_out_le_b64Push s v).trans (ih _)

/-- One character at the front of the input. -/
theorem b64Loop_char {cap v : Nat} {s : B64State} (cs : Bytes) (hv : v < 64) (hpad : s.seenPad = false)
    (hcap : s.out.length ≤ cap) :
    b64Loop cap (b64Char v :: cs) s =
      if (b64Push s v).out.length ≤ cap then b64Loop cap cs (b64Push s v) else (s, false) := by
  simp only [b64Loop, b64Blank_b64Char hv, b64Char_ne_pad hv, hpad, b64Val_b64Char hv, if_false, Bool.false_eq_true,
    b64Push]
  by_cases h8 : 8 ≤ s.bits + 6
  · simp only [h8, if_true, List.length_append, List.length_singleton]
    by_cases hfull : cap ≤ s.out.length
    · rw [if_pos hfull, if_neg (by omega)]
    · rw [if_neg hfull, if_pos (by omega)]
  · simp only [h8, if_false, hcap, if_true]

/-- Data characters, as long as the buffer holds what they decode to. -/
theorem b64Loop_data {cap : Nat} {vs : List Nat} {s : B64State} (rest : Bytes) (hvs : ∀ v ∈ vs, v < 64)
    (hpad : s.seenPad = false) (hfit : (vs.foldl b64Push s).out.length ≤ cap) :
    b64Loop cap (vs.map b64Char ++ rest) s = b64Loop cap rest (vs.foldl b64Push s) := by
  induction vs generalizing s with
  | nil => rfl
  | cons v vs ih =>
    have hnext : (b64Push s v).out.length ≤ cap := (length_out_le_foldl _ vs).trans hfit
    rw [List.map_cons, List.cons_append,
      b64Loop_char _ (hvs v (by simp)) hpad ((length_out_le_b64Push s v).trans hnext), if_pos hnext, List.foldl_cons]
    exact ih (fun w hw => hvs w (by simp [hw])) (b64Push_seenPad s v) hfit

/-- If the loop gets through, the buffer did hold them. -/
theorem b64Loop_fits {cap : Nat} {vs : List Nat} {s : B64State} {rest : Bytes} (hvs : ∀ v ∈ vs, v < 64)
    (hpad : s.seenPad = false) (hcap : s.out.length ≤ cap) (h : (b64Loop cap (vs.map b64Char ++ rest) s).2 = true) :
    (vs.foldl b64Push s).out.length ≤ cap := by
  induction vs generalizing s with
  | nil => exact hcap
  | cons v vs ih =>
    rw [List.map_cons, List.cons_append, b64Loop_char _ (hvs v (by simp)) hpad hcap] at h
    split at h
    · next hnext => exact ih (fun w hw => hvs w (by simp [hw])) (b64Push_seenPad s v) hnext h
    · cases h

/-- Padding changes nothing but the flag. -/
theorem b64Loop_pads (cap k : Nat) (s : B64State) :
    (b64Loop cap (List.replicate k 61) s).2 = true ∧ (b64Loop cap (List.replicate k 61) s).1.out = s.out ∧
      (b64Loop cap (List.replicate k 61) s).1.n = s.n := by
  induction k generalizing s with
  | zero => exact ⟨rfl, rfl, rfl⟩
  | succ k ih => exact ih { s with seenPad := true }

theorem b64Loop_filter (cap : Nat) (cs : Bytes) (s : B64State) :
    b64Loop cap cs s = b64Loop cap (cs.filter fun c => !b64Blank c) s := by
  induction cs generalizing s with
  | nil => rfl
  | cons c cs ih =>
    by_cases hb : b64Blank c = true
    · rw [List.filter_cons_of_neg (by simp [hb]), b64Loop, if_pos hb, ih]
    · rw [List.filter_cons_of_pos (by simp [hb])]
      simp only [b64Loop, hb, if_false, Bool.false_eq_true, ih]

/-- After the first padding character only padding gets through. -/
theorem eq_replicate_of_b64Loop {cap : Nat} {cs : Bytes} {s : B64State} (hblank : ∀ c ∈ cs, b64Blank c = false)
    (hpad : s.seenPad = true) (h : (b64Loop cap cs s).2 = true) : ∃ k, cs = List.replicate k 61 := by
  induction cs generalizing s with
  | nil => exact ⟨0, rfl⟩
  | cons c cs ih =>
    rw [b64Loop, if_neg (by simp [hblank c (by simp)])] at h
    by_cases hc : c = 61
    · rw [if_pos hc] at h
      obtain ⟨k, rfl⟩ := ih (fun d hd => hblank d (by simp [hd])) rfl h
      exact ⟨k + 1, by rw [hc, List.replicate_succ]⟩
    · rw [if_neg hc, if_pos hpad] at h
      cases h

/-- What gets through the loop is characters of sextets and then padding. -/
theorem sextets_of_b64Loop {cap : Nat} {cs : Bytes} {s : B64State} (hblank : ∀ c ∈ cs, b64Blank c = false)
    (hpad : s.seenPad = false) (hcap : s.out.length ≤ cap) (h : (b64Loop cap cs s).2 = true) :
    ∃ (vs : List Nat) (k : Nat), (∀ v ∈ vs, v < 64) ∧ cs = vs.map b64Char ++ List.replicate k 61 := by
  induction cs generalizing s with
  | nil => exact ⟨[], 0, by simp, rfl⟩
  | cons c cs ih =>
    have hrest : ∀ d ∈ cs, b64Blank d = false := fun d hd => hblank d (by simp [hd])
    by_cases hc : c = 61
    · rw [b64Loop, if_neg (by simp [hblank c (by simp)]), if_pos hc] at h
      obtain ⟨k, rfl⟩ := eq_replicate_of_b64Loop hrest rfl h
      exact ⟨[], k + 1, by simp, by rw [hc, List.replicate_succ]; rfl⟩
    · cases hval : b64Val c with
      | none =>
        rw [b64Loop, if_neg (by simp [hblank c (by simp)]), if_neg hc, if_neg (by simp [hpad]), hval] at h
        cases h
      | some v =>
        obtain ⟨hv, rfl⟩ := b64Val_eq_some hval
        rw [b64Loop_char _ hv hpad hcap] at h
        split at h
        · next hnext =>
          obtain ⟨vs, k, hvs, rfl⟩ := ih hrest (b64Push_seenPad s v) hnext h
          refine ⟨v :: vs, k, ?_, rfl⟩
          simpa [hv] using hvs
        · cases h

/-! ## The accumulator -/

/-- The accumulator after one sextet. -/
theorem shiftIn {acc v : Nat} (hv : v < 64) : acc <<< 6 ||| v = acc * 64 + v := by
  rw [← Nat.shiftLeft_add_eq_or_of_lt hv, Nat.shiftLeft_eq]

theorem b64Push_first {a : Nat} (acc n : Nat) (out : Bytes) (ha : a < 64) :
    b64Push ⟨acc, 0, out, n, false⟩ a = ⟨(acc * 64 + a) % 2 ^ 32, 6, out, n + 1, false⟩ := by
  simp only [b64Push, shiftIn ha]
  rfl

/-- A sextet that completes a byte. Of the accumulator only the bits that are still waiting count. -/
theorem b64Push_emit {acc bits v w : Nat} (n : Nat) (out : Bytes) (hv : v < 64) (hbits : 2 ≤ bits)
    (hw : (acc * 64 + v) % 2 ^ 32 / 2 ^ (bits - 2) % 256 = w % 256) :
    b64Push ⟨acc, bits, out, n, false⟩ v =
      ⟨(acc * 64 + v) % 2 ^ 32, bits - 2, out ++ [UInt8.ofNat w], n + 1, false⟩ := by
  have hbyte : UInt8.ofNat ((acc * 64 + v) % 2 ^ 32 / 2 ^ (bits - 2)) = UInt8.ofNat w := by
    apply UInt8.toNat_inj.1
    rw [UInt8.toNat_ofNat', UInt8.toNat_ofNat']
    exact hw
  have hsub : bits + 6 - 8 = bits - 2 := by omega
  simp only [b64Push, shiftIn hv, hsub, Nat.shiftRight_eq_div_pow, hbyte]
  rw [if_pos (by omega)]

theorem b64Push_second {acc a b : Nat} (n : Nat) (out : Bytes) (hb : b < 64) (hacc : acc % 64 = a) :
    ∃ acc', b64Push ⟨acc, 6, out, n, false⟩ b = ⟨acc', 4, out ++ [UInt8.ofNat (a * 4 + b / 16)], n + 1, false⟩ ∧
      acc' % 16 = b % 16 :=
  ⟨_, b64Push_emit n out hb (by omega) (by omega), by omega⟩

theorem b64Push_third {acc b c : Nat} (n : Nat) (out : Bytes) (hc : c < 64) (hacc : acc % 16 = b % 16) :
    ∃ acc', b64Push ⟨acc, 4, out, n, false⟩ c = ⟨acc', 2, out ++ [UInt8.ofNat (b % 16 * 16 + c / 4)], n + 1, false⟩ ∧
      acc' % 4 = c % 4 :=
  ⟨_, b64Push_emit n out hc (by omega) (by omega), by omega⟩

theorem b64Push_fourth {acc c d : Nat} (n : Nat) (out : Bytes) (hd : d < 64) (hacc : acc % 4 = c % 4) :
    ∃ acc', b64Push ⟨acc, 2, out, n, false⟩ d = ⟨acc', 0, out ++ [UInt8.ofNat (c % 4 * 64 + d)], n + 1, false⟩ :=
  ⟨_, b64Push_emit n out hd (by omega) (by omega)⟩

/-- **The fold of the pushes writes the octets.** By groups of four: after each the accumulator holds nothing
that is still needed, whatever it has grown to. -/
theorem foldl_b64Push {vs : List Nat} (hvs : ∀ v ∈ vs, v < 64) (acc n : Nat) (out : Bytes) :
    (vs.foldl b64Push ⟨acc, 0, out, n, false⟩).out = out ++ octets vs ∧
      (vs.foldl b64Push ⟨acc, 0, out, n, false⟩).n = n + vs.length := by
  induction vs using octets.induct generalizing acc n out with
  | case1 a b c d vs ih =>
    simp only [List.mem_cons, forall_eq_or_imp] at hvs
    obtain ⟨ha, hb, hc, hd, hvs⟩ := hvs
    have hacc₁ : (acc * 64 + a) % 2 ^ 32 % 64 = a := by omega
    obtain ⟨acc₂, h2, hacc₂⟩ := b64Push_second (n + 1) out hb hacc₁
    obtain ⟨acc₃, h3, hacc₃⟩ := b64Push_third (n + 2) (out ++ [UInt8.ofNat (a * 4 + b / 16)]) hc hacc₂
    obtain ⟨acc₄, h4⟩ := b64Push_fourth (n + 3)
      (out ++ [UInt8.ofNat (a * 4 + b / 16)] ++ [UInt8.ofNat (b % 16 * 16 + c / 4)]) hd hacc₃
    simp only [List.foldl_cons, b64Push_first acc n out ha, h2, h3, h4]
    obtain ⟨hout, hn⟩ := ih hvs acc₄ (n + 4) (out ++ [UInt8.ofNat (a * 4 + b / 16)] ++
      [UInt8.ofNat (b % 16 * 16 + c / 4)] ++ [UInt8.ofNat (c % 4 * 64 + d)])
    rw [hout, hn, octets]
    exact ⟨by simp, by simp only [List.length_cons]; omega⟩
  | case2 a b c =>
    simp only [List.mem_cons, List.not_mem_nil, or_false, forall_eq_or_imp, forall_eq] at hvs
    obtain ⟨ha, hb, hc⟩ := hvs
    have hacc₁ : (acc * 64 + a) % 2 ^ 32 % 64 = a := by omega
    obtain ⟨acc₂, h2, hacc₂⟩ := b64Push_second (n + 1) out hb hacc₁
    obtain ⟨acc₃, h3, -⟩ := b64Push_third (n + 2) (out ++ [UInt8.ofNat (a * 4 + b / 16)]) hc hacc₂
    simp only [List.foldl_cons, List.foldl_nil, b64Push_first acc n out ha, h2, h3, octets]
    exact ⟨by simp, rfl⟩
  | case3 a b =>
    simp only [List.mem_cons, List.not_mem_nil, or_false, forall_eq_or_imp, forall_eq] at hvs
    obtain ⟨ha, hb⟩ := hvs
    have hacc₁ : (acc * 64 + a) % 2 ^ 32 % 64 = a := by omega
    obtain ⟨acc₂, h2, -⟩ := b64Push_second (n + 1) out hb hacc₁
    simp only [List.foldl_cons, List.foldl_nil, b64Push_first acc n out ha, h2, octets]
    exact ⟨trivial, rfl⟩
  | case4 a =>
    simp only [List.mem_cons, List.not_mem_nil, or_false, forall_eq] at hvs
    simp only [List.foldl_cons, List.foldl_nil, b64Push_first acc n out hvs, octets]
    exact ⟨by simp, rfl⟩
  | case5 => exact ⟨by simp [octets], rfl⟩

/-! ## The decoder -/

/-- The text, blanks aside, is the characters of `vs` and then padding. -/
structure B64Text (s : Bytes) (vs : List Nat) : Prop where
  sextet : ∀ v ∈ vs, v < 64
  chars : ∃ k, s.filter (fun c => !b64Blank c) = vs.map b64Char ++ List.replicate k 61

/-- **The decoder.** It accepts a text of sextets and padding whose number of sextets leaves no single one and
whose octets fit, and writes these. -/
theorem b64Decode_eq_iff {s out : Bytes} {cap : Nat} :
    b64Decode s cap = (out, true) ↔
      ∃ vs, B64Text s vs ∧ vs.length % 4 ≠ 1 ∧ (octets vs).length ≤ cap ∧ out = octets vs := by
  simp only [b64Decode, Prod.mk.injEq, Bool.and_eq_true, bne_iff_ne]
  rw [b64Loop_filter]
  constructor
  · rintro ⟨hout, hok, hn⟩
    have hblank : ∀ c ∈ s.filter (fun c => !b64Blank c), b64Blank c = false := by
      intro c hc
      simpa using (List.mem_filter.1 hc).2
    obtain ⟨vs, k, hvs, hs⟩ := sextets_of_b64Loop hblank rfl (Nat.zero_le cap) hok
    rw [hs] at hok hout hn
    have hfit := b64Loop_fits hvs rfl (Nat.zero_le cap) hok
    obtain ⟨hfold, hcount⟩ := foldl_b64Push hvs 0 0 []
    obtain ⟨-, hpo, hpn⟩ := b64Loop_pads cap k (vs.foldl b64Push ⟨0, 0, [], 0, false⟩)
    rw [b64Loop_data _ hvs rfl hfit, hpo, hfold, List.nil_append] at hout
    rw [b64Loop_data _ hvs rfl hfit, hpn, hcount, Nat.zero_add] at hn
    rw [hfold, List.nil_append] at hfit
    exact ⟨vs, ⟨hvs, k, hs⟩, hn, hfit, hout.symm⟩
  · rintro ⟨vs, ⟨hvs, k, hs⟩, hn, hfit, rfl⟩
    obtain ⟨hfold, hcount⟩ := foldl_b64Push hvs 0 0 []
    rw [List.nil_append] at hfold
    rw [Nat.zero_add] at hcount
    obtain ⟨hpok, hpo, hpn⟩ := b64Loop_pads cap k (vs.foldl b64Push ⟨0, 0, [], 0, false⟩)
    rw [hs, b64Loop_data _ hvs rfl (by rw [hfold]; exact hfit)]
    exact ⟨by rw [hpo, hfold], hpok, by rw [hpn, hcount]; exact hn⟩

/-- The characters that are neither padding nor blank. -/
def b64Significant (s : Bytes) : Bytes := s.filter fun c => !(c == 61 || b64Blank c)

theorem b64DecodedUpperBound_eq (s : Bytes) : b64DecodedUpperBound s = 6 * (b64Significant s).length / 8 := by
  rw [b64DecodedUpperBound, b64Significant, List.countP_eq_length_filter, Nat.mul_comm]

theorem B64Text.significant {s : Bytes} {vs : List Nat} (h : B64Text s vs) : b64Significant s = vs.map b64Char := by
  obtain ⟨hvs, k, hs⟩ := h
  have hsplit : b64Significant s = (s.filter fun c => !b64Blank c).filter fun c => !(c == 61) := by
    rw [b64Significant, List.filter_filter]
    congr 1
    funext c
    rw [Bool.not_or]
  have hkeep : (vs.map b64Char).filter (fun c => !(c == 61)) = vs.map b64Char := by
    rw [List.filter_eq_self]
    intro c hc
    obtain ⟨v, hv, rfl⟩ := List.mem_map.1 hc
    simpa using b64Char_ne_pad (hvs v hv)
  rw [hsplit, hs, List.filter_append, hkeep]
  simp

/-- What an accepted text decodes to has the length the estimate gives. -/
theorem B64Text.upperBound {s : Bytes} {vs : List Nat} (h : B64Text s vs) : b64DecodedUpperBound s = (octets vs).length := by
  rw [b64DecodedUpperBound_eq, h.significant, List.length_map, length_octets]

/-- The text of an encoding: any blanks, any padding at the end. -/
theorem b64Text_nopad {s x : Bytes} {k : Nat}
    (h : s.filter (fun c => !b64Blank c) = b64Nopad x ++ List.replicate k 61) : B64Text s (sextets x) :=
  ⟨sextets_lt x, k, by rw [h, b64Nopad_eq]⟩

/-- **The round trip.** -/
theorem b64Decode_nopad {s x : Bytes} {k cap : Nat}
    (h : s.filter (fun c => !b64Blank c) = b64Nopad x ++ List.replicate k 61) (hcap : x.length ≤ cap) :
    b64Decode s cap = (x, true) := by
  have hlen := length_sextets x
  refine b64Decode_eq_iff.2 ⟨sextets x, b64Text_nopad h, by omega, ?_, (octets_sextets x).symm⟩
  rw [octets_sextets]
  exact hcap

/-- The encoding itself, padded. -/
theorem b64Decode_padded (x : Bytes) (k cap : Nat) (hcap : x.length ≤ cap) :
    b64Decode (b64Nopad x ++ List.replicate k 61) cap = (x, true) := by
  refine b64Decode_nopad (k := k) ?_ hcap
  rw [List.filter_eq_self]
  intro c hc
  rcases List.mem_append.1 hc with hc | hc
  · rw [b64Nopad_eq] at hc
    obtain ⟨v, hv, rfl⟩ := List.mem_map.1 hc
    rw [b64Blank_b64Char (sextets_lt x v hv), Bool.not_false]
  · rw [List.eq_of_mem_replicate hc]
    decide

/-- Two texts that differ at most in the low `u` bits of their last character, which the second has at zero. -/
def SameUpToUnused (u : Nat) (cs ds : Bytes) : Prop :=
  cs = ds ∨ ∃ init v, v < 64 ∧ cs = init ++ [b64Char v] ∧ ds = init ++ [b64Char (v / 2 ^ u * 2 ^ u)]

theorem sameUpToUnused_clearLast {vs : List Nat} (u : Nat) (hvs : ∀ v ∈ vs, v < 64) :
    SameUpToUnused u (vs.map b64Char) ((clearLast u vs).map b64Char) := by
  rcases List.eq_nil_or_concat vs with rfl | ⟨init, v, rfl⟩
  · exact .inl rfl
  · refine .inr ⟨init.map b64Char, v, hvs v (by simp), by simp, ?_⟩
    rw [List.concat_eq_append, clearLast_concat]
    simp

/-- Whether the test before the decoder trips, for a value that decodes at all. -/
theorem upperBound_lt_iff {s x : Bytes} {cap₀ : Nat} (h : b64Decode s cap₀ = (x, true)) (cap : Nat) :
    (cap < b64DecodedUpperBound s ↔ cap < x.length) ∧ (cap < x.length ↔ (b64Decode s cap).2 = false) := by
  obtain ⟨vs, htext, hlen, -, rfl⟩ := b64Decode_eq_iff.1 h
  rw [htext.upperBound]
  refine ⟨Iff.rfl, ?_⟩
  constructor
  · intro hlt
    by_contra hok
    have hdec : b64Decode s cap = ((b64Decode s cap).1, true) := Prod.ext rfl (eq_true_of_ne_false hok)
    obtain ⟨ws, htext', -, hfit, -⟩ := b64Decode_eq_iff.1 hdec
    rw [← htext'.upperBound, htext.upperBound] at hfit
    omega
  · intro hbad
    by_contra hle
    have := b64Decode_eq_iff.2 ⟨vs, htext, hlen, not_lt.1 hle, rfl⟩
    rw [this] at hbad
    cases hbad

theorem sdpKey_overflow_iff {body value : Bytes} (o : RaopSdp) (h : findAttr (ascii "rsaaeskey") body = some value) :
    sdpKey body o = .error (.overflow, o) ↔ 256 < b64DecodedUpperBound value := by
  simp only [sdpKey, h]
  by_cases hlt : 256 < b64DecodedUpperBound value
  · simp [hlt]
  · -- behind the test only the other two errors are left
    rw [if_neg hlt]
    split_ifs <;> simp [hlt]

theorem sdpIv_overflow_iff {body value : Bytes} (o : RaopSdp) (h : findAttr (ascii "aesiv") body = some value) :
    sdpIv body o = .error (.overflow, o) ↔ 32 < b64DecodedUpperBound value := by
  simp only [sdpIv, h]
  by_cases hlt : 32 < b64DecodedUpperBound value
  · simp [hlt]
  · rw [if_neg hlt]
    split_ifs <;> simp [hlt]

/-- **Base64.** Every encoding decodes to what was encoded, whatever blanks stand in it and however much padding
ends it. An accepted text decodes to as many bytes as the estimate says, and is the encoding of these up to the
unused bits of its last character. So the overflow tests of `sdp_parse` (sdp.c:226, :242) turn away a value that
decodes exactly when what it decodes to does not fit. -/
theorem b64_agree :
    (∀ (x s : Bytes) (k cap : Nat), s.filter (fun c => !b64Blank c) = b64Nopad x ++ List.replicate k 61 →
      x.length ≤ cap → b64Decode s cap = (x, true)) ∧
    (∀ (s out : Bytes) (cap : Nat), b64Decode s cap = (out, true) →
      out.length = 6 * (b64Significant s).length / 8 ∧ out.length = b64DecodedUpperBound s ∧
      SameUpToUnused (6 * (b64Significant s).length % 8) (b64Significant s) (b64Nopad out)) ∧
    (∀ (body value x : Bytes) (cap₀ : Nat) (o : RaopSdp), b64Decode value cap₀ = (x, true) →
      (findAttr (ascii "rsaaeskey") body = some value →
        (sdpKey body o = .error (.overflow, o) ↔ 256 < x.length) ∧
          (256 < x.length ↔ (b64Decode value 256).2 = false)) ∧
      (findAttr (ascii "aesiv") body = some value →
        (sdpIv body o = .error (.overflow, o) ↔ 32 < x.length) ∧
          (32 < x.length ↔ (b64Decode value 32).2 = false))) := by
  refine ⟨fun x s k cap h hcap => b64Decode_nopad h hcap, ?_, ?_⟩
  · intro s out cap h
    obtain ⟨vs, htext, hlen, -, rfl⟩ := b64Decode_eq_iff.1 h
    refine ⟨?_, htext.upperBound.symm, ?_⟩
    · rw [htext.significant, List.length_map, length_octets]
    · rw [htext.significant, List.length_map, b64Nopad_eq, sextets_octets htext.sextet hlen]
      exact sameUpToUnused_clearLast _ htext.sextet
  · intro body value x cap₀ o h
    obtain ⟨hkey, hkey'⟩ := upperBound_lt_iff h 256
    obtain ⟨hiv, hiv'⟩ := upperBound_lt_iff h 32
    exact ⟨fun hattr => ⟨(sdpKey_overflow_iff o hattr).trans hkey, hkey'⟩,
      fun hattr => ⟨(sdpIv_overflow_iff o hattr).trans hiv, hiv'⟩⟩

end ShairKindle
