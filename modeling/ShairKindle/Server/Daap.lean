import ShairKindle.Rtsp.Sdp
import ShairKindle.Server.Capture

/-!
# Song metadata (src/daap.c)

A metadata body is a run of items: a code of four characters, a big-endian length, a payload. Some payloads
are runs of items themselves, and nothing in an item says so. `walk` guesses it from the first eight bytes
(`looks_nested`) and keeps the last title, artist and album it comes across.

| here                     | src/daap.c                   |
|--------------------------|------------------------------|
| `daapTake`               | `take` (:5)                  |
| `looksNested`            | `looks_nested` (:13)         |
| `daapVisit`, `daapLoop`  | the loop of `walk` (:23-34)  |
| `daapWalk`               | `walk` (:20), by levels left |
| `daapParse`              | `daap_parse` (:37)           |

`Forest` is what a sender means: items that are leaves or containers. `daapParse_encode` says that the guess
never goes wrong on the forests described by `Forest.WF`, so that each field ends as the last payload with its
code, in document order.
-/

namespace ShairKindle

open Bytes

/-! ## The code -/

/-- `daap_meta_t` (daap.h:5): three arrays of 256 bytes. -/
structure DaapArrays where
  title : Bytes
  artist : Bytes
  album : Bytes
deriving DecidableEq, Repr

/-- `memset(out, 0, sizeof *out)`. -/
def DaapArrays.zero : DaapArrays := ⟨List.replicate 256 0, List.replicate 256 0, List.replicate 256 0⟩

/-- The strings in the arrays: what `strcmp` and the `take` of npstate.c read. -/
def DaapArrays.strings (a : DaapArrays) : DaapMeta := ⟨cstr a.title, cstr a.artist, cstr a.album⟩

/-- `take` into an array of 256 bytes: what lies behind the NUL stays. -/
def daapTake (dst v : Bytes) : Bytes := v.take 255 ++ 0 :: dst.drop (min v.length 255 + 1)

def isPrintable (c : UInt8) : Bool := 0x20 ≤ c && c ≤ 0x7e

def looksNested (p : Bytes) : Bool :=
  decide (8 ≤ p.length) && (p.take 4).all isPrintable && decide (be32At p 4 ≤ p.length - 8)

/-- What the loop does with one item (daap.c:29-32). -/
def daapVisit (nested : Bytes → DaapArrays → DaapArrays) (code v : Bytes) (out : DaapArrays) : DaapArrays :=
  if code = ascii "minm" then { out with title := daapTake out.title v }
  else if code = ascii "asar" then { out with artist := daapTake out.artist v }
  else if code = ascii "asal" then { out with album := daapTake out.album v }
  else if 8 ≤ v.length ∧ looksNested v = true then nested v out
  else out

/-- The loop of `walk`. Each round takes at least eight bytes, so the length of the run is enough fuel. -/
def daapLoop (nested : Bytes → DaapArrays → DaapArrays) : Nat → Bytes → DaapArrays → DaapArrays
  | 0, _, out => out
  | fuel + 1, p, out =>
    if p.length < 8 then out
    else
      let n := be32At p 4
      let val := p.drop 8
      if val.length < n then out
      else daapLoop nested fuel (val.drop n) (daapVisit nested (p.take 4) (val.take n) out)

/-- `walk` at depth `DAAP_MAX_DEPTH + 1 - levels`; no level is left when the depth exceeds the maximum. -/
def daapWalk : Nat → Bytes → DaapArrays → DaapArrays
  | 0, _, out => out
  | levels + 1, buf, out => daapLoop (daapWalk levels) buf.length buf out

/-- `DAAP_MAX_DEPTH`. -/
def daapMaxDepth : Nat := 8

def daapParse (buf : Bytes) : DaapArrays :=
  if 8 ≤ buf.length then daapWalk (daapMaxDepth + 1) buf .zero else .zero

/-! ## Items -/

mutual

inductive Item
  | leaf (code payload : Bytes)
  | node (code : Bytes) (children : Forest)

inductive Forest
  | nil
  | cons (i : Item) (f : Forest)

end

/-- Code, length, payload. -/
def encodeItem (code v : Bytes) : Bytes := code ++ putBe32 v.length ++ v

mutual

def Item.encode : Item → Bytes
  | .leaf code v => encodeItem code v
  | .node code f => encodeItem code f.encode

def Forest.encode : Forest → Bytes
  | .nil => []
  | .cons i f => i.encode ++ f.encode

end

mutual

/-- Codes and payloads of the leaves, in document order. -/
def Item.leaves : Item → List (Bytes × Bytes)
  | .leaf code v => [(code, v)]
  | .node _ f => f.leaves

def Forest.leaves : Forest → List (Bytes × Bytes)
  | .nil => []
  | .cons i f => i.leaves ++ f.leaves

end

/-- Four printable characters. -/
def IsCode (code : Bytes) : Prop := code.length = 4 ∧ ∀ c ∈ code, isPrintable c = true

-- by the list, not by all 256 bytes
instance (code : Bytes) : Decidable (IsCode code) :=
  @instDecidableAnd _ _ _ (List.decidableBAll (fun c => isPrintable c = true) code)

/-- The codes that are kept. -/
def IsWanted (code : Bytes) : Prop := code = ascii "minm" ∨ code = ascii "asar" ∨ code = ascii "asal"

instance (code : Bytes) : Decidable (IsWanted code) := inferInstanceAs (Decidable (_ ∨ _))

/-- A payload that is no run of items: short, or with a byte among its first four that is not printable, or text. -/
def LeafOk (v : Bytes) : Prop :=
  v.length < 8 ∨ (∃ c ∈ v.take 4, isPrintable c = false) ∨ (∀ c ∈ v, 0x20 ≤ c) ∧ v.length < 2 ^ 29

instance (v : Bytes) : Decidable (LeafOk v) :=
  @instDecidableOr _ _ _ <| @instDecidableOr _ _ (List.decidableBEx (fun c => isPrintable c = false) (v.take 4)) <|
    @instDecidableAnd _ _ (List.decidableBAll (fun c => 0x20 ≤ c) v) _

mutual

/-- Well formed, with at most `k` more containers inside each other. -/
def Item.WF : Nat → Item → Prop
  | _, .leaf code v => IsCode code ∧ v.length < 2 ^ 32 ∧ (IsWanted code ∨ LeafOk v)
  | 0, .node _ _ => False
  | k + 1, .node code f =>
    IsCode code ∧ ¬ IsWanted code ∧ f ≠ .nil ∧ f.encode.length < 2 ^ 32 ∧ f.WF k

def Forest.WF : Nat → Forest → Prop
  | _, .nil => True
  | k, .cons i f => i.WF k ∧ f.WF k

end

/-! ## One item -/

theorem daapLoop_fuel (nested : Bytes → DaapArrays → DaapArrays) (f g : Nat) (p : Bytes) (out : DaapArrays)
    (hf : p.length ≤ f) (hg : p.length ≤ g) : daapLoop nested f p out = daapLoop nested g p out := by
  induction f generalizing g p out with
  | zero =>
    obtain rfl := List.length_eq_zero_iff.1 (Nat.le_zero.1 hf)
    cases g <;> rfl
  | succ f ih =>
    cases g with
    | zero =>
      obtain rfl := List.length_eq_zero_iff.1 (Nat.le_zero.1 hg)
      rfl
    | succ g =>
      simp only [daapLoop]
      have hlen : ((p.drop 8).drop (be32At p 4)).length = p.length - 8 - be32At p 4 := by
        simp only [List.length_drop]
      split
      · rfl
      · rw [ih g _ _ (by omega) (by omega)]

theorem length_encodeItem {code v : Bytes} (hc : IsCode code) : (encodeItem code v).length = 8 + v.length := by
  simp only [encodeItem, List.length_append, hc.1, putBe32, List.length_cons, List.length_nil]

theorem take_encodeItem {code v : Bytes} (rest : Bytes) (hc : IsCode code) : (encodeItem code v ++ rest).take 4 = code := by
  rw [encodeItem, List.append_assoc, List.append_assoc, ← hc.1, List.take_left]

theorem drop_encodeItem {code v : Bytes} (rest : Bytes) (hc : IsCode code) :
    (encodeItem code v ++ rest).drop 8 = v ++ rest := by
  have h8 : (code ++ putBe32 v.length).length = 8 := by
    simp only [List.length_append, hc.1, putBe32, List.length_cons, List.length_nil]
  rw [encodeItem, List.append_assoc, ← h8, List.drop_left]

theorem be32At_encodeItem {code v : Bytes} (rest : Bytes) (hc : IsCode code) (hv : v.length < 2 ^ 32) :
    be32At (encodeItem code v ++ rest) 4 = v.length := by
  obtain ⟨a, b, c, d, rfl⟩ := List.length_eq_four.1 hc.1
  exact be32_putBe32 hv

/-- **One round of the loop** takes one item off the run. -/
theorem daapLoop_item (nested : Bytes → DaapArrays → DaapArrays) {code v : Bytes} (rest : Bytes) (out : DaapArrays)
    (hc : IsCode code) (hv : v.length < 2 ^ 32) :
    daapLoop nested (encodeItem code v ++ rest).length (encodeItem code v ++ rest) out =
      daapLoop nested rest.length rest (daapVisit nested code v out) := by
  have hlen : (encodeItem code v ++ rest).length = 7 + v.length + rest.length + 1 := by
    rw [List.length_append, length_encodeItem hc]
    omega
  rw [hlen, daapLoop, if_neg (by omega)]
  simp only [take_encodeItem rest hc, drop_encodeItem rest hc, be32At_encodeItem rest hc hv]
  rw [if_neg (by simp), List.drop_left, List.take_left]
  exact daapLoop_fuel nested _ _ rest _ (by omega) le_rfl

/-! ## The guess -/

/-- Text is not taken for a run of items: four characters make a length of at least `0x20202020`. -/
theorem looksNested_leaf {v : Bytes} (h : LeafOk v) : ¬ (8 ≤ v.length ∧ looksNested v = true) := by
  rintro ⟨h8, hn⟩
  simp only [looksNested, Bool.and_eq_true, decide_eq_true_eq, List.all_eq_true] at hn
  obtain ⟨⟨-, hprint⟩, hfit⟩ := hn
  rcases h with hshort | ⟨c, hc, hnp⟩ | ⟨htext, hlen⟩
  · omega
  · rw [hprint c hc] at hnp
    cases hnp
  · have hbyte : ∀ i, i < 8 → 32 ≤ (v.getD i 0).toNat := by
      intro i hi
      have hiv : i < v.length := by omega
      have hget : v.getD i 0 = v[i] := by simp [hiv]
      rw [hget]
      exact UInt8.le_iff_toNat_le.1 (htext _ (List.getElem_mem hiv))
    have h4 := hbyte 4 (by omega)
    have h5 := hbyte 5 (by omega)
    have h6 := hbyte 6 (by omega)
    have h7 := hbyte 7 (by omega)
    simp only [be32At] at hfit
    omega

/-- A run that starts with an item looks like one. -/
theorem looksNested_item {code v : Bytes} (rest : Bytes) (hc : IsCode code) (hv : v.length < 2 ^ 32) :
    8 ≤ (encodeItem code v ++ rest).length ∧ looksNested (encodeItem code v ++ rest) = true := by
  have hlen : (encodeItem code v ++ rest).length = 8 + v.length + rest.length := by
    rw [List.length_append, length_encodeItem hc]
  refine ⟨by omega, ?_⟩
  simp only [looksNested, take_encodeItem rest hc, be32At_encodeItem rest hc hv, hlen, Bool.and_eq_true,
    decide_eq_true_eq, List.all_eq_true]
  exact ⟨⟨by omega, hc.2⟩, by omega⟩

theorem Forest.looksNested {k : Nat} {f : Forest} (h : f.WF k) (hne : f ≠ .nil) :
    8 ≤ f.encode.length ∧ looksNested f.encode = true := by
  match f, h with
  | .nil, _ => exact absurd rfl hne
  | .cons (.leaf code v) f, ⟨hi, _⟩ =>
    simp only [Item.WF] at hi
    exact looksNested_item f.encode hi.1 hi.2.1
  | .cons (.node code g) f, ⟨hi, _⟩ =>
    cases k with
    | zero => exact absurd hi (by simp [Item.WF])
    | succ k =>
      simp only [Item.WF] at hi
      exact looksNested_item f.encode hi.1 hi.2.2.2.1

/-! ## The walk -/

/-- What a leaf leaves behind. -/
def setField (out : DaapArrays) (leaf : Bytes × Bytes) : DaapArrays := daapVisit (fun _ out => out) leaf.1 leaf.2 out

theorem daapVisit_leaf (nested : Bytes → DaapArrays → DaapArrays) {code v : Bytes} (out : DaapArrays)
    (h : IsWanted code ∨ LeafOk v) : daapVisit nested code v out = setField out (code, v) := by
  simp only [setField, daapVisit]
  rcases h with (rfl | rfl | rfl) | h
  · rfl
  · rfl
  · rfl
  · simp only [looksNested_leaf h, if_false]

theorem daapVisit_node (nested : Bytes → DaapArrays → DaapArrays) {code v : Bytes} (out : DaapArrays)
    (hc : ¬ IsWanted code) (h : 8 ≤ v.length ∧ looksNested v = true) : daapVisit nested code v out = nested v out := by
  simp only [IsWanted, not_or] at hc
  simp only [daapVisit, hc.1, hc.2.1, hc.2.2, if_false]
  rw [if_pos h]

mutual

/-- An item at the front of a run. -/
theorem Item.walk (i : Item) (k : Nat) (rest : Bytes) (out : DaapArrays) (h : i.WF k) :
    daapLoop (daapWalk k) (i.encode ++ rest).length (i.encode ++ rest) out =
      daapLoop (daapWalk k) rest.length rest (i.leaves.foldl setField out) := by
  match i, k, h with
  | .leaf code v, k, h =>
    simp only [Item.WF] at h
    rw [Item.encode, daapLoop_item _ rest out h.1 h.2.1, daapVisit_leaf _ out h.2.2]
    rfl
  | .node code f, k + 1, h =>
    simp only [Item.WF] at h
    obtain ⟨hc, hw, hne, hlen, hf⟩ := h
    rw [Item.encode, daapLoop_item _ rest out hc hlen, daapVisit_node _ out hw (Forest.looksNested hf hne), daapWalk,
      Forest.walk f k out hf]
    rfl
  | .node code f, 0, h => exact absurd h (by simp [Item.WF])

/-- A run. -/
theorem Forest.walk (f : Forest) (k : Nat) (out : DaapArrays) (h : f.WF k) :
    daapLoop (daapWalk k) f.encode.length f.encode out = f.leaves.foldl setField out := by
  match f, h with
  | .nil, _ => rfl
  | .cons i f, ⟨hi, hf⟩ =>
    rw [Forest.encode, Item.walk i k f.encode out hi, Forest.walk f k _ hf, Forest.leaves, List.foldl_append]

end

/-- **The walk visits the leaves in document order.** -/
theorem daapParse_eq {f : Forest} (h : f.WF daapMaxDepth) : daapParse f.encode = f.leaves.foldl setField .zero := by
  by_cases hnil : f = .nil
  · subst hnil
    rfl
  · rw [daapParse, if_pos (Forest.looksNested h hnil).1, daapWalk]
    exact Forest.walk f daapMaxDepth .zero h

/-! ## The fields -/

inductive DaapField
  | title | artist | album
deriving DecidableEq, Repr

def DaapField.code : DaapField → Bytes
  | .title => ascii "minm"
  | .artist => ascii "asar"
  | .album => ascii "asal"

def DaapArrays.get (a : DaapArrays) : DaapField → Bytes
  | .title => a.title
  | .artist => a.artist
  | .album => a.album

theorem get_setField (out : DaapArrays) (leaf : Bytes × Bytes) (d : DaapField) :
    (setField out leaf).get d = if leaf.1 = d.code then daapTake (out.get d) leaf.2 else out.get d := by
  simp only [setField, daapVisit, ite_self]
  by_cases h1 : leaf.1 = ascii "minm"
  · rw [if_pos h1, h1]
    cases d <;> rfl
  by_cases h2 : leaf.1 = ascii "asar"
  · rw [if_neg h1, if_pos h2, h2]
    cases d <;> rfl
  by_cases h3 : leaf.1 = ascii "asal"
  · rw [if_neg h1, if_neg h2, if_pos h3, h3]
    cases d <;> rfl
  · rw [if_neg h1, if_neg h2, if_neg h3]
    cases d
    · exact (if_neg h1).symm
    · exact (if_neg h2).symm
    · exact (if_neg h3).symm

/-- The payload of the last leaf with the code. -/
def lastPayload (code : Bytes) (leaves : List (Bytes × Bytes)) : Option Bytes :=
  ((leaves.filter fun l => l.1 == code).getLast?).map Prod.snd

/-- The array holds the payload, cut to 255 bytes, and a NUL. -/
def HoldsString (a v : Bytes) : Prop := a.length = 256 ∧ a.take ((v.take 255).length + 1) = v.take 255 ++ [0]

/-- The array after the leaves: the given payload, or untouched. -/
def FieldHolds (a : Bytes) : Option Bytes → Prop
  | none => a = List.replicate 256 0
  | some v => HoldsString a v

theorem FieldHolds.length {a : Bytes} {p : Option Bytes} (h : FieldHolds a p) : a.length = 256 := by
  cases p with
  | none =>
    rw [show a = List.replicate 256 0 from h]
    exact List.length_replicate
  | some v => exact h.1

theorem holdsString_daapTake {dst : Bytes} (v : Bytes) (h : dst.length = 256) : HoldsString (daapTake dst v) v := by
  constructor
  · simp only [daapTake, List.length_append, List.length_take, List.length_cons, List.length_drop, h]
    omega
  · rw [daapTake, show v.take 255 ++ 0 :: dst.drop (min v.length 255 + 1) =
      (v.take 255 ++ [0]) ++ dst.drop (min v.length 255 + 1) by simp]
    exact List.take_left' (by simp)

/-- Every field after the leaves: the last payload with its code, or as it was. -/
theorem get_foldl_setField (leaves : List (Bytes × Bytes)) (d : DaapField) :
    FieldHolds ((leaves.foldl setField .zero).get d) (lastPayload d.code leaves) := by
  induction leaves using List.reverseRecOn with
  | nil => cases d <;> rfl
  | append_singleton leaves leaf ih =>
    rw [List.foldl_append, List.foldl_cons, List.foldl_nil, get_setField]
    by_cases hc : leaf.1 = d.code
    · have hlast : lastPayload d.code (leaves ++ [leaf]) = some leaf.2 := by
        simp [lastPayload, List.filter_append, hc]
      rw [hlast, if_pos hc]
      exact holdsString_daapTake leaf.2 ih.length
    · have hlast : lastPayload d.code (leaves ++ [leaf]) = lastPayload d.code leaves := by
        simp [lastPayload, List.filter_append, hc]
      rw [hlast, if_neg hc]
      exact ih

def DaapMeta.get (m : DaapMeta) : DaapField → Bytes
  | .title => m.title
  | .artist => m.artist
  | .album => m.album

theorem get_strings (a : DaapArrays) (d : DaapField) : a.strings.get d = cstr (a.get d) := by
  cases d <;> rfl

/-- The string a payload is kept as: at most 255 bytes, up to a NUL. -/
def keptString : Option Bytes → Bytes
  | none => []
  | some v => cstr (v.take 255)

theorem FieldHolds.cstr_eq {a : Bytes} {p : Option Bytes} (h : FieldHolds a p) : cstr a = keptString p := by
  cases p with
  | none =>
    rw [show a = List.replicate 256 0 from h]
    decide
  | some v =>
    have hsplit : a = v.take 255 ++ 0 :: a.drop ((v.take 255).length + 1) := by
      rw [← List.singleton_append, ← List.append_assoc, ← h.2, List.take_append_drop]
    rw [hsplit, keptString, cstr_append_nul]

theorem daapParse_strings {f : Forest} (h : f.WF 8) (d : DaapField) :
    (daapParse f.encode).strings.get d = keptString (lastPayload d.code f.leaves) := by
  rw [daapParse_eq h, get_strings]
  exact (get_foldl_setField f.leaves d).cstr_eq

/-- **Metadata extraction.** For every well-formed forest of at most eight containers inside each other, each of
title, artist and album ends as the payload of the last item with its code in document order, cut to 255 bytes and
NUL-terminated; without such an item it stays all zero. -/
theorem daapParse_encode (f : Forest) (h : f.WF 8) (d : DaapField) :
    FieldHolds ((daapParse f.encode).get d) (lastPayload d.code f.leaves) := by
  rw [daapParse_eq h]
  exact get_foldl_setField f.leaves d

/-- A list entry around an opaque identifier, a text that is not kept and two titles. -/
def songEntry : Forest :=
  .cons (.node (ascii "mlit") (.cons (.leaf (ascii "mper") [0, 0, 0, 0, 0, 24, 86, 166])
    (.cons (.leaf (ascii "ascp") (ascii "Test Composer")) (.cons (.leaf (ascii "minm") (ascii "Old"))
      (.cons (.leaf (ascii "minm") (ascii "New Track")) .nil))))) .nil

theorem daapParse_songEntry : HoldsString ((daapParse songEntry.encode).get .title) (ascii "New Track") := by
  have hwf : songEntry.WF 8 := by
    simp only [songEntry, Forest.WF, Item.WF, and_true]
    refine ⟨by decide, by decide, by simp, by decide, ⟨by decide, by decide, .inr (by decide)⟩,
      ⟨by decide, by decide, .inr (by decide)⟩, ⟨by decide, by decide, .inl (by decide)⟩,
      by decide, by decide, .inl (by decide)⟩
  exact daapParse_encode songEntry hwf .title

end ShairKindle
