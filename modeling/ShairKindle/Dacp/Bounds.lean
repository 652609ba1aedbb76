import ShairKindle.Lib.Checked
import ShairKindle.Dacp.Answer

/-!
# Hostile answers (src/dacp_resolve.c:55-145)

The packet comes from anyone on the network. `readNameC` is `read_name` at the level of its accesses: it loads single
bytes of the packet, stores single bytes into the caller's buffer, and an access outside either is a fault. Names may
be entered again through pointers, so the cursor moves both ways; a turn of the loop adds a label to the buffer or
counts a hop, and both are bounded. `len` and `outcap` are sizes of arrays, so no sum of the source wraps.

| here | there |
| --- | --- |
| `copyLabel`     | the loop over the bytes of a label (dacp_resolve.c:87) |
| `readNameLoop`  | the `for (;;)` of `read_name`, for any `outcap` |
| `NameRead`      | what the call leaves: the buffer, the index of the NUL, `*next` |
-/

namespace ShairKindle

open Bytes Dns Checked

/-! ## The accesses of `read_name` -/

def copyLabel (p : Bytes) : Nat → Nat → Nat → Bytes → Checked (Nat × Bytes)
  | 0, _, o, out => .done (o, out)
  | l + 1, src, o, out =>
    (load p src).bind fun c => (store out o (toLower c)).bind fun out => copyLabel p l (src + 1) (o + 1) out

/-- The dot before every label but the first. -/
def putDot (o : Nat) (out : Bytes) : Checked (Nat × Bytes) :=
  if o ≠ 0 then (store out o 46).bind fun out => .done (o + 1, out) else .done (o, out)

/-- The dot and the bytes of the label at `src`. -/
def writeLabel (p : Bytes) (l src o : Nat) (out : Bytes) : Checked (Nat × Bytes) :=
  (putDot o out).bind fun q => copyLabel p l src q.1 q.2

structure NameRead where
  out : Bytes
  o : Nat
  next : Nat
  deriving DecidableEq, Repr

/-- The `for (;;)` of `read_name`; `done none` is the return value -1. -/
def readNameLoop (p : Bytes) (outcap : Nat) : Nat → Nat → Nat → Nat → Bytes → Option Nat → Checked (Option NameRead)
  | 0, _, _, _, _, _ => .running
  | fuel + 1, hops, cur, o, out, next =>
    if p.length ≤ cur then .done none
    else (load p cur).bind fun b =>
      if b &&& 0xC0 = 0xC0 then
        if p.length ≤ cur + 1 then .done none
        else (load p (cur + 1)).bind fun lo =>
          let ptr := (b &&& 0x3F).toNat * 256 + lo.toNat
          if cur ≤ ptr then .done none
          else if 8 < hops + 1 then .done none
          else readNameLoop p outcap fuel (hops + 1) ptr o out (some (next.getD (cur + 2)))
      else if b &&& 0xC0 ≠ 0 then .done none
      else if b.toNat = 0 then
        if outcap ≤ o then .done none
        else (store out o 0).bind fun out => .done (some ⟨out, o, next.getD (cur + 1)⟩)
      else if 63 < b.toNat then .done none
      else if p.length < cur + 1 + b.toNat then .done none
      else if outcap ≤ o + b.toNat + 1 then .done none
      else (writeLabel p b.toNat (cur + 1) o out).bind fun q =>
        readNameLoop p outcap fuel hops (cur + 1 + b.toNat) q.1 q.2 next

/-- `read_name` into the whole of `out`. -/
def readNameC (p : Bytes) (off : Nat) (out : Bytes) : Checked (Option NameRead) :=
  readNameLoop p out.length (out.length + 9) 0 off 0 out none

/-! ## One label -/

theorem take_set_succ {α : Type} {m : List α} {o : Nat} (a : α) (h : o < m.length) :
    (m.set o a).take (o + 1) = m.take o ++ [a] := by
  rw [List.take_add_one, List.getElem?_set_self h, List.take_set_of_le (le_refl o)]
  rfl

theorem putDot_ensures {o : Nat} {out : Bytes} (h : o < out.length) :
    Ensures (putDot o out) fun q => q.1 = o + (if o = 0 then 0 else 1) ∧ q.2.length = out.length ∧
      q.2.take q.1 = out.take o ++ (if out.take o = [] then [] else [46]) := by
  have hempty : out.take o = [] ↔ o = 0 := by
    rw [List.take_eq_nil_iff]
    exact or_iff_left (List.ne_nil_of_length_pos (by omega))
  by_cases h0 : o = 0
  · rw [putDot, if_neg (by simpa using h0), if_pos h0, if_pos (hempty.2 h0)]
    exact ensures_done ⟨rfl, rfl, by simp⟩
  · rw [putDot, if_pos h0, if_neg h0, if_neg (mt hempty.1 h0)]
    refine (ensures_store 46 h).bind fun out' hout => ensures_done ⟨rfl, ?_, ?_⟩
    · rw [hout, List.length_set]
    · rw [hout]
      exact take_set_succ 46 h

theorem copyLabel_ensures (p : Bytes) : ∀ {l src o : Nat} {out : Bytes}, src + l ≤ p.length → o + l ≤ out.length →
    Ensures (copyLabel p l src o out) fun q => q.1 = o + l ∧ q.2.length = out.length ∧
      q.2.take q.1 = out.take o ++ ((p.drop src).take l).map toLower
  | 0, src, o, out, _, _ => ensures_done ⟨rfl, rfl, by simp⟩
  | l + 1, src, o, out, hsrc, ho => by
    rw [copyLabel]
    refine (ensures_load (by omega : src < p.length)).bind fun c hc => ?_
    refine (ensures_store (toLower c) (by omega : o < out.length)).bind fun out' hout => ?_
    have hlen : out'.length = out.length := by rw [hout, List.length_set]
    refine (copyLabel_ensures p (by omega) (by omega)).mono ?_
    rintro ⟨o', out''⟩ ⟨ho', hlen', htext⟩
    refine ⟨by rw [ho']; omega, hlen'.trans hlen, ?_⟩
    have hslice : (p.drop src).take (l + 1) = c :: (p.drop (src + 1)).take l := by
      obtain ⟨hlt, rfl⟩ := List.getElem?_eq_some_iff.1 hc
      rw [List.drop_eq_getElem_cons hlt, List.take_succ_cons]
    rw [htext, hout, take_set_succ _ (by omega), hslice, List.map_cons, List.append_assoc]
    rfl

theorem writeLabel_ensures {p : Bytes} {l src o : Nat} {out : Bytes} (hl : 0 < l) (hsrc : src + l ≤ p.length)
    (ho : o + l + 1 < out.length) :
    Ensures (writeLabel p l src o out) fun q => q.2.length = out.length ∧ o < q.1 ∧ q.1 ≤ out.length ∧
      q.2.take q.1 = addLabel (out.take o) ((p.drop src).take l) := by
  refine (putDot_ensures (by omega)).bind fun q hq => ?_
  have hdot : q.1 ≤ o + 1 := by rw [hq.1]; split <;> omega
  refine (copyLabel_ensures p hsrc (by omega)).mono fun r hr => ?_
  refine ⟨hr.2.1.trans hq.2.1, by omega, by omega, ?_⟩
  rw [hr.2.2, hq.2.2, addLabel]

/-! ## The loop -/

/-- What a turn of the loop comes to, decided by its checks before anything is written. -/
inductive Turn
  | fail
  | jump (ptr : Nat)
  | root
  | label (l : Nat)

/-- The checks of a turn, when `o` bytes of `outcap` are in use. -/
def turn (p : Bytes) (outcap hops cur o : Nat) : Turn :=
  match p[cur]? with
  | none => .fail
  | some b =>
    if b &&& 0xC0 = 0xC0 then
      match p[cur + 1]? with
      | none => .fail
      | some lo =>
        let ptr := (b &&& 0x3F).toNat * 256 + lo.toNat
        if cur ≤ ptr then .fail else if 8 < hops + 1 then .fail else .jump ptr
    else if b &&& 0xC0 ≠ 0 then .fail
    else if b.toNat = 0 then
      if outcap ≤ o then .fail else .root
    else if 63 < b.toNat then .fail
    else if p.length < cur + 1 + b.toNat then .fail
    else if outcap ≤ o + b.toNat + 1 then .fail
    else .label b.toNat

/-- What the checks of a turn leave for its accesses and its counters. -/
def Turn.Guarded (p : Bytes) (outcap hops cur o : Nat) : Turn → Prop
  | .fail => True
  | .jump _ => hops < 8
  | .root => o < outcap
  | .label l => 0 < l ∧ cur + 1 + l ≤ p.length ∧ o + l + 1 < outcap

theorem turn_guarded (p : Bytes) (outcap hops cur o : Nat) :
    (turn p outcap hops cur o).Guarded p outcap hops cur o := by
  rw [turn]
  cases p[cur]? with
  | none => trivial
  | some b =>
    dsimp only
    by_cases htag : b &&& 0xC0 = 0xC0
    · rw [if_pos htag]
      cases p[cur + 1]? with
      | none => trivial
      | some lo =>
        dsimp only
        split_ifs
        · trivial
        · trivial
        · simp only [Turn.Guarded]
          omega
    · rw [if_neg htag]
      split_ifs <;> simp only [Turn.Guarded] <;> omega

theorem readLoop_turn (p out : Bytes) (fuel hops cur : Nat) (next : Option Nat) :
    readLoop p (fuel + 1) hops cur out next =
      match turn p dnsMaxName hops cur out.length with
      | .fail => none
      | .jump ptr => readLoop p fuel (hops + 1) ptr out (some (next.getD (cur + 2)))
      | .root => some (out, next.getD (cur + 1))
      | .label l => readLoop p fuel hops (cur + 1 + l) (addLabel out ((p.drop (cur + 1)).take l)) next := by
  rw [readLoop, turn]
  cases p[cur]? with
  | none => rfl
  | some b =>
    dsimp only
    by_cases htag : b &&& 0xC0 = 0xC0
    · rw [if_pos htag, if_pos htag]
      cases p[cur + 1]? with
      | none => rfl
      | some lo =>
        dsimp only
        split_ifs <;> rfl
    · rw [if_neg htag, if_neg htag]
      split_ifs <;> rfl

/-- The loads of a turn's checks stay inside the packet. -/
theorem readNameLoop_turn (p out : Bytes) (outcap fuel hops cur o : Nat) (next : Option Nat) :
    readNameLoop p outcap (fuel + 1) hops cur o out next =
      match turn p outcap hops cur o with
      | .fail => .done none
      | .jump ptr => readNameLoop p outcap fuel (hops + 1) ptr o out (some (next.getD (cur + 2)))
      | .root => (store out o 0).bind fun out => .done (some ⟨out, o, next.getD (cur + 1)⟩)
      | .label l => (writeLabel p l (cur + 1) o out).bind fun q =>
          readNameLoop p outcap fuel hops (cur + 1 + l) q.1 q.2 next := by
  rw [readNameLoop, turn]
  by_cases hcur : p.length ≤ cur
  · rw [if_pos hcur, List.getElem?_eq_none hcur]
  rw [if_neg hcur, load_eq (not_le.1 hcur), List.getElem?_eq_getElem (not_le.1 hcur)]
  generalize p[cur] = b
  dsimp only [Checked.bind]
  by_cases htag : b &&& 0xC0 = 0xC0
  · rw [if_pos htag, if_pos htag]
    by_cases hend : p.length ≤ cur + 1
    · rw [if_pos hend, List.getElem?_eq_none hend]
    · rw [if_neg hend, load_eq (not_le.1 hend), List.getElem?_eq_getElem (not_le.1 hend)]
      dsimp only
      split_ifs <;> rfl
  · rw [if_neg htag, if_neg htag]
    split_ifs <;> rfl

/-- A name was written: it ends with a NUL inside the buffer, which has kept its size. -/
structure NulTerminated (outcap : Nat) (q : NameRead) : Prop where
  size : q.out.length = outcap
  inside : q.o < outcap
  nul : q.out[q.o]? = some 0

def NameRead.text (q : NameRead) : Bytes × Nat := (q.out.take q.o, q.next)

/-- **The loop of `read_name`.** With room in the fuel for every label that fits and every hop, it ends without a
fault. With the resolver's buffer size it does what `readLoop` says. -/
theorem readNameLoop_ensures (p : Bytes) (outcap : Nat) : ∀ {fuel hops cur o : Nat} {out : Bytes} {next : Option Nat},
    out.length = outcap → hops ≤ 8 → outcap - o + (9 - hops) ≤ fuel →
    Ensures (readNameLoop p outcap fuel hops cur o out next) fun r =>
      (∀ q ∈ r, NulTerminated outcap q) ∧
        (outcap = dnsMaxName → o ≤ outcap → readLoop p fuel hops cur (out.take o) next = r.map NameRead.text) := by
  intro fuel
  induction fuel with
  | zero =>
    intro hops cur o out next _ hhops hfuel
    omega
  | succ fuel ih =>
    intro hops cur o out next hout hhops hfuel
    have hguard := turn_guarded p outcap hops cur o
    generalize hturn : turn p outcap hops cur o = t at hguard
    -- both loops take the same turn
    have hsame : outcap = dnsMaxName → o ≤ outcap → turn p dnsMaxName hops cur (out.take o).length = t := by
      intro hcap ho
      rw [← hcap, List.length_take_of_le (hout ▸ ho), hturn]
    rw [readNameLoop_turn, hturn]
    cases t with
    | fail =>
      refine ensures_done ⟨by simp, fun hcap ho => ?_⟩
      rw [readLoop_turn, hsame hcap ho]
      rfl
    | jump ptr =>
      have hhop : hops < 8 := hguard
      refine (ih hout hhop (by omega)).mono fun r hr => ⟨hr.1, fun hcap ho => ?_⟩
      rw [readLoop_turn, hsame hcap ho]
      exact hr.2 hcap ho
    | root =>
      have hroom : o < out.length := hout ▸ hguard
      refine (ensures_store 0 hroom).bind fun out' hout' => ensures_done ⟨?_, fun hcap ho => ?_⟩
      · rintro q ⟨⟩
        refine ⟨by rw [hout', List.length_set, hout], hguard, ?_⟩
        rw [hout', List.getElem?_set_self hroom]
      · rw [readLoop_turn, hsame hcap ho, hout', Option.map_some, NameRead.text, List.take_set_of_le (le_refl o)]
    | label l =>
      -- the buffer has room for the dot, the bytes of the label and a NUL
      obtain ⟨hpos, hin, hfits⟩ := hguard
      refine (writeLabel_ensures hpos hin (hout ▸ hfits)).bind fun q hq => ?_
      obtain ⟨hlen, hmore, hle, hadd⟩ := hq
      refine (ih (hlen.trans hout) hhops (by omega)).mono fun r hr => ⟨hr.1, fun hcap ho => ?_⟩
      rw [readLoop_turn, hsame hcap ho, ← hr.2 hcap (hout ▸ hle), hadd]

/-! ## Longer packets -/

theorem Taken.append {pkt owner : Bytes} {dnsid : Nat} {r : Rr} (h : Taken pkt owner dnsid r) (x : Bytes) :
    Taken (pkt ++ x) owner dnsid r := by
  obtain ⟨qs, before, hresp, hread, hfound⟩ := h.first
  refine ⟨?_, h.fits, qs, before, hresp.append x, hread, hfound⟩
  rw [be16At_append pkt x (by have := hresp.header; omega)]
  exact h.id

/-- **A hostile packet does no harm, and a cut one no good.** For every packet, offset and buffer, `read_name` ends,
loads only bytes of the packet and stores only into the buffer, and on success the buffer holds a NUL; with the
resolver's 256 bytes it is the `readName` of the model. And a response that is understood from its first bytes alone
gives the same port when the rest of it is there too. -/
theorem readName_safe_and_monotone :
    (∀ (p : Bytes) (off : Nat) (out : Bytes), ∃ r, readNameC p off out = .done r ∧
      (∀ q ∈ r, NulTerminated out.length q) ∧
      (out.length = dnsMaxName → readName p off = r.map NameRead.text)) ∧
    ∀ (pkt rest owner : Bytes) (dnsid port : Nat), dacpSrvParseResponse pkt owner dnsid = some port →
      dacpSrvParseResponse (pkt ++ rest) owner dnsid = some port := by
  constructor
  · intro p off out
    obtain ⟨r, hr, hnul, hsame⟩ := @readNameLoop_ensures p out.length (out.length + 9) 0 off 0 out none rfl (by omega)
      (by omega)
    refine ⟨r, hr, hnul, fun hcap => ?_⟩
    rw [← hsame hcap (Nat.zero_le _), List.take_zero, readName, hcap]
  · intro pkt rest owner dnsid port h
    obtain ⟨r, htaken, hport⟩ := dacpSrvParseResponse_eq_some_iff.1 h
    exact dacpSrvParseResponse_eq_some_iff.2 ⟨r, htaken.append rest, hport⟩

end ShairKindle
