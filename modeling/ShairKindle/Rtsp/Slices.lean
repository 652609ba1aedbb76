import ShairKindle.Rtsp.ContentLength

/-!
# Where the slices of a message lie (src/rtsp_msg.c)

`rtsp_msg_parse` hands out pointers into the buffer: method, URI, header names and values. All are found by
`memchr` over untrusted bytes. Here each of them is located in the header block (`RtspMsg.Inside`), the header
table is bounded, and the length that frames the body is tied to the Content-Length header the message carries
(`HeadInv`, kept by every header line). The second half redoes `parse_nonneg_long` in a signed `long` of `w`
bits with every operation checked: no text gets past its guard into an overflow (`parseNonnegLongW_eq`).
-/

namespace ShairKindle

open Bytes

/-! ## Lines and values -/

theorem lines_eq_cons {q l : Bytes} {ls : List Bytes} (h : lines q = l :: ls) : ∃ b, q = l ++ 10 :: b ∧ ls = lines b := by
  induction q generalizing l ls with
  | nil => simp [lines] at h
  | cons x q ih =>
    simp only [lines] at h
    split at h
    · next hx =>
      obtain ⟨rfl, rfl⟩ := List.cons.inj h
      exact ⟨q, by rw [hx, List.nil_append], rfl⟩
    · split at h
      · cases h
      · next l' ls' hq =>
        obtain ⟨rfl, rfl⟩ := List.cons.inj h
        obtain ⟨b, rfl, rfl⟩ := ih hq
        exact ⟨b, rfl, rfl⟩

/-- A line stands in the text with its line feed. -/
theorem mem_lines {q l : Bytes} (h : l ∈ lines q) : ∃ a b, q = a ++ l ++ 10 :: b := by
  generalize hls : lines q = ls at h
  induction ls generalizing q with
  | nil => cases h
  | cons l' ls ih =>
    obtain ⟨b, rfl, rfl⟩ := lines_eq_cons hls
    rcases List.mem_cons.1 h with rfl | h
    · exact ⟨[], b, rfl⟩
    · obtain ⟨a', b', hb⟩ := ih rfl h
      exact ⟨l' ++ 10 :: a', b', by rw [hb]; simp⟩

/-- A header value is a slice of what follows the colon. -/
theorem hdrValue_slice (v : Bytes) : ∃ skip cr, v = skip ++ hdrValue v ++ cr := by
  have hsplit := List.takeWhile_append_dropWhile (p := fun c => c == 32 || c == 9) (l := v)
  simp only [hdrValue]
  split
  · next hlast =>
    obtain ⟨w, hw⟩ := List.getLast?_eq_some_iff.1 hlast
    refine ⟨v.takeWhile fun c => c == 32 || c == 9, [13], ?_⟩
    rw [hw, List.dropLast_concat, List.append_assoc, ← hw, hsplit]
  · exact ⟨_, [], by rw [List.append_nil, hsplit]⟩

/-! ## The header loop -/

/-- A header with its name, colon, value and line feed in the block. -/
def HdrInside (block : Bytes) (h : RtspHdr) : Prop :=
  ∃ a skip cr b, block = a ++ h.name ++ 58 :: (skip ++ h.val ++ cr) ++ 10 :: b

/-- The length that the last Content-Length header declares, 0 without one. -/
def hdrLength (hs : List RtspHdr) : Option Nat :=
  match (hs.filter fun h => ciEq h.name (ascii "Content-Length")).getLast? with
  | none => some 0
  | some h => decimal h.val

theorem hdrLength_concat (hs : List RtspHdr) (h : RtspHdr) :
    hdrLength (hs ++ [h]) = if ciEq h.name (ascii "Content-Length") then decimal h.val else hdrLength hs := by
  by_cases hc : ciEq h.name (ascii "Content-Length") = true
  · simp [hdrLength, List.filter_append, hc]
  · simp [hdrLength, List.filter_append, hc]

theorem parseNonnegLong_le {longMax n : Nat} {s : Bytes} (h9 : 9 ≤ longMax) (h : parseNonnegLong longMax s = some n) : n ≤ longMax := by
  have hfold : ∀ {s : Bytes} {v : Nat}, v ≤ longMax → s.foldlM (pushDigit longMax) v = some n → n ≤ longMax := by
    intro s
    induction s with
    | nil =>
      intro v hv h
      obtain rfl := Option.some.inj h
      exact hv
    | cons c s ih =>
      intro v hv h
      rw [List.foldlM_cons] at h
      obtain ⟨u, hu, h⟩ := Option.bind_eq_some_iff.1 h
      refine ih ?_ h
      simp only [pushDigit] at hu
      split_ifs at hu with hd hroom
      obtain rfl := Option.some.inj hu
      simp only [Bool.not_eq_true, isDigit, Bool.not_eq_false', Bool.and_eq_true, decide_eq_true_eq,
        UInt8.le_iff_toNat_le] at hd
      have hhi : c.toNat ≤ 57 := hd.2
      omega
  simp only [parseNonnegLong] at h
  split at h
  · cases h
  · exact hfold (Nat.zero_le _) h

/-- What one header line does: nothing without a colon; else it takes a free slot of the table, and sets the body
length if it is a Content-Length. -/
theorem hdrLine_eq_some {longMax : Nat} {m m' : RtspMsg} {line : Bytes} (h : hdrLine longMax m line = some m') :
    m' = m ∨ ∃ name v, line = name ++ 58 :: v ∧ m.hdr.length < rtspMaxHdrs ∧ m'.method = m.method ∧ m'.uri = m.uri ∧
      m'.body = m.body ∧ m'.hdr = m.hdr ++ [⟨name, hdrValue v⟩] ∧
      (ciEq name (ascii "Content-Length") = true ∧ parseNonnegLong longMax (hdrValue v) = some m'.bodyLen ∨
        ciEq name (ascii "Content-Length") = false ∧ m'.bodyLen = m.bodyLen) := by
  cases hc : memchr 58 line with
  | none =>
    simp only [hdrLine, hc] at h
    exact .inl (Option.some.inj h).symm
  | some r =>
    obtain ⟨name, v⟩ := r
    right
    simp only [hdrLine, hc] at h
    refine ⟨name, v, (memchr_eq_some_iff.1 hc).1, ?_⟩
    by_cases hfull : rtspMaxHdrs ≤ m.hdr.length
    · rw [if_pos hfull] at h
      cases h
    rw [if_neg hfull] at h
    refine ⟨not_le.1 hfull, ?_⟩
    by_cases hcs : ciEq name (ascii "CSeq") = true
    · have hne : ciEq name (ascii "Content-Length") = false := by
        by_contra hn
        simp only [ciEq, beq_iff_eq, Bool.not_eq_false] at hcs hn
        exact absurd (hcs.symm.trans hn) (by decide)
      rw [if_pos hcs] at h
      split at h
      · obtain rfl := Option.some.inj h
        exact ⟨rfl, rfl, rfl, rfl, .inr ⟨hne, rfl⟩⟩
      · obtain rfl := Option.some.inj h
        exact ⟨rfl, rfl, rfl, rfl, .inr ⟨hne, rfl⟩⟩
    rw [if_neg hcs] at h
    by_cases hcl : ciEq name (ascii "Content-Length") = true
    · rw [if_pos hcl] at h
      split at h
      · next n hn =>
        obtain rfl := Option.some.inj h
        exact ⟨rfl, rfl, rfl, rfl, .inl ⟨hcl, hn⟩⟩
      · cases h
    · rw [if_neg hcl] at h
      obtain rfl := Option.some.inj h
      exact ⟨rfl, rfl, rfl, rfl, .inr ⟨by simpa using hcl, rfl⟩⟩

/-- The message while the headers of `block` are read. -/
structure HeadInv (longMax : Nat) (block : Bytes) (m : RtspMsg) : Prop where
  hdr_le : m.hdr.length ≤ rtspMaxHdrs
  inside : ∀ h ∈ m.hdr, HdrInside block h
  length : hdrLength m.hdr = some m.bodyLen
  bodyLen_le : 9 ≤ longMax → m.bodyLen ≤ longMax

/-- One line. -/
theorem HeadInv.hdrLine {longMax : Nat} {block line : Bytes} {m m' : RtspMsg} (hi : HeadInv longMax block m)
    (hline : ∃ a b, block = a ++ line ++ 10 :: b) (h : hdrLine longMax m line = some m') : HeadInv longMax block m' := by
  rcases hdrLine_eq_some h with rfl | ⟨name, v, rfl, hfree, -, -, -, hhdr, hlen⟩
  · exact hi
  obtain ⟨a, b, rfl⟩ := hline
  obtain ⟨skip, cr, hv⟩ := hdrValue_slice v
  refine ⟨?_, ?_, ?_, ?_⟩
  · rw [hhdr, List.length_append, List.length_singleton]
    exact hfree
  · intro h hh
    rw [hhdr] at hh
    rcases List.mem_append.1 hh with hh | hh
    · exact hi.inside h hh
    · rw [List.mem_singleton.1 hh]
      exact ⟨a, skip, cr, b, by rw [← hv]; simp⟩
  · rw [hhdr, hdrLength_concat]
    rcases hlen with ⟨hcl, hn⟩ | ⟨hcl, hn⟩
    · rw [if_pos hcl, parseNonnegLong_eq_some hn]
    · rw [if_neg (by simp [hcl]), hn, hi.length]
  · intro h9
    rcases hlen with ⟨-, hn⟩ | ⟨-, hn⟩
    · exact parseNonnegLong_le h9 hn
    · rw [hn]
      exact hi.bodyLen_le h9

/-- All of them. -/
theorem HeadInv.foldlM {longMax : Nat} {block : Bytes} {ls : List Bytes} {m m' : RtspMsg} (hi : HeadInv longMax block m)
    (hls : ∀ l ∈ ls, ∃ a b, block = a ++ l ++ 10 :: b) (h : ls.foldlM (ShairKindle.hdrLine longMax) m = some m') :
    HeadInv longMax block m' ∧ m'.method = m.method ∧ m'.uri = m.uri := by
  induction ls generalizing m with
  | nil =>
    obtain rfl := Option.some.inj h
    exact ⟨hi, rfl, rfl⟩
  | cons l ls ih =>
    rw [List.foldlM_cons] at h
    obtain ⟨m₁, h₁, h⟩ := Option.bind_eq_some_iff.1 h
    obtain ⟨hinv, hmethod, huri⟩ := ih (hi.hdrLine (hls l (by simp)) h₁) (fun k hk => hls k (by simp [hk])) h
    rcases hdrLine_eq_some h₁ with rfl | ⟨-, -, -, -, hm, hu, -⟩
    · exact ⟨hinv, hmethod, huri⟩
    · exact ⟨hinv, hmethod.trans hm, huri.trans hu⟩

/-- Method and URI at the start of the block, the headers behind them. -/
structure RtspMsg.Inside (block : Bytes) (m : RtspMsg) : Prop where
  request : ∃ rest, block = m.method ++ 32 :: m.uri ++ 32 :: rest
  headers : ∀ h ∈ m.hdr, HdrInside block h

/-- **A parsed header block.** -/
theorem parseHead_inside {longMax : Nat} {block : Bytes} {m : RtspMsg} (h : parseHead longMax block = some m) :
    m.Inside block ∧ HeadInv longMax block m := by
  obtain ⟨method, uri, x, p, hb, -, -, -, hfold⟩ := parseHead_eq_some h
  have hinit : HeadInv longMax block ⟨method, uri, [], none, 0, -1⟩ :=
    ⟨Nat.zero_le _, by simp, rfl, fun _ => Nat.zero_le _⟩
  obtain ⟨hinv, hmethod, huri⟩ := hinit.foldlM (fun l hl => by
    obtain ⟨a, b, hab⟩ := mem_lines hl
    refine ⟨method ++ 32 :: uri ++ 32 :: x ++ 10 :: a, b ++ p.drop (p.length - 2), ?_⟩
    rw [hb]
    nth_rewrite 1 [← List.take_append_drop (p.length - 2) p]
    rw [hab]
    simp) hfold
  refine ⟨⟨⟨x ++ 10 :: p, ?_⟩, hinv.inside⟩, hinv⟩
  rw [hmethod, huri, hb]
  simp

/-- **A complete message.** -/
theorem rtspMsgParse_complete {longMax k : Nat} {buf : Bytes} {m : RtspMsg} (h : rtspMsgParse longMax buf = .complete m k) :
    ∃ n, hdrsEnd buf = some n ∧ m.Inside (buf.take n) ∧ HeadInv longMax (buf.take n) m ∧
      m.body = (if 0 < m.bodyLen then some ((buf.drop n).take m.bodyLen) else none) ∧
      ((buf.drop n).take m.bodyLen).length = m.bodyLen ∧ k = n + m.bodyLen := by
  obtain ⟨n, m', hn, hm, hle, rfl, rfl⟩ := rtspMsgParse_eq_complete h
  obtain ⟨hin, hinv⟩ := parseHead_inside hm
  refine ⟨n, hn, ⟨hin.request, hin.headers⟩, ⟨hinv.hdr_le, hinv.inside, hinv.length, hinv.bodyLen_le⟩, rfl, ?_, rfl⟩
  simp only [List.length_take, List.length_drop]
  omega

/-! ## The lengths in a `long` of `w` bits -/

/-- The result of a signed operation, `none` if it overflows. -/
def checkLong (w : Nat) (x : Int) : Option Int := if -2 ^ (w - 1) ≤ x ∧ x < 2 ^ (w - 1) then some x else none

/-- The loop of `parse_nonneg_long` (rtsp_msg.c:24-30), every operation checked. The outer `none` is an overflow,
the inner one the return value -1. -/
def parseNonnegLongFrom (w : Nat) : Bytes → Int → Option (Option Int)
  | [], v => some (some v)
  | c :: cs, v =>
    if c < 48 ∨ 57 < c then some none
    else
      (checkLong w (2 ^ (w - 1) - 1 - (c.toNat - 48))).bind fun room =>
        if room.tdiv 10 < v then some none
        else
          (checkLong w (v * 10)).bind fun t =>
            (checkLong w (t + (c.toNat - 48))).bind fun v => parseNonnegLongFrom w cs v

def parseNonnegLongW (w : Nat) (s : Bytes) : Option (Option Int) :=
  if s = [] then some none else parseNonnegLongFrom w s 0

theorem parseNonnegLongFrom_eq {w longMax : Nat} (hmax : longMax + 1 = 2 ^ (w - 1)) (h9 : 9 ≤ longMax) (s : Bytes) (v : Nat) :
    parseNonnegLongFrom w s v = some ((s.foldlM (pushDigit longMax) v).map Int.ofNat) := by
  have hcheck : ∀ {x : Int}, 0 ≤ x → x ≤ longMax → checkLong w x = some x := by
    intro x h0 hx
    have hpow : ((2 : Int) ^ (w - 1)) = longMax + 1 := by exact_mod_cast hmax.symm
    rw [checkLong, if_pos (by rw [hpow]; omega)]
  induction s generalizing v with
  | nil => rfl
  | cons c s ih =>
    have hpow : ((2 : Int) ^ (w - 1)) = longMax + 1 := by exact_mod_cast hmax.symm
    rw [parseNonnegLongFrom, List.foldlM_cons]
    by_cases hd : isDigit c = true
    · have hrange : 48 ≤ c.toNat ∧ c.toNat ≤ 57 := by
        simpa [isDigit, UInt8.le_iff_toNat_le] using hd
      have hno : ¬ (c < 48 ∨ 57 < c) := by
        simp only [UInt8.lt_iff_toNat_lt, not_or, not_lt]
        exact hrange
      have hroom : checkLong w (2 ^ (w - 1) - 1 - ((c.toNat : Int) - 48)) = some (longMax - ((c.toNat : Int) - 48)) := by
        rw [hpow, hcheck (by omega) (by omega)]
        congr 1
        omega
      rw [if_neg hno, hroom, Option.bind_some, Int.tdiv_eq_ediv_of_nonneg (by omega)]
      simp only [pushDigit, hd, Bool.not_true, Bool.false_eq_true, if_false]
      by_cases hover : (longMax - (c.toNat - 48)) / 10 < v
      · rw [if_pos hover, if_pos (by omega)]
        rfl
      · rw [if_neg hover, if_neg (by omega), hcheck (by omega) (by omega), Option.bind_some,
          hcheck (by omega) (by omega), Option.bind_some]
        have hcast : (v : Int) * 10 + (c.toNat - 48) = (v * 10 + (c.toNat - 48) : Nat) := by omega
        rw [hcast, ih]
        rfl
    · have hyes : c < 48 ∨ 57 < c := by
        have : ¬ (48 ≤ c.toNat ∧ c.toNat ≤ 57) := by
          simpa [isDigit, UInt8.le_iff_toNat_le] using hd
        simp only [UInt8.lt_iff_toNat_lt]
        change c.toNat < 48 ∨ 57 < c.toNat
        omega
      rw [if_pos hyes, pushDigit, if_pos (by simp [hd])]
      rfl

/-- **No text overflows.** In a `long` of 32 or 64 bits every operation on every text stays in range, and the result
is that of the exact arithmetic the model uses. -/
theorem parseNonnegLongW_eq {w : Nat} (hw : w = 32 ∨ w = 64) (s : Bytes) :
    parseNonnegLongW w s = some ((parseNonnegLong (2 ^ (w - 1) - 1) s).map Int.ofNat) := by
  have hpow : 2 ^ (w - 1) - 1 + 1 = 2 ^ (w - 1) := Nat.sub_add_cancel Nat.one_le_two_pow
  have h9 : 9 ≤ 2 ^ (w - 1) - 1 := by
    rcases hw with rfl | rfl <;> decide
  simp only [parseNonnegLongW, parseNonnegLong]
  split
  · rfl
  · exact parseNonnegLongFrom_eq hpow h9 s 0

end ShairKindle
