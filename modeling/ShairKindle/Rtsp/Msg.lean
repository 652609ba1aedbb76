import ShairKindle.Lib.Bytes

/-!
# RTSP request framing (src/rtsp_msg.c)

`rtsp_msg_parse` looks for the end of the header block, reads request line and headers inside it and
then compares what is buffered after it with the Content-Length. The pointers of `rtsp_msg_t` into
the buffer are the byte strings they delimit here.

| here | src/rtsp_msg.c |
|---|---|
| `parseNonnegLong` | `parse_nonneg_long` (:21) |
| `hdrsEnd` | the separator search (:42-45) |
| `hdrLine`, `parseHead` | request line and header loop (:47-82) |
| `rtspMsgParse` | `rtsp_msg_parse` (:40) |

`LONG_MAX` is a parameter: the daemon is built for a 32-bit target and tested on 64-bit hosts. What
later modules use is that the result depends on the header block and on how much follows it
(`rtspMsgParse_of_head`), so that more input never changes a decision already made
(`rtspMsgParse_append`).
-/

namespace ShairKindle

open Bytes

/-- `RTSP_MAX_HDRS` (rtsp_msg.h:12). -/
def rtspMaxHdrs : Nat := 24

/-- `rtsp_hdr_t` (rtsp_msg.h:14). -/
structure RtspHdr where
  name : Bytes
  val : Bytes
deriving DecidableEq, Repr

/-- `rtsp_msg_t` (rtsp_msg.h:16). -/
structure RtspMsg where
  method : Bytes
  uri : Bytes
  hdr : List RtspHdr
  body : Option Bytes
  bodyLen : Nat
  cseq : Int
deriving DecidableEq, Repr

/-- The outcomes of `rtsp_msg_parse`. Two of them return 0: without a header block the outputs are
untouched, with one the message is filled in without its body and `consumed` is the block's length. -/
inductive Parsed
  | needHead
  | needBody (m : RtspMsg) (consumed : Nat)
  | malformed
  | complete (m : RtspMsg) (consumed : Nat)
deriving DecidableEq, Repr

/-- `parse_nonneg_long` (rtsp_msg.c:21). -/
def parseNonnegLong (longMax : Nat) (s : Bytes) : Option Nat :=
  if s = [] then none else s.foldlM (pushDigit longMax) 0

/-- A number `parse_nonneg_long` accepts is the decimal value of the text. -/
theorem parseNonnegLong_eq_some {longMax n : Nat} {s : Bytes} (h : parseNonnegLong longMax s = some n) :
    decimal s = some n := by
  simp only [parseNonnegLong] at h
  split at h
  · cases h
  · rename_i hs
    obtain ⟨hall, rfl⟩ := foldlM_pushDigit h
    simp only [decimal, ne_eq, hs, not_false_eq_true, hall, and_self, if_true]
    rfl

/-- The separator search (rtsp_msg.c:43-44): where the header block ends, just past the first empty
line. -/
def hdrsEnd : Bytes → Option Nat
  | [] => none
  | x :: xs => if [13, 10, 13, 10].isPrefixOf (x :: xs) then some 4 else (hdrsEnd xs).map (· + 1)

/-- The value after a header's colon (rtsp_msg.c:67-68): leading blanks skipped, one CR dropped. -/
def hdrValue (v : Bytes) : Bytes :=
  let v := v.dropWhile fun c => c == 32 || c == 9
  if v.getLast? = some 13 then v.dropLast else v

/-- One header line (rtsp_msg.c:59-82). A line without a colon is skipped, a full table or a bad
Content-Length fails the message, a bad CSeq is ignored. `bodyLen` carries `content_len`. -/
def hdrLine (longMax : Nat) (m : RtspMsg) (line : Bytes) : Option RtspMsg :=
  match memchr 58 line with
  | none => some m
  | some (name, v) =>
    if rtspMaxHdrs ≤ m.hdr.length then none
    else
      let h : RtspHdr := ⟨name, hdrValue v⟩
      let m := { m with hdr := m.hdr ++ [h] }
      if ciEq h.name (ascii "CSeq") then
        match parseNonnegLong longMax h.val with
        | some cs => some { m with cseq := cs }
        | none => some m
      else if ciEq h.name (ascii "Content-Length") then
        match parseNonnegLong longMax h.val with
        | some n => some { m with bodyLen := n }
        | none => none
      else some m

/-- Request line and headers of a header block. The two searches for a space run over the whole
block (rtsp_msg.c:50-52). The header loop stops at the block's final CR LF (`p < hdrs_end-2`, :58). -/
def parseHead (longMax : Nat) (block : Bytes) : Option RtspMsg :=
  match memchr 32 block with
  | none => none
  | some (method, r) =>
    match memchr 32 r with
    | none => none
    | some (uri, r) =>
      match memchr 10 r with
      | none => none
      | some (_, p) => (lines (p.take (p.length - 2))).foldlM (hdrLine longMax) ⟨method, uri, [], none, 0, -1⟩

/-- `rtsp_msg_parse` (rtsp_msg.c:40). -/
def rtspMsgParse (longMax : Nat) (buf : Bytes) : Parsed :=
  match hdrsEnd buf with
  | none => .needHead
  | some n =>
    match parseHead longMax (buf.take n) with
    | none => .malformed
    | some m =>
      if buf.length - n < m.bodyLen then .needBody m n
      else
        .complete { m with body := if 0 < m.bodyLen then some ((buf.drop n).take m.bodyLen) else none }
          (n + m.bodyLen)

/-! ## The separator -/

theorem hdrsEnd_eq_some : ∀ {buf : Bytes} {n : Nat}, hdrsEnd buf = some n →
    4 ≤ n ∧ n ≤ buf.length ∧ ∃ a, buf.take n = a ++ [13, 10, 13, 10]
  | [], n, h => by simp [hdrsEnd] at h
  | x :: xs, n, h => by
    simp only [hdrsEnd] at h
    split at h
    · rename_i hp
      obtain ⟨t, ht⟩ := List.isPrefixOf_iff_prefix.1 hp
      obtain rfl := Option.some.inj h
      rw [← ht]
      exact ⟨Nat.le_refl 4, by simp, [], by simp⟩
    · obtain ⟨k, hk, rfl⟩ := Option.map_eq_some_iff.1 h
      obtain ⟨h4, hle, a, ha⟩ := hdrsEnd_eq_some hk
      exact ⟨by omega, by simpa using hle, x :: a, by simp [ha]⟩

/-- More bytes after the header block do not move its end. -/
theorem hdrsEnd_append : ∀ {buf : Bytes} {n : Nat} (b : Bytes), hdrsEnd buf = some n → hdrsEnd (buf ++ b) = some n
  | [], n, b, h => by simp [hdrsEnd] at h
  | x :: xs, n, b, h => by
    simp only [hdrsEnd, List.cons_append] at h ⊢
    by_cases hp : [13, 10, 13, 10].isPrefixOf (x :: xs) = true
    · have hp' : [13, 10, 13, 10].isPrefixOf (x :: (xs ++ b)) = true :=
        List.isPrefixOf_iff_prefix.2 ((List.isPrefixOf_iff_prefix.1 hp).trans
          ⟨b, by simp⟩)
      rw [if_pos hp] at h
      rw [if_pos hp', h]
    · rw [if_neg hp] at h
      obtain ⟨k, hk, rfl⟩ := Option.map_eq_some_iff.1 h
      have hp' : ¬ [13, 10, 13, 10].isPrefixOf (x :: (xs ++ b)) = true := by
        -- the block is at least four bytes long, so the prefix would already be there
        intro hp'
        have hlen := (hdrsEnd_eq_some hk).2.1
        have h4 := (hdrsEnd_eq_some hk).1
        have hpre := List.isPrefixOf_iff_prefix.1 hp'
        have : [13, 10, 13, 10] <+: x :: xs :=
          List.prefix_of_prefix_length_le hpre ⟨b, by simp⟩ (by simp; omega)
        exact hp (List.isPrefixOf_iff_prefix.2 this)
      rw [if_neg hp', hdrsEnd_append b hk]
      rfl

/-! ## Stability -/

theorem rtspMsgParse_of_head {longMax n : Nat} {buf : Bytes} {m : RtspMsg} (hn : hdrsEnd buf = some n)
    (hm : parseHead longMax (buf.take n) = some m) :
    rtspMsgParse longMax buf =
      if buf.length - n < m.bodyLen then .needBody m n
      else
        .complete { m with body := if 0 < m.bodyLen then some ((buf.drop n).take m.bodyLen) else none }
          (n + m.bodyLen) := by
  simp only [rtspMsgParse, hn, hm]

/-- What a buffer parses to, case by case. -/
theorem rtspMsgParse_cases (longMax : Nat) (buf : Bytes) :
    (hdrsEnd buf = none ∧ rtspMsgParse longMax buf = .needHead) ∨
    (∃ n, hdrsEnd buf = some n ∧ parseHead longMax (buf.take n) = none ∧
      rtspMsgParse longMax buf = .malformed) ∨
    (∃ n m, hdrsEnd buf = some n ∧ parseHead longMax (buf.take n) = some m ∧ buf.length < n + m.bodyLen ∧
      rtspMsgParse longMax buf = .needBody m n) ∨
    (∃ n m, hdrsEnd buf = some n ∧ parseHead longMax (buf.take n) = some m ∧ n + m.bodyLen ≤ buf.length ∧
      rtspMsgParse longMax buf =
        .complete { m with body := if 0 < m.bodyLen then some ((buf.drop n).take m.bodyLen) else none }
          (n + m.bodyLen)) := by
  match hn : hdrsEnd buf with
  | none => exact .inl ⟨rfl, by simp only [rtspMsgParse, hn]⟩
  | some n =>
    obtain ⟨_, hle, _⟩ := hdrsEnd_eq_some hn
    match hm : parseHead longMax (buf.take n) with
    | none => exact .inr (.inl ⟨n, rfl, hm, by simp only [rtspMsgParse, hn, hm]⟩)
    | some m =>
      rw [rtspMsgParse_of_head hn hm]
      by_cases hb : buf.length - n < m.bodyLen
      · exact .inr (.inr (.inl ⟨n, m, rfl, hm, by omega, if_pos hb⟩))
      · exact .inr (.inr (.inr ⟨n, m, rfl, hm, by omega, if_neg hb⟩))

/-- A complete message: its head is the header block, and its body the bytes behind it. -/
theorem rtspMsgParse_eq_complete {longMax k : Nat} {buf : Bytes} {m : RtspMsg}
    (h : rtspMsgParse longMax buf = .complete m k) :
    ∃ n m', hdrsEnd buf = some n ∧ parseHead longMax (buf.take n) = some m' ∧ n + m'.bodyLen ≤ buf.length ∧
      m = { m' with body := if 0 < m'.bodyLen then some ((buf.drop n).take m'.bodyLen) else none } ∧
      k = n + m'.bodyLen := by
  obtain ⟨_, he⟩ | ⟨_, _, _, he⟩ | ⟨_, _, _, _, _, he⟩ | ⟨n, m', hn, hm, hle, he⟩ := rtspMsgParse_cases longMax buf
  · rw [he] at h; cases h
  · rw [he] at h; cases h
  · rw [he] at h; cases h
  · rw [he] at h
    obtain ⟨rfl, rfl⟩ := Parsed.complete.inj h
    exact ⟨n, m', hn, hm, hle, rfl, rfl⟩

/-- A message whose body is not there yet is its head. -/
theorem rtspMsgParse_eq_needBody {longMax k : Nat} {buf : Bytes} {m : RtspMsg}
    (h : rtspMsgParse longMax buf = .needBody m k) :
    hdrsEnd buf = some k ∧ parseHead longMax (buf.take k) = some m ∧ buf.length < k + m.bodyLen := by
  obtain ⟨_, he⟩ | ⟨_, _, _, he⟩ | ⟨n, m', hn, hm, hlt, he⟩ | ⟨_, _, _, _, _, he⟩ := rtspMsgParse_cases longMax buf
  · rw [he] at h; cases h
  · rw [he] at h; cases h
  · rw [he] at h
    obtain ⟨rfl, rfl⟩ := Parsed.needBody.inj h
    exact ⟨hn, hm, hlt⟩
  · rw [he] at h; cases h

/-- A complete message takes at least its separator and lies inside the buffer. -/
theorem rtspMsgParse_complete_bounds {longMax k : Nat} {buf : Bytes} {m : RtspMsg}
    (h : rtspMsgParse longMax buf = .complete m k) : 4 ≤ k ∧ k ≤ buf.length := by
  obtain ⟨n, m', hn, -, hle, -, rfl⟩ := rtspMsgParse_eq_complete h
  obtain ⟨h4, _⟩ := hdrsEnd_eq_some hn
  exact ⟨by omega, hle⟩

/-- **More input never changes a decision.** A complete message stays complete and the same, a
malformed one stays malformed. -/
theorem rtspMsgParse_append {longMax : Nat} {buf : Bytes} (b : Bytes) :
    (∀ m k, rtspMsgParse longMax buf = .complete m k → rtspMsgParse longMax (buf ++ b) = .complete m k) ∧
    (rtspMsgParse longMax buf = .malformed → rtspMsgParse longMax (buf ++ b) = .malformed) := by
  obtain ⟨_, he⟩ | ⟨n, hn, hm, he⟩ | ⟨n, m, hn, hm, _, he⟩ | ⟨n, m, hn, hm, hle, he⟩ := rtspMsgParse_cases longMax buf
  · simp [he]
  · obtain ⟨_, hnl, _⟩ := hdrsEnd_eq_some hn
    have htake : (buf ++ b).take n = buf.take n := List.take_append_of_le_length hnl
    refine ⟨by simp [he], fun _ => ?_⟩
    simp only [rtspMsgParse, hdrsEnd_append b hn, htake, hm]
  · simp [he]
  · obtain ⟨_, hnl, _⟩ := hdrsEnd_eq_some hn
    have htake : (buf ++ b).take n = buf.take n := List.take_append_of_le_length hnl
    refine ⟨fun m' k h => ?_, by simp [he]⟩
    rw [← h, he, rtspMsgParse_of_head (hdrsEnd_append b hn) (htake.symm ▸ hm), if_neg (by simp; omega),
      List.drop_append_of_le_length hnl, List.take_append_of_le_length (by simp; omega)]

end ShairKindle
