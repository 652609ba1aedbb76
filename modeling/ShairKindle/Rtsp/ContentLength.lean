import ShairKindle.Rtsp.Msg

/-!
# Which Content-Length frames a message

A message ends where its Content-Length says. `rtsp_msg_parse` is careful never to drop that header
(the comment at rtsp_msg.c:62-65), but it finds the request line by searching the whole header block
for two spaces (rtsp_msg.c:50-52) and starts the header loop behind the line that holds the second
one. When the first line has fewer than two spaces, the lines in between are swallowed by method and
URI, a Content-Length among them. `content_length_framed_iff` says that this is the only way to lose
it.
-/

namespace ShairKindle

open Bytes

/-- The line's name, the bytes before its first colon, is Content-Length. -/
def isContentLength (line : Bytes) : Bool :=
  match memchr 58 line with
  | none => false
  | some (name, _) => ciEq name (ascii "Content-Length")

/-- The number after the line's colon. -/
def lineNumber (line : Bytes) : Option Nat :=
  match memchr 58 line with
  | none => none
  | some (_, v) => decimal (hdrValue v)

/-- The number of the last Content-Length line, `d` without one. -/
def lastLength (d : Nat) (ls : List Bytes) : Option Nat :=
  match (ls.filter isContentLength).getLast? with
  | none => some d
  | some line => lineNumber line

/-- The body length a header block declares in the lines after its first. -/
def declaredLength (block : Bytes) : Option Nat := lastLength 0 (lines block).tail

/-- Line feeds in front of the block's second space: lines the request-line search runs past. -/
def requestBreaks (block : Bytes) : Nat :=
  match memchr 32 block with
  | none => 0
  | some (method, r) =>
    match memchr 32 r with
    | none => 0
    | some (uri, _) => method.count 10 + uri.count 10

/-- Lines after the first up to the one with the second space. -/
def swallowedLines (block : Bytes) : List Bytes := ((lines block).take (requestBreaks block + 1)).tail

/-- Lines behind the one with the second space. -/
def headerLines (block : Bytes) : List Bytes := (lines block).drop (requestBreaks block + 1)

/-- The declared length is not lost: a Content-Length line follows the line with the second space,
or what is swallowed in front of it declares no body. -/
def ContentLengthSeen (block : Bytes) : Prop :=
  (headerLines block).any isContentLength = true ∨ lastLength 0 (swallowedLines block) = some 0

/-! ## The header loop keeps the last length -/

theorem lastLength_nil (d : Nat) : lastLength d [] = some d := rfl

theorem lastLength_cons_other {d : Nat} {line : Bytes} (ls : List Bytes) (h : isContentLength line = false) :
    lastLength d (line :: ls) = lastLength d ls := by
  simp [lastLength, h]

theorem lastLength_cons_self {d n : Nat} {line : Bytes} (ls : List Bytes) (h : isContentLength line = true)
    (hn : lineNumber line = some n) : lastLength d (line :: ls) = lastLength n ls := by
  simp only [lastLength, List.filter_cons, h, if_true, List.getLast?_cons]
  cases (ls.filter isContentLength).getLast? with
  | none => simpa using hn
  | some l => rfl

theorem lastLength_of_none {d : Nat} {ls : List Bytes} (h : ls.any isContentLength = false) :
    lastLength d ls = some d := by
  have hf : ls.filter isContentLength = [] := by
    rw [List.filter_eq_nil_iff]
    intro l hl
    simpa using List.any_eq_false.1 h l hl
  simp [lastLength, hf]

theorem lastLength_append_of_any {d e : Nat} {as bs : List Bytes} (h : bs.any isContentLength = true) :
    lastLength d (as ++ bs) = lastLength e bs := by
  obtain ⟨l, hl, hc⟩ := List.any_eq_true.1 h
  have hne : bs.filter isContentLength ≠ [] := List.ne_nil_of_mem (List.mem_filter.2 ⟨hl, hc⟩)
  simp only [lastLength, List.filter_append, List.getLast?_append_of_ne_nil _ hne]
  obtain ⟨x, hx⟩ := Option.ne_none_iff_exists'.1 (fun h => hne (List.getLast?_eq_none_iff.1 h))
  rw [hx]

theorem lastLength_append_of_none {d : Nat} {as bs : List Bytes} (h : bs.any isContentLength = false) :
    lastLength d (as ++ bs) = lastLength d as := by
  have hf : bs.filter isContentLength = [] := by
    rw [List.filter_eq_nil_iff]
    intro l hl
    simpa using List.any_eq_false.1 h l hl
  simp [lastLength, hf]

/-- One accepted header line: a Content-Length sets the body length, any other line keeps it. -/
theorem hdrLine_bodyLen {longMax : Nat} {m m' : RtspMsg} {line : Bytes}
    (h : hdrLine longMax m line = some m') (ls : List Bytes) :
    lastLength m.bodyLen (line :: ls) = lastLength m'.bodyLen ls := by
  cases hc : memchr 58 line with
  | none =>
    have hcl : isContentLength line = false := by simp [isContentLength, hc]
    simp only [hdrLine, hc, Option.some.injEq] at h
    rw [lastLength_cons_other ls hcl, h]
  | some r =>
    obtain ⟨name, v⟩ := r
    have hcl : isContentLength line = ciEq name (ascii "Content-Length") := by simp [isContentLength, hc]
    simp only [hdrLine, hc] at h
    split at h
    · cases h
    · split at h
      · -- the name is CSeq
        rename_i hcs
        have hne : isContentLength line = false := by
          rw [hcl]
          by_contra hn
          simp only [ciEq, beq_iff_eq, Bool.not_eq_false] at hcs hn
          exact absurd (hcs.symm.trans hn) (by decide)
        rw [lastLength_cons_other ls hne]
        split at h <;> · obtain rfl := Option.some.inj h; rfl
      · split at h
        · rename_i hl
          split at h
          · rename_i n hp
            obtain rfl := Option.some.inj h
            exact lastLength_cons_self ls (hcl.trans hl)
              (by simp only [lineNumber, hc]; exact parseNonnegLong_eq_some hp)
          · cases h
        · rename_i hl
          obtain rfl := Option.some.inj h
          exact lastLength_cons_other ls (by rw [hcl]; simpa using hl)

/-- The header loop ends with the length of the last Content-Length line it walked. -/
theorem foldlM_hdrLine_bodyLen {longMax : Nat} : ∀ {ls : List Bytes} {m m' : RtspMsg},
    ls.foldlM (hdrLine longMax) m = some m' → lastLength m.bodyLen ls = some m'.bodyLen
  | [], m, m', h => by
    simp only [List.foldlM_nil, Option.pure_def, Option.some.injEq] at h
    rw [lastLength_nil, h]
  | line :: ls, m, m', h => by
    simp only [List.foldlM_cons, Option.bind_eq_bind, Option.bind_eq_some_iff] at h
    obtain ⟨m₁, h₁, h₂⟩ := h
    rw [hdrLine_bodyLen h₁, foldlM_hdrLine_bodyLen h₂]

/-! ## Where the loop starts and stops -/

/-- What is left of a header block behind a line feed that follows a space: at least the final CR LF,
and a line feed in front of that unless it is all that is left. -/
theorem block_tail {b a₀ x p : Bytes} (hx : 10 ∉ x) (h : a₀ ++ 32 :: x ++ 10 :: p = b ++ [13, 10, 13, 10]) :
    p = [13, 10] ∨ ∃ q, p = q ++ 10 :: [13, 10] := by
  obtain ⟨c, rfl, hc⟩ | ⟨c, ha, hc⟩ := List.append_eq_append_iff.1 h
  · cases c with
    | nil => simp at hc
    | cons z c => exact .inr ⟨c ++ [13], by simp only [List.cons_append, List.cons.injEq] at hc; simp [hc.2]⟩
  · match c, hc with
    | [_], hc => simp at hc; exact .inl hc.2.symm
    | [_, _, _], hc =>
      -- the line feed would be the block's last byte, with another one between the space and it
      simp only [List.cons_append, List.nil_append, List.cons.injEq] at hc
      obtain ⟨rfl, rfl, rfl, -, -⟩ := hc
      exfalso
      have hrev := congrArg List.reverse ha
      simp only [List.reverse_append, List.reverse_cons, List.append_assoc, List.reverse_nil, List.nil_append,
        List.cons_append] at hrev
      have hx' : 10 ∉ x.reverse := by simpa using hx
      match hr : x.reverse, hrev, hx' with
      | [], hrev, _ => simp at hrev
      | [_], hrev, _ => simp at hrev
      | _ :: y :: _, hrev, hx' =>
        simp only [List.cons_append, List.cons.injEq] at hrev
        exact hx' (by simp [hrev.2.1])
    | [], hc => simp at hc
    | [_, _], hc => simp at hc
    | _ :: _ :: _ :: _ :: _, hc => simp at hc

/-- The lines the loop walks are those left of the block, but for its empty last line. -/
theorem lastLength_loop {p : Bytes} (hp : p = [13, 10] ∨ ∃ q, p = q ++ 10 :: [13, 10]) (d : Nat) :
    lastLength d (lines (p.take (p.length - 2))) = lastLength d (lines p) := by
  have hcr : ([[13]] : List Bytes).any isContentLength = false := by decide
  have hl : lines [13, 10] = [[13]] := by decide
  obtain rfl | ⟨q, rfl⟩ := hp
  · simp [lines, lastLength, isContentLength, memchr]
  · have htake : (q ++ 10 :: [13, 10]).take ((q ++ 10 :: [13, 10]).length - 2) = q ++ [10] := by
      have : (q ++ 10 :: [13, 10]).length - 2 = (q ++ [10]).length := by simp
      rw [this, show q ++ 10 :: [13, 10] = (q ++ [10]) ++ [13, 10] by simp, List.take_left]
    rw [htake, lines_append q [13, 10], hl]
    exact (lastLength_append_of_none hcr).symm

/-- The parts of a header block that parses, and the loop over the last of them. -/
theorem parseHead_eq_some {longMax : Nat} {block : Bytes} {m : RtspMsg} (h : parseHead longMax block = some m) :
    ∃ method uri x p, block = method ++ 32 :: uri ++ 32 :: x ++ 10 :: p ∧
      memchr 32 block = some (method, uri ++ 32 :: x ++ 10 :: p) ∧
      memchr 32 (uri ++ 32 :: x ++ 10 :: p) = some (uri, x ++ 10 :: p) ∧ 10 ∉ x ∧
      (lines (p.take (p.length - 2))).foldlM (hdrLine longMax) ⟨method, uri, [], none, 0, -1⟩ = some m := by
  simp only [parseHead] at h
  split at h
  · cases h
  · rename_i method r₁ h₁
    split at h
    · cases h
    · rename_i uri r₂ h₂
      split at h
      · cases h
      · rename_i x p h₃
        obtain ⟨e₁, -⟩ := memchr_eq_some_iff.1 h₁
        obtain ⟨e₂, -⟩ := memchr_eq_some_iff.1 h₂
        obtain ⟨e₃, hx⟩ := memchr_eq_some_iff.1 h₃
        subst e₃
        have e₂' : r₁ = uri ++ 32 :: x ++ 10 :: p := by rw [e₂]; simp
        subst e₂'
        exact ⟨method, uri, x, p, by rw [e₁]; simp, h₁, h₂, hx, h⟩

/-- The lines of a parsed block: the first, the swallowed ones, and those the loop walks. -/
theorem lines_of_parts {block method uri x p : Bytes} (hb : block = method ++ 32 :: uri ++ 32 :: x ++ 10 :: p)
    (h₁ : memchr 32 block = some (method, uri ++ 32 :: x ++ 10 :: p))
    (h₂ : memchr 32 (uri ++ 32 :: x ++ 10 :: p) = some (uri, x ++ 10 :: p)) (hx : 10 ∉ x) :
    headerLines block = lines p ∧ (lines block).tail = swallowedLines block ++ headerLines block := by
  have hk : requestBreaks block = method.count 10 + uri.count 10 := by simp only [requestBreaks, h₁, h₂]
  have hlines : lines block = lines (method ++ 32 :: uri ++ 32 :: x ++ [10]) ++ lines p := by
    rw [hb, lines_append]
  have hlen : (lines (method ++ 32 :: uri ++ 32 :: x ++ [10])).length = requestBreaks block + 1 := by
    rw [length_lines, hk]
    simp [List.count_append, List.count_eq_zero.2 hx]
  have hdrop : headerLines block = lines p := by rw [headerLines, hlines, ← hlen, List.drop_left]
  refine ⟨hdrop, ?_⟩
  rw [hdrop, swallowedLines, hlines, ← hlen, List.take_left, List.tail_append_of_ne_nil]
  intro he
  rw [he] at hlen
  cases hlen

/-- **Exactly when the declared Content-Length frames the message.** For every buffer that parses as a
complete message with header block `buf[0..n)`: `consumed` is the block plus the number of the last
Content-Length line after the block's first line (nothing without one) iff a Content-Length line
follows the line that holds the block's second space, or the lines between the first and that one
declare no body. -/
theorem content_length_framed_iff (longMax : Nat) (buf : Bytes) (n : Nat) (m : RtspMsg) (consumed : Nat)
    (hn : hdrsEnd buf = some n) (h : rtspMsgParse longMax buf = .complete m consumed) :
    (∃ len, declaredLength (buf.take n) = some len ∧ consumed = n + len) ↔ ContentLengthSeen (buf.take n) := by
  obtain ⟨n', m', hn', hm, -, -, rfl⟩ := rtspMsgParse_eq_complete h
  rw [hn] at hn'
  obtain rfl := Option.some.inj hn'
  obtain ⟨b, hblock⟩ := (hdrsEnd_eq_some hn).2.2
  obtain ⟨method, uri, x, p, hb, h₁, h₂, hx, hfold⟩ := parseHead_eq_some hm
  obtain ⟨hhdr, htail⟩ := lines_of_parts hb h₁ h₂ hx
  have hloop := lastLength_loop (block_tail hx (hb.symm.trans hblock)) 0
  have hlen : lastLength 0 (headerLines (buf.take n)) = some m'.bodyLen := by
    rw [hhdr, ← hloop]
    exact foldlM_hdrLine_bodyLen hfold
  rw [declaredLength, htail, ContentLengthSeen]
  cases hany : (headerLines (buf.take n)).any isContentLength with
  | true =>
    rw [lastLength_append_of_any hany, hlen]
    simp
  | false =>
    -- the loop saw no length, so the message was framed without a body
    rw [lastLength_of_none hany] at hlen
    rw [lastLength_append_of_none hany, ← Option.some.inj hlen]
    simp

/-- The ANNOUNCE shape: the request line is whole and its Content-Length counts. -/
theorem content_length_framed_iff_announce :
    ∃ len, declaredLength ((ascii "A * R\r\nContent-Length: 2\r\n\r\nhi").take 28) = some len ∧ 30 = 28 + len :=
  (content_length_framed_iff (2 ^ 31 - 1) (ascii "A * R\r\nContent-Length: 2\r\n\r\nhi") 28
    ⟨ascii "A", ascii "*", [⟨ascii "Content-Length", ascii "2"⟩], some (ascii "hi"), 2, -1⟩ 30
    (by decide +kernel) (by decide +kernel)).2 (.inl (by decide +kernel))

/-- A first line without spaces swallows the Content-Length line: the five declared bytes are left in
the stream to be read as the next request. -/
theorem swallowed_content_length_lost :
    rtspMsgParse (2 ^ 31 - 1) (ascii "X\r\nContent-Length: 5\r\nA: b\r\n\r\nhello") =
      .complete ⟨ascii "X\r\nContent-Length:", ascii "5\r\nA:", [], none, 0, -1⟩ 30 ∧
    hdrsEnd (ascii "X\r\nContent-Length: 5\r\nA: b\r\n\r\nhello") = some 30 ∧
    declaredLength ((ascii "X\r\nContent-Length: 5\r\nA: b\r\n\r\nhello").take 30) = some 5 := by
  decide +kernel

end ShairKindle
