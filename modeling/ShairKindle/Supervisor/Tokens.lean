import ShairKindle.Supervisor.Lines

/-!
# Which lines are commands (src/supervisor.c:66-104)

A line is collected by its length and then classified as a C string. `linesTaken` keeps, beside the run of
`sup_lb_push`, the bytes that stood in the buffer when an event was returned; so each event has its line.

| here | there |
| --- | --- |
| `Token`, `Token.text`  | the commands `sup_classify_line` compares with (supervisor.c:69) |
| `lineByte`, `linePush` | the loop of `sup_lb_push` with the buffer in place of `sup_classify_line(lb->buf)` |

A line is taken for a command exactly if it is the token with carriage returns after it, up to its first NUL: what
follows a NUL is not looked at.
-/

namespace ShairKindle

open Bytes

/-- The lines that are matched as a whole and steer the player. -/
inductive Token
  | stop | next | prev | playpause
  deriving Repr, DecidableEq

def Token.event : Token → SupEvent
  | .stop => .stop
  | .next => .next
  | .prev => .prev
  | .playpause => .playpause

def Token.text : Token → Bytes
  | .stop => ascii "STOP"
  | .next => ascii "NEXT"
  | .prev => ascii "PREV"
  | .playpause => ascii "PLAYPAUSE"

/-! ## One line -/

theorem rdropWhile_crs (t : Bytes) (k : Nat) :
    (t ++ List.replicate k 13).rdropWhile (fun c => c = 10 || c = 13) = t.rdropWhile fun c => c = 10 || c = 13 := by
  induction k with
  | zero => rw [List.replicate_zero, List.append_nil]
  | succ k ih =>
    rw [List.replicate_succ', ← List.append_assoc, List.rdropWhile_concat_pos _ _ _ (by decide)]
    exact ih

/-- Without line feeds, what is stripped from the end are carriage returns. -/
theorem eq_append_crs {l : Bytes} (hlf : 10 ∉ l) :
    ∃ k, l = (l.rdropWhile fun c => c = 10 || c = 13) ++ List.replicate k 13 := by
  induction l using List.reverseRecOn with
  | nil => exact ⟨0, rfl⟩
  | append_singleton l c ih =>
    rw [List.mem_append, List.mem_singleton, not_or] at hlf
    by_cases hc : c = 13
    · obtain ⟨k, hk⟩ := ih hlf.1
      refine ⟨k + 1, ?_⟩
      rw [List.rdropWhile_concat_pos _ _ _ (by simp [hc]), List.replicate_succ', ← List.append_assoc, ← hk, hc]
    · refine ⟨0, ?_⟩
      rw [List.rdropWhile_concat_neg _ _ _ (by simp [hc, Ne.symm hlf.2]), List.replicate_zero, List.append_nil]

theorem Token.rdropWhile_text (t : Token) : (t.text.rdropWhile fun c => c = 10 || c = 13) = t.text := by
  cases t <;> decide

/-- The comparisons of `sup_classify_line`: the tokens exclude each other and the two heartbeats. -/
theorem supClassifyLine_eq_event_iff (l : Bytes) (t : Token) :
    supClassifyLine l = t.event ↔ ((cstr l).rdropWhile fun c => c = 10 || c = 13) = t.text := by
  constructor
  · intro h
    simp only [supClassifyLine] at h
    split_ifs at h with hs hp hh hn hv hpp <;> cases t <;> try cases h
    · exact hs
    · exact hn
    · exact hv
    · exact hpp
  · intro h
    simp only [supClassifyLine, h]
    cases t <;> decide

/-- **One line.** It is taken for the token exactly if that is what its C string says, carriage returns apart. -/
theorem supClassifyLine_eq_event {l : Bytes} (hlf : 10 ∉ l) (t : Token) :
    supClassifyLine l = t.event ↔ ∃ k, cstr l = t.text ++ List.replicate k 13 := by
  rw [supClassifyLine_eq_event_iff]
  constructor
  · intro h
    obtain ⟨k, hk⟩ := eq_append_crs (l := cstr l) fun hmem => hlf ((List.takeWhile_sublist _).mem hmem)
    exact ⟨k, h ▸ hk⟩
  · rintro ⟨k, hk⟩
    rw [hk, rdropWhile_crs, t.rdropWhile_text]

/-- A byte string is its C string, or that and a NUL with anything behind it. -/
theorem cstr_cases (l : Bytes) : cstr l = l ∨ ∃ rest, l = cstr l ++ 0 :: rest := by
  by_cases hnul : (0 : UInt8) ∈ l
  · right
    induction l with
    | nil => cases hnul
    | cons c l ih =>
      by_cases hc : c = 0
      · exact ⟨l, by simp [cstr, hc]⟩
      · have hmem := (List.mem_cons.1 hnul).resolve_left (Ne.symm hc)
        obtain ⟨rest, hrest⟩ := ih hmem
        refine ⟨rest, ?_⟩
        have hcons : cstr (c :: l) = c :: cstr l := by simp [cstr, hc]
        rw [hcons, List.cons_append, ← hrest]
  · exact .inl (cstr_of_notMem hnul)

/-! ## The lines that give the events -/

/-- `supLbByte` with the lines instead of their events. -/
def lineByte (max : Nat) : SupLb × List Bytes → UInt8 → SupLb × List Bytes
  | (lb, ls), c =>
    if lb.discarding then (if c = 10 then { lb with discarding := false } else lb, ls)
    else if c = 10 then ({ lb with buf := [] }, if ls.length < max then ls ++ [lb.buf] else ls)
    else if lb.used < supLbMax - 1 then ({ lb with buf := lb.buf ++ [c] }, ls)
    else (⟨[], true⟩, ls)

def linePush (lb : SupLb) (data : Bytes) (max : Nat) : SupLb × List Bytes := data.foldl (lineByte max) (lb, [])

/-- For each read of a connection, the lines its events were classified from. -/
def linesTaken (lb : SupLb) (reads : List (Bytes × Nat)) : SupLb × List (List Bytes) :=
  Machine.run (fun lb r => linePush lb r.1 r.2) lb reads

theorem supLbByte_eq_line (max : Nat) (st : SupLb × List Bytes) (c : UInt8) :
    supLbByte max (st.1, st.2.map supClassifyLine) c =
      ((lineByte max st c).1, (lineByte max st c).2.map supClassifyLine) := by
  obtain ⟨lb, ls⟩ := st
  simp only [supLbByte, lineByte, List.length_map]
  split_ifs <;> simp

theorem supLbPush_eq_line (lb : SupLb) (data : Bytes) (max : Nat) :
    supLbPush lb data max = ((linePush lb data max).1, (linePush lb data max).2.map supClassifyLine) := by
  have hfold : ∀ st : SupLb × List Bytes, data.foldl (supLbByte max) (st.1, st.2.map supClassifyLine) =
      ((data.foldl (lineByte max) st).1, (data.foldl (lineByte max) st).2.map supClassifyLine) := by
    induction data with
    | nil => exact fun _ => rfl
    | cons c data ih =>
      intro st
      rw [List.foldl_cons, supLbByte_eq_line, ih, List.foldl_cons]
  exact hfold (lb, [])

/-- The events are those of the lines taken. -/
theorem supLbReads_eq_linesTaken (reads : List (Bytes × Nat)) (lb : SupLb) :
    supLbReads lb reads = ((linesTaken lb reads).1, (linesTaken lb reads).2.map (List.map supClassifyLine)) := by
  induction reads generalizing lb with
  | nil => rfl
  | cons r reads ih =>
    have hih := ih (linePush lb r.1 r.2).1
    rw [supLbReads] at hih
    rw [supLbReads, Machine.run_cons, supLbPush_eq_line, hih]
    rfl

/-! ## They are lines of the stream -/

/-- The unfinished line `p` after `data`. -/
def unfinished (p data : Bytes) : Bytes := data.foldl (fun p c => if c = 10 then [] else p ++ [c]) p

theorem lines_unfinished {p : Bytes} (hp : 10 ∉ p) (data rest : Bytes) :
    lines (p ++ (data ++ rest)) = lines (p ++ data) ++ lines (unfinished p data ++ rest) := by
  induction data generalizing p with
  | nil => simp [unfinished, lines_no_lf hp]
  | cons c data ih =>
    by_cases hc : c = 10
    · have hnil := @ih [] (by simp)
      rw [List.nil_append, List.nil_append] at hnil
      rw [hc, List.cons_append, lines_line hp, lines_line hp, hnil]
      simp [unfinished]
    · have hlonger := @ih (p ++ [c]) (by simp [hp, Ne.symm hc])
      simp only [List.append_assoc, List.singleton_append] at hlonger
      rw [List.cons_append, hlonger]
      simp [unfinished, hc]

theorem Pending.line {lb : SupLb} {p : Bytes} (hp : Pending lb p) (max : Nat) (ls : List Bytes) (c : UInt8) :
    Pending (lineByte max (lb, ls) c).1 (if c = 10 then [] else p ++ [c]) := by
  have hstep := congrArg Prod.fst (supLbByte_eq_line max (lb, ls) c)
  exact hstep ▸ hp.byte max (ls.map supClassifyLine) c

/-- **One read.** Of the terminated lines that are shorter than the buffer, the first ones are taken, as many as
there is room for. -/
theorem foldl_lineByte {max : Nat} {data : Bytes} : ∀ {lb : SupLb} {p : Bytes} {ls : List Bytes}, Pending lb p →
    ls.length ≤ max →
    (data.foldl (lineByte max) (lb, ls)).2 = (ls ++ (lines (p ++ data)).filter fun l => l.length < supLbMax).take max ∧
      Pending (data.foldl (lineByte max) (lb, ls)).1 (unfinished p data) := by
  induction data with
  | nil =>
    intro lb p ls hp hroom
    rw [List.append_nil, lines_no_lf hp.no_lf, List.filter_nil, List.append_nil, List.take_of_length_le hroom]
    exact ⟨rfl, hp⟩
  | cons c data ih =>
    intro lb p ls hp hroom
    have hnext := hp.line max ls c
    rw [List.foldl_cons, show unfinished p (c :: data) = unfinished (if c = 10 then [] else p ++ [c]) data from rfl]
    by_cases hc : c = 10
    · rw [if_pos hc] at hnext ⊢
      rw [hc, lines_line hp.no_lf, List.filter_cons]
      rw [hc] at hnext
      cases hd : lb.discarding with
      | true =>
        have hkeep : (lineByte max (lb, ls) 10).2 = ls := by simp [lineByte, hd]
        have hlong : ¬ p.length < supLbMax := not_lt.2 (hp.overlong hd).1
        rw [if_neg (by simpa using hlong), show lineByte max (lb, ls) 10 = ((lineByte max (lb, ls) 10).1, ls) from
          Prod.ext rfl hkeep]
        exact ih hnext hroom
      | false =>
        have hheld := hp.held hd
        have hfits : p.length < supLbMax := hheld ▸ hp.fits
        rw [if_pos (by simpa using hfits)]
        by_cases hfull : ls.length < max
        · have hkeep : (lineByte max (lb, ls) 10).2 = ls ++ [p] := by simp [lineByte, hd, hfull, hheld]
          rw [show lineByte max (lb, ls) 10 = ((lineByte max (lb, ls) 10).1, ls ++ [p]) from Prod.ext rfl hkeep]
          have hih := @ih _ _ (ls ++ [p]) hnext (by rw [List.length_append, List.length_singleton]; omega)
          rwa [List.append_assoc, List.singleton_append, List.nil_append] at hih
        · have hkeep : (lineByte max (lb, ls) 10).2 = ls := by simp [lineByte, hd, hfull]
          rw [show lineByte max (lb, ls) 10 = ((lineByte max (lb, ls) 10).1, ls) from Prod.ext rfl hkeep]
          have hih := @ih _ _ ls hnext hroom
          have hlen : max = ls.length := by omega
          rw [hlen, List.take_left] at hih ⊢
          exact hih
    · rw [if_neg hc] at hnext ⊢
      have hkeep : (lineByte max (lb, ls) c).2 = ls := by
        simp only [lineByte, if_neg hc]
        split_ifs <;> rfl
      rw [show lineByte max (lb, ls) c = ((lineByte max (lb, ls) c).1, ls) from Prod.ext rfl hkeep]
      have hih := ih hnext hroom
      rwa [List.append_assoc, List.singleton_append] at hih

/-- The reads of a connection: what is taken are lines of the stream. -/
theorem mem_linesTaken {reads : List (Bytes × Nat)} : ∀ {lb : SupLb} {p l : Bytes}, Pending lb p →
    l ∈ (linesTaken lb reads).2.flatten →
    l ∈ lines (p ++ (reads.map Prod.fst).flatten) ∧ l.length < supLbMax := by
  induction reads with
  | nil =>
    intro lb p l hp h
    cases h
  | cons r reads ih =>
    intro lb p l hp h
    obtain ⟨htaken, hpending⟩ := @foldl_lineByte r.2 r.1 lb p [] hp (Nat.zero_le _)
    rw [List.map_cons, List.flatten_cons, lines_unfinished hp.no_lf, List.mem_append]
    rw [linesTaken, Machine.run_cons, List.flatten_cons, List.mem_append] at h
    rcases h with h | h
    · have hmem : l ∈ (lines (p ++ r.1)).filter fun l => l.length < supLbMax := by
        rw [linePush, htaken, List.nil_append] at h
        exact List.mem_of_mem_take h
      rw [List.mem_filter, decide_eq_true_eq] at hmem
      exact ⟨.inl hmem.1, hmem.2⟩
    · obtain ⟨hmem, hlen⟩ := ih hpending h
      exact ⟨.inr hmem, hlen⟩

/-- One read with room for all its lines takes every one that fits. -/
theorem linesTaken_whole (s : Bytes) :
    (linesTaken supLbInit [(s, (lines s).length)]).2.flatten = (lines s).filter fun l => l.length < supLbMax := by
  have htaken := (@foldl_lineByte (lines s).length s _ _ [] Pending.init (Nat.zero_le _)).1
  rw [List.nil_append, List.nil_append, List.take_of_length_le (List.length_filter_le _ _)] at htaken
  rw [linesTaken, Machine.run_cons]
  simpa [linePush] using htaken

theorem lf_notMem_of_mem_lines {s l : Bytes} (h : l ∈ lines s) : (10 : UInt8) ∉ l := by
  induction s generalizing l with
  | nil => cases h
  | cons c s ih =>
    by_cases hc : c = 10
    · rw [lines, if_pos hc] at h
      rcases List.mem_cons.1 h with rfl | h
      · simp
      · exact ih h
    · rw [lines, if_neg hc] at h
      cases hs : lines s with
      | nil =>
        rw [hs] at h
        cases h
      | cons l' ls =>
        rw [hs] at h ih
        rcases List.mem_cons.1 h with rfl | h
        · rw [List.mem_cons, not_or]
          exact ⟨Ne.symm hc, ih List.mem_cons_self⟩
        · exact ih (List.mem_cons_of_mem _ h)

/-! ## Exactness -/

/-- However the stream is cut into reads, a token's event comes from a terminated line that fits the buffer and is
that token, carriage returns apart. -/
def TokensExact (s : Bytes) : Prop :=
  ∀ reads : List (Bytes × Nat), (reads.map Prod.fst).flatten = s →
    ∀ l ∈ (linesTaken supLbInit reads).2.flatten, ∀ t : Token, supClassifyLine l = t.event →
      (l ∈ lines s ∧ l.length < supLbMax) ∧ ∃ k, l = t.text ++ List.replicate k 13

/-- No line that fits has a NUL right after a token and its carriage returns. -/
def NoNulAfterToken (s : Bytes) : Prop :=
  ∀ l ∈ lines s, l.length < supLbMax → ∀ (t : Token) (k : Nat) (rest : Bytes),
    l ≠ t.text ++ List.replicate k 13 ++ 0 :: rest

theorem Token.nul_notMem (t : Token) (k : Nat) : (0 : UInt8) ∉ t.text ++ List.replicate k 13 := by
  rw [List.mem_append, not_or]
  refine ⟨by cases t <;> decide, fun h => ?_⟩
  exact absurd (List.eq_of_mem_replicate h) (by decide)

/-- A token with a NUL after it is taken for the token. -/
theorem cstr_token (t : Token) (k : Nat) (rest : Bytes) :
    cstr (t.text ++ List.replicate k 13 ++ 0 :: rest) = t.text ++ List.replicate k 13 := by
  have hall : ∀ c ∈ t.text ++ List.replicate k 13, (c != 0) = true := by
    intro c hc
    rw [bne_iff_ne]
    rintro rfl
    exact t.nul_notMem k hc
  rw [cstr, List.takeWhile_append_of_pos hall]
  simp

/-- **Commands are matched exactly unless a NUL follows one.** The events returned are those of the lines taken. On
a stream, whatever the reads, only exact lines give STOP, NEXT, PREV and PLAYPAUSE if and only if no line of the
stream goes on with a NUL after the token: the comparison stops there, and the rest of the line may be anything. -/
theorem tokens_exact_iff (s : Bytes) :
    (∀ reads lb, (supLbReads lb reads).2 = (linesTaken lb reads).2.map (List.map supClassifyLine)) ∧
      (TokensExact s ↔ NoNulAfterToken s) := by
  refine ⟨fun reads lb => congrArg Prod.snd (supLbReads_eq_linesTaken reads lb), fun h => ?_, fun h => ?_⟩
  · rintro l hl hlen t k rest rfl
    have htaken : t.text ++ List.replicate k 13 ++ 0 :: rest ∈
        (linesTaken supLbInit [(s, (lines s).length)]).2.flatten := by
      rw [linesTaken_whole, List.mem_filter]
      exact ⟨hl, by simpa using hlen⟩
    have hevent := (supClassifyLine_eq_event (lf_notMem_of_mem_lines hl) t).2 ⟨k, cstr_token t k rest⟩
    obtain ⟨-, j, hj⟩ := h _ (by simp) _ htaken t hevent
    -- the exact line has no NUL
    refine t.nul_notMem j (hj ▸ ?_)
    simp
  · rintro reads rfl l hl t hevent
    obtain ⟨hmem, hlen⟩ := mem_linesTaken Pending.init hl
    rw [List.nil_append] at hmem
    obtain ⟨k, hk⟩ := (supClassifyLine_eq_event (lf_notMem_of_mem_lines hmem) t).1 hevent
    refine ⟨⟨hmem, hlen⟩, k, ?_⟩
    rcases cstr_cases l with hall | ⟨rest, hrest⟩
    · rw [← hk, hall]
    · rw [hk] at hrest
      exact absurd hrest (h l hmem hlen t k rest)

/-- `STOP`, a NUL and an `x` on one line stop the player. -/
theorem token_before_nul :
    (supLbReads supLbInit [(ascii "STOP" ++ [0, 120, 10], 16)]).2 = [[.stop]] ∧
      (linesTaken supLbInit [(ascii "STOP" ++ [0, 120, 10], 16)]).2 = [[ascii "STOP" ++ [0, 120]]] ∧
      ¬ TokensExact (ascii "STOP" ++ [0, 120, 10]) := by
  have htaken : (linesTaken supLbInit [(ascii "STOP" ++ [0, 120, 10], 16)]).2 = [[ascii "STOP" ++ [0, 120]]] := by
    decide +kernel
  refine ⟨by decide +kernel, htaken, fun h => ?_⟩
  obtain ⟨-, k, hk⟩ := h [(ascii "STOP" ++ [0, 120, 10], 16)] (by simp) (ascii "STOP" ++ [0, 120]) (by rw [htaken]; simp) .stop
    (by decide +kernel)
  have hmem : (0 : UInt8) ∈ Token.stop.text ++ List.replicate k 13 := hk ▸ by decide
  exact Token.nul_notMem .stop k hmem

end ShairKindle
