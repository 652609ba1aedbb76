import ShairKindle.Lease.Basic

/-! # The order of the frames on the wire

Sequence numbers are minted in `start`, in `enqueue` and by the idle writer, always under the lock, and a
frame reaches the encoder from HELLO, from the queue or as a heartbeat. `line` is what the encoder has
seen followed by what it will see next: every step either leaves it alone, takes a frame out of its
middle (the drop of a full queue) or puts a freshly minted number at its end, so it stays in the order of
minting. The numbers are Java `int`s, so all of this is for fewer than 2^31 of them.
-/

namespace ShairKindle.Lease

/-! ## What a trace shows -/

/-- The frames handed to the encoder. -/
def handed (tr : List Obs) : List (Origin × Framed) :=
  tr.filterMap fun o => match o with
    | .handed origin fr => some (origin, fr)
    | _ => none

/-- The frames of the `enqueue` calls that returned true. -/
def accepted (tr : List Obs) : List Framed :=
  tr.filterMap fun o => match o with
    | .enqueued fr _ => some fr
    | _ => none

/-- The frames the queue cap threw out. -/
def dropped (tr : List Obs) : List Framed :=
  tr.filterMap fun o => match o with
    | .enqueued _ d => d
    | _ => none

/-- The sequence numbers minted so far. -/
def minted (tr : List Obs) : List Int :=
  tr.filterMap fun o => match o with
    | .pinned seq => some seq
    | .enqueued fr _ => some fr.seq
    | .beat fr => some fr.seq
    | _ => none

@[simp] theorem handed_append (tr tr' : List Obs) : handed (tr ++ tr') = handed tr ++ handed tr' :=
  List.filterMap_append

@[simp] theorem accepted_append (tr tr' : List Obs) : accepted (tr ++ tr') = accepted tr ++ accepted tr' :=
  List.filterMap_append

@[simp] theorem dropped_append (tr tr' : List Obs) : dropped (tr ++ tr') = dropped tr ++ dropped tr' :=
  List.filterMap_append

@[simp] theorem minted_append (tr tr' : List Obs) : minted (tr ++ tr') = minted tr ++ minted tr' :=
  List.filterMap_append

theorem accepted_sublist_minted (tr : List Obs) : ((accepted tr).map Framed.seq).Sublist (minted tr) := by
  induction tr with
  | nil => exact .slnil
  | cons o tr ih =>
    cases o with
    | enqueued fr d => exact ih.cons_cons fr.seq
    | pinned seq => exact ih.cons seq
    | beat fr => exact ih.cons fr.seq
    | silent => exact ih
    | refused => exact ih
    | handed origin fr => exact ih
    | notified up => exact ih

theorem length_dropped_le (tr : List Obs) : (dropped tr).length ≤ (minted tr).length := by
  induction tr with
  | nil => exact le_rfl
  | cons o tr ih =>
    cases o with
    | enqueued fr d =>
      cases d with
      | none => exact Nat.le_succ_of_le ih
      | some d => exact Nat.succ_le_succ ih
    | pinned seq => exact Nat.le_succ_of_le ih
    | beat fr => exact Nat.le_succ_of_le ih
    | silent => exact ih
    | refused => exact ih
    | handed origin fr => exact ih
    | notified up => exact ih

/-! ## What is on its way -/

/-- The frame the writer has taken and not yet handed over. -/
def held (s : Conn) : List (Origin × Framed) :=
  match s.writer with
  | .write origin fr => [(origin, fr)]
  | _ => []

/-- HELLO's number, from `start` to the writer's first block. -/
def helloDue (s : Conn) : List Int :=
  match s.writer with
  | .pinned => [s.helloSeq]
  | .entry => [s.helloSeq]
  | _ => []

/-- What the encoder has seen and, in this order, will see. -/
def line (s : Conn) (tr : List Obs) : List (Origin × Framed) :=
  handed tr ++ held s ++ s.queue.map (Origin.queued, ·)

/-- The numbers of `line`. -/
def lineSeqs (s : Conn) (tr : List Obs) : List Int := (line s tr).map (·.2.seq)

/-- The events of `line`, in order. -/
def lineEvents (s : Conn) (tr : List Obs) : List Framed := ((line s tr).filter (·.1 = .queued)).map (·.2)

theorem lineSeqs_eq (s : Conn) (tr : List Obs) :
    lineSeqs s tr = (handed tr ++ held s).map (·.2.seq) ++ s.queue.map Framed.seq := by
  simp [lineSeqs, line, Function.comp_def]

theorem lineEvents_eq (s : Conn) (tr : List Obs) :
    lineEvents s tr = ((handed tr ++ held s).filter (·.1 = .queued)).map (·.2) ++ s.queue := by
  have hq : (s.queue.map (Origin.queued, ·)).filter (·.1 = .queued) = s.queue.map (Origin.queued, ·) := by
    rw [List.filter_eq_self]
    intro x hx
    obtain ⟨fr, -, rfl⟩ := List.mem_map.1 hx
    rfl
  rw [lineEvents, line, List.filter_append, hq, List.map_append, List.map_map]
  simp [Function.comp_def]

/-- HELLO leads the line, unless the writer has not come to it, or found the lease closed. -/
def HelloLeads (s : Conn) (tr : List Obs) : Prop :=
  match s.writer with
  | .unstarted => minted tr = []
  | .pinned => handed tr = []
  | .entry => handed tr = []
  | _ => handed tr = [] ∧ s.writer = .exited ∨
      ∃ fr rest, line s tr = (.hello, fr) :: rest ∧ fr.seq = s.helloSeq ∧ fr.e.kind = .hello ∧
        ∀ x ∈ rest, x.1 ≠ .hello

structure Lined (s : Conn) (tr : List Obs) : Prop where
  numbers : minted tr = (List.range (minted tr).length).map Int.ofNat
  next : s.nextSeq = (minted tr).length
  order : (helloDue s ++ lineSeqs s tr).Pairwise (· < ·)
  below : ∀ k ∈ helloDue s ++ lineSeqs s tr, 0 ≤ k ∧ k < s.nextSeq
  events : (lineEvents s tr).Sublist (accepted tr)
  hello : s.helloSeq = 0
  leads : HelloLeads s tr
  accounted : ∀ k ∈ minted tr, k = s.helloSeq ∨ k ∈ lineSeqs s tr ∨ k ∈ (dropped tr).map Framed.seq
  drops : s.drops = (dropped tr).length

theorem lined_init : Lined .init [] := by
  refine ⟨rfl, rfl, .nil, ?_, .slnil, rfl, rfl, ?_, rfl⟩
  · intro k hk
    cases hk
  · intro k hk
    cases hk

/-- Fewer than 2^31 numbers have been minted. -/
def Few (tr : List Obs) : Prop := (minted tr).length < 2 ^ 31

theorem Few.of_append {tr tr' : List Obs} (h : Few (tr ++ tr')) : Few tr := by
  unfold Few at h ⊢
  rw [minted_append, List.length_append] at h
  omega

theorem incr_eq {n : Nat} (h : n + 1 < 2 ^ 31) : incr n = n + 1 := by
  unfold incr
  rw [Int.bmod_def]
  omega

/-! ## Steps -/

/-- The writer is past its first block. -/
def Writer.begun : Writer → Bool
  | .unstarted => false
  | .pinned => false
  | .entry => false
  | _ => true

theorem helloLeads_begun {s : Conn} {tr : List Obs} (hb : s.writer.begun = true) :
    HelloLeads s tr ↔ handed tr = [] ∧ s.writer = .exited ∨
      ∃ fr rest, line s tr = (.hello, fr) :: rest ∧ fr.seq = s.helloSeq ∧ fr.e.kind = .hello ∧
        ∀ x ∈ rest, x.1 ≠ .hello := by
  unfold HelloLeads
  cases hw : s.writer with
  | unstarted | pinned | entry =>
    rw [hw] at hb
    cases hb
  | _ => exact Iff.rfl

/-- Until its first block the writer owes HELLO, and has handed over nothing. -/
theorem handed_of_not_begun {s : Conn} {tr : List Obs} (h : HelloLeads s tr) (hne : s.writer ≠ .unstarted)
    (hb : ¬ s.writer.begun = true) : handed tr = [] := by
  unfold HelloLeads at h
  cases hw : s.writer with
  | unstarted => exact absurd hw hne
  | pinned | entry =>
    rw [hw] at h
    exact h
  | _ =>
    rw [hw] at hb
    exact absurd rfl hb

theorem helloDue_begun {s : Conn} (hb : s.writer.begun = true) : helloDue s = [] := by
  unfold helloDue
  cases hw : s.writer with
  | pinned | entry =>
    rw [hw] at hb
    cases hb
  | _ => rfl

/-- What HELLO's place depends on. -/
theorem HelloLeads.congr {s s' : Conn} {tr tr' : List Obs} (h : HelloLeads s tr) (hw : s'.writer = s.writer)
    (hh : s'.helloSeq = s.helloSeq) (hm : minted tr' = minted tr) (ht : handed tr' = handed tr)
    (hline : line s' tr' = line s tr) : HelloLeads s' tr' := by
  unfold HelloLeads at h ⊢
  rw [hw, hh, hm, ht, hline]
  exact h

/-- A step that mints nothing: the line may lose frames it has accounted for, or HELLO its promise. -/
theorem Lined.move {s s' : Conn} {tr tr' : List Obs} (h : Lined s tr) (hm : minted tr' = minted tr)
    (ha : accepted tr' = accepted tr) (hd : dropped tr' = dropped tr) (hn : s'.nextSeq = s.nextSeq)
    (hdr : s'.drops = s.drops) (hh : s'.helloSeq = s.helloSeq)
    (hsub : (helloDue s' ++ lineSeqs s' tr').Sublist (helloDue s ++ lineSeqs s tr))
    (hkeep : lineSeqs s tr ⊆ lineSeqs s' tr') (hev : lineEvents s' tr' = lineEvents s tr)
    (hl : HelloLeads s' tr') : Lined s' tr' := by
  constructor
  · rw [hm]
    exact h.numbers
  · rw [hn, hm]
    exact h.next
  · exact h.order.sublist hsub
  · intro k hk
    rw [hn]
    exact h.below k (hsub.subset hk)
  · rw [hev, ha]
    exact h.events
  · rw [hh]
    exact h.hello
  · exact hl
  · intro k hk
    rw [hm] at hk
    rw [hh, hd]
    rcases h.accounted k hk with h1 | h1 | h1
    · exact .inl h1
    · exact .inr (.inl (hkeep h1))
    · exact .inr (.inr h1)
  · rw [hdr, hd]
    exact h.drops

/-- A step that mints, accepts and drops nothing and leaves the line as it is. -/
theorem Lined.keep_line {s s' : Conn} {tr : List Obs} {o : Obs} (h : Lined s tr) (om : minted [o] = [])
    (oa : accepted [o] = []) (od : dropped [o] = []) (hn : s'.nextSeq = s.nextSeq) (hdr : s'.drops = s.drops)
    (hh : s'.helloSeq = s.helloSeq) (hdue : helloDue s' = helloDue s) (hline : line s' (tr ++ [o]) = line s tr)
    (hl : HelloLeads s' (tr ++ [o])) : Lined s' (tr ++ [o]) := by
  refine h.move (by simp [om]) (by simp [oa]) (by simp [od]) hn hdr hh ?_ ?_ ?_ hl
  · rw [hdue, lineSeqs, hline]
    exact List.Sublist.refl _
  · rw [lineSeqs, lineSeqs, hline]
    exact List.Subset.refl _
  · rw [lineEvents, hline]
    rfl

theorem HelloLeads.keep_line {s s' : Conn} {tr tr' : List Obs} (h : HelloLeads s tr) (hb : s.writer.begun = true)
    (hne : s.writer ≠ .exited) (hb' : s'.writer.begun = true) (hh : s'.helloSeq = s.helloSeq)
    (hline : line s' tr' = line s tr) : HelloLeads s' tr' := by
  rw [helloLeads_begun hb] at h
  rw [helloLeads_begun hb', hline, hh]
  rcases h with ⟨-, he⟩ | h
  · exact absurd he hne
  · exact .inr h

/-- A step that leaves queue, numbers and what the writer holds alone, and shows nothing of them. -/
theorem Lined.frame {s s' : Conn} {tr : List Obs} {o : Obs} (h : Lined s tr)
    (ho : o = .silent ∨ o = .refused ∨ ∃ up, o = .notified up) (hq : s'.queue = s.queue)
    (hn : s'.nextSeq = s.nextSeq) (hdr : s'.drops = s.drops) (hh : s'.helloSeq = s.helloSeq)
    (hw : s'.writer = s.writer ∨ s.writer.begun = true ∧ s.writer ≠ .exited ∧ held s = [] ∧
      s'.writer.begun = true ∧ held s' = []) : Lined s' (tr ++ [o]) := by
  have hob : handed [o] = [] ∧ accepted [o] = [] ∧ dropped [o] = [] ∧ minted [o] = [] := by
    rcases ho with rfl | rfl | ⟨up, rfl⟩ <;> exact ⟨rfl, rfl, rfl, rfl⟩
  obtain ⟨oh, oa, od, om⟩ := hob
  have hheld : held s' = held s := by
    rcases hw with hw | ⟨-, -, h1, -, h2⟩
    · unfold held
      rw [hw]
    · rw [h1, h2]
  have hdue : helloDue s' = helloDue s := by
    rcases hw with hw | ⟨h1, -, -, h2, -⟩
    · unfold helloDue
      rw [hw, hh]
    · rw [helloDue_begun h1, helloDue_begun h2]
  have hline : line s' (tr ++ [o]) = line s tr := by
    unfold line
    rw [handed_append, oh, List.append_nil, hheld, hq]
  refine h.keep_line om oa od hn hdr hh hdue hline ?_
  rcases hw with hw | ⟨h1, hne, -, h2, -⟩
  · exact h.leads.congr hw hh (by rw [minted_append, om, List.append_nil]) (by rw [handed_append, oh, List.append_nil])
      hline
  · exact h.leads.keep_line h1 hne h2 hh hline

/-- A step that mints the next number and puts it at the end of the line. -/
theorem Lined.mint {s s' : Conn} {tr : List Obs} {o : Obs} (h : Lined s tr) (hfew : Few (tr ++ [o]))
    (hm : minted [o] = [s.nextSeq]) (hn : s'.nextSeq = incr s.nextSeq) (hh : s'.helloSeq = s.helloSeq)
    (hsub : (helloDue s' ++ lineSeqs s' (tr ++ [o])).Sublist (helloDue s ++ lineSeqs s tr ++ [s.nextSeq]))
    (hev : (lineEvents s' (tr ++ [o])).Sublist (accepted (tr ++ [o]))) (hl : HelloLeads s' (tr ++ [o]))
    (hacc : ∀ k, k ∈ lineSeqs s tr ∨ k = s.nextSeq →
      k = s.helloSeq ∨ k ∈ lineSeqs s' (tr ++ [o]) ∨ k ∈ (dropped (tr ++ [o])).map Framed.seq)
    (hdr : s'.drops = (dropped (tr ++ [o])).length) : Lined s' (tr ++ [o]) := by
  have hlen : (minted (tr ++ [o])).length = (minted tr).length + 1 := by simp [hm]
  have hinc : s'.nextSeq = s.nextSeq + 1 := by
    unfold Few at hfew
    rw [hn, h.next]
    exact incr_eq (by omega)
  constructor
  · rw [hlen, List.range_succ, List.map_append, ← h.numbers, minted_append, hm, h.next]
    rfl
  · rw [hinc, h.next, hlen]
    rfl
  · refine List.Pairwise.sublist hsub (List.pairwise_append.2 ⟨h.order, List.pairwise_singleton _ _, ?_⟩)
    intro a ha b hb
    rw [List.mem_singleton.1 hb]
    exact (h.below a ha).2
  · intro k hk
    have hnext := h.next
    rw [hinc]
    rcases List.mem_append.1 (hsub.subset hk) with hk | hk
    · have := h.below k hk
      omega
    · rw [List.mem_singleton.1 hk]
      omega
  · exact hev
  · rw [hh]
    exact h.hello
  · exact hl
  · intro k hk
    rw [hh]
    rw [minted_append, hm] at hk
    rcases List.mem_append.1 hk with hk | hk
    · rcases h.accounted k hk with h1 | h1 | h1
      · exact .inl h1
      · exact hacc k (.inl h1)
      · refine .inr (.inr ?_)
        rw [dropped_append, List.map_append]
        exact List.mem_append_left _ h1
    · exact hacc k (.inr (List.mem_singleton.1 hk))
  · exact hdr

/-- Before anything is minted nothing is in the line. -/
theorem Lined.line_nil {s : Conn} {tr : List Obs} (h : Lined s tr) (hnone : minted tr = []) : line s tr = [] := by
  cases hl : line s tr with
  | nil => rfl
  | cons x rest =>
    have hx := h.below x.2.seq (by simp [lineSeqs, hl])
    rw [h.next, hnone, List.length_nil] at hx
    omega

/-- HELLO's number is the first. -/
theorem lined_start {s : Conn} {tr : List Obs} (h : Lined s tr) (hw : s.writer = .unstarted)
    (hfew : Few (tr ++ [.pinned s.nextSeq])) :
    Lined { s with helloSeq := s.nextSeq, nextSeq := incr s.nextSeq, writer := .pinned }
      (tr ++ [.pinned s.nextSeq]) := by
  have hnone : minted tr = [] := by simpa [HelloLeads, hw] using h.leads
  have hzero : s.nextSeq = s.helloSeq := by rw [h.next, hnone, h.hello]; rfl
  have hline := h.line_nil hnone
  obtain ⟨hhand, hqueue⟩ : handed tr = [] ∧ s.queue = [] := by simpa [line, held, hw] using hline
  have hhand' : handed (tr ++ [.pinned s.nextSeq]) = [] := by rw [handed_append, hhand]; rfl
  refine h.mint hfew rfl rfl hzero ?_ ?_ ?_ ?_ ?_
  · simp [helloDue, lineSeqs, line, held, hhand, hhand', hqueue, hw]
  · simp [lineEvents, line, held, hhand', hqueue]
  · exact hhand'
  · intro k hk
    rw [lineSeqs, hline] at hk
    rcases hk with hk | rfl
    · cases hk
    · exact .inl hzero
  · have hd : dropped [.pinned s.nextSeq] = [] := rfl
    rw [dropped_append, hd, List.append_nil]
    exact h.drops

/-- Putting other events behind what the writer has does not move HELLO. -/
theorem HelloLeads.requeue {s s' : Conn} {tr tr' : List Obs} (h : HelloLeads s tr) (hne : s.writer ≠ .unstarted)
    (hw : s'.writer = s.writer) (hh : s'.helloSeq = s.helloSeq) (ht : handed tr' = handed tr) :
    HelloLeads s' tr' := by
  by_cases hb : s.writer.begun = true
  · have hb' : s'.writer.begun = true := by rw [hw]; exact hb
    have hheld : held s' = held s := by unfold held; rw [hw]
    rw [helloLeads_begun hb] at h
    rw [helloLeads_begun hb', hw, hh, ht]
    rcases h with h | ⟨fr, rest, hline, hseq, hkind, hrest⟩
    · exact .inl h
    · refine .inr ?_
      unfold line at hline ⊢
      rw [ht, hheld]
      cases hlead : handed tr ++ held s with
      | nil =>
        -- the queue holds events only
        rw [hlead, List.nil_append] at hline
        cases hq : s.queue <;> simp [hq] at hline
      | cons x rest' =>
        rw [hlead, List.cons_append, List.cons.injEq] at hline
        obtain ⟨rfl, hrest'⟩ := hline
        refine ⟨fr, rest' ++ s'.queue.map (Origin.queued, ·), rfl, hseq, hkind, ?_⟩
        intro y hy
        rcases List.mem_append.1 hy with hy | hy
        · exact hrest y (by rw [← hrest']; exact List.mem_append_left _ hy)
        · obtain ⟨fr', -, rfl⟩ := List.mem_map.1 hy
          simp
  · have hnone := handed_of_not_begun h hne hb
    unfold HelloLeads
    rw [hw, ht]
    cases e : s.writer <;> simp_all [Writer.begun]

/-- The oldest frame may make room, and the new one goes to the end. -/
theorem lined_push {s : Conn} {tr : List Obs} (h : Lined s tr) (hw : s.writer ≠ .unstarted) (fr : Framed)
    (hfr : fr.seq = s.nextSeq) (d : Option Framed) (q : List Framed) (hq : s.queue = d.toList ++ q)
    (hfew : Few (tr ++ [.enqueued fr d])) :
    Lined { s with queue := q ++ [fr], nextSeq := incr s.nextSeq, drops := s.drops + d.toList.length }
      (tr ++ [.enqueued fr d]) := by
  have ht : handed (tr ++ [.enqueued fr d]) = handed tr := by rw [handed_append]; exact List.append_nil _
  have hdr : dropped (tr ++ [.enqueued fr d]) = dropped tr ++ d.toList := by
    rw [dropped_append]
    cases d <;> rfl
  have hacc : accepted (tr ++ [.enqueued fr d]) = accepted tr ++ [fr] := by rw [accepted_append]; rfl
  refine h.mint hfew (by rw [← hfr]; rfl) rfl rfl ?_ ?_ ?_ ?_ ?_
  · have hs : ((q ++ [fr]).map Framed.seq).Sublist (s.queue.map Framed.seq ++ [s.nextSeq]) := by
      rw [hq, ← hfr, ← List.map_singleton, ← List.map_append, List.append_assoc]
      exact (List.sublist_append_right _ _).map _
    rw [lineSeqs_eq, lineSeqs_eq, ht, List.append_assoc, List.append_assoc]
    exact (hs.append_left _).append_left _
  · have hs := h.events
    rw [lineEvents_eq, hq] at hs
    rw [lineEvents_eq, ht, hacc, ← List.append_assoc]
    exact (((List.sublist_append_right _ _).append_left _).trans hs).append_right _
  · exact h.leads.requeue hw rfl rfl ht
  · intro k hk
    refine .inr ?_
    rw [lineSeqs_eq, hq] at hk
    rw [lineSeqs_eq, ht, hdr, ← hfr] at *
    simp only [List.map_append, List.mem_append, List.map_singleton, List.mem_singleton] at hk ⊢
    rcases hk with (hlead | hdropped | hrest) | hnew
    · exact .inl (.inl hlead)
    · exact .inr (.inr hdropped)
    · exact .inl (.inr (.inl hrest))
    · exact .inl (.inr (.inr hnew))
  · rw [hdr, h.drops]
    simp

theorem lined_enqueue {s : Conn} {tr : List Obs} (h : Lined s tr) (e : OutboundEvent) (hw : s.writer ≠ .unstarted)
    (hfew : Few (tr ++ [(enqueue s e).2])) : Lined (enqueue s e).1 (tr ++ [(enqueue s e).2]) := by
  unfold enqueue at hfew ⊢
  split at hfew
  · next hc =>
    rw [if_pos hc]
    exact h.frame (.inr (.inl rfl)) rfl rfl rfl rfl (.inl rfl)
  · next hc =>
    rw [if_neg hc]
    dsimp only at hfew ⊢
    cases hdrop : (decide (queueCap ≤ s.queue.length) && e.kind == .key) with
    | false =>
      simp only [hdrop, Bool.false_eq_true, if_false] at hfew ⊢
      simpa using lined_push h hw ⟨s.nextSeq, e⟩ rfl none s.queue rfl hfew
    | true =>
      simp only [hdrop, if_true] at hfew ⊢
      obtain ⟨x, rest, hq⟩ : ∃ x rest, s.queue = x :: rest := by
        cases hq : s.queue with
        | nil => simp [hq, queueCap] at hdrop
        | cons x rest => exact ⟨x, rest, rfl⟩
      have hdrops : incr s.drops = s.drops + 1 := by
        have hle := length_dropped_le tr
        rw [hq] at hfew
        simp only [Few, minted_append, List.length_append] at hfew
        have hone : (minted [.enqueued ⟨s.nextSeq, e⟩ (some x)]).length = 1 := rfl
        rw [h.drops]
        exact incr_eq (by simp only [List.head?_cons, hone] at hfew; omega)
      rw [hq] at hfew ⊢
      rw [hdrops]
      exact lined_push h hw ⟨s.nextSeq, e⟩ rfl (some x) rest hq hfew

/-- The writer's first block: HELLO's number gets its frame, or the lease is closed and it is lost. -/
theorem lined_entry {s : Conn} {tr : List Obs} (h : Lined s tr) (hw : s.writer = .entry) (ok : Bool) (now : Int) :
    Lined (writerStep s ok now).1 (tr ++ [(writerStep s ok now).2]) := by
  have hhand : handed tr = [] := by simpa [HelloLeads, hw] using h.leads
  have hhand' : handed (tr ++ [.silent]) = [] := by rw [handed_append, hhand]; rfl
  have hheld : held s = [] := by simp [held, hw]
  have hdue : helloDue s = [s.helloSeq] := by simp [helloDue, hw]
  have hline : lineSeqs s tr = s.queue.map Framed.seq := by rw [lineSeqs_eq, hhand, hheld]; rfl
  have hevents : lineEvents s tr = s.queue := by rw [lineEvents_eq, hhand, hheld]; rfl
  have hm : minted (tr ++ [.silent]) = minted tr := by rw [minted_append]; exact List.append_nil _
  have ha : accepted (tr ++ [.silent]) = accepted tr := by rw [accepted_append]; exact List.append_nil _
  have hd : dropped (tr ++ [.silent]) = dropped tr := by rw [dropped_append]; exact List.append_nil _
  simp only [writerStep, hw]
  split
  · refine h.move hm ha hd rfl rfl rfl ?_ ?_ ?_ (.inl ⟨hhand', rfl⟩)
    · rw [hline, lineSeqs_eq, hhand']
      exact List.sublist_append_right _ _
    · rw [hline, lineSeqs_eq, hhand']
      exact List.Subset.refl _
    · rw [lineEvents_eq, hhand', hevents]
      rfl
  · refine h.move hm ha hd rfl rfl rfl ?_ ?_ ?_
      (.inr ⟨⟨s.helloSeq, ⟨.hello, 0, false, now⟩⟩, s.queue.map (Origin.queued, ·), ?_, rfl, rfl, ?_⟩)
    · rw [hline, hdue, lineSeqs_eq, hhand']
      exact List.Sublist.refl _
    · rw [hline, lineSeqs_eq, hhand']
      exact List.subset_append_right _ _
    · rw [lineEvents_eq, hhand', hevents]
      rfl
    · rw [line, hhand']
      rfl
    · intro x hx
      obtain ⟨fr, -, rfl⟩ := List.mem_map.1 hx
      simp

/-- Handing over the frame the writer holds moves it from one part of the line to the next. -/
theorem lined_handed {s s' : Conn} {tr : List Obs} (h : Lined s tr) (origin : Origin) (fr : Framed)
    (hw : s.writer = .write origin fr) (hq : s'.queue = s.queue) (hn : s'.nextSeq = s.nextSeq)
    (hdr : s'.drops = s.drops) (hh : s'.helloSeq = s.helloSeq) (hb : s'.writer.begun = true)
    (hheld : held s' = []) : Lined s' (tr ++ [.handed origin fr]) := by
  have hline : line s' (tr ++ [.handed origin fr]) = line s tr := by
    have e1 : handed [.handed origin fr] = [(origin, fr)] := rfl
    have e2 : held s = [(origin, fr)] := by simp [held, hw]
    rw [line, line, handed_append, e1, e2, hheld, hq, List.append_nil]
  have hdue : helloDue s' = helloDue s := by
    rw [helloDue_begun hb, helloDue_begun (by rw [hw]; rfl)]
  refine h.keep_line rfl rfl rfl hn hdr hh hdue hline (h.leads.keep_line ?_ ?_ hb hh hline)
  · rw [hw]
    rfl
  · simp [hw]

/-- Taking the head of the queue. -/
theorem lined_take {s : Conn} {tr : List Obs} (h : Lined s tr) (hw : s.writer = .loop) (fr : Framed)
    (rest : List Framed) (hq : s.queue = fr :: rest) :
    Lined { s with queue := rest, writer := .write .queued fr } (tr ++ [.silent]) := by
  have ht : handed (tr ++ [.silent]) = handed tr := by rw [handed_append]; exact List.append_nil _
  have hline : line { s with queue := rest, writer := .write .queued fr } (tr ++ [.silent]) = line s tr := by
    simp [line, held, hw, hq, ht]
  have hdue : helloDue { s with queue := rest, writer := .write .queued fr } = helloDue s := by simp [helloDue, hw]
  refine h.keep_line rfl rfl rfl rfl rfl rfl hdue hline (h.leads.keep_line ?_ ?_ rfl rfl hline)
  · rw [hw]
    rfl
  · simp [hw]

/-- A heartbeat is minted when the queue is empty, so it too goes to the end of the line. -/
theorem lined_beat {s : Conn} {tr : List Obs} (h : Lined s tr) (hw : s.writer = .loop) (hq : s.queue = [])
    (fr : Framed) (hfr : fr.seq = s.nextSeq) (hfew : Few (tr ++ [.beat fr])) :
    Lined { s with nextSeq := incr s.nextSeq, writer := .write .beat fr } (tr ++ [.beat fr]) := by
  have ht : handed (tr ++ [.beat fr]) = handed tr := by rw [handed_append]; exact List.append_nil _
  have hd : dropped (tr ++ [.beat fr]) = dropped tr := by rw [dropped_append]; exact List.append_nil _
  have ha : accepted (tr ++ [.beat fr]) = accepted tr := by rw [accepted_append]; exact List.append_nil _
  have hline : line { s with nextSeq := incr s.nextSeq, writer := .write .beat fr } (tr ++ [.beat fr]) =
      line s tr ++ [(.beat, fr)] := by
    simp [line, held, hw, hq, ht]
  refine h.mint hfew (by rw [← hfr]; rfl) rfl rfl ?_ ?_ ?_ ?_ ?_
  · simp [helloDue, hw, lineSeqs, hline, hfr]
  · have hev := h.events
    rw [ha]
    simpa [lineEvents, hline] using hev
  · have hl := h.leads
    rw [helloLeads_begun (by rw [hw]; rfl)] at hl
    rw [helloLeads_begun rfl, hline]
    rcases hl with ⟨-, he⟩ | ⟨fr', rest, hl, hseq, hkind, hrest⟩
    · rw [hw] at he
      cases he
    · refine .inr ⟨fr', rest ++ [(.beat, fr)], by rw [hl]; rfl, hseq, hkind, ?_⟩
      intro x hx
      rcases List.mem_append.1 hx with hx | hx
      · exact hrest x hx
      · rw [List.mem_singleton.1 hx]
        simp
  · intro k hk
    refine .inr (.inl ?_)
    rw [lineSeqs, hline, List.map_append]
    rcases hk with hk | rfl
    · exact List.mem_append_left _ hk
    · rw [← hfr]
      exact List.mem_append_right _ (List.mem_singleton_self _)
  · rw [hd]
    exact h.drops

theorem lined_writer {s : Conn} {tr : List Obs} (h : Lined s tr) (ok : Bool) (now : Int)
    (hfew : Few (tr ++ [(writerStep s ok now).2])) :
    Lined (writerStep s ok now).1 (tr ++ [(writerStep s ok now).2]) := by
  cases hw : s.writer with
  | entry => exact lined_entry h hw ok now
  | write origin fr =>
    simp only [writerStep, hw] at hfew ⊢
    refine lined_handed h origin fr hw rfl rfl rfl rfl ?_ ?_
    all_goals cases ok <;> cases origin <;> rfl
  | loop =>
    simp only [writerStep, hw] at hfew ⊢
    split
    · exact h.frame (.inl rfl) rfl rfl rfl rfl (.inr (by simp [hw, held, Writer.begun]))
    · next hc =>
      rw [if_neg hc] at hfew
      cases hq : s.queue with
      | cons fr rest => exact lined_take h hw fr rest hq
      | nil =>
        simp only [hq] at hfew ⊢
        cases ok with
        | true =>
          have hb := lined_beat h hw hq ⟨s.nextSeq, ⟨.heartbeat, 0, false, now⟩⟩ rfl hfew
          simpa only [hq, if_true] using hb
        | false => exact h.frame (.inl rfl) rfl rfl rfl rfl (.inl rfl)
  | check origin =>
    simp only [writerStep, hw]
    refine h.frame (.inl rfl) rfl rfl rfl rfl (.inr ?_)
    split <;> simp [hw, held, Writer.begun]
  | flush origin =>
    simp only [writerStep, hw]
    refine h.frame (.inl rfl) rfl rfl rfl rfl (.inr ?_)
    cases ok <;> cases origin <;> simp [hw, held, Writer.begun, afterWrite]
  | markUp =>
    simp only [writerStep, hw]
    split <;> exact h.frame (.inl rfl) rfl rfl rfl rfl (.inr (by simp [hw, held, Writer.begun]))
  | fireUp =>
    simp only [writerStep, hw]
    exact h.frame (.inr (.inr ⟨true, rfl⟩)) rfl rfl rfl rfl (.inr (by simp [hw, held, Writer.begun]))
  | close p =>
    obtain ⟨eq, en, ed, eh, -, eo⟩ := closeStep_frame s p
    simp only [writerStep, hw]
    refine h.frame (eo.imp id fun e => .inr ⟨false, e⟩) eq en ed eh (.inr ?_)
    cases (closeStep s p).2.1 <;> simp [hw, held, Writer.begun]
  | unstarted =>
    simp only [writerStep, hw]
    exact h.frame (.inl rfl) rfl rfl rfl rfl (.inl rfl)
  | pinned =>
    simp only [writerStep, hw]
    exact h.frame (.inl rfl) rfl rfl rfl rfl (.inl rfl)
  | exited =>
    simp only [writerStep, hw]
    exact h.frame (.inl rfl) rfl rfl rfl rfl (.inl rfl)

/-- `enqueue` is called after `start` (LeaseConnection.java:73). -/
def AfterStart (s : Conn) : Input → Prop
  | .enqueue _ => s.writer ≠ .unstarted
  | _ => True

instance (s : Conn) : (i : Input) → Decidable (AfterStart s i)
  | .enqueue _ => inferInstanceAs (Decidable (s.writer ≠ .unstarted))
  | .start => .isTrue trivial
  | .spawn => .isTrue trivial
  | .close => .isTrue trivial
  | .closer => .isTrue trivial
  | .writer _ _ => .isTrue trivial

theorem lined_spawn {s : Conn} {tr : List Obs} (h : Lined s tr) (hw : s.writer = .pinned) :
    Lined { s with writer := .entry } (tr ++ [.silent]) := by
  have ht : handed (tr ++ [.silent]) = handed tr := by rw [handed_append]; exact List.append_nil _
  have hhand : handed tr = [] := by simpa [HelloLeads, hw] using h.leads
  have hline : line { s with writer := .entry } (tr ++ [.silent]) = line s tr := by
    simp [line, held, hw, ht]
  have hdue : helloDue { s with writer := .entry } = helloDue s := by simp [helloDue, hw]
  exact h.keep_line rfl rfl rfl rfl rfl rfl hdue hline (ht.trans hhand)

theorem lined_step (s : Conn) (tr : List Obs) (i : Input) (h : Lined s tr) (hi : AfterStart s i)
    (hfew : Few (tr ++ [(step s i).2])) : Lined (step s i).1 (tr ++ [(step s i).2]) := by
  cases i with
  | start =>
    simp only [step, start] at hfew ⊢
    split
    · next hw =>
      rw [if_pos hw] at hfew
      split
      · exact h.frame (.inl rfl) rfl rfl rfl rfl (.inl rfl)
      · next hc =>
        rw [if_neg hc] at hfew
        exact lined_start h hw hfew
    · exact h.frame (.inl rfl) rfl rfl rfl rfl (.inl rfl)
  | spawn =>
    simp only [step]
    split
    · next hw => exact lined_spawn h hw
    · exact h.frame (.inl rfl) rfl rfl rfl rfl (.inl rfl)
  | enqueue e => exact lined_enqueue h e hi hfew
  | close =>
    simp only [step]
    split
    · exact h.frame (.inl rfl) rfl rfl rfl rfl (.inl rfl)
    · obtain ⟨eq, en, ed, eh, ew, eo⟩ := closeStep_frame s .enter
      exact h.frame (eo.imp id fun e => .inr ⟨false, e⟩) eq en ed eh (.inl ew)
  | closer =>
    simp only [step]
    split
    · exact h.frame (.inl rfl) rfl rfl rfl rfl (.inl rfl)
    · next p hp =>
      obtain ⟨eq, en, ed, eh, ew, eo⟩ := closeStep_frame s p
      exact h.frame (eo.imp id fun e => .inr ⟨false, e⟩) eq en ed eh (.inl ew)
  | writer ok now => exact lined_writer h ok now hfew

theorem lined_run (inputs : List Input) (hin : Machine.AllSteps step AfterStart .init inputs)
    (hfew : Few (run inputs).2) : Lined (run inputs).1 (run inputs).2 := by
  have h := Machine.run_hist_of_allSteps (fun s tr => Few tr → Lined s tr)
    (fun s tr i h hi hf => lined_step s tr i (h hf.of_append) hi hf) (fun _ => lined_init) inputs hin
  exact h hfew

/-! ## The order on the wire -/

/-- What the encoder has seen came from the writer's loop. -/
theorem Lined.begun {s : Conn} {tr : List Obs} (h : Lined s tr) (hhand : handed tr ≠ []) : s.writer.begun = true := by
  have hl := h.leads
  unfold HelloLeads at hl
  cases hw : s.writer with
  | unstarted =>
    rw [hw] at hl
    have hnil := h.line_nil hl
    simp only [line, List.append_eq_nil_iff] at hnil
    exact absurd hnil.1.1 hhand
  | pinned =>
    rw [hw] at hl
    exact absurd hl hhand
  | entry =>
    rw [hw] at hl
    exact absurd hl hhand
  | _ => rfl

/-- The encoder sees HELLO first and only once, with the smallest number. -/
theorem Lined.hello_first {s : Conn} {tr : List Obs} (h : Lined s tr) :
    handed tr = [] ∨ ∃ fr rest, handed tr = (.hello, fr) :: rest ∧ fr.seq = s.helloSeq ∧ fr.e.kind = .hello ∧
      (∀ x ∈ rest, x.1 ≠ .hello) ∧ ∀ k ∈ minted tr, fr.seq ≤ k := by
  cases hhand : handed tr with
  | nil => exact .inl rfl
  | cons x rest =>
    refine .inr ?_
    have hl := h.leads
    rw [helloLeads_begun (h.begun (by simp [hhand])), hhand] at hl
    rcases hl with ⟨hnil, -⟩ | ⟨fr, rest', hline, hseq, hkind, hrest⟩
    · cases hnil
    · rw [line, hhand, List.append_assoc, List.cons_append, List.cons.injEq] at hline
      obtain ⟨rfl, hrest'⟩ := hline
      refine ⟨fr, rest, rfl, hseq, hkind, ?_, ?_⟩
      · intro y hy
        exact hrest y (by rw [← hrest']; exact List.mem_append_left _ hy)
      · intro k hk
        rw [h.numbers] at hk
        obtain ⟨m, -, rfl⟩ := List.mem_map.1 hk
        rw [hseq, h.hello]
        exact Int.natCast_nonneg m

/-- **Wire order**, in every interleaving in which `enqueue` follows `start` and fewer than 2^31 numbers
are minted: the encoder sees strictly increasing numbers, the one HELLO first and with the smallest of
them, and each accepted event at most once and in the order of acceptance; and a minted number the
encoder has not seen is HELLO's, the writer's, in the queue, or one of the `drops` that were dropped. -/
theorem wire_order (inputs : List Input) (hin : Machine.AllSteps step AfterStart .init inputs)
    (hfew : Few (run inputs).2) :
    let s := (run inputs).1
    let tr := (run inputs).2
    ((handed tr).map (·.2.seq)).Pairwise (· < ·) ∧
    (handed tr = [] ∨ ∃ fr rest, handed tr = (.hello, fr) :: rest ∧ fr.seq = s.helloSeq ∧ fr.e.kind = .hello ∧
      (∀ x ∈ rest, x.1 ≠ .hello) ∧ ∀ k ∈ minted tr, fr.seq ≤ k) ∧
    (((handed tr).filter (·.1 = .queued)).map (·.2)).Sublist (accepted tr) ∧
    ((accepted tr).map Framed.seq).Pairwise (· < ·) ∧
    (∀ k ∈ minted tr, k ∉ (handed tr).map (·.2.seq) →
      k = s.helloSeq ∨ k ∈ (held s).map (·.2.seq) ∨ k ∈ s.queue.map Framed.seq ∨
        k ∈ (dropped tr).map Framed.seq) ∧
    s.drops = (dropped tr).length := by
  intro s tr
  have h : Lined s tr := lined_run inputs hin hfew
  have hinc : (minted tr).Pairwise (· < ·) := by
    rw [h.numbers, List.pairwise_map]
    exact List.pairwise_lt_range.imp fun hab => Int.ofNat_lt.2 hab
  have hseqs : ((handed tr).map (·.2.seq)).Sublist (helloDue s ++ lineSeqs s tr) := by
    rw [lineSeqs_eq, List.map_append, List.append_assoc]
    exact (List.sublist_append_left _ _).trans (List.sublist_append_right _ _)
  refine ⟨h.order.sublist hseqs, h.hello_first, ?_, hinc.sublist (accepted_sublist_minted tr), ?_, h.drops⟩
  · have hev := h.events
    rw [lineEvents_eq, List.filter_append, List.map_append, List.append_assoc] at hev
    exact (List.sublist_append_left _ _).trans hev
  · intro k hk hnot
    rcases h.accounted k hk with h1 | h1 | h1
    · exact .inl h1
    · rw [lineSeqs_eq, List.map_append, List.mem_append, List.mem_append] at h1
      rcases h1 with (h1 | h1) | h1
      · exact absurd h1 hnot
      · exact .inr (.inl h1)
      · exact .inr (.inr (.inl h1))
    · exact .inr (.inr (.inr h1))

/-- `start`, and the writer up to its first wait. -/
def comeUp : List Input := [.start, .spawn] ++ List.replicate 6 (.writer true 0)

/-- HELLO, a key and a heartbeat, on a queue that had to drop nothing. -/
theorem wire_order_key :
    handed (run (comeUp ++ [.enqueue ⟨.key, 65, true, 0⟩] ++ List.replicate 8 (.writer true 0))).2 =
      [(.hello, ⟨0, ⟨.hello, 0, false, 0⟩⟩), (.queued, ⟨1, ⟨.key, 65, true, 0⟩⟩), (.beat, ⟨2, ⟨.heartbeat, 0, false, 0⟩⟩)] ∧
    ((handed (run (comeUp ++ [.enqueue ⟨.key, 65, true, 0⟩] ++ List.replicate 8 (.writer true 0))).2).map
      (·.2.seq)).Pairwise (· < ·) :=
  ⟨by decide +kernel, (wire_order _ (by decide +kernel) (by unfold Few; decide +kernel)).1⟩

/-- The idle writer's round: a heartbeat is minted, encoded and written. -/
def idleRound : List Input := List.replicate 4 (.writer true 0)

/-- The idle lease whose next number is `k`. -/
def idle (k : Int) : Conn := { (run comeUp).1 with nextSeq := k }

theorem idleRound_run (k : Int) :
    Machine.run step (idle k) idleRound =
      (idle (incr k), [.beat ⟨k, ⟨.heartbeat, 0, false, 0⟩⟩, .handed .beat ⟨k, ⟨.heartbeat, 0, false, 0⟩⟩,
        .silent, .silent]) := rfl

theorem idle_run (n : Nat) (k : Int) :
    (Machine.run step (idle k) (List.replicate n idleRound).flatten).1 = idle (incr^[n] k) := by
  induction n generalizing k with
  | zero => rfl
  | succ n ih =>
    rw [List.replicate_succ, List.flatten_cons, Machine.run_append, idleRound_run]
    exact ih (incr k)

theorem iterate_incr (n : Nat) : incr^[n] 1 = (1 + n : Int).bmod (2 ^ 32) := by
  induction n with
  | zero => rfl
  | succ n ih =>
    rw [Function.iterate_succ_apply', ih, incr, Int.bmod_add_bmod]
    congr 1

/-- The number handed over in the last of the idle rounds. -/
theorem idle_last (n : Nat) :
    (.beat, ⟨(1 + n : Int).bmod (2 ^ 32), ⟨.heartbeat, 0, false, 0⟩⟩) ∈
      handed (Machine.run step (idle 1) (List.replicate (n + 1) idleRound).flatten).2 := by
  rw [List.replicate_succ', List.flatten_append, List.flatten_singleton, Machine.run_append, idle_run,
    iterate_incr, idleRound_run, handed_append]
  exact List.mem_append_right _ (List.mem_singleton_self _)

theorem handed_comeUp (inputs : List Input) :
    handed (run (comeUp ++ inputs)).2 = handed (run comeUp).2 ++ handed (Machine.run step (idle 1) inputs).2 := by
  have hrun : (run comeUp).1 = idle 1 := rfl
  rw [run, Machine.run_append, handed_append, hrun]

/-- **The numbers come round.** After 2^31 heartbeats the encoder is handed a negative number. -/
theorem idle_lease_wraps :
    Machine.AllSteps step AfterStart .init (comeUp ++ (List.replicate (2 ^ 31) idleRound).flatten) ∧
    ¬((handed (run (comeUp ++ (List.replicate (2 ^ 31) idleRound).flatten)).2).map
      (·.2.seq)).Pairwise (· < ·) := by
  constructor
  · apply Machine.AllSteps.of_forall
    intro i hi s
    rcases List.mem_append.1 hi with hi | hi
    · simp only [comeUp, List.mem_append, List.mem_cons, List.not_mem_nil, or_false, List.mem_replicate] at hi
      rcases hi with (rfl | rfl) | ⟨-, rfl⟩ <;> trivial
    · obtain ⟨round, hround, hi⟩ := List.mem_flatten.1 hi
      rw [List.eq_of_mem_replicate hround, idleRound] at hi
      rw [List.eq_of_mem_replicate hi]
      trivial
  · intro hp
    have hlast := idle_last (2 ^ 31 - 1)
    rw [handed_comeUp, List.map_append, List.pairwise_append] at hp
    have hlt := hp.2.2 0 (by decide +kernel) _ (List.mem_map_of_mem hlast)
    revert hlt
    decide

end ShairKindle.Lease
