import ShairKindle.Lease.Basic

/-! # What the listener is told

`markUp` and `markDown` (LeaseConnection.java:186-196) set their latch under the lock and call the
listener after it. The latches are set in the right order, but the writer can lose the processor between
its latch and its call, and another thread's `close` then reports the lease down before the writer
reports it up. Where that does not happen, the listener hears nothing, or up, or up and then down, and
it hears down once every `close` has returned and the writer is gone.
-/

namespace ShairKindle.Lease

/-- The `onLeaseState` calls of a trace. -/
def notified (tr : List Obs) : List Bool :=
  tr.filterMap fun o => match o with
    | .notified up => some up
    | _ => none

/-- A thread is about to report the lease down. -/
def FiringDown (s : Conn) : Prop := s.other = some .fire ∨ s.writer = .close .fire

instance (s : Conn) : Decidable (FiringDown s) := inferInstanceAs (Decidable (_ ∨ _))

/-- What the listener has heard, from the latches and the calls still to be made. -/
def heard (s : Conn) : List Bool :=
  if s.up = false ∨ s.writer = .fireUp then []
  else if s.down = true ∧ ¬FiringDown s then [true, false]
  else [true]

/-- A `close` that has set `closed` and not yet looked at the latches. -/
def DownDue (s : Conn) : Prop :=
  s.other = some .socket ∨ s.other = some .latch ∨ s.writer = .close .socket ∨ s.writer = .close .latch

/-- The step does not report the lease down while the writer has still to report it up. -/
def InTurn (s : Conn) (i : Input) : Prop := i = .closer → s.other = some .fire → s.writer ≠ .fireUp

instance (s : Conn) (i : Input) : Decidable (InTurn s i) := inferInstanceAs (Decidable (_ → _ → _))

structure Told (s : Conn) (tr : List Obs) : Prop where
  told : notified tr = heard s
  latched : s.up = false → s.down = false ∧ s.writer ≠ .fireUp
  firing : FiringDown s → s.down = true
  owed : s.writer = .fireUp → s.down = true → s.other = some .fire
  closing : s.other ≠ none → s.closed = true
  closingSelf : ∀ p, s.writer = .close p → p = .enter ∨ s.closed = true ∧ s.other = none
  due : s.closed = true → s.up = true → s.down = false → DownDue s

theorem told_init : Told .init [] := by
  constructor <;> simp [Conn.init, notified, heard, FiringDown, DownDue]

theorem notified_concat (tr : List Obs) (o : Obs) :
    notified (tr ++ [o]) = notified tr ++ (match o with | .notified up => [up] | _ => []) := by
  unfold notified
  rw [List.filterMap_append]
  cases o <;> rfl

theorem notified_silent (tr : List Obs) : notified (tr ++ [.silent]) = notified tr := by
  rw [notified_concat, List.append_nil]

/-- The listener's view depends on the latches, the report that is owed and the one under way. -/
theorem heard_eq {s s' : Conn} (hup : s'.up = s.up) (hdown : s'.down = s.down)
    (howed : s'.writer = .fireUp ↔ s.writer = .fireUp) (hfire : FiringDown s' ↔ FiringDown s) : heard s' = heard s := by
  simp only [heard, hup, hdown, howed, hfire]

/-- Before the report of down, whether or not its latch is set. -/
theorem heard_before_down {s : Conn} (h : s.down = true → FiringDown s) :
    heard s = if s.up = false ∨ s.writer = .fireUp then [] else [true] := by
  have hnot : ¬(s.down = true ∧ ¬FiringDown s) := fun hd => hd.2 (h hd.1)
  simp only [heard, hnot, if_false]

/-- After it. -/
theorem heard_down {s : Conn} (hup : s.up = true) (howed : s.writer ≠ .fireUp) (hdown : s.down = true)
    (hfire : ¬FiringDown s) : heard s = [true, false] := by
  rw [heard, if_neg (by simp [hup, howed]), if_pos ⟨hdown, hfire⟩]

/-- The writer neither owes the listener a call nor is inside a `close` that has set `closed`. -/
def Writer.plain : Writer → Bool
  | .fireUp => false
  | .close p => p == .enter
  | _ => true

theorem Writer.plain_iff (w : Writer) : w.plain = true ↔ w ≠ .fireUp ∧ ∀ p, w = .close p → p = .enter := by
  cases w <;> simp [Writer.plain]

/-- The lease comes down only after it was up. -/
theorem Told.up_of_down {s : Conn} {tr : List Obs} (h : Told s tr) (hdown : s.down = true) : s.up = true := by
  by_contra hup
  rw [Bool.not_eq_true] at hup
  rw [(h.latched hup).1] at hdown
  cases hdown

/-- Most steps: the latches and the calls under way stay, and the listener is not called. -/
theorem told_frame {s s' : Conn} {tr : List Obs} {o : Obs} (h : Told s tr) (ho : ∀ up, o ≠ .notified up)
    (hclosed : s'.closed = s.closed) (hup : s'.up = s.up) (hdown : s'.down = s.down) (hother : s'.other = s.other)
    (hw : s'.writer = s.writer ∨ s.writer.plain = true ∧ s'.writer.plain = true) : Told s' (tr ++ [o]) := by
  have hn : notified (tr ++ [o]) = notified tr := by
    rw [notified_concat]
    cases o with
    | notified up => exact absurd rfl (ho up)
    | _ => exact List.append_nil _
  obtain ⟨h1, h2, h3, h4, h5, h6, h7⟩ := h
  rcases hw with hw | ⟨hp, hp'⟩
  · have hfire : FiringDown s' ↔ FiringDown s := by rw [FiringDown, FiringDown, hother, hw]
    have hdue : DownDue s' ↔ DownDue s := by rw [DownDue, DownDue, hother, hw]
    constructor
    · rw [hn, h1, heard_eq hup hdown (by rw [hw]) hfire]
    · rwa [hup, hdown, hw]
    · rwa [hfire, hdown]
    · rwa [hw, hdown, hother]
    · rwa [hother, hclosed]
    · rwa [hw, hclosed, hother]
    · rwa [hclosed, hup, hdown, hdue]
  · rw [Writer.plain_iff] at hp hp'
    obtain ⟨hf, hc⟩ := hp
    obtain ⟨hf', hc'⟩ := hp'
    have hfire : FiringDown s' ↔ FiringDown s := by
      simp only [FiringDown, hother]
      constructor <;> rintro (h | h)
      · exact .inl h
      · cases hc' _ h
      · exact .inl h
      · cases hc _ h
    have hdue : DownDue s' ↔ DownDue s := by
      simp only [DownDue, hother]
      constructor <;> rintro (h | h | h | h)
      · exact .inl h
      · exact .inr (.inl h)
      · cases hc' _ h
      · cases hc' _ h
      · exact .inl h
      · exact .inr (.inl h)
      · cases hc _ h
      · cases hc _ h
    constructor
    · rw [hn, h1, heard_eq hup hdown (by simp only [hf, hf']) hfire]
    · rw [hup, hdown]
      exact fun hu => ⟨(h2 hu).1, hf'⟩
    · rw [hfire, hdown]
      exact h3
    · exact fun h => absurd h hf'
    · rw [hother, hclosed]
      exact h5
    · exact fun p hp => .inl (hc' p hp)
    · rw [hclosed, hup, hdown, hdue]
      exact h7

/-- A `close` call of another thread takes the lock first: the lease is closed, and down is due. -/
theorem told_close {s : Conn} {tr : List Obs} (h : Told s tr) (hc : s.closed = false) :
    Told { s with closed := true, out := false, other := some .socket } (tr ++ [.silent]) := by
  obtain ⟨h1, h2, h3, h4, h5, h6, h7⟩ := h
  have hother : s.other = none := by
    by_contra hne
    rw [h5 hne] at hc
    cases hc
  have henter : ∀ p, s.writer = .close p → p = .enter := by
    intro p hp
    rcases h6 p hp with rfl | ⟨hcl, -⟩
    · rfl
    · rw [hcl] at hc
      cases hc
  have hfire : ¬FiringDown s := by
    rintro (h | h)
    · rw [hother] at h
      cases h
    · cases henter _ h
  have hfire' : ¬FiringDown { s with closed := true, out := false, other := some .socket } := by
    rintro (h | h)
    · cases h
    · cases henter _ h
  constructor
  · rw [notified_silent, h1]
    exact heard_eq rfl rfl Iff.rfl (iff_of_false hfire hfire')
  · exact h2
  · exact fun h => absurd h hfire'
  · intro hw hd
    rw [hother] at h4
    cases h4 hw hd
  · exact fun _ => rfl
  · exact fun p hp => .inl (henter p hp)
  · exact fun _ _ _ => .inl rfl

/-- Another thread inside `close` moves on; the writer is not inside a `close` of its own that has set `closed`. -/
theorem Told.other {s s' : Conn} {tr : List Obs} {o : Obs} (h : Told s tr) (hup : s'.up = s.up)
    (hw : s'.writer = s.writer) (hclosed : s'.closed = true) (henter : ∀ p, s.writer = .close p → p = .enter)
    (htold : notified (tr ++ [o]) = heard s') (hlatched : s.up = false → s'.down = false)
    (hfiring : s'.other = some .fire → s'.down = true)
    (howed : s.writer = .fireUp → s'.down = true → s'.other = some .fire)
    (hdue : s.up = true → s'.down = false → s'.other = some .socket ∨ s'.other = some .latch) :
    Told s' (tr ++ [o]) where
  told := htold
  latched hu := ⟨hlatched (hup ▸ hu), hw ▸ (h.latched (hup ▸ hu)).2⟩
  firing := by
    rintro (hq | hf)
    · exact hfiring hq
    · cases henter _ (hw ▸ hf)
  owed hf := howed (hw ▸ hf)
  closing _ := hclosed
  closingSelf p hp := .inl (henter p (hw ▸ hp))
  due _ hu hd := by
    rcases hdue (hup ▸ hu) hd with hq | hq
    · exact .inl hq
    · exact .inr (.inl hq)

/-- The next step of another thread's `close`. -/
theorem told_closer {s : Conn} {tr : List Obs} (h : Told s tr) (p : ClosePhase) (hp : s.other = some p)
    (hturn : p = .fire → s.writer ≠ .fireUp) :
    Told { (closeStep s p).1 with other := (closeStep s p).2.1 } (tr ++ [(closeStep s p).2.2]) := by
  have hclosed : s.closed = true := h.closing (by simp [hp])
  have henter : ∀ q, s.writer = .close q → q = .enter := by
    intro q hq
    rcases h.closingSelf q hq with rfl | ⟨-, hn⟩
    · rfl
    · rw [hp] at hn
      cases hn
  have hself : s.writer ≠ .close .fire := fun hw => nomatch henter _ hw
  -- with the latch as it is, moving between phases that do not report changes nothing for the listener
  have hquiet : ∀ {s' : Conn}, p ≠ .fire → s'.up = s.up → s'.down = s.down → s'.writer = s.writer →
      s'.other ≠ some .fire → notified (tr ++ [.silent]) = heard s' := by
    intro s' hpf hup hdown hw hq
    rw [notified_silent, h.told]
    refine (heard_eq hup hdown (by rw [hw]) (iff_of_false ?_ ?_)).symm
    · simp [FiringDown, hw, hself, hq]
    · simp [FiringDown, hp, hself, hpf]
  have hlatched : s.up = false → s.down = false := fun hup => (h.latched hup).1
  have howed : p ≠ .fire → s.writer = .fireUp → s.down ≠ true := by
    intro hpf hw hd
    have hq := h.owed hw hd
    rw [hp, Option.some.injEq] at hq
    exact hpf hq
  cases p with
  | enter =>
    -- unreached, and harmless: the thread finds the lease closed and returns
    have hstep : closeStep s .enter = (s, none, .silent) := if_pos hclosed
    rw [hstep]
    refine h.other rfl rfl hclosed henter (hquiet (by simp) rfl rfl rfl (by simp)) hlatched (by simp)
      (fun hw hd => absurd hd (howed (by simp) hw)) fun hup hd => ?_
    rcases h.due hclosed hup hd with hq | hq | hw | hw
    · simp [hp] at hq
    · simp [hp] at hq
    · cases henter _ hw
    · cases henter _ hw
  | socket =>
    exact h.other rfl rfl hclosed henter (hquiet (by simp) rfl rfl rfl (by simp [closeStep])) hlatched
      (by simp [closeStep]) (fun hw hd => absurd hd (howed (by simp) hw)) fun _ _ => .inr rfl
  | latch =>
    simp only [closeStep]
    split
    · next hlatch =>
      rw [Bool.and_eq_true, Bool.not_eq_true'] at hlatch
      obtain ⟨hup, hdown⟩ := hlatch
      refine h.other rfl rfl hclosed henter ?_ (by simp [hup]) (fun _ => rfl) (fun _ _ => rfl) (by simp)
      rw [notified_silent, h.told, heard_before_down (by simp [hdown]), heard_before_down fun _ => .inl rfl]
    · next hlatch =>
      refine h.other rfl rfl hclosed henter (hquiet (by simp) rfl rfl rfl (by simp)) hlatched (by simp)
        (fun hw hd => absurd hd (howed (by simp) hw)) fun hup hd => ?_
      rw [hup, show s.down = false from hd] at hlatch
      exact absurd rfl hlatch
  | fire =>
    have hdown : s.down = true := h.firing (.inl hp)
    have hup := h.up_of_down hdown
    refine h.other rfl rfl hclosed henter ?_ hlatched (by simp [closeStep]) (fun hw _ => absurd hw (hturn rfl))
      fun _ hd => ?_
    · have hheard : heard { s with other := none } = [true, false] :=
        heard_down hup (hturn rfl) hdown (by simp [FiringDown, hself])
      rw [notified_concat, h.told, heard_before_down fun _ => .inl hp, if_neg (by simp [hup, hturn rfl])]
      exact hheard.symm
    · rw [show s.down = false from hd] at hdown
      cases hdown

/-- The writer inside its own `close`, with no other thread in one, moves on. -/
theorem told_self {s s' : Conn} {tr : List Obs} {o : Obs} (hup : s'.up = s.up)
    (hother : s'.other = none) (hclosed : s'.closed = true) (howed : s'.writer ≠ .fireUp)
    (htold : notified (tr ++ [o]) = heard s') (hlatched : s.up = false → s'.down = false)
    (hfiring : s'.writer = .close .fire → s'.down = true)
    (hdue : s.up = true → s'.down = false → s'.writer = .close .socket ∨ s'.writer = .close .latch) :
    Told s' (tr ++ [o]) where
  told := htold
  latched hu := ⟨hlatched (hup ▸ hu), howed⟩
  firing := by
    rintro (hq | hw)
    · rw [hother] at hq
      cases hq
    · exact hfiring hw
  owed hw := absurd hw howed
  closing _ := hclosed
  closingSelf _ _ := .inr ⟨hclosed, hother⟩
  due _ hu hd := by
    rcases hdue (hup ▸ hu) hd with hw | hw
    · exact .inr (.inr (.inl hw))
    · exact .inr (.inr (.inr hw))

/-- The next step of the writer's own `close`. -/
theorem told_closeSelf {s : Conn} {tr : List Obs} (h : Told s tr) (p : ClosePhase) (hp : s.writer = .close p) :
    Told { (closeStep s p).1 with writer := match (closeStep s p).2.1 with | some q => .close q | none => .exited }
      (tr ++ [(closeStep s p).2.2]) := by
  have hlatched : s.up = false → s.down = false := fun hup => (h.latched hup).1
  have hfire : s.other = none → (FiringDown s ↔ p = .fire) := by
    intro hn
    simp [FiringDown, hn, hp]
  -- as above: between phases that do not report
  have hquiet : ∀ {s' : Conn}, s.other = none → p ≠ .fire → s'.up = s.up → s'.down = s.down → s'.other = none →
      s'.writer ≠ .fireUp → s'.writer ≠ .close .fire → notified (tr ++ [.silent]) = heard s' := by
    intro s' hn hpf hup hdown hother howed hwf
    rw [notified_silent, h.told]
    refine (heard_eq hup hdown (by simp [hp, howed]) ?_).symm
    rw [hfire hn]
    exact iff_of_false (by simp [FiringDown, hother, hwf]) hpf
  cases p with
  | enter =>
    simp only [closeStep]
    split
    · -- another thread has closed the lease
      exact told_frame h (by simp) rfl rfl rfl rfl (.inr ⟨by rw [hp]; rfl, rfl⟩)
    · next hopen =>
      have hother : s.other = none := by
        by_contra hne
        exact hopen (h.closing hne)
      exact told_self rfl hother rfl (by simp) (hquiet hother (by simp) rfl rfl hother (by simp) (by simp)) hlatched
        (by simp) fun _ _ => .inl rfl
  | socket =>
    obtain ⟨hclosed, hother⟩ := (h.closingSelf _ hp).resolve_left (by simp)
    exact told_self rfl hother hclosed (by simp [closeStep])
      (hquiet hother (by simp) rfl rfl hother (by simp [closeStep]) (by simp [closeStep])) hlatched
      (by simp [closeStep]) fun _ _ => .inr rfl
  | latch =>
    obtain ⟨hclosed, hother⟩ := (h.closingSelf _ hp).resolve_left (by simp)
    simp only [closeStep]
    split
    · next hlatch =>
      rw [Bool.and_eq_true, Bool.not_eq_true'] at hlatch
      obtain ⟨hup, hdown⟩ := hlatch
      refine told_self rfl hother hclosed (by simp) ?_ (by simp [hup]) (fun _ => rfl) (by simp)
      rw [notified_silent, h.told, heard_before_down (by simp [hdown]), heard_before_down fun _ => .inr rfl]
      simp [hp]
    · next hlatch =>
      refine told_self rfl hother hclosed (by simp) (hquiet hother (by simp) rfl rfl hother (by simp) (by simp)) hlatched
        (by simp) fun hup hd => ?_
      rw [hup, show s.down = false from hd] at hlatch
      exact absurd rfl hlatch
  | fire =>
    obtain ⟨hclosed, hother⟩ := (h.closingSelf _ hp).resolve_left (by simp)
    have hdown : s.down = true := h.firing (.inr hp)
    have hup := h.up_of_down hdown
    refine told_self rfl hother hclosed (by simp [closeStep]) ?_ hlatched (by simp [closeStep]) fun _ hd => ?_
    · have hheard : heard { s with writer := .exited } = [true, false] :=
        heard_down hup (by simp) hdown (by simp [FiringDown, hother])
      rw [notified_concat, h.told, heard_before_down fun _ => .inr hp, if_neg (by simp [hup, hp])]
      exact hheard.symm
    · rw [show s.down = false from hd] at hdown
      cases hdown

/-- The step of `writerLoop` that is neither a latch, nor a report, nor inside `close`. -/
theorem plain_afterWrite (origin : Origin) (wrote : Bool) : (afterWrite origin wrote).plain = true := by
  unfold afterWrite
  repeat' split
  all_goals rfl

/-- Up is latched while the lease is open, so nothing has been said yet. -/
theorem told_markUp {s : Conn} {tr : List Obs} (h : Told s tr) (hopen : s.closed = false) (hup : s.up = false) :
    Told { s with up := true, writer := .fireUp } (tr ++ [.silent]) := by
  have hdown := (h.latched hup).1
  have hother : s.other = none := by
    by_contra hne
    rw [h.closing hne] at hopen
    cases hopen
  constructor
  · rw [notified_silent, h.told, heard, heard, if_pos (.inl hup), if_pos (.inr rfl)]
  · simp
  · simp [FiringDown, hother]
  · simp [hdown]
  · exact h.closing
  · simp
  · simp [hopen]

/-- The report of up, before any of down. -/
theorem told_fireUp {s : Conn} {tr : List Obs} (h : Told s tr) (hw : s.writer = .fireUp) :
    Told { s with writer := .loop } (tr ++ [.notified true]) := by
  have hup : s.up = true := by
    by_contra hup
    rw [Bool.not_eq_true] at hup
    exact (h.latched hup).2 hw
  have hfire : FiringDown { s with writer := .loop } ↔ FiringDown s := by simp [FiringDown, hw]
  have hdue : DownDue { s with writer := .loop } ↔ DownDue s := by simp [DownDue, hw]
  constructor
  · have hheard : heard { s with writer := .loop } = [true] :=
      (heard_before_down fun hd => hfire.2 (.inl (h.owed hw hd))).trans (if_neg (by simp [hup]))
    rw [notified_concat, h.told, heard, if_pos (.inr hw), hheard]
    rfl
  · simp [hup]
  · rw [hfire]
    exact h.firing
  · simp
  · exact h.closing
  · simp
  · rw [hdue]
    exact h.due

theorem told_writer {s : Conn} {tr : List Obs} (h : Told s tr) (ok : Bool) (now : Int) :
    Told (writerStep s ok now).1 (tr ++ [(writerStep s ok now).2]) := by
  have stay : ∀ {s' : Conn} {o : Obs}, (∀ up, o ≠ .notified up) → s'.closed = s.closed → s'.up = s.up →
      s'.down = s.down → s'.other = s.other → s.writer.plain = true → s'.writer.plain = true →
      Told s' (tr ++ [o]) :=
    fun ho e1 e2 e3 e4 e5 e6 => told_frame h ho e1 e2 e3 e4 (.inr ⟨e5, e6⟩)
  unfold writerStep
  cases hw : s.writer with
  | unstarted => exact told_frame h (by simp) rfl rfl rfl rfl (.inl rfl)
  | pinned => exact told_frame h (by simp) rfl rfl rfl rfl (.inl rfl)
  | exited => exact told_frame h (by simp) rfl rfl rfl rfl (.inl rfl)
  | entry =>
    dsimp only
    split <;> exact stay (by simp) rfl rfl rfl rfl (by rw [hw]; rfl) rfl
  | write origin fr =>
    refine stay (by simp) rfl rfl rfl rfl (by rw [hw]; rfl) ?_
    cases ok
    · exact plain_afterWrite origin true
    · rfl
  | check origin =>
    refine stay (by simp) rfl rfl rfl rfl (by rw [hw]; rfl) ?_
    dsimp only
    split <;> rfl
  | flush origin => exact stay (by simp) rfl rfl rfl rfl (by rw [hw]; rfl) (plain_afterWrite origin ok)
  | markUp =>
    dsimp only
    split
    · next hlatch =>
      rw [Bool.and_eq_true, Bool.not_eq_true', Bool.not_eq_true'] at hlatch
      exact told_markUp h hlatch.1 hlatch.2
    · exact stay (by simp) rfl rfl rfl rfl (by rw [hw]; rfl) rfl
  | fireUp => exact told_fireUp h hw
  | loop =>
    dsimp only
    split
    · exact stay (by simp) rfl rfl rfl rfl (by rw [hw]; rfl) rfl
    · split
      · exact stay (by simp) rfl rfl rfl rfl (by rw [hw]; rfl) rfl
      · split
        · exact stay (by simp) rfl rfl rfl rfl (by rw [hw]; rfl) rfl
        · exact told_frame h (by simp) rfl rfl rfl rfl (.inl rfl)
  | close p => exact told_closeSelf h p hw

theorem told_step (s : Conn) (tr : List Obs) (i : Input) (h : Told s tr) (hi : InTurn s i) :
    Told (step s i).1 (tr ++ [(step s i).2]) := by
  cases i with
  | start =>
    simp only [step, start]
    split
    · next hw =>
      split
      · exact told_frame h (by simp) rfl rfl rfl rfl (.inl rfl)
      · exact told_frame h (by simp) rfl rfl rfl rfl (.inr ⟨by rw [hw]; rfl, rfl⟩)
    · exact told_frame h (by simp) rfl rfl rfl rfl (.inl rfl)
  | spawn =>
    simp only [step]
    split
    · next hw => exact told_frame h (by simp) rfl rfl rfl rfl (.inr ⟨by rw [hw]; rfl, rfl⟩)
    · exact told_frame h (by simp) rfl rfl rfl rfl (.inl rfl)
  | enqueue e =>
    simp only [step, enqueue]
    split <;> exact told_frame h (by simp) rfl rfl rfl rfl (.inl rfl)
  | close =>
    simp only [step]
    split
    · exact told_frame h (by simp) rfl rfl rfl rfl (.inl rfl)
    · next hc =>
      simp only [Bool.not_eq_true] at hc
      simpa only [closeStep, hc, Bool.false_eq_true, if_false] using told_close h hc
  | closer =>
    simp only [step]
    split
    · exact told_frame h (by simp) rfl rfl rfl rfl (.inl rfl)
    · next p hp => exact told_closer h p hp (fun e => hi rfl (by rw [hp, e]))
  | writer ok now => exact told_writer h ok now

theorem told_run (inputs : List Input) (hin : Machine.AllSteps step InTurn .init inputs) :
    Told (run inputs).1 (run inputs).2 := by
  simpa using Machine.run_hist_of_allSteps Told told_step told_init inputs hin

/-- **Truthful notifications**, in every interleaving in which no `close` reports the lease down between
the writer's `up` latch and its report: the listener hears a beginning of up, down, and once every
`close` has returned and the writer is gone the last thing it heard, if anything, is down. -/
theorem notifications_truthful (inputs : List Input) (hin : Machine.AllSteps step InTurn .init inputs) :
    notified (run inputs).2 <+: [true, false] ∧
    ((run inputs).1.closed = true → (run inputs).1.other = none → (run inputs).1.writer = .exited →
      ∀ last ∈ (notified (run inputs).2).getLast?, last = false) := by
  have h := told_run inputs hin
  rw [h.told]
  constructor
  · unfold heard
    split
    · exact List.nil_prefix
    · split
      · exact List.prefix_rfl
      · exact ⟨[false], rfl⟩
  · intro hc ho hw last hlast
    unfold heard at hlast
    split at hlast
    · cases hlast
    · next hup =>
      obtain ⟨hup, -⟩ := not_or.1 hup
      rw [Bool.not_eq_false] at hup
      split at hlast
      · simpa using hlast.symm
      · next hd =>
        -- an open report is impossible here: whoever closed the lease has looked at the latches
        exfalso
        cases hdown : (run inputs).1.down with
        | true =>
          apply hd
          refine ⟨hdown, ?_⟩
          rintro (h' | h')
          · rw [ho] at h'
            cases h'
          · rw [hw] at h'
            cases h'
        | false =>
          have hdue := h.due hc hup hdown
          simp [DownDue, ho, hw] at hdue

/-- HELLO is sent and `up` latched: the writer is about to report it. -/
def untilUp : List Input := [.start, .spawn] ++ List.replicate 5 (.writer true 0)

/-- Another thread's `close`, to its end. -/
def closeCall : List Input := [.close, .closer, .closer, .closer]

/-- A lease that comes up, sends one key and is closed. -/
def keyThenClose : List Input :=
  untilUp ++ .writer true 0 :: .enqueue ⟨.key, 65, true, 0⟩ :: List.replicate 4 (.writer true 0) ++ closeCall ++
    List.replicate 2 (.writer true 0)

theorem notifications_truthful_key : notified (run keyThenClose).2 <+: [true, false] :=
  (notifications_truthful keyThenClose (by decide +kernel)).1

/-- `close` runs to its end between the writer's latch and its report. -/
def closeInBetween : List Input := untilUp ++ closeCall ++ List.replicate 3 (.writer true 0)

/-- **Down before up.** The listener hears down and then up, and the last word about a closed lease with
no writer is that it is up. -/
theorem close_before_report_reverses :
    notified (run closeInBetween).2 = [false, true] ∧ (run closeInBetween).1.closed = true ∧
      (run closeInBetween).1.other = none ∧ (run closeInBetween).1.writer = .exited := by
  decide +kernel

end ShairKindle.Lease
