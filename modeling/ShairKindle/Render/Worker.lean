import ShairKindle.Lib.Run
import ShairKindle.Server.Capture
import Mathlib.Data.Finset.Basic

/-! # The render worker (`src/nprender.c`)

The publishers change the now-playing record under its own lock and then call `nprender_wake`; the
worker waits for the dirty flag, debounces, clears the flag, takes a snapshot and dispatches a render
unless the snapshot's key is the one it dispatched last. One input is one atomic step of one thread, so
a list of inputs is an interleaving.

| here                    | there                                                    |
|-------------------------|----------------------------------------------------------|
| `Locals`                | the locals of `worker_main` (nprender.c:150-155)         |
| `Phase`                 | where the worker is in its loop (:157-218)               |
| `Input.publish`         | `np_publish_meta` and its siblings (npstate.c:26-71)     |
| `Input.wake`            | `nprender_wake` (:252)                                   |
| `Input.stop`            | the locked part of `nprender_stop` (:261-265)            |
| `between`               | publishers that have published and not yet woken         |
-/

namespace ShairKindle.Render

/-! ## The record and its key -/

/-- The four publishers (npstate.c:26-71). -/
inductive Update
  | songMeta (m : DaapMeta)
  | art
  | playing (on : Bool)
  | reset
deriving DecidableEq, Repr

def Update.apply (np : NpState) : Update → NpState
  | .songMeta m => npPublishMeta np m
  | .art => npPublishArt np
  | .playing on => npSetPlaying np on
  | .reset => npReset np

/-- The value a counter has as an `unsigned long` of the device. -/
def ulong (n : Nat) : Nat := n % 2 ^ 32

/-- What `worker_main` compares to skip a redundant render (nprender.c:184). -/
def dedupKey (np : NpState) : Nat × Nat × Bool := (ulong np.gen, ulong np.artSerial, np.playing)

/-- `b` is `a` after some updates: the counters only grow, and what they guard changes with them. -/
structure Since (a b : NpState) : Prop where
  gen : a.gen ≤ b.gen
  artSerial : a.artSerial ≤ b.artSerial
  songMeta : a.gen = b.gen → a.songMeta = b.songMeta
  haveArt : a.gen = b.gen → a.artSerial = b.artSerial → a.haveArt = b.haveArt

theorem Since.refl (a : NpState) : Since a a := ⟨le_rfl, le_rfl, fun _ => rfl, fun _ _ => rfl⟩

theorem Since.trans {a b c : NpState} (h : Since a b) (h' : Since b c) : Since a c := by
  have hg := h.gen
  have hg' := h'.gen
  have ha := h.artSerial
  have ha' := h'.artSerial
  refine ⟨by omega, by omega, ?_, ?_⟩
  · intro e
    rw [h.songMeta (by omega), h'.songMeta (by omega)]
  · intro e ea
    rw [h.haveArt (by omega) (by omega), h'.haveArt (by omega) (by omega)]

theorem Since.update (np : NpState) (u : Update) : Since np (u.apply np) := by
  cases u with
  | songMeta m =>
    simp only [Update.apply, npPublishMeta]
    split
    · exact .refl np
    · constructor <;> simp
  | art => constructor <;> simp [Update.apply, npPublishArt]
  | playing on => constructor <;> simp [Update.apply, npSetPlaying]
  | reset => constructor <;> simp [Update.apply, npReset]

/-- The counters have not come round. -/
def Unwrapped (np : NpState) : Prop := np.gen < 2 ^ 32 ∧ np.artSerial < 2 ^ 32

/-- The key decides the record while its counters have not come round. -/
theorem Since.eq_of_key {a b : NpState} (h : Since a b) (hb : Unwrapped b) (hk : dedupKey a = dedupKey b) :
    a = b := by
  obtain ⟨hg, ha, hm, hh⟩ := h
  obtain ⟨hbg, hba⟩ := hb
  simp only [dedupKey, ulong, Prod.mk.injEq] at hk
  obtain ⟨kg, ka, kp⟩ := hk
  have eg : a.gen = b.gen := by omega
  have ea : a.artSerial = b.artSerial := by omega
  have em := hm eg
  have eh := hh eg ea
  cases a
  cases b
  simp_all

/-! ## The worker's loop -/

/-- What the screen shows after a dispatched render: `last_layout` (nprender.c:154). -/
inductive Layout
  | none
  | splash
  | card
deriving DecidableEq, Repr

/-- The mode token handed to the renderer. -/
inductive Mode
  | splash
  | flash
  | draw
deriving DecidableEq, Repr

def Mode.layout : Mode → Layout
  | .splash => .splash
  | .flash => .card
  | .draw => .card

/-- The locals of `worker_main` (nprender.c:150). The `int`s that start at -1 are `none` there. -/
structure Locals where
  lastDrawnGen : Nat
  seenGen : Nat
  seenArtSerial : Nat
  seenPlaying : Option Bool
  lastLayout : Layout
  lastHaveArt : Option Bool
deriving DecidableEq, Repr

/-- `seen_gen` starts at `(unsigned long)-1`. -/
def Locals.init : Locals := ⟨0, 2 ^ 32 - 1, 0, none, .none, none⟩

/-- The comparison that skips a render (nprender.c:184). -/
def Locals.unchanged (l : Locals) (snap : NpState) : Bool :=
  ulong snap.gen == l.seenGen && ulong snap.artSerial == l.seenArtSerial && some snap.playing == l.seenPlaying

/-- The mode of the render (nprender.c:201-209). -/
def Locals.mode (l : Locals) (snap : NpState) : Mode :=
  if snap.playing then
    if l.lastLayout ≠ .card ∨ ulong snap.gen ≠ l.lastDrawnGen ∨ some snap.haveArt ≠ l.lastHaveArt then .flash
    else .draw
  else .splash

/-- What a dispatched render leaves in the locals (nprender.c:203, :211, :216). -/
def Locals.commit (l : Locals) (snap : NpState) : Locals :=
  let l' := if snap.playing then
      { l with lastLayout := .card, lastDrawnGen := ulong snap.gen, lastHaveArt := some snap.haveArt }
    else { l with lastLayout := .splash }
  { l' with
    seenGen := ulong snap.gen, seenArtSerial := ulong snap.artSerial, seenPlaying := some snap.playing }

inductive Phase
  | waiting
  | debounce
  | cleared
  | taken (snap : NpState)
  | drawing (mode : Mode) (snap : NpState)
  | exited
deriving DecidableEq, Repr

structure State where
  np : NpState
  dirty : Bool
  running : Bool
  phase : Phase
  locals : Locals
  between : Finset Nat
deriving DecidableEq

/-- After `nprender_start` (nprender.c:242). -/
def State.init (paintOnStart : Bool) : State :=
  ⟨.init, paintOnStart, true, .waiting, .init, ∅⟩

inductive Input
  | publish (thread : Nat) (u : Update)
  | wake (thread : Nat)
  | stop
  | worker (renders : Bool)
deriving DecidableEq, Repr

inductive Obs
  | silent
  | updated
  | woken
  | dispatched (mode : Mode) (snap : NpState)
  | failed
deriving DecidableEq, Repr

/-- One step of `worker_main`. `renders` is whether `do_render` returns 0, where it is called. -/
def workerStep (s : State) (renders : Bool) : State × Obs :=
  match s.phase with
  | .waiting =>
    if !s.running then ({ s with phase := .exited }, .silent)
    else if s.dirty then ({ s with phase := .debounce }, .silent)
    else (s, .silent)
  | .debounce => ({ s with phase := .cleared, dirty := false }, .silent)
  | .cleared => ({ s with phase := .taken s.np }, .silent)
  | .taken snap =>
    if s.locals.unchanged snap then ({ s with phase := .waiting }, .silent)
    else ({ s with phase := .drawing (s.locals.mode snap) snap }, .silent)
  | .drawing mode snap =>
    if renders then ({ s with phase := .waiting, locals := s.locals.commit snap }, .dispatched mode snap)
    else ({ s with phase := .waiting }, .failed)
  | .exited => (s, .silent)

def step (s : State) : Input → State × Obs
  | .publish t u => ({ s with np := u.apply s.np, between := insert t s.between }, .updated)
  | .wake t => ({ s with dirty := true, between := s.between.erase t }, .woken)
  | .stop => ({ s with running := false, dirty := true }, .silent)
  | .worker renders => workerStep s renders

abbrev run (paint : Bool) (inputs : List Input) : State × List Obs :=
  Machine.run step (State.init paint) inputs

/-! ## What the worker remembers -/

/-- The last render dispatched in a trace. -/
def lastRender : List Obs → Option (Mode × NpState)
  | [] => none
  | .dispatched mode snap :: tr => (lastRender tr).or (some (mode, snap))
  | _ :: tr => lastRender tr

theorem lastRender_append (tr tr' : List Obs) : lastRender (tr ++ tr') = (lastRender tr').or (lastRender tr) := by
  induction tr with
  | nil => simp [lastRender]
  | cons o tr ih => cases o <;> simp [lastRender, ih]

/-- The locals are those of the last dispatched render. -/
def Remembers (l : Locals) : Option (Mode × NpState) → Prop
  | none => l = .init
  | some (mode, r) =>
    l.seenGen = ulong r.gen ∧ l.seenArtSerial = ulong r.artSerial ∧ l.seenPlaying = some r.playing ∧
      l.lastLayout = mode.layout ∧
      (mode.layout = .card → l.lastDrawnGen = ulong r.gen ∧ l.lastHaveArt = some r.haveArt)

theorem mode_layout (l : Locals) (snap : NpState) :
    (l.mode snap).layout = if snap.playing then .card else .splash := by
  unfold Locals.mode
  split
  · split <;> rfl
  · rfl

theorem remembers_commit (l : Locals) (snap : NpState) (mode : Mode)
    (hmode : mode.layout = if snap.playing then .card else .splash) :
    Remembers (l.commit snap) (some (mode, snap)) := by
  cases hp : snap.playing <;> simp_all [Remembers, Locals.commit]

/-- A skipped snapshot has the key of the last dispatched one. -/
theorem key_of_unchanged {l : Locals} {last : Option (Mode × NpState)} {snap : NpState}
    (h : Remembers l last) (hu : l.unchanged snap) :
    ∃ mode r, last = some (mode, r) ∧ dedupKey r = dedupKey snap := by
  simp only [Locals.unchanged, Bool.and_eq_true, beq_iff_eq] at hu
  obtain ⟨⟨ug, ua⟩, up⟩ := hu
  cases last with
  | none =>
    -- the first pass: `seen_playing` is -1, which no snapshot has
    rw [show l = .init from h] at up
    cases up
  | some p =>
    obtain ⟨mode, r⟩ := p
    obtain ⟨hg, ha, hp, -, -⟩ := h
    refine ⟨mode, r, rfl, ?_⟩
    rw [← up, Option.some.injEq] at hp
    simp only [dedupKey, Prod.mk.injEq]
    exact ⟨by rw [ug, hg], by rw [ua, ha], hp.symm⟩

/-! ## The invariant -/

/-- The number of updates in a trace. -/
def updates (tr : List Obs) : Nat := tr.count .updated

/-- Fewer than 2^32 updates, and every render succeeded. -/
def Ok (tr : List Obs) : Prop := updates tr < 2 ^ 32 ∧ Obs.failed ∉ tr

/-- The worker holds the current record, if no publisher still has to wake it: what it will compare or
draw, or what it drew last. -/
def Current (s : State) (tr : List Obs) : Prop :=
  match s.phase with
  | .waiting => Obs.woken ∈ tr → ∃ mode, lastRender tr = some (mode, s.np)
  | .debounce => False
  | .cleared => True
  | .taken snap => snap = s.np
  | .drawing _ snap => snap = s.np
  | .exited => True

/-- The snapshot the worker has taken and not yet drawn. -/
def Phase.snap : Phase → Option NpState
  | .taken snap => some snap
  | .drawing _ snap => some snap
  | _ => none

structure Inv (s : State) (tr : List Obs) : Prop where
  counted : s.np.gen ≤ updates tr ∧ s.np.artSerial ≤ updates tr
  remembers : Remembers s.locals (lastRender tr)
  rendered : ∀ mode r, lastRender tr = some (mode, r) → Since r s.np
  held : ∀ snap, s.phase.snap = some snap →
    Since snap s.np ∧ ∀ mode r, lastRender tr = some (mode, r) → Since r snap
  drawing : ∀ mode snap, s.phase = .drawing mode snap → mode = s.locals.mode snap
  current : s.dirty = false → s.between = ∅ → Current s tr

theorem inv_init (paint : Bool) : Inv (.init paint) [] := by
  constructor
  · exact ⟨le_rfl, le_rfl⟩
  · rfl
  · intro mode r h
    cases h
  · intro snap h
    cases h
  · intro mode snap h
    cases h
  · intro _ _ hw
    cases hw

/-- A step that shows no render leaves the last one. -/
theorem lastRender_concat {tr : List Obs} {o : Obs} (h : ∀ mode snap, o ≠ .dispatched mode snap) :
    lastRender (tr ++ [o]) = lastRender tr := by
  rw [lastRender_append]
  cases o <;> simp_all [lastRender]

theorem updates_concat (tr : List Obs) (o : Obs) :
    updates (tr ++ [o]) = updates tr + if o = .updated then 1 else 0 := by
  simp only [updates, List.count_append, List.count_singleton]
  cases o <;> rfl

theorem Ok.of_append {tr tr' : List Obs} (h : Ok (tr ++ tr')) : Ok tr := by
  obtain ⟨hu, hf⟩ := h
  rw [updates, List.count_append] at hu
  refine ⟨?_, fun hm => hf (List.mem_append_left _ hm)⟩
  unfold updates
  omega

theorem apply_le (np : NpState) (u : Update) :
    (u.apply np).gen ≤ np.gen + 1 ∧ (u.apply np).artSerial ≤ np.artSerial + 1 := by
  cases u with
  | songMeta m =>
    simp only [Update.apply, npPublishMeta]
    split <;> simp
  | art => simp [Update.apply, npPublishArt]
  | playing on => simp [Update.apply, npSetPlaying]
  | reset => simp [Update.apply, npReset]

theorem Inv.unwrapped {s : State} {tr : List Obs} (h : Inv s tr) (hok : Ok tr) : Unwrapped s.np := by
  have hg := h.counted.1
  have ha := h.counted.2
  have hu := hok.1
  exact ⟨by omega, by omega⟩

/-- A publish: the record moves on, and its publisher now owes a wake. -/
theorem inv_publish {s : State} {tr : List Obs} (h : Inv s tr) (t : Nat) (u : Update) :
    Inv (step s (.publish t u)).1 (tr ++ [(step s (.publish t u)).2]) := by
  have hlast : lastRender (tr ++ [.updated]) = lastRender tr := lastRender_concat (by simp)
  have hup := Since.update s.np u
  constructor
  · have hle := apply_le s.np u
    have hc := h.counted
    simp only [step, updates_concat]
    constructor <;> simp <;> omega
  · simpa only [step, hlast] using h.remembers
  · intro mode r hr
    simp only [step, hlast] at hr ⊢
    exact (h.rendered mode r hr).trans hup
  · intro snap hsnap
    obtain ⟨hs, hr⟩ := h.held snap hsnap
    refine ⟨hs.trans hup, ?_⟩
    simpa only [step, hlast] using hr
  · exact h.drawing
  · intro _ hb
    simp [step] at hb

/-- A step that neither publishes nor renders: a snapshot it holds was held before or is the record. -/
theorem inv_quiet {s s' : State} {tr : List Obs} {o : Obs} (h : Inv s tr) (ho : o = .woken ∨ o = .silent)
    (hnp : s'.np = s.np) (hloc : s'.locals = s.locals)
    (hheld : ∀ snap, s'.phase.snap = some snap → snap = s.np ∨ s.phase.snap = some snap)
    (hdraw : ∀ mode snap, s'.phase = .drawing mode snap → mode = s.locals.mode snap)
    (hcur : s'.dirty = false → s'.between = ∅ → Current s' (tr ++ [o])) : Inv s' (tr ++ [o]) := by
  have hlast : lastRender (tr ++ [o]) = lastRender tr := lastRender_concat (by rcases ho with rfl | rfl <;> simp)
  have hupd : updates (tr ++ [o]) = updates tr := by
    rw [updates_concat]
    rcases ho with rfl | rfl <;> rfl
  constructor
  · rw [hnp, hupd]
    exact h.counted
  · rw [hloc, hlast]
    exact h.remembers
  · rw [hnp, hlast]
    exact h.rendered
  · intro snap hsnap
    rw [hnp, hlast]
    rcases hheld snap hsnap with rfl | hs
    · exact ⟨.refl s.np, h.rendered⟩
    · exact h.held snap hs
  · rw [hloc]
    exact hdraw
  · exact hcur

/-- One step of the worker. -/
theorem inv_worker {s : State} {tr : List Obs} (h : Inv s tr) (renders : Bool)
    (hok : Ok (tr ++ [(workerStep s renders).2])) :
    Inv (workerStep s renders).1 (tr ++ [(workerStep s renders).2]) := by
  have hquiet : Obs.woken ∈ tr ++ [.silent] ↔ Obs.woken ∈ tr := by simp
  have hlast : lastRender (tr ++ [.silent]) = lastRender tr := lastRender_concat (by simp)
  unfold workerStep at hok ⊢
  cases hph : s.phase with
  | waiting =>
    simp only [hph] at hok ⊢
    split
    · exact inv_quiet h (.inr rfl) rfl rfl (by simp [Phase.snap]) (by simp) (by simp [Current])
    split
    · next hd => exact inv_quiet h (.inr rfl) rfl rfl (by simp [Phase.snap]) (by simp) (by simp [hd])
    · refine inv_quiet h (.inr rfl) rfl rfl (fun _ hs => .inr hs) h.drawing ?_
      intro hd hb
      have hc := h.current hd hb
      simp only [Current, hph, hquiet, hlast] at hc ⊢
      exact hc
  | debounce => exact inv_quiet h (.inr rfl) rfl rfl (by simp [Phase.snap]) (by simp) (by simp [Current])
  | cleared =>
    exact inv_quiet h (.inr rfl) rfl rfl (by simp [Phase.snap]) (by simp) (by simp [Current])
  | taken snap =>
    simp only [hph] at hok ⊢
    have hsnap : s.phase.snap = some snap := by rw [hph]; rfl
    split
    · next hu =>
      refine inv_quiet h (.inr rfl) rfl rfl (by simp [Phase.snap]) (by simp) ?_
      intro hd hb
      -- the skipped snapshot is the record, and has the key of the last render, so it is that render's
      have hc := h.current hd hb
      simp only [Current, hph] at hc
      obtain ⟨mode, r, hr, hk⟩ := key_of_unchanged h.remembers hu
      rw [hc] at hk
      have hrn := (h.rendered mode r hr).eq_of_key (h.unwrapped hok.of_append) hk
      intro _
      exact ⟨mode, by rw [hlast, hr, hrn]⟩
    · refine inv_quiet h (.inr rfl) rfl rfl ?_ ?_ ?_
      · intro snap' hs'
        exact .inr (hsnap.trans hs')
      · rintro mode snap' ⟨rfl, rfl⟩
        rfl
      · intro hd hb
        have hc := h.current hd hb
        simpa only [Current, hph] using hc
  | drawing mode snap =>
    have hsnap : s.phase.snap = some snap := by rw [hph]; rfl
    obtain ⟨hs, -⟩ := h.held snap hsnap
    cases renders with
    | false => simp [hph, Ok] at hok
    | true =>
      have hl : lastRender (tr ++ [.dispatched mode snap]) = some (mode, snap) := by
        simp [lastRender_append, lastRender]
      simp only [if_true]
      constructor
      · rw [updates_concat]
        exact h.counted
      · rw [hl]
        apply remembers_commit
        rw [h.drawing mode snap hph]
        exact mode_layout s.locals snap
      · rw [hl]
        rintro mode' r ⟨rfl, rfl⟩
        exact hs
      · simp [Phase.snap]
      · simp
      · intro hd hb _
        have hc := h.current hd hb
        simp only [Current, hph] at hc
        exact ⟨mode, by rw [hl, hc]⟩
  | exited =>
    refine inv_quiet h (.inr rfl) rfl rfl (fun _ hs => .inr hs) h.drawing ?_
    simp [Current, hph]

theorem inv_step (s : State) (tr : List Obs) (i : Input) (h : Inv s tr) (hok : Ok (tr ++ [(step s i).2])) :
    Inv (step s i).1 (tr ++ [(step s i).2]) := by
  cases i with
  | publish t u => exact inv_publish h t u
  | wake t => exact inv_quiet h (.inl rfl) rfl rfl (fun _ hs => .inr hs) h.drawing (by simp [step])
  | stop => exact inv_quiet h (.inr rfl) rfl rfl (fun _ hs => .inr hs) h.drawing (by simp [step])
  | worker renders => exact inv_worker h renders hok

theorem inv_run (paint : Bool) (inputs : List Input) (hok : Ok (run paint inputs).2) :
    Inv (run paint inputs).1 (run paint inputs).2 :=
  Machine.run_hist Inv Ok (fun _ _ => Ok.of_append) (inv_init paint) inv_step inputs hok

/-! ## No update is lost or suppressed -/

theorem since_step (a : NpState) (s : State) (i : Input) (h : Since a s.np) : Since a (step s i).1.np := by
  cases i with
  | publish t u => exact h.trans (.update s.np u)
  | wake t => exact h
  | stop => exact h
  | worker renders =>
    have hnp : (workerStep s renders).1.np = s.np := by
      unfold workerStep
      repeat' split
      all_goals rfl
    rw [step, hnp]
    exact h

/-- **The key is sufficient.** Two snapshots of one run with the same key are the same record. -/
theorem snapshots_eq_of_key (paint : Bool) (xs ys : List Input) (hok : Ok (run paint (xs ++ ys)).2)
    (hk : dedupKey (run paint xs).1.np = dedupKey (run paint (xs ++ ys)).1.np) :
    (run paint xs).1.np = (run paint (xs ++ ys)).1.np := by
  have hu := (inv_run paint (xs ++ ys) hok).unwrapped hok
  refine Since.eq_of_key ?_ hu hk
  unfold run
  rw [Machine.run_append]
  exact Machine.run_inv (fun s => Since (run paint xs).1.np s.np) (fun s i => since_step _ s i) (.refl _) ys

/-- Only the worker dispatches, from its drawing phase. -/
theorem phase_of_dispatched {s : State} {i : Input} {mode : Mode} {snap : NpState}
    (h : (step s i).2 = .dispatched mode snap) : s.phase = .drawing mode snap := by
  cases i with
  | publish t u => cases h
  | wake t => cases h
  | stop => cases h
  | worker renders =>
    cases hph : s.phase <;> simp only [step, workerStep, hph] at h
    case drawing mode' snap' =>
      split at h
      · cases h
        rfl
      · cases h
    case waiting =>
      split at h
      · cases h
      · split at h <;> cases h
    case taken => split at h <;> cases h
    all_goals cases h

/-- **A draw without a flash.** The card it repaints was the last thing dispatched. -/
theorem draw_over_card {s : State} {tr : List Obs} (h : Inv s tr) (hu : Unwrapped s.np) {snap : NpState}
    (hph : s.phase = .drawing .draw snap) :
    ∃ mode r, lastRender tr = some (mode, r) ∧ mode.layout = .card ∧
      r.songMeta = snap.songMeta ∧ r.haveArt = snap.haveArt := by
  have hmode := h.drawing _ _ hph
  obtain ⟨hs, hr⟩ := h.held snap (by rw [hph]; rfl)
  have hrem := h.remembers
  -- `draw` is chosen only after a card with this generation and this art presence
  obtain ⟨hlay, hgen, hart⟩ : s.locals.lastLayout = .card ∧ ulong snap.gen = s.locals.lastDrawnGen ∧
      some snap.haveArt = s.locals.lastHaveArt := by
    unfold Locals.mode at hmode
    split at hmode
    · split at hmode
      · cases hmode
      · next hne => simpa only [not_or, not_not] using hne
    · cases hmode
  cases hl : lastRender tr with
  | none =>
    rw [hl] at hrem
    rw [show s.locals = .init from hrem] at hlay
    cases hlay
  | some p =>
    obtain ⟨mode, r⟩ := p
    rw [hl] at hrem
    obtain ⟨-, -, -, hml, hcard⟩ := hrem
    have hlm : mode.layout = .card := hml.symm.trans hlay
    obtain ⟨hrg, hra⟩ := hcard hlm
    have hrs := hr mode r hl
    have hg1 := hrs.gen
    have hg2 := hs.gen
    have hg3 := hu.1
    rw [hrg] at hgen
    simp only [ulong] at hgen
    refine ⟨mode, r, rfl, hlm, hrs.songMeta (by omega), ?_⟩
    rw [hra, Option.some.injEq] at hart
    exact hart.symm

/-- **No update is lost or suppressed**, in every interleaving of publishers and worker with fewer than
2^32 updates and no failed render: the key decides the record; a waiting worker with a clear flag and no
publisher on its way has drawn the record; and a draw without a flash repaints the card that is shown. -/
theorem render_complete (paint : Bool) (inputs : List Input) (hok : Ok (run paint inputs).2) :
    (∀ xs ys, xs ++ ys <+: inputs →
      dedupKey (run paint xs).1.np = dedupKey (run paint (xs ++ ys)).1.np →
      (run paint xs).1.np.songMeta = (run paint (xs ++ ys)).1.np.songMeta ∧
        (run paint xs).1.np.haveArt = (run paint (xs ++ ys)).1.np.haveArt) ∧
    (Obs.woken ∈ (run paint inputs).2 → (run paint inputs).1.phase = .waiting →
      (run paint inputs).1.dirty = false → (run paint inputs).1.between = ∅ →
      ∃ mode, lastRender (run paint inputs).2 = some (mode, (run paint inputs).1.np)) ∧
    (∀ pre snap post, (run paint inputs).2 = pre ++ .dispatched .draw snap :: post →
      ∃ mode r, lastRender pre = some (mode, r) ∧ mode.layout = .card ∧
        r.songMeta = snap.songMeta ∧ r.haveArt = snap.haveArt) := by
  refine ⟨?_, ?_, ?_⟩
  · rintro xs ys ⟨zs, rfl⟩ hk
    have hok' : Ok (run paint (xs ++ ys)).2 := by
      unfold run at hok ⊢
      rw [Machine.run_append] at hok
      exact hok.of_append
    rw [snapshots_eq_of_key paint xs ys hok' hk]
    exact ⟨rfl, rfl⟩
  · intro hw hph hd hb
    have hc := (inv_run paint inputs hok).current hd hb
    simp only [Current, hph] at hc
    exact hc hw
  · intro pre snap post htr
    rw [htr] at hok
    obtain ⟨is₁, i, is₂, rfl, hpre, hi, -⟩ := Machine.run_split htr
    have hpok : Ok pre := hok.of_append
    rw [← hpre] at hpok ⊢
    have hinv := inv_run paint is₁ hpok
    exact draw_over_card hinv (hinv.unwrapped hpok) (phase_of_dispatched hi)

/-- A track is published, its art arrives while the worker debounces, playback starts, and the same art
comes once more: a splash, a flash and a draw. -/
def trackSession : List Input :=
  let round := List.replicate 5 (Input.worker true)
  [.publish 0 (.songMeta ⟨[65], [66], [67]⟩), .wake 0, .worker true, .publish 1 .art, .wake 1] ++ round ++
    [.publish 0 (.playing true), .wake 0] ++ round ++ [.publish 1 .art, .wake 1] ++ round

theorem render_complete_track : Ok (run false trackSession).2 ∧
    ∃ mode, lastRender (run false trackSession).2 = some (mode, (run false trackSession).1.np) := by
  have hok : Ok (run false trackSession).2 := ⟨by decide +kernel, by decide +kernel⟩
  refine ⟨hok, (render_complete false trackSession hok).2.1 ?_ ?_ ?_ ?_⟩
  all_goals decide +kernel

end ShairKindle.Render
