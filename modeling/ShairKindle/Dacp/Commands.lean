import ShairKindle.Dacp.State
import ShairKindle.Lib.Run

/-!
# Sending commands while sessions change (src/dacp.c)

`dacp_send_command` (dacp.c:103) snapshots the record, resolves a port for the snapshot's DACP-ID when
none is cached, publishes it under the snapshot's generation, snapshots again and sends if nothing
changed. Only the accesses to the record are under the lock: the resolution takes seconds, and the
RTSP thread goes on. Here any number of threads run `dacp_send_command` (the control thread and the
self-probes of main.c) and the steps between two lock holdings interleave with the RTSP thread's
updates in any order.

`dacp_state_publish_port` compares generations only. A capture may change the DACP-ID within a
generation and clears the cached port for that reason (the comment at dacp_state.c:64-67), but a
resolution already under way for the old ID publishes its port afterwards, and the next command of
the new controller goes there: `stale_port_published`. What the comparison misses is `PublishOk`.
-/

namespace ShairKindle

open Bytes

/-- Where a thread stands in `dacp_send_command`; `taken` counts the sessions begun before its
snapshot, the number whose low 32 bits are the snapshot's generation. -/
inductive CmdPhase
  | idle
  | resolving (snap : DacpState) (taken : Nat)
  | resolved (snap : DacpState) (taken port : Nat)
  | checking (snap : DacpState) (port : Nat)

/-- The record, the threads, and how many sessions have begun. -/
structure DacpSystem where
  st : DacpState
  threads : Nat → CmdPhase
  sessions : Nat

def DacpSystem.init : DacpSystem := ⟨dacpStateInit, fun _ => .idle, 0⟩

def DacpSystem.setThread (s : DacpSystem) (t : Nat) (p : CmdPhase) : DacpSystem :=
  { s with threads := Function.update s.threads t p }

/-- One atomic step: two of the RTSP thread, four of a command thread `t`. -/
inductive DacpEvent
  | newSession
  | capture (id token : Bytes) (peerIpBe : Nat)
  | command (t : Nat)
  | resolve (t port : Nat)
  | publish (t : Nat)
  | recheck (t : Nat)

/-- What happens outside the record. -/
inductive DacpObs
  | none
  | newSession
  | resolved (snap : DacpState) (port : Nat)
  | sent (dacpId : Bytes) (port : Nat)
deriving DecidableEq

/-- The port a command may use without resolving (dacp.c:112). -/
def cachedPort (st : DacpState) : Nat := if st.resolvedGen = st.generation then st.resolvedPort else 0

/-- The final guard (dacp.c:127-136): nothing the command depends on has changed. -/
def recheckOk (snap cur : DacpState) : Bool :=
  cur.haveCreds && cur.generation == snap.generation && cur.peerIpBe == snap.peerIpBe &&
    cur.dacpId == snap.dacpId && cur.activeRemote == snap.activeRemote

/-- One step. A step that does not fit the thread's phase does nothing. -/
def dacpStep (s : DacpSystem) : DacpEvent → DacpSystem × DacpObs
  | .newSession => ({ s with st := dacpStateNewSession s.st, sessions := s.sessions + 1 }, .newSession)
  | .capture id token peer => ({ s with st := dacpStateCapture s.st id token peer }, .none)
  | .command t =>
    match s.threads t with
    | .idle =>
      if !s.st.haveCreds then (s, .none)
      else
        (s.setThread t (if cachedPort s.st = 0 then .resolving s.st s.sessions
          else .checking s.st (cachedPort s.st)), .none)
    | _ => (s, .none)
  | .resolve t port =>
    match s.threads t with
    | .resolving snap taken =>
      if port = 0 then (s.setThread t .idle, .none)
      else (s.setThread t (.resolved snap taken port), .resolved snap port)
    | _ => (s, .none)
  | .publish t =>
    match s.threads t with
    | .resolved snap _ port =>
      ({ s.setThread t (.checking snap port) with st := dacpStatePublishPort s.st snap.generation port }, .none)
    | _ => (s, .none)
  | .recheck t =>
    match s.threads t with
    | .checking snap port =>
      -- a port out of range fails in `dacp_format_request` (dacp.c:33)
      if recheckOk snap s.st && 1 ≤ port && port ≤ 65535 then (s.setThread t .idle, .sent s.st.dacpId port)
      else (s.setThread t .idle, .none)
    | _ => (s, .none)

/-- A run from the initial record with every thread idle. -/
abbrev runDacp (evs : List DacpEvent) : DacpSystem × List DacpObs := Machine.run dacpStep DacpSystem.init evs

/-- A publish from this phase that passes the generation check comes from the current controller: the
record still has the snapshot's DACP-ID, and the equal generations are of one session (the counter
did not wrap while the thread was resolving). -/
def CmdPhase.Current (s : DacpSystem) : CmdPhase → Prop
  | .resolved snap taken _ => snap.generation = s.st.generation → s.st.dacpId = snap.dacpId ∧ taken = s.sessions
  | _ => True

instance (s : DacpSystem) : (p : CmdPhase) → Decidable (p.Current s)
  | .resolved snap taken _ =>
    inferInstanceAs (Decidable (snap.generation = s.st.generation → s.st.dacpId = snap.dacpId ∧ taken = s.sessions))
  | .idle | .resolving _ _ | .checking _ _ => .isTrue trivial

/-- The condition the generation check alone does not establish. -/
def PublishOk (s : DacpSystem) : DacpEvent → Prop
  | .publish t => (s.threads t).Current s
  | _ => True

instance (s : DacpSystem) : (e : DacpEvent) → Decidable (PublishOk s e)
  | .publish t => inferInstanceAs (Decidable ((s.threads t).Current s))
  | .newSession | .capture _ _ _ | .command _ | .resolve _ _ | .recheck _ => .isTrue trivial

/-! ## The invariant -/

/-- Since the last session began, a resolution of `id` under generation `gen` returned `port`. -/
def ResolvedNow (tr : List DacpObs) (id : Bytes) (gen port : Nat) : Prop :=
  ∃ pre post snap, tr = pre ++ .resolved snap port :: post ∧ snap.dacpId = id ∧ snap.generation = gen ∧
    ∀ o ∈ post, o ≠ .newSession

/-- A resolution of `id` that returned `port`. -/
def DacpObs.resolves (id : Bytes) (port : Nat) : DacpObs → Bool
  | .resolved snap p => snap.dacpId == id && p == port
  | _ => false

/-- Some resolution of `id` returned `port`. -/
def ResolvedEver (tr : List DacpObs) (id : Bytes) (port : Nat) : Prop := ∃ o ∈ tr, o.resolves id port = true

theorem ResolvedNow.ever {tr : List DacpObs} {id : Bytes} {gen port : Nat} (h : ResolvedNow tr id gen port) :
    ResolvedEver tr id port := by
  obtain ⟨pre, post, snap, rfl, hid, _⟩ := h
  exact ⟨.resolved snap port, by simp, by simp [DacpObs.resolves, hid]⟩

theorem ResolvedNow.concat {tr : List DacpObs} {id : Bytes} {gen port : Nat} {o : DacpObs}
    (h : ResolvedNow tr id gen port) (ho : o ≠ .newSession) : ResolvedNow (tr ++ [o]) id gen port := by
  obtain ⟨pre, post, snap, rfl, hid, hg, hpost⟩ := h
  refine ⟨pre, post ++ [o], snap, by simp, hid, hg, fun x hx => ?_⟩
  rcases List.mem_append.1 hx with hx | hx
  · exact hpost x hx
  · rw [List.mem_singleton.1 hx]
    exact ho

theorem ResolvedEver.concat {tr : List DacpObs} {id : Bytes} {port : Nat} (o : DacpObs) (h : ResolvedEver tr id port) :
    ResolvedEver (tr ++ [o]) id port := by
  obtain ⟨x, hm, hx⟩ := h
  exact ⟨x, List.mem_append_left _ hm, hx⟩

/-- What a thread's phase says about the trace. -/
def PhaseOk (tr : List DacpObs) (sessions : Nat) : CmdPhase → Prop
  | .idle => True
  | .resolving _ taken => taken ≤ sessions
  | .resolved snap taken port =>
    taken ≤ sessions ∧ ResolvedEver tr snap.dacpId port ∧
      (taken = sessions → ResolvedNow tr snap.dacpId snap.generation port)
  | .checking snap port => ResolvedEver tr snap.dacpId port

/-- Every sent command went to a port resolved before for its DACP-ID. -/
def SentOk (tr : List DacpObs) : Prop :=
  ∀ pre post id port, tr = pre ++ .sent id port :: post → ResolvedEver pre id port

/-- The cached port is the current controller's, and the threads know where theirs come from. -/
structure PortInv (s : DacpSystem) (tr : List DacpObs) : Prop where
  cached : s.st.resolvedPort ≠ 0 → ResolvedNow tr s.st.dacpId s.st.generation s.st.resolvedPort
  phase : ∀ t, PhaseOk tr s.sessions (s.threads t)
  sent : SentOk tr

theorem PhaseOk.concat {tr : List DacpObs} {sessions : Nat} {p : CmdPhase} {o : DacpObs} (h : PhaseOk tr sessions p)
    (ho : o ≠ .newSession) : PhaseOk (tr ++ [o]) sessions p := by
  cases p with
  | idle => trivial
  | resolving snap taken => exact h
  | resolved snap taken port => exact ⟨h.1, h.2.1.concat o, fun ht => (h.2.2 ht).concat ho⟩
  | checking snap port => exact ResolvedEver.concat o h

/-- A new session outdates what the threads resolved. -/
theorem PhaseOk.newSession {tr : List DacpObs} {sessions : Nat} {p : CmdPhase} (h : PhaseOk tr sessions p) :
    PhaseOk (tr ++ [.newSession]) (sessions + 1) p := by
  cases p with
  | idle => trivial
  | resolving snap taken => exact Nat.le_succ_of_le h
  | resolved snap taken port =>
    refine ⟨Nat.le_succ_of_le h.1, h.2.1.concat _, fun ht => ?_⟩
    have := h.1
    omega
  | checking snap port => exact ResolvedEver.concat _ h

theorem SentOk.concat {tr : List DacpObs} {o : DacpObs} (h : SentOk tr)
    (ho : ∀ id port, o = .sent id port → ResolvedEver tr id port) : SentOk (tr ++ [o]) := by
  intro pre post id port he
  rcases List.eq_nil_or_concat post with rfl | ⟨post, o', rfl⟩
  · obtain ⟨rfl, ho'⟩ := List.append_inj' he rfl
    exact ho id port (List.singleton_inj.1 ho')
  · rw [List.concat_eq_append, ← List.cons_append, ← List.append_assoc] at he
    obtain ⟨rfl, -⟩ := List.append_inj' he rfl
    exact h pre post id port rfl

/-- A step that leaves the record alone, emits nothing but a send from the cache, and moves one
thread to a justified phase. -/
theorem PortInv.setThread {s : DacpSystem} {tr : List DacpObs} {o : DacpObs} {t : Nat} {p : CmdPhase}
    (h : PortInv s tr) (ho : o ≠ .newSession) (hsent : ∀ id port, o = .sent id port → ResolvedEver tr id port)
    (hp : PhaseOk (tr ++ [o]) s.sessions p) : PortInv (s.setThread t p) (tr ++ [o]) := by
  refine ⟨fun hne => (h.cached hne).concat ho, fun u => ?_, h.sent.concat hsent⟩
  simp only [DacpSystem.setThread, Function.update_apply]
  split
  · exact hp
  · exact (h.phase u).concat ho

theorem PortInv.unchanged {s : DacpSystem} {tr : List DacpObs} (h : PortInv s tr) : PortInv s (tr ++ [.none]) :=
  ⟨fun hne => (h.cached hne).concat (by simp), fun t => (h.phase t).concat (by simp), h.sent.concat (by simp)⟩

theorem PortInv.init : PortInv DacpSystem.init [] :=
  ⟨fun hne => absurd rfl hne, fun _ => trivial, fun pre post id port he => by simp at he⟩

theorem PortInv.step {s : DacpSystem} {tr : List DacpObs} (h : PortInv s tr) (e : DacpEvent) (hok : PublishOk s e) :
    PortInv (dacpStep s e).1 (tr ++ [(dacpStep s e).2]) := by
  cases e with
  | newSession =>
    exact ⟨fun hne => absurd rfl hne, fun t => (h.phase t).newSession, h.sent.concat (by simp [dacpStep])⟩
  | capture id token peer =>
    obtain ⟨hg, hport⟩ := dacpStateCapture_spec s.st id token peer
    refine ⟨fun hne => ?_, fun t => (h.phase t).concat (by simp [dacpStep]), h.sent.concat (by simp [dacpStep])⟩
    simp only [dacpStep] at hne ⊢
    rcases hport with h0 | ⟨hp, hid⟩
    · exact absurd h0 hne
    · rw [hg, hp, hid]
      exact (h.cached (hp ▸ hne)).concat (by simp)
  | command t =>
    simp only [dacpStep]
    split
    · split
      · exact h.unchanged
      · refine h.setThread (by simp) (by simp) ?_
        by_cases hc : cachedPort s.st = 0
        · rw [if_pos hc]
          exact Nat.le_refl s.sessions
        · -- a cached port is used only if it is not 0, so its owner is known
          have hp : cachedPort s.st = s.st.resolvedPort := by
            unfold cachedPort at hc ⊢
            split at hc
            · exact if_pos ‹_›
            · exact absurd rfl hc
          rw [if_neg hc, hp]
          exact ((h.cached (hp ▸ hc)).concat (by simp)).ever
    · exact h.unchanged
  | resolve t port =>
    simp only [dacpStep]
    split
    · rename_i snap taken hth
      have hp := h.phase t
      rw [hth] at hp
      split
      · exact h.setThread (by simp) (by simp) trivial
      · have hnow : ResolvedNow (tr ++ [.resolved snap port]) snap.dacpId snap.generation port :=
          ⟨tr, [], snap, rfl, rfl, rfl, by simp⟩
        exact h.setThread (by simp) (by simp) ⟨hp, hnow.ever, fun _ => hnow⟩
    · exact h.unchanged
  | publish t =>
    simp only [dacpStep, PublishOk] at hok ⊢
    split
    · rename_i snap taken port hth
      have hp := h.phase t
      rw [hth] at hp
      simp only [hth, CmdPhase.Current] at hok
      have hset : PortInv (s.setThread t (.checking snap port)) (tr ++ [.none]) :=
        h.setThread (by simp) (by simp) (hp.2.1.concat _)
      refine ⟨?_, hset.phase, hset.sent⟩
      simp only [dacpStatePublishPort]
      split
      · rename_i hg
        intro _
        obtain ⟨hid, ht⟩ := hok hg
        rw [hid, ← hg]
        exact (hp.2.2 ht).concat (by simp)
      · exact hset.cached
    · exact h.unchanged
  | recheck t =>
    simp only [dacpStep]
    split
    · rename_i snap port hth
      have hp := h.phase t
      rw [hth] at hp
      split
      · rename_i hc
        simp only [recheckOk, Bool.and_eq_true, beq_iff_eq] at hc
        refine h.setThread (by simp) ?_ trivial
        rintro id q he
        obtain ⟨rfl, rfl⟩ := DacpObs.sent.inj he
        rw [hc.1.1.1.2]
        exact hp
      · exact h.setThread (by simp) (by simp) trivial
    · exact h.unchanged

/-! ## The cached port -/

/-- **The cached port belongs to the current controller** in every state of every run whose publishes
all meet `PublishOk`: a port in the record was returned by a resolution of the record's DACP-ID under
its generation since that session began, and every command sent went to a port some resolution of its
DACP-ID had returned. -/
theorem cached_port_current (evs : List DacpEvent)
    (h : Machine.AllSteps dacpStep PublishOk DacpSystem.init evs) :
    ((runDacp evs).1.st.resolvedPort ≠ 0 →
      ResolvedNow (runDacp evs).2 (runDacp evs).1.st.dacpId (runDacp evs).1.st.generation
        (runDacp evs).1.st.resolvedPort) ∧
    ∀ pre post id port, (runDacp evs).2 = pre ++ .sent id port :: post → ResolvedEver pre id port := by
  have hinv := Machine.run_hist_of_allSteps PortInv (fun s tr e hs hp => hs.step e hp) PortInv.init evs h
  rw [List.nil_append] at hinv
  exact ⟨hinv.cached, hinv.sent⟩

/-- One controller, one command: its port is resolved, cached and used. -/
def oneCommand : List DacpEvent :=
  [.newSession, .capture (ascii "aabb") (ascii "111") 7, .command 0, .resolve 0 40000, .publish 0, .recheck 0]

theorem cached_port_current_one_command :
    (runDacp oneCommand).1.st.resolvedPort = 40000 ∧
    ResolvedNow (runDacp oneCommand).2 (ascii "AABB") 1 40000 :=
  ⟨by decide +kernel, (cached_port_current oneCommand (by decide +kernel)).1 (by decide +kernel)⟩

/-- The controller changes while a port for the old one is being resolved. -/
def changeWhileResolving : List DacpEvent :=
  [.newSession, .capture (ascii "aabb") (ascii "111") 7, .command 0, .capture (ascii "ccdd") (ascii "222") 7,
    .resolve 0 40000, .publish 0, .recheck 0, .command 0, .recheck 0]

/-- The port resolved for AABB ends up cached for CCDD, for which nothing was ever resolved, and the
next command goes there. -/
theorem stale_port_published :
    (runDacp changeWhileResolving).1.st.resolvedPort = 40000 ∧
    (runDacp changeWhileResolving).1.st.dacpId = ascii "CCDD" ∧
    ¬ ResolvedEver (runDacp changeWhileResolving).2 (ascii "CCDD") 40000 ∧
    .sent (ascii "CCDD") 40000 ∈ (runDacp changeWhileResolving).2 := by
  unfold ResolvedEver
  decide +kernel

end ShairKindle
