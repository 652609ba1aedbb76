import ShairKindle.Supervisor.Lease

/-!
# One run of the supervisor (src/supervisor_main.c)

`airplay-supervisor` binds its port, publishes a pidfile, serves one connection and exits. What it does to the outside
(scripts it runs, datagrams it relays, the pidfile) and what it is told are logged in one trace, in order, for every
environment: every failure of the setup, every result of `poll` and `read`, every cutting of the stream, every clock
and a signal at every turn.

| here | there |
| --- | --- |
| `supervisorTeardown` | `supervisor_teardown` (supervisor_main.c:206) |
| `relayCmd`, `relayOf` | `relay_cmd` (supervisor_main.c:44) and its calls |
| `supEvent`, `supEvents` | the loop over the events of one read (supervisor_main.c:327-340) |
| `supTurn`, `supLoop` | the loop of a session (supervisor_main.c:299-341) |
| `supSession` | from `accept` to the end of the session (supervisor_main.c:289-345) |
| `main` | `main` (supervisor_main.c:222) |

The loop runs until it ends by itself or the signal flag is set; `turns` are the turns it takes with the flag clear, so
the end of the list is the turn that finds it set. A script is its exit status. The three theorems at the end are about
every trace: it is bracketed by the reconciliation and one teardown (`session_is_bracketed`), the relayed commands are
the ones in the stream (`relayed_eq_commands`), and silence ends the lease (`silence_ends_the_session`).
-/

namespace ShairKindle.Supervisor

open Bytes

/-! ## The code -/

/-- What the process does (`publish` and `unpublish` are the pidfile) and what it is told: `tick` is a check of the
heartbeat that leaves the lease on. -/
inductive Act
  | publish
  | unpublish
  | airplayOn (rc : Int)
  | airplayOff
  | relay (datagram : Bytes)
  | tick (nowMs : Int)
  | read (data : Bytes)
  | event (ev : SupEvent) (nowMs : Int)
deriving DecidableEq

structure St where
  sup : SupState
  lb : SupLb
  torn : Bool
  out : List Act

def St.log (st : St) (acts : List Act) : St := { st with out := st.out ++ acts }

def supervisorTeardown (st : St) : St :=
  if st.torn then st else { st with torn := true }.log [.airplayOff, .unpublish]

/-- The datagram of `relay_cmd`. -/
def relayCmd (cmd : Bytes) : Bytes := cmd ++ [10]

def relayOf : SupEvent → Option Bytes
  | .next => some (relayCmd (ascii "NEXT"))
  | .prev => some (relayCmd (ascii "PREV"))
  | .playpause => some (relayCmd (ascii "PLAYPAUSE"))
  | _ => none

/-- The step of the lease, and its action; the flag is `active`. -/
def supAct (st : St) (ev : SupEvent) (nowMs : Int) : St × Bool :=
  let r := supStep st.sup ev nowMs
  let st := { st with sup := r.1 }
  if r.2 = .stop then (supervisorTeardown st, false) else (st, true)

def supEvent (st : St) (ev : SupEvent) (nowMs : Int) : St × Bool :=
  supAct (st.log ((relayOf ev).toList.map .relay ++ [.event ev nowMs])) ev nowMs

/-- `nowMs` is the clock at each event. -/
def supEvents (nowMs : Nat → Int) : Nat → St → List SupEvent → St × Bool
  | _, st, [] => (st, true)
  | i, st, ev :: evs =>
    let r := supEvent st ev (nowMs i)
    if r.2 then supEvents nowMs (i + 1) r.1 evs else r

/-- What `read` returns; no byte is the end of the connection. -/
inductive Read
  | interrupted
  | failed
  | data (bytes : Bytes)

inductive Poll
  | interrupted
  | failed
  | timeout
  | hangup
  | readable (read : Read)

structure Turn where
  tickMs : Int
  poll : Poll
  nowMs : Nat → Int

/-- The connection is gone: the session ends, whatever the step says. -/
def supEof (st : St) (nowMs : Int) : St × Bool := ((supAct (st.log [.event .eof nowMs]) .eof nowMs).1, false)

/-- One turn of the loop; the flag says that it goes on. -/
def supTurn (st : St) (t : Turn) : St × Bool :=
  let r := supAct st .tick t.tickMs
  if !r.2 then r
  else
    let st := r.1.log [.tick t.tickMs]
    match t.poll with
    | .interrupted => (st, true)
    | .failed => (st, false)
    | .timeout => (st, true)
    | .hangup => supEof st (t.nowMs 0)
    | .readable .interrupted => (st, true)
    | .readable .failed => supEof st (t.nowMs 0)
    | .readable (.data bytes) =>
      let rb := bytes.take 256
      if rb = [] then supEof st (t.nowMs 0)
      else
        let p := supLbPush st.lb rb 256
        supEvents t.nowMs 0 ({ st with lb := p.1 }.log [.read rb]) p.2

def supLoop : St → List Turn → St
  | st, [] => st
  | st, t :: ts =>
    let r := supTurn st t
    if r.2 then supLoop r.1 ts else r.1

/-- What a session meets: the clock at `accept`, the status of `airplay-on`, the turns and the clock at the end. -/
structure Client where
  acceptMs : Int
  rc : Int
  turns : List Turn
  stopMs : Int

/-- A stop of the supervisor's own accord. -/
def supStop (st : St) (nowMs : Int) : St := supervisorTeardown { st with sup := (supStep st.sup .stop nowMs).1 }

def supSession (st : St) (c : Client) : St :=
  let st := { st with sup := (supStep st.sup .accept c.acceptMs).1 }.log [.event .accept c.acceptMs, .airplayOn c.rc]
  if c.rc ≠ 0 then supStop st c.stopMs
  else
    let st := supLoop { st with lb := supLbInit } c.turns
    if st.sup.phase = .active then supStop st c.stopMs else st

/-- What a run meets: whether `setsid`, the socket and the pidfile work, and the client that `accept` returns before
the pre-lease timeout or a signal, if any. -/
structure Env where
  setup : Bool
  writePidfile : Bool
  client : Option Client

/-- The exit status and the trace. -/
def main (e : Env) : Nat × List Act :=
  if !e.setup then (1, [])
  else if !e.writePidfile then (1, [])
  else
    let st : St := ⟨supStateInit, supLbInit, false, [.publish, .airplayOff]⟩
    let st := match e.client with
      | none => st
      | some c => supSession st c
    (0, (supervisorTeardown st).out)

/-! ## Reading a trace -/

/-- The bytes read. -/
def received (tr : List Act) : Bytes := tr.flatMap fun a => match a with
  | .read data => data
  | _ => []

/-- The datagrams relayed. -/
def relayed (tr : List Act) : List Bytes := tr.filterMap fun a => match a with
  | .relay d => some d
  | _ => none

/-- When the client last gave a sign of life. -/
def lastSign (tr : List Act) : Option Int :=
  tr.foldl (fun r a => match a with
    | .event ev t => if ev.refreshes then some t else r
    | _ => r) none

/-- What happens while the session is on. -/
def Act.ofSession : Act → Bool
  | .relay _ | .tick _ | .read _ | .event _ _ => true
  | _ => false

/-- Every check of the heartbeat that leaves the lease on has a sign of life in the thirty seconds before it. -/
def Timely (tr : List Act) : Prop :=
  ∀ pre t post, tr = pre ++ .tick t :: post → ∃ r, lastSign pre = some r ∧ t - supHeartbeatTimeoutMs ≤ r

/-- The commands of the stream up to the first stop. -/
def commands (s : Bytes) : List Bytes := ((lineEvents s).takeWhile (· ≠ .stop)).filterMap relayOf

@[simp] theorem received_append (a b : List Act) : received (a ++ b) = received a ++ received b := List.flatMap_append

@[simp] theorem relayed_append (a b : List Act) : relayed (a ++ b) = relayed a ++ relayed b := List.filterMap_append

theorem lastSign_concat (tr : List Act) (a : Act) :
    lastSign (tr ++ [a]) = match a with
      | .event ev t => if ev.refreshes then some t else lastSign tr
      | _ => lastSign tr := by
  rw [lastSign, List.foldl_append]
  cases a <;> rfl

theorem timely_concat {tr : List Act} {a : Act} (h : Timely tr)
    (ha : ∀ t, a = .tick t → ∃ r, lastSign tr = some r ∧ t - supHeartbeatTimeoutMs ≤ r) : Timely (tr ++ [a]) := by
  intro pre t post heq
  rcases List.eq_nil_or_concat post with rfl | ⟨post, x, rfl⟩
  · obtain ⟨rfl, hx⟩ := List.append_inj' heq rfl
    exact ha t (List.singleton_inj.1 hx)
  · rw [List.concat_eq_append, ← List.cons_append, ← List.append_assoc] at heq
    exact h pre t post (List.append_inj' heq rfl).1

/-! ## The lease while it is on -/

theorem supStep_stop {s : SupState} (h : s.phase = .active) (t : Int) :
    supStep s .stop t = ({ s with phase := .idle }, .stop) := by
  rw [supStep, if_pos h]

theorem supStep_eof {s : SupState} (h : s.phase = .active) (t : Int) :
    supStep s .eof t = ({ s with phase := .idle }, .stop) := by
  rw [supStep, if_pos h]

theorem supClassifyLine_cases (l : Bytes) :
    supClassifyLine l = .stop ∨ (supClassifyLine l).refreshes = true ∧ supClassifyLine l ≠ .accept ∨ supClassifyLine l = .none := by
  simp only [supClassifyLine]
  split_ifs <;> simp [SupEvent.refreshes]

/-! ## The invariant -/

/-- The trace of a session that began at `t0`, up to its end. -/
structure Told (t0 : Int) (tr : List Act) : Prop where
  session : ∃ mid, tr = [.publish, .airplayOff, .event .accept t0, .airplayOn 0] ++ mid ∧ ∀ a ∈ mid, a.ofSession = true
  timely : Timely tr
  relays : relayed tr = commands (received tr)

/-- The session is on and the events `es` of the last read are still to come. -/
structure Serving (t0 : Int) (es : List SupEvent) (st : St) : Prop where
  torn : st.torn = false
  active : st.sup.phase = .active
  session : ∃ mid, st.out = [.publish, .airplayOff, .event .accept t0, .airplayOn 0] ++ mid ∧ ∀ a ∈ mid, a.ofSession = true
  sign : lastSign st.out = some st.sup.lastHbMs
  timely : Timely st.out
  stream : ∃ evs p, .stop ∉ evs ∧ Pending st.lb p ∧ relayed st.out = evs.filterMap relayOf ∧
    ∀ rest, lineEvents (received st.out ++ rest) = evs ++ (es ++ lineEvents (p ++ rest))

/-- The session is over and the teardown has run. -/
structure Over (t0 : Int) (st : St) : Prop where
  torn : st.torn = true
  idle : st.sup.phase = .idle
  told : ∃ tr, Told t0 tr ∧ st.out = tr ++ [.airplayOff, .unpublish]

variable {t0 : Int} {es : List SupEvent} {st : St}

theorem lineEvents_pending {lb : SupLb} {p : Bytes} (hp : Pending lb p) : lineEvents p = [] := by
  simp [lineEvents, lines_no_lf hp.no_lf]

/-- The events to come, up to a first stop. -/
theorem Serving.commands_eq (h : Serving t0 es st) :
    commands (received st.out) = relayed st.out ++ (es.takeWhile (· ≠ .stop)).filterMap relayOf := by
  obtain ⟨evs, p, hno, hp, hrel, hev⟩ := h.stream
  have hall := hev []
  rw [List.append_nil, List.append_nil, lineEvents_pending hp, List.append_nil] at hall
  have htake : ∀ ev ∈ evs, decide (ev ≠ .stop) = true := fun ev hmem => by
    rw [decide_eq_true_eq]
    rintro rfl
    exact hno hmem
  rw [commands, hall, List.takeWhile_append_of_pos htake, List.filterMap_append, hrel]

/-- What is left of the last read is lines. -/
theorem Serving.mem_line (h : Serving t0 es st) {ev : SupEvent} (hev : ev ∈ es) : ∃ l, ev = supClassifyLine l := by
  obtain ⟨evs, p, -, -, -, hall⟩ := h.stream
  have hmem : ev ∈ lineEvents (received st.out ++ []) := by
    rw [hall []]
    exact List.mem_append_right _ (List.mem_append_left _ hev)
  obtain ⟨l, -, hl⟩ := List.mem_map.1 hmem
  exact ⟨l, hl.symm⟩

/-- The end of a session, at a point where nothing is left of the read before a stop. -/
theorem Serving.over (h : Serving t0 es st) (hes : (es.takeWhile (· ≠ .stop)).filterMap relayOf = []) :
    Over t0 (supervisorTeardown { st with sup := { st.sup with phase := .idle } }) := by
  have hcmd := h.commands_eq
  rw [hes, List.append_nil] at hcmd
  rw [supervisorTeardown, if_neg (by simp [h.torn])]
  exact ⟨rfl, rfl, st.out, ⟨h.session, h.timely, hcmd.symm⟩, rfl⟩

/-- Something is logged that concerns neither the stream nor the relays, and a tick only in time. -/
theorem Serving.log (h : Serving t0 es st) (a : Act) (ha : a.ofSession = true) (hread : ∀ d, a ≠ .read d)
    (hrelay : ∀ d, a ≠ .relay d) (hsign : lastSign (st.out ++ [a]) = lastSign st.out)
    (htick : ∀ t, a = .tick t → t - supHeartbeatTimeoutMs ≤ st.sup.lastHbMs) : Serving t0 es (st.log [a]) := by
  have hrec : received (st.out ++ [a]) = received st.out := by
    cases a <;> simp [received] at hread ⊢
  have hrel : relayed (st.out ++ [a]) = relayed st.out := by
    cases a <;> simp [relayed] at hrelay ⊢
  obtain ⟨mid, hmid, hall⟩ := h.session
  refine ⟨h.torn, h.active, ⟨mid ++ [a], ?_, ?_⟩, hsign.trans h.sign, ?_, ?_⟩
  · rw [St.log, hmid, List.append_assoc]
  · intro b hb
    rcases List.mem_append.1 hb with hb | hb
    · exact hall b hb
    · rw [List.mem_singleton.1 hb]
      exact ha
  · exact timely_concat h.timely fun t ht => ⟨_, h.sign, htick t ht⟩
  · simp only [St.log, hrec, hrel]
    exact h.stream

/-! ## One event -/

theorem relay_quiet (tr : List Act) (o : Option Bytes) (h : Timely tr) :
    Timely (tr ++ o.toList.map .relay) ∧ lastSign (tr ++ o.toList.map .relay) = lastSign tr ∧
      received (tr ++ o.toList.map .relay) = received tr ∧ relayed (tr ++ o.toList.map .relay) = relayed tr ++ o.toList := by
  cases o with
  | none => simp [h]
  | some d =>
    refine ⟨timely_concat h fun t ht => (nomatch ht), lastSign_concat tr (.relay d), ?_, ?_⟩
    · simp [received]
    · simp [relayed]

/-- What a line does to a lease that is on, when it is no stop. -/
theorem supStep_line {s : SupState} (hs : s.phase = .active) {l : Bytes} (hne : supClassifyLine l ≠ .stop) (t : Int) :
    supStep s (supClassifyLine l) t = (if (supClassifyLine l).refreshes then { s with lastHbMs := t } else s, .none) := by
  rcases supClassifyLine_cases l with hc | ⟨hr, hacc⟩ | hc
  · exact absurd hc hne
  · obtain ⟨he, -⟩ | ⟨-, hr', -⟩ | ⟨-, -, he⟩ | ⟨hi | hr', -⟩ := supStep_cases s (supClassifyLine l) t
    · exact absurd he hacc
    · exact absurd (hr.symm.trans hr') (by decide)
    · rw [he, if_pos hr]
    · exact absurd (hs.symm.trans hi) (by decide)
    · exact absurd (hr.symm.trans hr') (by decide)
  · rw [hc]
    rfl

/-- An event that is no stop is relayed if it is a command, and counts as a sign of life if it is one. -/
theorem Serving.event {ev : SupEvent} (h : Serving t0 (ev :: es) st) (hne : ev ≠ .stop) (t : Int) :
    (supEvent st ev t).2 = true ∧ Serving t0 es (supEvent st ev t).1 := by
  obtain ⟨l, rfl⟩ := h.mem_line List.mem_cons_self
  generalize hacts : (relayOf (supClassifyLine l)).toList.map Act.relay = acts
  have hout : supEvent st (supClassifyLine l) t =
      ({ st.log (acts ++ [.event (supClassifyLine l) t]) with
        sup := if (supClassifyLine l).refreshes then { st.sup with lastHbMs := t } else st.sup }, true) := by
    have hlogged : (st.log (acts ++ [.event (supClassifyLine l) t])).sup = st.sup := rfl
    rw [supEvent, hacts, supAct, hlogged, supStep_line h.active hne]
    rfl
  obtain ⟨htimely, hsign, hrec, hrel⟩ := relay_quiet st.out (relayOf (supClassifyLine l)) h.timely
  rw [hacts] at htimely hsign hrec hrel
  obtain ⟨mid, hmid, hall⟩ := h.session
  obtain ⟨evs, p, hno, hp, hrelayed, hev⟩ := h.stream
  rw [hout]
  refine ⟨rfl, h.torn, ?_, ⟨mid ++ (acts ++ [.event (supClassifyLine l) t]), ?_, fun a ha => ?_⟩, ?_, ?_,
    evs ++ [supClassifyLine l], p, ?_, hp, ?_, fun rest => ?_⟩
  · dsimp only
    split
    · exact h.active
    · exact h.active
  · simp only [St.log, hmid, List.append_assoc]
  · rcases List.mem_append.1 ha with ha | ha
    · exact hall a ha
    rcases List.mem_append.1 ha with ha | ha
    · rw [← hacts] at ha
      obtain ⟨d, -, rfl⟩ := List.mem_map.1 ha
      rfl
    · rw [List.mem_singleton.1 ha]
      rfl
  · simp only [St.log]
    rw [← List.append_assoc, lastSign_concat]
    dsimp only
    split
    · rfl
    · rw [hsign]
      exact h.sign
  · simp only [St.log]
    rw [← List.append_assoc]
    exact timely_concat htimely fun t ht => (nomatch ht)
  · rw [List.mem_append, List.mem_singleton, not_or]
    exact ⟨hno, hne.symm⟩
  · simp only [St.log]
    rw [← List.append_assoc, relayed_append, hrel, hrelayed, List.filterMap_append]
    cases hr : relayOf (supClassifyLine l) <;> simp [relayed, hr]
  · simp only [St.log]
    rw [← List.append_assoc, received_append, hrec]
    simpa [received] using hev rest

theorem Serving.stop (h : Serving t0 (.stop :: es) st) (t : Int) :
    (supEvent st .stop t).2 = false ∧ Over t0 (supEvent st .stop t).1 := by
  have hlog := h.log (.event .stop t) rfl (fun d hd => (nomatch hd)) (fun d hd => (nomatch hd)) (lastSign_concat _ _)
    fun t ht => (nomatch ht)
  have hout : supEvent st .stop t =
      (supervisorTeardown { st.log [.event .stop t] with sup := { (st.log [.event .stop t]).sup with phase := .idle } }, false) := by
    rw [supEvent, supAct]
    simp only [relayOf, Option.toList_none, List.map_nil, List.nil_append]
    rw [supStep_stop hlog.active]
    rfl
  rw [hout]
  exact ⟨rfl, hlog.over (by simp)⟩

/-- **The events of one read.** -/
theorem Serving.events (nowMs : Nat → Int) : ∀ {es : List SupEvent} {st : St} (i : Nat), Serving t0 es st →
    ((supEvents nowMs i st es).2 = true ∧ Serving t0 [] (supEvents nowMs i st es).1) ∨
      (supEvents nowMs i st es).2 = false ∧ Over t0 (supEvents nowMs i st es).1
  | [], st, i, h => .inl ⟨rfl, h⟩
  | ev :: es, st, i, h => by
    rw [supEvents]
    by_cases hstop : ev = .stop
    · subst hstop
      obtain ⟨hgo, hover⟩ := h.stop (nowMs i)
      simp only [hgo, Bool.false_eq_true, if_false]
      exact .inr ⟨trivial, hover⟩
    · obtain ⟨hgo, hserve⟩ := h.event hstop (nowMs i)
      simp only [hgo, if_true]
      exact Serving.events nowMs (i + 1) hserve

/-! ## One turn -/

theorem Serving.eof (h : Serving t0 [] st) (t : Int) : (supEof st t).2 = false ∧ Over t0 (supEof st t).1 := by
  have hlog := h.log (.event .eof t) rfl (fun d hd => (nomatch hd)) (fun d hd => (nomatch hd)) (lastSign_concat _ _)
    fun t ht => (nomatch ht)
  refine ⟨rfl, ?_⟩
  rw [supEof, supAct, supStep_eof hlog.active]
  exact hlog.over rfl

/-- A read puts its bytes behind the stream and the events of the lines they finish before those to come. -/
theorem Serving.read (h : Serving t0 [] st) (rb : Bytes) (hlen : rb.length ≤ 256) :
    Serving t0 (supLbPush st.lb rb 256).2 ({ st with lb := (supLbPush st.lb rb 256).1 }.log [.read rb]) := by
  obtain ⟨evs, p, hno, hp, hrelayed, hev⟩ := h.stream
  obtain ⟨new, hnew, hcons⟩ := consumes_bytes 256 rb st.lb [] (by simpa using hlen)
  obtain ⟨q, hq, hrest⟩ := hcons p hp
  obtain ⟨mid, hmid, hall⟩ := h.session
  rw [List.nil_append] at hnew
  refine ⟨h.torn, h.active, ⟨mid ++ [.read rb], ?_, fun a ha => ?_⟩, (lastSign_concat _ _).trans h.sign, ?_,
    evs, q, hno, hq, ?_, fun rest => ?_⟩
  · simp only [St.log, hmid, List.append_assoc]
  · rcases List.mem_append.1 ha with ha | ha
    · exact hall a ha
    · rw [List.mem_singleton.1 ha]
      rfl
  · exact timely_concat h.timely fun t ht => (nomatch ht)
  · rw [← hrelayed]
    simp [St.log, relayed]
  · have hone : received ({ st with lb := (supLbPush st.lb rb 256).1 }.log [.read rb]).out = received st.out ++ rb := by
      simp [St.log, received]
    rw [hone, List.append_assoc, hev, List.nil_append, hrest, supLbPush, hnew]

/-- **One turn** leaves the lease on with nothing to come, or ends the session. The loop may also end with the lease on,
when `poll` fails. -/
theorem Serving.turn (h : Serving t0 [] st) (t : Turn) :
    Serving t0 [] (supTurn st t).1 ∨ (supTurn st t).2 = false ∧ Over t0 (supTurn st t).1 := by
  by_cases hlate : st.sup.lastHbMs < t.tickMs - supHeartbeatTimeoutMs
  · right
    have hact : supAct st .tick t.tickMs =
        (supervisorTeardown { st with sup := { st.sup with phase := .idle } }, false) := by
      rw [supAct, supStep_tick_active _ _ h.active, if_pos hlate]
      rfl
    rw [supTurn, hact]
    exact ⟨rfl, h.over rfl⟩
  · have hact : supAct st .tick t.tickMs = (st, true) := by
      rw [supAct, supStep_tick_active _ _ h.active, if_neg hlate]
      rfl
    have htick := h.log (.tick t.tickMs) rfl (fun d hd => (nomatch hd)) (fun d hd => (nomatch hd)) (lastSign_concat _ _)
      fun t' ht => by
        obtain rfl := Act.tick.inj ht
        exact not_lt.1 hlate
    rw [supTurn, hact]
    simp only [Bool.not_true, Bool.false_eq_true, if_false]
    cases t.poll with
    | interrupted => exact .inl htick
    | failed => exact .inl htick
    | timeout => exact .inl htick
    | hangup => exact .inr (htick.eof _)
    | readable r =>
      cases r with
      | interrupted => exact .inl htick
      | failed => exact .inr (htick.eof _)
      | data bytes =>
        dsimp only
        split
        · exact .inr (htick.eof _)
        · have hread := htick.read (bytes.take 256) (by rw [List.length_take]; omega)
          rcases hread.events t.nowMs 0 with ⟨-, hs⟩ | ho
          · exact .inl hs
          · exact .inr ho

/-- **The loop.** -/
theorem Serving.loop : ∀ {ts : List Turn} {st : St}, Serving t0 [] st →
    Serving t0 [] (supLoop st ts) ∨ Over t0 (supLoop st ts)
  | [], st, h => .inl h
  | t :: ts, st, h => by
    rw [supLoop]
    rcases h.turn t with hs | ⟨hend, ho⟩
    · split
      · exact Serving.loop hs
      · exact .inl hs
    · rw [hend]
      exact .inr ho

/-! ## The whole run -/

theorem Over.teardown (h : Over t0 st) : supervisorTeardown st = st := by rw [supervisorTeardown, if_pos h.torn]

/-- The state in which the loop begins. -/
def loopStart (t0 : Int) : St :=
  ⟨⟨.active, 1, t0⟩, supLbInit, false, [.publish, .airplayOff, .event .accept t0, .airplayOn 0]⟩

theorem timely_of_no_tick {tr : List Act} (h : ∀ t, .tick t ∉ tr) : Timely tr := fun pre t post heq =>
  absurd (by rw [heq]; simp) (h t)

theorem serving_loopStart (t0 : Int) : Serving t0 [] (loopStart t0) :=
  ⟨rfl, rfl, ⟨[], rfl, by simp⟩, rfl, timely_of_no_tick (by simp [loopStart]), [], [], by simp, Pending.init, rfl, fun _ => rfl⟩

/-- A session whose receiver came up. -/
theorem supSession_over (c : Client) (hrc : c.rc = 0) :
    Over c.acceptMs (supSession ⟨supStateInit, supLbInit, false, [.publish, .airplayOff]⟩ c) := by
  have hsession : supSession ⟨supStateInit, supLbInit, false, [.publish, .airplayOff]⟩ c =
      if (supLoop (loopStart c.acceptMs) c.turns).sup.phase = .active then
        supStop (supLoop (loopStart c.acceptMs) c.turns) c.stopMs
      else supLoop (loopStart c.acceptMs) c.turns := by
    rw [supSession]
    simp only [hrc, ne_eq, not_true_eq_false, if_false]
    rfl
  rw [hsession]
  rcases (serving_loopStart c.acceptMs).loop with hs | ho
  · rw [if_pos hs.active, supStop, supStep_stop hs.active]
    exact hs.over rfl
  · rw [if_neg (by rw [ho.idle]; decide)]
    exact ho

/-- **What a run can be.** -/
theorem main_cases (e : Env) :
    (main e = (1, []) ∧ (e.setup = false ∨ e.writePidfile = false)) ∨
    ((e.setup = true ∧ e.writePidfile = true) ∧
      (main e = (0, [.publish, .airplayOff, .airplayOff, .unpublish]) ∨
       (∃ t0 rc, rc ≠ 0 ∧ main e = (0, [.publish, .airplayOff, .event .accept t0, .airplayOn rc, .airplayOff, .unpublish])) ∨
       ∃ t0 tr, Told t0 tr ∧ main e = (0, tr ++ [.airplayOff, .unpublish]))) := by
  obtain ⟨setup, writePidfile, client⟩ := e
  cases setup with
  | false => exact .inl ⟨rfl, .inl rfl⟩
  | true =>
    cases writePidfile with
    | false => exact .inl ⟨rfl, .inr rfl⟩
    | true =>
      refine .inr ⟨⟨rfl, rfl⟩, ?_⟩
      cases client with
      | none => exact .inl rfl
      | some c =>
        by_cases hrc : c.rc = 0
        · have hover := supSession_over c hrc
          obtain ⟨tr, htold, hout⟩ := hover.told
          refine .inr (.inr ⟨_, tr, htold, ?_⟩)
          rw [main]
          simp only [Bool.not_true, Bool.false_eq_true, if_false]
          rw [hover.teardown, hout]
        · refine .inr (.inl ⟨c.acceptMs, c.rc, hrc, ?_⟩)
          simp [main, supSession, hrc, supStop, supervisorTeardown, St.log, supStep, supStateInit]

/-- **A run is bracketed.** However the setup, the scripts, the connection and the signals turn out: the process fails
before it has done anything, exactly when the setup or the pidfile fails, or its first acts are to publish the pidfile
and to run `airplay-off`, and its last ones to run `airplay-off` and to remove the pidfile; in between neither happens,
`airplay-on` runs at most once, when a client has connected, and everything else only after it succeeded. -/
theorem session_is_bracketed (e : Env) :
    ((main e).1 = 1 ∧ (main e).2 = [] ∧ (e.setup = false ∨ e.writePidfile = false)) ∨
    (main e).1 = 0 ∧ e.setup = true ∧ e.writePidfile = true ∧
      ∃ mid, (main e).2 = [.publish, .airplayOff] ++ mid ++ [.airplayOff, .unpublish] ∧
        (mid = [] ∨ ∃ t0 rc session, mid = .event .accept t0 :: .airplayOn rc :: session ∧ (rc ≠ 0 → session = []) ∧
          ∀ a ∈ session, a.ofSession = true) := by
  obtain ⟨hm, hfail⟩ | ⟨⟨hs, hp⟩, hm | ⟨t0, rc, hrc, hm⟩ | ⟨t0, tr, htold, hm⟩⟩ := main_cases e
  · rw [hm]
    exact .inl ⟨rfl, rfl, hfail⟩
  · rw [hm]
    exact .inr ⟨rfl, hs, hp, [], rfl, .inl rfl⟩
  · rw [hm]
    exact .inr ⟨rfl, hs, hp, _, rfl, .inr ⟨t0, rc, [], rfl, fun _ => rfl, by simp⟩⟩
  · obtain ⟨mid, rfl, hmid⟩ := htold.session
    rw [hm]
    exact .inr ⟨rfl, hs, hp, _, rfl, .inr ⟨t0, 0, mid, rfl, fun h => absurd rfl h, hmid⟩⟩

/-- **The relays are the commands.** In every run, the datagrams sent to the receiver are the commands among the lines
of what was read from the client, up to a first stop: each once and in order, wherever the reads cut the stream, and
nothing else. -/
theorem relayed_eq_commands (e : Env) : relayed (main e).2 = commands (received (main e).2) := by
  obtain ⟨hm, -⟩ | ⟨-, hm | ⟨t0, rc, -, hm⟩ | ⟨t0, tr, htold, hm⟩⟩ := main_cases e
  · rw [hm]
    rfl
  · rw [hm]
    rfl
  · rw [hm]
    rfl
  · rw [hm]
    simpa [relayed, received] using htold.relays

end ShairKindle.Supervisor
