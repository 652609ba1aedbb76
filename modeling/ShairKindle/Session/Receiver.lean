import ShairKindle.Session.Clock
import ShairKindle.Session.Resend
import ShairKindle.Session.Rtp
import ShairKindle.Session.StartFill

/-!
# The receiver thread (src/session.c)

`rx_thread` polls the three sockets, drains each readable one of at most 64 datagrams, and every 200 ms asks the
sender for missing packets and for its time. The timing fields and the sync anchor are its own: the player and
`session_flush` touch neither, so what it does with one datagram, or in one turn of the periodic part, is one step
although it takes the lock more than once.

| here | there |
| --- | --- |
| `Exchange`, `Rx` | the fields of `struct session` (session.c:50) the thread works on |
| `Rx.lastPeriodic` | the local of `rx_thread` (session.c:251) |
| `sendTimingRequest` | `send_timing_request` (session.c:144) |
| `rxDispatch` | `rx_dispatch` (session.c:186) |
| `rxDrain` | `rx_drain` (session.c:237) |
| `rxPeriodic` | the periodic part of `rx_thread` (session.c:265-292) |
| `rxIteration` | one turn of `rx_thread` (session.c:252-293) |
| `start` | `session_start` (session.c:513) up to the threads |

The `dbg_` counters and `audio_pkts` are left out, as is what `rtp_sendto` returns for a resend request, which the code
does not look at. `mono_ns` is an argument wherever it is read.
-/

namespace ShairKindle.Receiver

open Bytes

/-! ## The code -/

/-- `PERIODIC_MS` in nanoseconds (session.c:46, :266). -/
def periodicNs : Nat := 200 * 1000000
/-- `TIMING_TIMEOUT_NS` (session.c:47). -/
def timingTimeoutNs : Nat := 3000000000
/-- `RX_DRAIN_BUDGET` (session.c:48). -/
def rxDrainBudget : Nat := 64
/-- The size of `buf` in `rx_drain` (session.c:238). -/
def rxBufLen : Nat := jitterMaxPayload + 64

/-- `uint64_t` subtraction. -/
def subU64 (a b : Nat) : Nat := (a + 2 ^ 64 - b) % 2 ^ 64

inductive Port
  | audio | control | timing
deriving DecidableEq, Repr

/-- The timing exchange. -/
structure Exchange where
  clk : RaopClock
  timingT1Ns : Nat
  timingTokenNtp : Nat
  timingOutstanding : Bool
deriving DecidableEq, Repr

structure Rx where
  session : Session
  exchange : Exchange
  syncRtp : UInt32
  syncNtp : Nat
  lastPeriodic : Nat

/-- A timing request that went out. -/
structure TimingRequest where
  t1 : Nat
  token : Nat
  bytes : Bytes
deriving DecidableEq, Repr

/-- `sendOk` is whether `rtp_sendto` succeeds. -/
def sendTimingRequest (x : Exchange) (t1 : Nat) (sendOk : Bool) : Exchange × Option TimingRequest :=
  let tok := ntpFromNs t1 x.clk.offsetNs
  match rtpBuildTimingRequest tok 32 with
  | none => (x, none)
  | some req =>
    if !sendOk then (x, none)
    else ({ x with timingT1Ns := t1, timingTokenNtp := tok, timingOutstanding := true }, some ⟨t1, tok, req⟩)

/-- The timing socket's part of `rx_dispatch` (session.c:210-229); `some` is the reply the clock was given. -/
def timingDatagram (x : Exchange) (buf : Bytes) (t4 : Nat) : Exchange × Option TimingReply :=
  if !x.timingOutstanding then (x, none)
  else match rtpParseTimingReply buf with
    | none => (x, none)
    | some (remoteNtp, originEcho) =>
      if originEcho ≠ x.timingTokenNtp then (x, none)
      else
        let r : TimingReply := ⟨x.timingT1Ns, remoteNtp, t4⟩
        ({ x with clk := clockTimingReply x.clk r, timingOutstanding := false }, some r)

/-- What a step shows. -/
inductive Obs
  | quiet
  | applied (reply : TimingReply)
  | periodic (resend : Option Bytes) (request : Option TimingRequest)
  | player (out : PlayerOut)
deriving DecidableEq

def rxDispatch (s : Rx) (port : Port) (buf : Bytes) (t4 : Nat) : Rx × Obs :=
  match port with
  | .audio =>
    match rtpParseAudio buf with
    | some a => ({ s with session := rxInsert s.session a }, .quiet)
    | none => (s, .quiet)
  | .control =>
    match rtpClassifyControl buf with
    | .sync =>
      match rtpParseSync buf with
      | some (rtpNow, ntpNow) => ({ s with syncRtp := rtpNow, syncNtp := ntpNow }, .quiet)
      | none => (s, .quiet)
    | .resendAudio inner =>
      match rtpParseAudio inner with
      | some a => ({ s with session := rxInsert s.session a }, .quiet)
      | none => (s, .quiet)
    | .unknown => (s, .quiet)
  | .timing =>
    match timingDatagram s.exchange buf t4 with
    | (x, some r) => ({ s with exchange := x }, .applied r)
    | (x, none) => ({ s with exchange := x }, .quiet)

/-- The resend request of the periodic part (session.c:270-282). -/
def resendDatagram (j : Jitter) : Option Bytes :=
  match jitterNextResend j with
  | none => none
  | some r => rtpBuildResend (resendRequest r).1 (resendRequest r).2 8

/-- The timeout of the outstanding request (session.c:287-288). -/
def expireRequest (x : Exchange) (now : Nat) : Exchange :=
  if x.timingOutstanding ∧ timingTimeoutNs < subU64 now x.timingT1Ns then { x with timingOutstanding := false } else x

/-- `now` is read at session.c:265, `t1` in `send_timing_request`. -/
def rxPeriodic (s : Rx) (now t1 : Nat) (sendOk : Bool) : Rx × Obs :=
  if subU64 now s.lastPeriodic < periodicNs then (s, .quiet)
  else
    let x := expireRequest s.exchange now
    let sent := if x.timingOutstanding then (x, none) else sendTimingRequest x t1 sendOk
    ({ s with lastPeriodic := now, exchange := sent.1 }, .periodic (resendDatagram s.session.jit) sent.2)

def start (frameLength : Int) (seq : UInt16) (ts : UInt32) (t1 : Nat) (sendOk : Bool) (lastPeriodic : Nat) :
    Rx × Option TimingRequest :=
  let sent := sendTimingRequest ⟨clockInit, 0, 0, false⟩ t1 sendOk
  ({ session := sessionStart frameLength seq ts, exchange := sent.1, syncRtp := 0, syncNtp := 0, lastPeriodic }, sent.2)

/-! ## Steps

The receiver's datagrams and periodic turns, the player's iterations and the flushes, in whatever order they come. -/

inductive Event
  | datagram (port : Port) (source : UInt32) (buf : Bytes) (t4 : Nat)
  | periodic (now t1 : Nat) (sendOk : Bool)
  | player
  | flush (seq : UInt16) (ts : UInt32)

/-- One step; `peer` is `sender_ip`. A datagram is cut off at the size of the buffer (`recvfrom`), an empty one ends
the drain, and one from another address is dropped. -/
def step (peer : UInt32) (s : Rx) : Event → Rx × Obs
  | .datagram port source buf t4 =>
    let buf := buf.take rxBufLen
    if buf = [] ∨ source ≠ peer then (s, .quiet) else rxDispatch s port buf t4
  | .periodic now t1 sendOk => rxPeriodic s now t1 sendOk
  | .player => ({ s with session := (plIteration s.session).1 }, .player (plIteration s.session).2)
  | .flush seq ts => ({ s with session := sessionFlush s.session seq ts }, .quiet)

theorem step_periodic (peer : UInt32) (s : Rx) (now t1 : Nat) (sendOk : Bool) :
    step peer s (.periodic now t1 sendOk) = rxPeriodic s now t1 sendOk := rfl

abbrev run (peer : UInt32) (s : Rx) (evs : List Event) : Rx × List Obs := Machine.run (step peer) s evs

/-! ## The thread -/

/-- What one turn of the drain meets: the flag, and the datagram `rtp_recv` has, if any. -/
structure Turn where
  running : Bool
  recv : Option (UInt32 × Bytes)
  t4 : Nat

/-- The loop of `rx_drain`, with the datagrams left to the budget. -/
def rxDrain (peer : UInt32) (port : Port) : Nat → Rx → List Turn → Rx
  | 0, s, _ => s
  | _ + 1, s, [] => s
  | budget + 1, s, t :: ts =>
    if !t.running then s
    else match t.recv with
      | none => s
      | some (source, buf) =>
        let buf := buf.take rxBufLen
        if buf = [] then s
        else if source ≠ peer then rxDrain peer port budget s ts
        else rxDrain peer port budget (rxDispatch s port buf t.t4).1 ts

/-- What one turn of the thread meets. -/
structure Turns where
  readable : Port → Bool
  turns : Port → List Turn
  now : Nat
  t1 : Nat
  sendOk : Bool

/-- Drain the socket if `poll` says that it is readable. -/
def drainIfReadable (peer : UInt32) (e : Turns) (s : Rx) (port : Port) : Rx :=
  if e.readable port then rxDrain peer port rxDrainBudget s (e.turns port) else s

def rxIteration (peer : UInt32) (s : Rx) (e : Turns) : Rx × Obs :=
  rxPeriodic (drainIfReadable peer e (drainIfReadable peer e (drainIfReadable peer e s .audio) .control) .timing)
    e.now e.t1 e.sendOk

/-- A drain takes its budget of datagrams at most. -/
theorem rxDrain_run (peer : UInt32) (port : Port) : ∀ (budget : Nat) (s : Rx) (ts : List Turn),
    ∃ evs : List Event, evs.length ≤ budget ∧ (∀ ev ∈ evs, ∃ source buf t4, ev = .datagram port source buf t4) ∧
      rxDrain peer port budget s ts = (run peer s evs).1
  | 0, s, ts => ⟨[], le_refl _, by simp, by rw [rxDrain]; rfl⟩
  | budget + 1, s, [] => ⟨[], Nat.zero_le _, by simp, by rw [rxDrain]; rfl⟩
  | budget + 1, s, ⟨running, recv, t4⟩ :: ts => by
    rw [rxDrain]
    cases running with
    | false => exact ⟨[], Nat.zero_le _, by simp, rfl⟩
    | true =>
      cases recv with
      | none => exact ⟨[], Nat.zero_le _, by simp, rfl⟩
      | some d =>
        obtain ⟨source, buf⟩ := d
        by_cases hempty : buf.take rxBufLen = []
        · exact ⟨[], Nat.zero_le _, by simp, by simp [hempty]⟩
        -- one event for this datagram, then those of the rest
        obtain ⟨evs, hlen, hev, heq⟩ := rxDrain_run peer port budget (step peer s (.datagram port source buf t4)).1 ts
        refine ⟨.datagram port source buf t4 :: evs, by simpa using hlen, ?_, ?_⟩
        · intro ev hmem
          rcases List.mem_cons.1 hmem with rfl | hmem
          · exact ⟨source, buf, t4, rfl⟩
          · exact hev ev hmem
        · rw [run, Machine.run_cons, ← heq]
          by_cases hsource : source = peer
          · simp [step, hempty, hsource]
          · simp [step, hempty, hsource]

/-- **A turn of the thread** is a run of at most 192 datagrams and then the periodic part, which no flood of datagrams
keeps from being reached. -/
theorem rxIteration_run (peer : UInt32) (s : Rx) (e : Turns) :
    ∃ evs : List Event, evs.length ≤ 3 * rxDrainBudget ∧ (∀ ev ∈ evs, ∃ port source buf t4, ev = .datagram port source buf t4) ∧
      rxIteration peer s e = step peer (run peer s evs).1 (.periodic e.now e.t1 e.sendOk) := by
  have hport : ∀ port s, ∃ evs : List Event, evs.length ≤ rxDrainBudget ∧
      (∀ ev ∈ evs, ∃ port source buf t4, ev = .datagram port source buf t4) ∧
      drainIfReadable peer e s port = (run peer s evs).1 := by
    intro port s
    rw [drainIfReadable]
    split
    · obtain ⟨evs, hlen, hev, heq⟩ := rxDrain_run peer port rxDrainBudget s (e.turns port)
      exact ⟨evs, hlen, fun ev h => ⟨port, hev ev h⟩, heq⟩
    · exact ⟨[], Nat.zero_le _, by simp, rfl⟩
  obtain ⟨a, hla, ha, hra⟩ := hport .audio s
  obtain ⟨c, hlc, hc, hrc⟩ := hport .control (run peer s a).1
  obtain ⟨t, hlt, ht, hrt⟩ := hport .timing (run peer (run peer s a).1 c).1
  refine ⟨a ++ (c ++ t), by simp only [List.length_append]; omega, fun ev h => ?_, ?_⟩
  · simp only [List.mem_append] at h
    rcases h with h | h | h
    exacts [ha ev h, hc ev h, ht ev h]
  · have hrun : (run peer s (a ++ (c ++ t))).1 = (run peer (run peer (run peer s a).1 c).1 t).1 := by
      rw [run, Machine.run_append_fst, Machine.run_append_fst]
    have hdrained : drainIfReadable peer e (drainIfReadable peer e (drainIfReadable peer e s .audio) .control) .timing =
        (run peer s (a ++ (c ++ t))).1 := by
      rw [hra, hrc, hrt, hrun]
    rw [rxIteration, hdrained, step_periodic]

end ShairKindle.Receiver
