import ShairKindle.Lib.Run

/-! # One lease to the native side (`kindletshell/LeaseConnection.java`)

Producers put events on a queue, one writer thread sends HELLO and then the queue, with heartbeats when
it is idle, and any thread may close the lease. Everything the lock guards changes in synchronized
blocks, and the listener, the encoder and the socket are called outside them, so one input here is one
synchronized block or one such call.

| here              | there                                                              |
|-------------------|--------------------------------------------------------------------|
| `Input.start`     | the synchronized block of `start` (LeaseConnection.java:59-62)     |
| `Input.spawn`     | the rest of `start`: the writer thread runs (:63-65)               |
| `Input.enqueue`   | `enqueue` (:78)                                                    |
| `Input.close`     | a `close` call of a thread other than the writer, up to its lock   |
| `Input.closer`    | the next step of the `close` call that did set `closed`            |
| `Input.writer`    | the next step of `writerLoop` (:113)                               |
| `Obs.handed`      | `enc.encode(fr.e, fr.seq)` (:169)                                  |
| `Obs.notified`    | `listener.onLeaseState` (:189, :195)                               |

A `close` that finds the lease closed returns at once, so no more than one call is ever under way: the
writer's own (`Writer.close`) or another thread's (`other`).
-/

namespace ShairKindle.Lease

/-- `OutboundEvent.KIND_*` (OutboundEvent.java:4). -/
inductive Kind
  | hello
  | key
  | heartbeat
deriving DecidableEq, Repr

/-- `OutboundEvent` (OutboundEvent.java:5). -/
structure OutboundEvent where
  kind : Kind
  keyCode : Int
  pressed : Bool
  tsMs : Int
deriving DecidableEq, Repr

/-- `Framed` (LeaseConnection.java:21). -/
structure Framed where
  seq : Int
  e : OutboundEvent
deriving DecidableEq, Repr

/-- `++` on a Java `int`. -/
def incr (n : Int) : Int := (n + 1).bmod (2 ^ 32)

/-- `QUEUE_CAP` (LeaseConnection.java:17). -/
def queueCap : Nat := 256

/-- Where a frame comes from: `start`, a producer, or the idle writer. -/
inductive Origin
  | hello
  | queued
  | beat
deriving DecidableEq, Repr

/-- What a thread inside `close` does next (LeaseConnection.java:97-109 and `markDown`, :192). -/
inductive ClosePhase
  | enter
  | socket
  | latch
  | fire
deriving DecidableEq, Repr

/-- What the writer does next (LeaseConnection.java:113-155). -/
inductive Writer
  | unstarted
  | pinned
  | entry
  | write (origin : Origin) (fr : Framed)
  | check (origin : Origin)
  | flush (origin : Origin)
  | markUp
  | fireUp
  | loop
  | close (p : ClosePhase)
  | exited
deriving DecidableEq, Repr

structure Conn where
  queue : List Framed
  nextSeq : Int
  drops : Int
  closed : Bool
  up : Bool
  down : Bool
  out : Bool
  helloSeq : Int
  writer : Writer
  other : Option ClosePhase
deriving DecidableEq, Repr

/-- A new `LeaseConnection` (LeaseConnection.java:43). -/
def Conn.init : Conn := ⟨[], 0, 0, false, false, false, false, 0, .unstarted, none⟩

inductive Input
  | start
  | spawn
  | enqueue (e : OutboundEvent)
  | close
  | closer
  | writer (ok : Bool) (now : Int)
deriving DecidableEq, Repr

inductive Obs
  | silent
  | pinned (seq : Int)
  | enqueued (fr : Framed) (dropped : Option Framed)
  | refused
  | beat (fr : Framed)
  | handed (origin : Origin) (fr : Framed)
  | notified (up : Bool)
deriving DecidableEq, Repr

/-! ## The calls -/

/-- The synchronized block of `start` (LeaseConnection.java:59). -/
def start (s : Conn) : Conn × Obs :=
  if s.closed then (s, .silent)
  else ({ s with helloSeq := s.nextSeq, nextSeq := incr s.nextSeq, writer := .pinned }, .pinned s.nextSeq)

/-- `enqueue` (LeaseConnection.java:78): the oldest frame makes room, for a key only. -/
def enqueue (s : Conn) (e : OutboundEvent) : Conn × Obs :=
  if s.closed then (s, .refused)
  else
    let drop := decide (queueCap ≤ s.queue.length) && e.kind == .key
    let fr : Framed := ⟨s.nextSeq, e⟩
    ({ s with
        queue := (if drop then s.queue.tail else s.queue) ++ [fr]
        drops := if drop then incr s.drops else s.drops
        nextSeq := incr s.nextSeq },
      .enqueued fr (if drop then s.queue.head? else none))

/-- One step of a thread inside `close`: what it does next, or `none` when it returns. -/
def closeStep (s : Conn) : ClosePhase → Conn × Option ClosePhase × Obs
  | .enter =>
    if s.closed then (s, none, .silent) else ({ s with closed := true, out := false }, some .socket, .silent)
  | .socket => (s, some .latch, .silent)
  | .latch => if s.up && !s.down then ({ s with down := true }, some .fire, .silent) else (s, none, .silent)
  | .fire => (s, none, .notified false)

/-- Where the writer goes when `writeOne` returns (LeaseConnection.java:127, :151). -/
def afterWrite (origin : Origin) (wrote : Bool) : Writer :=
  if wrote then (if origin = .hello then .markUp else .loop) else .close .enter

/-- One step of `writerLoop`. `ok` is what the call outside the lock did where there is one: the stream
was there, the encoder gave bytes, the socket took them, or the wait of the loop timed out. -/
def writerStep (s : Conn) (ok : Bool) (now : Int) : Conn × Obs :=
  match s.writer with
  | .unstarted => (s, .silent)
  | .pinned => (s, .silent)
  | .entry =>
    if s.closed then ({ s with writer := .exited }, .silent)
    else ({ s with out := ok, writer := .write .hello ⟨s.helloSeq, ⟨.hello, 0, false, now⟩⟩ }, .silent)
  | .write origin fr =>
    ({ s with writer := if ok then .check origin else afterWrite origin true }, .handed origin fr)
  | .check origin =>
    ({ s with writer := if s.closed || !s.out then .close .enter else .flush origin }, .silent)
  | .flush origin => ({ s with writer := afterWrite origin ok }, .silent)
  | .markUp =>
    if !s.closed && !s.up then ({ s with up := true, writer := .fireUp }, .silent)
    else ({ s with writer := .loop }, .silent)
  | .fireUp => ({ s with writer := .loop }, .notified true)
  | .loop =>
    if s.closed then ({ s with writer := .close .enter }, .silent)
    else
      match s.queue with
      | fr :: rest => ({ s with queue := rest, writer := .write .queued fr }, .silent)
      | [] =>
        if ok then
          let fr : Framed := ⟨s.nextSeq, ⟨.heartbeat, 0, false, now⟩⟩
          ({ s with nextSeq := incr s.nextSeq, writer := .write .beat fr }, .beat fr)
        else (s, .silent)
  | .close p =>
    let r := closeStep s p
    ({ r.1 with writer := match r.2.1 with | some p' => .close p' | none => .exited }, r.2.2)
  | .exited => (s, .silent)

/-- One step of one thread. A step that is not the thread's next one leaves the lease alone. -/
def step (s : Conn) : Input → Conn × Obs
  | .start => if s.writer = .unstarted then start s else (s, .silent)
  | .spawn => if s.writer = .pinned then ({ s with writer := .entry }, .silent) else (s, .silent)
  | .enqueue e => enqueue s e
  | .close =>
    if s.closed then (s, .silent)
    else
      let r := closeStep s .enter
      ({ r.1 with other := r.2.1 }, r.2.2)
  | .closer =>
    match s.other with
    | none => (s, .silent)
    | some p =>
      let r := closeStep s p
      ({ r.1 with other := r.2.1 }, r.2.2)
  | .writer ok now => writerStep s ok now

abbrev run (inputs : List Input) : Conn × List Obs := Machine.run step .init inputs

/-- `close` touches the flags, never the queue or the numbers. -/
theorem closeStep_frame (s : Conn) (p : ClosePhase) :
    (closeStep s p).1.queue = s.queue ∧ (closeStep s p).1.nextSeq = s.nextSeq ∧
    (closeStep s p).1.drops = s.drops ∧ (closeStep s p).1.helloSeq = s.helloSeq ∧
    (closeStep s p).1.writer = s.writer ∧
    ((closeStep s p).2.2 = .silent ∨ (closeStep s p).2.2 = .notified false) := by
  cases p <;> simp only [closeStep]
  case enter => split <;> simp
  case latch => split <;> simp
  all_goals simp

end ShairKindle.Lease
