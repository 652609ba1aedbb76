import ShairKindle.Jitter.Basic

/-!
# The play session (src/session.c)

The state both worker threads share under `session->lock`, and the sections of code that run under
it: the receiver's `rx_insert`, its resend scan, one iteration of the player's `pl_thread`, and
`session_flush`. Each is one step, since the lock is held for the whole of it. Decoding, the sink,
the clock exchange and the `dbg_` statistics happen outside the lock and feed nothing back into this
state; they are left out.
-/

namespace ShairKindle

/-- `START_FILL_FRAMES` (session.c:34). -/
def startFillFrames : Nat := 22050

/-- `npkts` of `session_deadline` (session.c:129-130): the fill target in packets, at least one. -/
def concealWindow (framesPerPkt : Int) : Nat :=
  let npkts := startFillFrames / (if 0 < framesPerPkt then framesPerPkt.toNat else 1)
  if npkts < 1 then 1 else npkts

/-- `session_deadline` (session.c:126): some packet within the window past `extSeq` is held. The
loop runs over `e ≤ extSeq + npkts` and `e < extSeq + JITTER_SLOTS`. -/
def sessionDeadline (j : Jitter) (extSeq : Nat) : Bool :=
  (List.range' (extSeq + 1) (min (concealWindow j.framesPerPkt) (jitterSlots - 1))).any j.holds

/-- `rtp_audio_t` (rtp.h:10). -/
structure RtpAudio where
  seq : UInt16
  rtptime : UInt32
  payload : List UInt8
deriving DecidableEq, Repr

/-- The fields of `struct session` (session.c:50) that the locked sections read and write. -/
structure Session where
  framesPerPkt : Int
  gen : Nat
  jit : Jitter
  sinkRestartPending : Bool
  rxCount : Nat
  started : Bool
  boundaryTs : UInt32
  flushed : Bool
  resyncHold : Nat

/-- `session_create` and `session_start` (session.c:365, :513) as far as this state goes. -/
def sessionStart (frameLength : Int) (seq : UInt16) (ts : UInt32) : Session where
  framesPerPkt := frameLength
  gen := 0
  jit := jitterInit frameLength seq ts
  sinkRestartPending := false
  rxCount := 0
  started := false
  boundaryTs := 0
  flushed := false
  resyncHold := 0

/-- `session_reject_stale_audio` (session.c:169): the `int32_t` cast of the distance is the
balanced remainder modulo `2 ^ 32`. -/
def sessionRejectStaleAudio (s : Session) (rtptime : UInt32) : Bool :=
  if !s.flushed then false
  else decide (Int.bmod ((rtptime.toNat : Int) - s.boundaryTs.toNat) (2 ^ 32) < 0)

/-- `rx_insert` (session.c:174). -/
def rxInsert (s : Session) (a : RtpAudio) : Session :=
  if sessionRejectStaleAudio s a.rtptime then s
  else
    let r := jitterInsert s.jit a.seq a.rtptime a.payload
    { s with jit := r.1, rxCount := if r.2 = 0 then s.rxCount + 1 else s.rxCount }

/-- `session_flush` (session.c:491). -/
def sessionFlush (s : Session) (seq : UInt16) (ts : UInt32) : Session :=
  { s with
    gen := addU32 s.gen 1
    jit := jitterFlush s.jit seq ts
    boundaryTs := ts
    flushed := true
    started := false
    rxCount := 0
    sinkRestartPending := true }

/-- What one player iteration goes on to do once it has left the lock. -/
inductive PlayerOut
  | waitFill
  | stall
  | resynced (skipped : Nat)
  | play (slot : JitterSlot)
deriving DecidableEq, Repr

/-- The start-fill gate (session.c:315-316). -/
def Session.fillReached (s : Session) : Bool :=
  s.started || decide ((startFillFrames : Int) ≤ (s.rxCount : Int) * s.framesPerPkt)

/-- One iteration of `pl_thread` (session.c:300-346): service the pending sink restart, count the
resync hold down, pass the gate, pop, and on a stall try a resync. -/
def plIteration (s : Session) : Session × PlayerOut :=
  let s := { s with sinkRestartPending := false, resyncHold := s.resyncHold - 1 }
  if !s.fillReached then (s, .waitFill)
  else
    let s := { s with started := true }
    match jitterPop sessionDeadline s.jit with
    | (j, some slot) => ({ s with jit := j }, .play slot)
    | (j, none) =>
      let s := { s with jit := j }
      if s.resyncHold = 0 then
        match jitterTryResync s.jit with
        | (j, some skipped) => ({ s with jit := j, resyncHold := 64 }, .resynced skipped)
        | (j, none) => ({ s with jit := j }, .stall)
      else (s, .stall)

/-- The locked sections, in whatever order the threads take the lock. -/
inductive SessionEvent
  | rx (a : RtpAudio)
  | player
  | resendScan
  | flush (seq : UInt16) (ts : UInt32)

/-- What a locked section hands to the code outside the lock. -/
inductive SessionOut
  | none
  | player (out : PlayerOut)
  | resend (range : Option (Nat × Nat))

def sessionStep (s : Session) : SessionEvent → Session × SessionOut
  | .rx a => (rxInsert s a, .none)
  | .player => ((plIteration s).1, .player (plIteration s).2)
  | .resendScan => (s, .resend (jitterNextResend s.jit))
  | .flush seq ts => (sessionFlush s seq ts, .none)

def SessionEvent.isFlush : SessionEvent → Bool
  | .flush _ _ => true
  | _ => false

/-- A run of locked sections from `s`. -/
abbrev runSession (s : Session) (evs : List SessionEvent) : Session × List SessionOut :=
  Machine.run sessionStep s evs

end ShairKindle
