import ShairKindle.Lib.Ring
import ShairKindle.Lib.Run
import ShairKindle.Jitter.Seqext

/-!
# The jitter buffer (src/jitter.c)

| here | there |
| --- | --- |
| `RingSlot`, `JitterSlot`, `Jitter` | `ring_slot_t`, `jitter_slot_t`, `jitter_t` (jitter.h:12-42) |
| `jitterInsert` | `jitter_insert` (jitter.c:17) |
| `jitterPop` | `jitter_pop` (jitter.c:33); the deadline callback is an argument |
| `jitterFlush` | `jitter_flush` (jitter.c:54) |
| `jitterNextResend` | `jitter_next_resend` (jitter.c:61) |
| `resyncHi`, `resyncRunStart`, `jitterTryResync` | the three steps of `jitter_try_resync` (jitter.c:93) |

`unsigned` counters and the `uint32_t` generation wrap modulo `2 ^ 32`; extended sequence numbers
and the cursor are `Nat`. The payload array is the list of its first `len` bytes, which is all the
code ever reads of it.
-/

namespace ShairKindle

/-- `JITTER_SLOTS` (jitter.h:7). -/
def jitterSlots : Nat := 512

instance : NeZero jitterSlots := ⟨by decide⟩

/-- `JITTER_MAX_PAYLOAD` (jitter.h:8). -/
def jitterMaxPayload : Nat := 2048

/-- `slot_state_t` (jitter.h:9). -/
inductive SlotState
  | empty | waiting | resend | received | concealed | consumed
deriving DecidableEq, Repr

/-- `pop_kind_t` (jitter.h:11). -/
inductive PopKind
  | data | conceal
deriving DecidableEq, Repr

structure RingSlot where
  state : SlotState
  gen : Nat
  extSeq : Nat
  rtpTs : UInt32
  payload : List UInt8
  len : Nat
deriving DecidableEq, Repr

structure JitterSlot where
  kind : PopKind
  extSeq : Nat
  rtpTs : UInt32
  frames : Int
  payload : List UInt8
  len : Nat
deriving DecidableEq, Repr

structure Jitter where
  ring : CellRing jitterSlots RingSlot
  sx : Seqext
  framesPerPkt : Int
  gen : Nat
  playCursor : Nat
  boundary : Nat
  dupes : Nat
  late : Nat
  lost : Nat
  concealedCount : Nat
  overwritten : Nat
  resyncCount : Nat
  resyncSkipped : Nat

/-- `unsigned` addition. -/
def addU32 (a b : Nat) : Nat := (a + b) % 2 ^ 32

/-- A zeroed ring slot (the `memset` of `jitter_init`). -/
def zeroSlot : RingSlot := ⟨.empty, 0, 0, 0, [], 0⟩

/-- `jitter_init` (jitter.c:7). -/
def jitterInit (fpp : Int) (refSeq : UInt16) (refTs : UInt32) : Jitter where
  ring := .const jitterSlots zeroSlot
  sx := seqextInit refSeq refTs
  framesPerPkt := fpp
  gen := 1
  playCursor := refSeq.toNat
  boundary := refSeq.toNat
  dupes := 0
  late := 0
  lost := 0
  concealedCount := 0
  overwritten := 0
  resyncCount := 0
  resyncSkipped := 0

/-- A slot of the current generation in state `SLOT_RECEIVED`, whatever its number. -/
def Jitter.live (j : Jitter) (s : RingSlot) : Bool := s.gen == j.gen && s.state == .received

/-- The ring holds packet `e`: its slot is live and carries number `e`. -/
def Jitter.holds (j : Jitter) (e : Nat) : Bool :=
  let s := j.ring.get e
  s.gen == j.gen && s.extSeq == e && s.state == .received

/-- The part of `jitter_insert` past the duplicate check (jitter.c:26-29). -/
def Jitter.store (j : Jitter) (ext : Nat) (wts : UInt32) (pl : List UInt8) : Jitter :=
  let s := j.ring.get ext
  let lapped := j.live s && s.extSeq != ext
  let (v, sx) := seqextTs j.sx wts
  { j with
    overwritten := if lapped then addU32 j.overwritten 1 else j.overwritten
    sx := sx
    ring := j.ring.set ext
      { state := .received, gen := j.gen, extSeq := ext, rtpTs := UInt32.ofNat v
        payload := pl, len := pl.length } }

/-- `jitter_insert` (jitter.c:17), with the call of `seqext_seq` as an argument. -/
def jitterInsertWith (extend : Seqext → UInt16 → Option (Nat × Seqext)) (j : Jitter) (wseq : UInt16) (wts : UInt32)
    (pl : List UInt8) : Jitter × Int :=
  if jitterMaxPayload < pl.length then (j, -1)
  else match extend j.sx wseq with
    | none => (j, -1)
    | some (ext, sx) =>
      let j := { j with sx := sx }
      if ext < j.boundary then ({ j with late := addU32 j.late 1 }, -1)
      else if ext < j.playCursor then ({ j with late := addU32 j.late 1 }, 1)
      else if j.holds ext then ({ j with dupes := addU32 j.dupes 1 }, 1)
      else (j.store ext wts pl, 0)

/-- `jitter_insert` on unbounded numbers; `Play.lean` says how long that is what the source's widths give. -/
def jitterInsert (j : Jitter) (wseq : UInt16) (wts : UInt32) (pl : List UInt8) : Jitter × Int :=
  jitterInsertWith seqextSeq j wseq wts pl

/-- `jitter_pop` (jitter.c:33): `none` is the stall. The callback may look at the whole buffer
(its `ud` is the session); no callback set is the predicate that never holds. -/
def jitterPop (deadlinePassed : Jitter → Nat → Bool) (j : Jitter) : Jitter × Option JitterSlot :=
  let c := j.playCursor
  let s := j.ring.get c
  if j.holds c then
    ({ j with ring := j.ring.set c { s with state := .consumed }, playCursor := c + 1 },
      some ⟨.data, c, s.rtpTs, j.framesPerPkt, s.payload.take s.len, s.len⟩)
  else if deadlinePassed j c then
    ({ j with
        ring := j.ring.set c { s with gen := j.gen, extSeq := c, state := .concealed }
        concealedCount := addU32 j.concealedCount 1
        lost := addU32 j.lost 1
        playCursor := c + 1 },
      some ⟨.conceal, c, 0, j.framesPerPkt, [], 0⟩)
  else (j, none)

/-- `jitter_flush` (jitter.c:54). -/
def jitterFlush (j : Jitter) (nseq : UInt16) (nts : UInt32) : Jitter :=
  { j with
    gen := addU32 j.gen 1
    sx := seqextRebase nseq nts
    playCursor := nseq.toNat
    boundary := nseq.toNat }

/-- The slot test of `jitter_next_resend` (jitter.c:67): packet `e` came or needs no resend. -/
def Jitter.settled (j : Jitter) (e : Nat) : Bool :=
  let s := j.ring.get e
  s.gen == j.gen && s.extSeq == e &&
    (s.state == .received || s.state == .concealed || s.state == .consumed)

/-- The scan of `jitter_next_resend` over `n` numbers from `e`; `hole` is `start` once
`in_hole` is set. -/
def resendScan (j : Jitter) : Nat → Nat → Option Nat → Option (Nat × Nat)
  | 0, _, _ => none
  | n + 1, e, hole =>
    if j.settled e then
      match hole with
      | some start => some (start, e - 1)
      | none => resendScan j n (e + 1) none
    else resendScan j n (e + 1) (some (hole.getD e))

/-- `jitter_next_resend` (jitter.c:61): the run to ask for, or `none` for -1. -/
def jitterNextResend (j : Jitter) : Option (Nat × Nat) := resendScan j jitterSlots j.playCursor none

/-- `RESYNC_BEHIND` (jitter.c:79). -/
def resyncBehind : Nat := 128
/-- `RESYNC_MIN_RUN` (jitter.c:80). -/
def resyncMinRun : Nat := 8
/-- `RESYNC_PREROLL` (jitter.c:91). -/
def resyncPreroll : Nat := 16

/-- Step 1 (jitter.c:95-101): the highest received number at or past the cursor. -/
@[irreducible] def resyncHi (j : Jitter) : Option Nat :=
  (List.range jitterSlots).foldl
    (fun hi i =>
      let s := j.ring.get i
      if j.live s && decide (j.playCursor ≤ s.extSeq) then
        match hi with
        | none => some s.extSeq
        | some h => if h < s.extSeq then some s.extSeq else some h
      else hi)
    none

/-- Step 2 (jitter.c:105-110): walk back while the slot before is received and contiguous. -/
def resyncRunStart (j : Jitter) : Nat → Nat
  | 0 => 0
  | r + 1 => if j.playCursor < r + 1 && j.holds r then resyncRunStart j r else r + 1

/-- Step 3 (jitter.c:114-115): where the cursor jumps to. -/
def resyncTarget (j : Jitter) (runStart : Nat) : Nat :=
  let target := if resyncPreroll < runStart then runStart - resyncPreroll else runStart
  if target < j.playCursor then j.playCursor else target

/-- `jitter_try_resync` (jitter.c:93): `some skipped` is the return value 1, `none` is 0. -/
def jitterTryResync (j : Jitter) : Jitter × Option Nat :=
  match resyncHi j with
  | none => (j, none)
  | some hi =>
    if hi < j.playCursor + resyncBehind then (j, none)
    else
      let runStart := resyncRunStart j hi
      if hi - runStart + 1 < resyncMinRun then (j, none)
      else
        let target := resyncTarget j runStart
        let skipped := target - j.playCursor
        ({ j with
            playCursor := target
            resyncCount := addU32 j.resyncCount 1
            resyncSkipped := addU32 j.resyncSkipped skipped },
          some skipped)

/-! ## Operations and what they return -/

/-- One call into the buffer. -/
inductive Op
  | insert (wseq : UInt16) (wts : UInt32) (pl : List UInt8)
  | pop (deadlinePassed : Jitter → Nat → Bool)
  | tryResync
  | nextResend
  | flush (nseq : UInt16) (nts : UInt32)

/-- What one call shows. An insert also shows the number its packet was extended to. -/
inductive Obs
  | insert (ext : Option Nat) (wts : UInt32) (pl : List UInt8) (rc : Int)
  | pop (slot : Option JitterSlot)
  | resync (skipped : Option Nat)
  | resend (range : Option (Nat × Nat))
  | flush
deriving DecidableEq, Repr

def jitterStep (j : Jitter) : Op → Jitter × Obs
  | .insert wseq wts pl =>
    let r := jitterInsert j wseq wts pl
    (r.1, .insert ((seqextSeq j.sx wseq).map (·.1)) wts pl r.2)
  | .pop dl => ((jitterPop dl j).1, .pop (jitterPop dl j).2)
  | .tryResync => ((jitterTryResync j).1, .resync (jitterTryResync j).2)
  | .nextResend => (j, .resend (jitterNextResend j))
  | .flush nseq nts => (jitterFlush j nseq nts, .flush)

/-- A run of calls from `j`. -/
abbrev runOps (j : Jitter) (ops : List Op) : Jitter × List Obs := Machine.run jitterStep j ops

end ShairKindle
