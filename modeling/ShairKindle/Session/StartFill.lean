import ShairKindle.Session.Epoch
import ShairKindle.Session.Stale

/-!
# The start of a stream (src/session.c)

After `session_start` and after `session_flush` the player waits until `rx_count * frames_per_pkt` reaches
`START_FILL_FRAMES` (session.c:315-316). The gate counts frames, the ring holds 512 packets, and the sender
chooses the frame length: with 43 frames a packet or fewer the gate asks for more packets than the ring has
slots, and the stream's beginning is overwritten before it opens. From 44 on it opens after at most 502.

`Stream` is what the sender sends from an anchor, `FreshEpoch` a session that has just been started or
flushed there, and `Filled s k` says what the session holds after the first `k` packets of the stream, which
each locked section keeps while the gate is closed.
-/

namespace ShairKindle

/-! ## A session runs the jitter operations -/

/-- The jitter operations of one locked section. -/
theorem sessionStep_ops (s : Session) (ev : SessionEvent) :
    ∃ ops : List Op, (∀ o ∈ ops, o.OfSession) ∧ ops.countP Op.isFlush = [ev].countP SessionEvent.isFlush ∧
      (sessionStep s ev).1.jit = (runOps s.jit ops).1 := by
  cases ev with
  | rx a =>
    simp only [sessionStep, rxInsert]
    split
    · exact ⟨[], by simp, rfl, rfl⟩
    · exact ⟨[.insert a.seq a.rtptime a.payload], by simp [Op.OfSession], rfl, rfl⟩
  | player =>
    dsimp only [sessionStep, plIteration]
    split
    · exact ⟨[], by simp, rfl, rfl⟩
    · split
      · rename_i j slot hpop
        exact ⟨[.pop sessionDeadline], by simp [Op.OfSession], rfl, by simp [jitterStep, Machine.run_cons, hpop]⟩
      · rename_i j hpop
        split
        · split
          · rename_i j' skipped hres
            exact ⟨[.pop sessionDeadline, .tryResync], by simp [Op.OfSession], rfl,
              by simp [jitterStep, Machine.run_cons, hpop, hres]⟩
          · rename_i j' hres
            exact ⟨[.pop sessionDeadline, .tryResync], by simp [Op.OfSession], rfl,
              by simp [jitterStep, Machine.run_cons, hpop, hres]⟩
        · exact ⟨[.pop sessionDeadline], by simp [Op.OfSession], rfl,
            by simp [jitterStep, Machine.run_cons, hpop]⟩
  | resendScan => exact ⟨[], by simp, rfl, rfl⟩
  | flush seq ts => exact ⟨[.flush seq ts], by simp [Op.OfSession], rfl, rfl⟩

/-- **Every run of a session is a run of the jitter operations**, flush for flush. -/
theorem runSession_ops (s : Session) (evs : List SessionEvent) :
    ∃ ops : List Op, (∀ o ∈ ops, o.OfSession) ∧ ops.countP Op.isFlush = evs.countP SessionEvent.isFlush ∧
      (runSession s evs).1.jit = (runOps s.jit ops).1 := by
  induction evs generalizing s with
  | nil => exact ⟨[], by simp, rfl, rfl⟩
  | cons ev evs ih =>
    obtain ⟨ops₁, h1, c1, e1⟩ := sessionStep_ops s ev
    obtain ⟨ops₂, h2, c2, e2⟩ := ih (sessionStep s ev).1
    refine ⟨ops₁ ++ ops₂, fun o ho => ?_, ?_, ?_⟩
    · rcases List.mem_append.1 ho with ho | ho
      · exact h1 o ho
      · exact h2 o ho
    · rw [← List.singleton_append, List.countP_append, List.countP_append, c1, c2]
    · rw [runOps_append, ← e1, ← e2, runSession, Machine.run_cons]

theorem sessionFrames_step (s : Session) (ev : SessionEvent) :
    (sessionStep s ev).1.framesPerPkt = s.framesPerPkt := by
  cases ev with
  | rx a => simp only [sessionStep, rxInsert]; split <;> rfl
  | player =>
    dsimp only [sessionStep, plIteration]
    repeat' split
    all_goals rfl
  | resendScan | flush => rfl

/-! ## The stream and the epoch it starts -/

/-- What a sender sends from an anchor on: packets of a size the buffer takes. -/
structure Stream where
  seq : UInt16
  ts : UInt32
  frameLength : Nat
  payload : Nat → List UInt8
  fits : ∀ i, (payload i).length ≤ jitterMaxPayload

namespace Stream

variable (x : Stream)

/-- Packet `i` as it is on the wire. -/
def packet (i : Nat) : RtpAudio :=
  ⟨x.seq + UInt16.ofNat i, UInt32.ofNat (x.ts.toNat + i * x.frameLength), x.payload i⟩

/-- The extended number of packet `i`. -/
def num (i : Nat) : Nat := x.seq.toNat + i

/-- Packet `i` in the ring. -/
def slot (gen i : Nat) : RingSlot :=
  ⟨.received, gen, x.num i, (x.packet i).rtptime, x.payload i, (x.payload i).length⟩

/-- Packet `i` as a `POP_DATA`. -/
def popped (i : Nat) : JitterSlot :=
  ⟨.data, x.num i, (x.packet i).rtptime, x.frameLength, x.payload i, (x.payload i).length⟩

end Stream

/-- The session has just been started, or flushed, at the stream's anchor. -/
inductive FreshEpoch (x : Stream) : Session → Prop
  | start : FreshEpoch x (sessionStart x.frameLength x.seq x.ts)
  | flush (seq : UInt16) (ts : UInt32) (evs : List SessionEvent)
      (h : evs.countP SessionEvent.isFlush < 2 ^ 32 - 1) :
      FreshEpoch x (sessionFlush (runSession (sessionStart x.frameLength seq ts) evs).1 x.seq x.ts)

def SessionEvent.packet : SessionEvent → Option RtpAudio
  | .rx a => some a
  | _ => none

/-- The packets that come in are the stream's packets `k` to `k + m - 1`, in order; between them the player
and the resend scan take their turns. -/
structure ArriveInOrder (x : Stream) (k m : Nat) (evs : List SessionEvent) : Prop where
  packets : evs.filterMap SessionEvent.packet = (List.range' k m).map x.packet
  noFlush : ∀ ev ∈ evs, ev.isFlush = false

/-- After the first `k` packets of the stream: the last 512 of them are in the ring, nothing else is, and one
has been overwritten for each that lapped. `ov` is `overwritten` when the epoch began. -/
structure Filled (x : Stream) (ov : Nat) (s : Session) (k : Nat) : Prop where
  started : s.started = false
  rxCount : s.rxCount = k
  framesPerPkt : s.framesPerPkt = x.frameLength
  stale : s.flushed = true → s.boundaryTs = x.ts
  playCursor : s.jit.playCursor = x.seq.toNat
  boundary : s.jit.boundary = x.seq.toNat
  jitFrames : s.jit.framesPerPkt = x.frameLength
  seqRef : s.jit.sx.seqRef = x.seq.toNat + (k - 1)
  held : ∀ i, i < k → k ≤ i + jitterSlots → s.jit.ring.get (x.num i) = x.slot s.jit.gen i
  free : ∀ i, k ≤ i → i < jitterSlots → s.jit.live (s.jit.ring.get (x.num i)) = false
  overwritten : s.jit.overwritten = if k ≤ jitterSlots then ov else addU32 ov (k - jitterSlots)
  short : (k - 1) * x.frameLength < startFillFrames

/-- An epoch begins with nothing in the ring. -/
theorem FreshEpoch.filled {x : Stream} {s : Session} (h : FreshEpoch x s) : Filled x s.jit.overwritten s 0 := by
  cases h with
  | start =>
    refine ⟨rfl, rfl, rfl, fun hf => absurd hf (by simp [sessionStart]), rfl, rfl, rfl, rfl, ?_, ?_, rfl, ?_⟩
    · intro i hi
      omega
    · intro i _ _
      simp [sessionStart, jitterInit, zeroSlot, Jitter.live]
    · simp [startFillFrames]
  | flush seq ts evs hfl =>
    obtain ⟨ops, hops, hcount, hjit⟩ := runSession_ops (sessionStart x.frameLength seq ts) evs
    have hrun : SessionRun ops := ⟨hops, by omega⟩
    have hinv := EpochInv.run x.frameLength seq ts hrun
    have hgens := hinv.gens
    rw [countP_isFlush_run] at hgens
    have hframes := framesPerPkt_run x.frameLength seq ts ops
    have hjit' : (runSession (sessionStart x.frameLength seq ts) evs).1.jit =
      (runOps (jitterInit x.frameLength seq ts) ops).1 := hjit
    refine ⟨rfl, rfl, ?_, fun _ => rfl, rfl, rfl, ?_, rfl, ?_, fun i _ _ => ?_, rfl, ?_⟩
    · exact Machine.run_inv (s := sessionStart x.frameLength seq ts)
        (fun s => s.framesPerPkt = (x.frameLength : Int))
        (fun s ev hs => (sessionFrames_step s ev).trans hs) rfl evs
    · simp only [sessionFlush, jitterFlush, hjit', hframes]
    · intro i hi
      omega
    · -- a slot of this epoch would be one that was written before it began
      rw [← Bool.not_eq_true, live_iff]
      rintro ⟨hg, hst⟩
      simp only [sessionFlush, hjit'] at hg hst
      refine hgens.flush_fresh (by omega) x.seq x.ts (x.num i) ?_ hg
      rw [show ((runOps (jitterInit x.frameLength seq ts) ops).1.ring.get (x.num i)).state = .received from hst]
      simp
    · simp [startFillFrames]

/-! ## One locked section -/

theorem Filled.closed_iff {x : Stream} {ov k : Nat} {s : Session} (h : Filled x ov s k) :
    s.fillReached = false ↔ k * x.frameLength < startFillFrames := by
  simp only [Session.fillReached, h.started, h.rxCount, h.framesPerPkt, Bool.false_or, decide_eq_false_iff_not,
    not_le]
  norm_cast

/-- The packet's cell is free, or holds the packet one lap before. -/
theorem Filled.cell {x : Stream} {ov k : Nat} {s : Session} (h : Filled x ov s k) :
    s.jit.holds (x.num k) = false ∧
      s.jit.live (s.jit.ring.get (x.num k)) = decide (jitterSlots ≤ k) := by
  by_cases hk : k < jitterSlots
  · have hfree := h.free k (le_refl k) hk
    refine ⟨?_, by rw [hfree, decide_eq_false (by omega)]⟩
    rw [← Bool.not_eq_true, holds_iff]
    rintro ⟨hg, _, hst⟩
    simp [live_iff.2 ⟨hg, hst⟩] at hfree
  · have hcell : s.jit.ring.get (x.num k) = s.jit.ring.get (x.num (k - jitterSlots)) := by
      apply CellRing.get_congr
      simp only [Stream.num, jitterSlots] at hk ⊢
      omega
    have hheld := h.held (k - jitterSlots) (by simp only [jitterSlots] at hk ⊢; omega) (by omega)
    refine ⟨?_, ?_⟩
    · rw [← Bool.not_eq_true, holds_iff, hcell, hheld]
      rintro ⟨_, hx, _⟩
      simp only [Stream.slot, Stream.num, jitterSlots] at hx hk
      omega
    · rw [hcell, hheld, decide_eq_true (by omega)]
      exact live_iff.2 ⟨rfl, rfl⟩

/-- The next packet of the stream. -/
theorem Filled.rx {x : Stream} {ov k : Nat} {s : Session} (h : Filled x ov s k) (hgate : s.fillReached = false) :
    Filled x ov (rxInsert s (x.packet k)) (k + 1) := by
  have hshort := h.closed_iff.1 hgate
  have hfill : startFillFrames = 22050 := rfl
  have hfresh : sessionRejectStaleAudio s (x.packet k).rtptime = false := by
    cases hf : s.flushed with
    | false => simp [sessionRejectStaleAudio, hf]
    | true =>
      refine (reject_iff (h.stale hf) hf (k * x.frameLength)).2 ?_
      rw [Nat.mod_eq_of_lt (by omega)]
      omega
  have hwire : (x.packet k).seq = UInt16.ofNat (x.num k) := by
    simp only [Stream.packet, Stream.num, UInt16.ofNat_add, UInt16.ofNat_toNat]
  have hnum : x.num k = x.seq.toNat + k := rfl
  have href := h.seqRef
  have hseq : (seqextSeq s.jit.sx (x.packet k).seq).map (·.1) = some (x.num k) := by
    rw [hwire]
    exact seqextSeq_near (by omega) (by omega)
  obtain ⟨hcell, hlive⟩ := h.cell
  have hcur := h.playCursor
  have hbd := h.boundary
  obtain ⟨hrc, hst⟩ := jitterInsert_accepts (x.packet k).rtptime (x.fits k) hseq (by omega) (by omega) hcell
  have hnew := jitterInsert_ref hseq hrc
  have hrx : rxInsert s (x.packet k) =
      { s with jit := (jitterInsert s.jit (x.packet k).seq (x.packet k).rtptime (x.payload k)).1,
               rxCount := k + 1 } := by
    have hpl : (x.packet k).payload = x.payload k := rfl
    simp only [rxInsert, hfresh, Bool.false_eq_true, if_false, hpl, hrc, if_true, h.rxCount]
  rw [hrx]
  refine ⟨h.started, rfl, h.framesPerPkt, h.stale, hst.playCursor.trans hcur, hst.boundary.trans hbd,
    hst.framesPerPkt.trans h.jitFrames, ?_, fun i hi hle => ?_, fun i hi hlt => ?_, ?_, by simpa using hshort⟩
  · rw [hnew]
    omega
  · simp only [hst.ring, hst.gen, CellRing.get_set]
    split
    · rename_i hmod
      obtain rfl : i = k := by
        simp only [Stream.num, jitterSlots] at hmod hle
        omega
      rfl
    · rename_i hmod
      have hne : i ≠ k := by
        rintro rfl
        exact hmod rfl
      exact h.held i (by omega) (by omega)
  · simp only [hst.ring, CellRing.get_set]
    rw [if_neg (by simp only [Stream.num, jitterSlots] at hlt ⊢; omega)]
    have := h.free i (by omega) hlt
    rwa [Jitter.live, hst.gen]
  · rw [hst.overwritten, hlive, h.overwritten]
    rcases Nat.lt_or_ge k jitterSlots with hk | hk
    · rw [decide_eq_false (by omega), if_neg Bool.false_ne_true, if_pos (by omega), if_pos (by omega)]
    · have hlap : ¬ k + 1 ≤ jitterSlots := by omega
      rw [decide_eq_true hk, if_pos rfl, if_neg hlap]
      simp only [addU32]
      split <;> omega

/-- While the gate is closed the player only waits. -/
theorem Filled.player {x : Stream} {ov k : Nat} {s : Session} (h : Filled x ov s k) (hgate : s.fillReached = false) :
    Filled x ov (plIteration s).1 k := by
  have hgate' : ({ s with sinkRestartPending := false, resyncHold := s.resyncHold - 1 } : Session).fillReached =
      false := hgate
  have hpl : (plIteration s).1 =
      { s with sinkRestartPending := false, resyncHold := s.resyncHold - 1 } := by
    simp only [plIteration, hgate', Bool.not_false, if_true]
  rw [hpl]
  exact ⟨h.started, h.rxCount, h.framesPerPkt, h.stale, h.playCursor, h.boundary, h.jitFrames, h.seqRef, h.held,
    h.free, h.overwritten, h.short⟩

/-- **The run up to the gate's opening.** -/
theorem Filled.run {x : Stream} {ov : Nat} {evs : List SessionEvent} :
    ∀ {k m : Nat} {s : Session}, Filled x ov s k → ArriveInOrder x k m evs →
      Machine.AllSteps sessionStep (fun s _ => s.fillReached = false) s evs →
      Filled x ov (runSession s evs).1 (k + m) := by
  induction evs with
  | nil =>
    intro k m s h harr _
    have hm : m = 0 := by simpa using harr.packets.symm
    rw [hm]
    exact h
  | cons ev evs ih =>
    intro k m s h harr hclosed
    obtain ⟨hgate, hclosed⟩ := hclosed
    have hnf : ∀ ev ∈ evs, ev.isFlush = false := fun e he => harr.noFlush e (by simp [he])
    have hp := harr.packets
    cases ev with
    | rx a =>
      cases m with
      | zero => simp [SessionEvent.packet] at hp
      | succ m =>
        simp only [List.filterMap_cons, SessionEvent.packet, List.range'_succ, List.map_cons, List.cons.injEq] at hp
        obtain ⟨rfl, hp⟩ := hp
        have := ih (h.rx hgate) ⟨hp, hnf⟩ hclosed
        rwa [show k + (m + 1) = k + 1 + m by omega]
    | player => exact ih (h.player hgate) ⟨hp, hnf⟩ hclosed
    | resendScan => exact ih h ⟨hp, hnf⟩ hclosed
    | flush seq ts => exact absurd (harr.noFlush (.flush seq ts) (by simp)) (by simp [SessionEvent.isFlush])

/-! ## Popping what came -/

/-- Packets that lie in the ring from the cursor on, at most a lap of them, are popped one after another. -/
theorem pops_data (x : Stream) (n : Nat) : ∀ (i : Nat) (j : Jitter), n ≤ jitterSlots →
    j.playCursor = x.num i → j.framesPerPkt = x.frameLength →
    (∀ i', i ≤ i' → i' < i + n → j.ring.get (x.num i') = x.slot j.gen i') →
    (runOps j (List.replicate n (.pop sessionDeadline))).2 =
      (List.range' i n).map fun i => .pop (some (x.popped i)) := by
  induction n with
  | zero => intros; rfl
  | succ n ih =>
    intro i j hn hcur hfr hheld
    have hslot := hheld i (le_refl i) (by omega)
    have hh : j.holds j.playCursor = true := by
      rw [holds_iff, hcur, hslot]
      exact ⟨rfl, rfl, rfl⟩
    obtain ⟨_, he⟩ | ⟨hno, _⟩ | ⟨hno, _⟩ := jitterPop_cases sessionDeadline j
    · rw [List.replicate_succ, runOps, Machine.run_cons, List.range'_succ, List.map_cons]
      refine List.cons_eq_cons.2 ⟨?_, ?_⟩
      · simp only [jitterStep, he, hcur, hslot, hfr, Stream.slot, Stream.popped, List.take_length]
      · simp only [jitterStep, he]
        refine ih (i + 1) _ (by omega) (by simp only [hcur, Stream.num]; omega) hfr fun i' hi hlt => ?_
        rw [CellRing.get_set, if_neg, hheld i' (by omega) (by omega)]
        rw [hcur]
        simp only [Stream.num, jitterSlots] at hn ⊢
        omega
    · rw [hh] at hno
      exact absurd hno (by decide)
    · rw [hh] at hno
      exact absurd hno (by decide)

/-- Once the anchor has been overwritten, the first pop is no `POP_DATA`. -/
theorem pop_not_data {j : Jitter} (h : j.holds j.playCursor = false) (slot : JitterSlot) (hk : slot.kind = .data) :
    (jitterPop sessionDeadline j).2 ≠ some slot := by
  obtain ⟨hh, _⟩ | ⟨_, _, he⟩ | ⟨_, _, he⟩ := jitterPop_cases sessionDeadline j
  · rw [h] at hh
    exact absurd hh (by decide)
  · rw [he]
    rintro heq
    obtain rfl := Option.some.inj heq
    exact absurd hk (by simp)
  · rw [he]
    simp

/-- With at most a lap of packets the stream is whole. -/
theorem Filled.whole {x : Stream} {ov k : Nat} {s : Session} (h : Filled x ov s k) (hk : k ≤ jitterSlots) :
    s.jit.overwritten = ov ∧
    (runOps s.jit (List.replicate k (.pop sessionDeadline))).2 =
      (List.range k).map fun i => .pop (some (x.popped i)) := by
  refine ⟨by rw [h.overwritten, if_pos hk], ?_⟩
  rw [List.range_eq_range']
  exact pops_data x k 0 s.jit hk h.playCursor h.jitFrames fun i _ hi => h.held i (by omega) (by omega)

/-- With more, packets have been overwritten, the anchor among them. -/
theorem Filled.lapped {x : Stream} {ov k : Nat} {s : Session} (h : Filled x ov s k) (hk : jitterSlots < k)
    (hlt : k - jitterSlots < 2 ^ 32) :
    s.jit.overwritten ≠ ov ∧ ∀ slot, slot.kind = .data → (jitterPop sessionDeadline s.jit).2 ≠ some slot := by
  refine ⟨?_, fun slot => pop_not_data ?_ slot⟩
  · have hlap : ¬ k ≤ jitterSlots := by omega
    rw [h.overwritten, if_neg hlap, addU32]
    omega
  · -- the last packet that went to the anchor's cell
    have hpos : jitterSlots * 1 ≤ jitterSlots * ((k - 1) / jitterSlots) :=
      Nat.mul_le_mul_left _ (Nat.div_pos (by omega) (by decide))
    have hdiv := Nat.div_add_mod (k - 1) jitterSlots
    have hmod := Nat.mod_lt (k - 1) (show 0 < jitterSlots by decide)
    have hcell : s.jit.ring.get s.jit.playCursor =
        s.jit.ring.get (x.num (jitterSlots * ((k - 1) / jitterSlots))) := by
      apply CellRing.get_congr
      rw [h.playCursor, Stream.num, Nat.add_mul_mod_self_left]
    have hheld := h.held (jitterSlots * ((k - 1) / jitterSlots)) (by omega) (by omega)
    rw [← Bool.not_eq_true, holds_iff, hcell, hheld, h.playCursor]
    rintro ⟨_, hx, _⟩
    simp only [Stream.slot, Stream.num] at hx
    have hslots : 0 < jitterSlots := by decide
    omega

/-! ## The gate -/

theorem Filled.le_of_open {x : Stream} {ov k : Nat} {s : Session} (h : Filled x ov s k)
    (hopen : s.fillReached = true) : k ≤ 22050 := by
  have hfl : 1 ≤ x.frameLength := by
    by_contra hz
    have hzero : x.frameLength = 0 := by omega
    rw [h.closed_iff.2 (by simp [hzero, startFillFrames])] at hopen
    exact absurd hopen (by decide)
  have hmul := Nat.mul_le_mul_left (k - 1) hfl
  have hshort := h.short
  simp only [startFillFrames] at hshort
  omega

/-- Where the gate opens the packets fit the ring from 44 frames a packet on. -/
theorem Filled.fits_iff {x : Stream} {ov k : Nat} {s : Session} (h : Filled x ov s k) (hopen : s.fillReached = true) :
    k ≤ jitterSlots ↔ 44 ≤ x.frameLength := by
  have hshort := h.short
  have hreach : startFillFrames ≤ k * x.frameLength := by
    by_contra hlt
    rw [h.closed_iff.2 (by omega)] at hopen
    exact absurd hopen (by decide)
  simp only [startFillFrames, jitterSlots] at *
  constructor
  · intro hk
    by_contra hlt
    have := Nat.mul_le_mul hk (show x.frameLength ≤ 43 by omega)
    omega
  · intro hfl
    by_contra hlt
    have := Nat.mul_le_mul (show 512 ≤ k - 1 by omega) hfl
    omega

/-- **The start of a stream is kept exactly from 44 frames a packet on.** The stream's packets come in order
from the anchor of a fresh epoch, the player and the resend scan taking their turns between them, until the
start-fill gate first opens: at that moment no packet has been overwritten, and popping as many times as
packets came returns each of them as `POP_DATA` in order from the anchor on, if and only if the frame length
is at least 44; below, both fail. -/
theorem start_fill_kept_iff (x : Stream) (s₀ : Session) (h₀ : FreshEpoch x s₀) (evs : List SessionEvent) (k : Nat)
    (harr : ArriveInOrder x 0 k evs)
    (hclosed : Machine.AllSteps sessionStep (fun s _ => s.fillReached = false) s₀ evs)
    (hopen : (runSession s₀ evs).1.fillReached = true) :
    ((runSession s₀ evs).1.jit.overwritten = s₀.jit.overwritten ↔ 44 ≤ x.frameLength) ∧
    ((runOps (runSession s₀ evs).1.jit (List.replicate k (.pop sessionDeadline))).2 =
        ((List.range k).map fun i => .pop (some (x.popped i))) ↔ 44 ≤ x.frameLength) := by
  have h := h₀.filled.run harr hclosed
  rw [Nat.zero_add] at h
  have hfits := h.fits_iff hopen
  rcases Nat.lt_or_ge jitterSlots k with hk | hk
  · have hno : ¬ 44 ≤ x.frameLength := fun hfl => absurd (hfits.2 hfl) (by omega)
    have hfew := h.le_of_open hopen
    obtain ⟨hov, hpop⟩ := h.lapped hk (by omega)
    refine ⟨iff_of_false hov hno, iff_of_false (fun hpops => ?_) hno⟩
    obtain ⟨k, rfl⟩ : ∃ m, k = m + 1 := ⟨k - 1, by omega⟩
    rw [List.replicate_succ, runOps, Machine.run_cons, List.range_succ_eq_map, List.map_cons] at hpops
    exact hpop (x.popped 0) rfl (Obs.pop.inj (List.cons.inj hpops).1)
  · obtain ⟨hov, hpops⟩ := h.whole hk
    exact ⟨iff_of_true hov (hfits.1 hk), iff_of_true hpops (hfits.1 hk)⟩

/-- Two packets of 16384 frames, numbered across the 16-bit wrap. -/
def longFrames : Stream where
  seq := 65535
  ts := 5
  frameLength := 16384
  payload i := [UInt8.ofNat i]
  fits _ := by simp [jitterMaxPayload]

def longFramesArrive : List SessionEvent :=
  [.player, .rx (longFrames.packet 0), .player, .resendScan, .rx (longFrames.packet 1)]

theorem start_fill_kept_iff_long_frames :
    (runSession (sessionStart 16384 65535 5) longFramesArrive).1.jit.overwritten = 0 ∧
    (runOps (runSession (sessionStart 16384 65535 5) longFramesArrive).1.jit
        (List.replicate 2 (.pop sessionDeadline))).2 =
      [.pop (some (longFrames.popped 0)), .pop (some (longFrames.popped 1))] := by
  have h := start_fill_kept_iff longFrames (sessionStart 16384 65535 5) .start longFramesArrive 2
    ⟨rfl, by decide⟩ (by decide +kernel) (by decide +kernel)
  exact ⟨h.1.2 (by decide), h.2.2 (by decide)⟩

/-- Packets that come while they are short of the target keep the gate closed. -/
theorem arrive_closed {x : Stream} {ov : Nat} (n : Nat) : ∀ {k : Nat} {s : Session}, Filled x ov s k →
    (∀ i, k ≤ i → i < k + n → i * x.frameLength < startFillFrames) →
    Machine.AllSteps sessionStep (fun s _ => s.fillReached = false) s
      ((List.range' k n).map fun i => .rx (x.packet i)) := by
  induction n with
  | zero => intros; trivial
  | succ n ih =>
    intro k s h hshort
    have hgate := h.closed_iff.2 (hshort k (le_refl k) (by omega))
    exact ⟨hgate, ih (h.rx hgate) fun i hi hlt => hshort i (by omega) (by omega)⟩

/-- Packets of 43 frames. -/
def shortFrames : Stream where
  seq := 0
  ts := 0
  frameLength := 43
  payload i := [UInt8.ofNat i]
  fits _ := by simp [jitterMaxPayload]

def shortFramesArrive : List SessionEvent := (List.range' 0 513).map fun i => .rx (shortFrames.packet i)

/-- At 43 frames a packet, which `sdp_parse` accepts, the gate opens with packet 512, and that packet has just
been written over the anchor: one packet overwritten, and the first pop is no `POP_DATA`. -/
theorem anchor_overwritten_at_43 :
    ArriveInOrder shortFrames 0 513 shortFramesArrive ∧
    Machine.AllSteps sessionStep (fun s _ => s.fillReached = false) (sessionStart 43 0 0) shortFramesArrive ∧
    (runSession (sessionStart 43 0 0) shortFramesArrive).1.fillReached = true ∧
    (runSession (sessionStart 43 0 0) shortFramesArrive).1.jit.overwritten = 1 ∧
    ∀ slot, slot.kind = .data →
      (jitterPop sessionDeadline (runSession (sessionStart 43 0 0) shortFramesArrive).1.jit).2 ≠ some slot := by
  have h₀ : Filled shortFrames 0 (sessionStart 43 0 0) 0 := (FreshEpoch.start (x := shortFrames)).filled
  have harr : ArriveInOrder shortFrames 0 513 shortFramesArrive := by
    refine ⟨?_, fun ev hev => ?_⟩
    · rw [shortFramesArrive, List.filterMap_map]
      exact congrFun (List.filterMap_eq_map' (f := shortFrames.packet)) _
    · obtain ⟨i, _, rfl⟩ := List.mem_map.1 hev
      rfl
  have hclosed := arrive_closed 513 h₀ fun i _ hi => by
    simp only [shortFrames, startFillFrames]
    omega
  have h := h₀.run harr hclosed
  have hopen : (runSession (sessionStart 43 0 0) shortFramesArrive).1.fillReached = true := by
    rw [← Bool.not_eq_false, h.closed_iff]
    decide
  exact ⟨harr, hclosed, hopen, h.overwritten, (h.lapped (by decide) (by decide)).2⟩

end ShairKindle
