import ShairKindle.Session.Basic

/-!
# Stale audio after a flush

`session_reject_stale_audio` (session.c:169) drops a packet whose RTP timestamp lies before the flush
boundary under a signed 32-bit compare. The boundary is set by `session_flush` and never moves
(`boundary_run`), while the stream's timestamps keep advancing. Half a timestamp period after the
flush (`2 ^ 31` samples, about 13 and a half hours at 44.1 kHz) the compare changes sign and the
continuing stream itself looks stale, for as long again.
-/

namespace ShairKindle

/-- The boundary and its arming flag only change in a flush. -/
theorem boundary_step (s : Session) (e : SessionEvent) (h : e.isFlush = false) :
    (sessionStep s e).1.boundaryTs = s.boundaryTs ∧ (sessionStep s e).1.flushed = s.flushed := by
  cases e with
  | rx a => simp only [sessionStep, rxInsert]; split <;> exact ⟨rfl, rfl⟩
  | player =>
    dsimp only [sessionStep, plIteration]
    split
    · exact ⟨rfl, rfl⟩
    · split
      · exact ⟨rfl, rfl⟩
      · split
        · split <;> exact ⟨rfl, rfl⟩
        · exact ⟨rfl, rfl⟩
  | resendScan => exact ⟨rfl, rfl⟩
  | flush seq ts => simp [SessionEvent.isFlush] at h

theorem boundary_run (s : Session) (evs : List SessionEvent) (h : ∀ e ∈ evs, e.isFlush = false) :
    (runSession s evs).1.boundaryTs = s.boundaryTs ∧ (runSession s evs).1.flushed = s.flushed := by
  induction evs generalizing s with
  | nil => exact ⟨rfl, rfl⟩
  | cons e evs ih =>
    simp only [List.forall_mem_cons] at h
    obtain ⟨h1, h2⟩ := boundary_step s e h.1
    obtain ⟨i1, i2⟩ := ih (sessionStep s e).1 h.2
    exact ⟨i1.trans h1, i2.trans h2⟩

theorem boundary_after_flush (s : Session) (seq : UInt16) (ts : UInt32) (evs : List SessionEvent)
    (h : ∀ e ∈ evs, e.isFlush = false) :
    (runSession (sessionFlush s seq ts) evs).1.boundaryTs = ts ∧
      (runSession (sessionFlush s seq ts) evs).1.flushed = true :=
  boundary_run (sessionFlush s seq ts) evs h

/-- The check against an armed boundary, as arithmetic: `d` samples past the boundary are admitted
iff `d` modulo the timestamp period is in the first half. -/
theorem reject_iff {s : Session} {ts : UInt32} (hts : s.boundaryTs = ts) (hfl : s.flushed = true) (d : Nat) :
    sessionRejectStaleAudio s (UInt32.ofNat (ts.toNat + d)) = false ↔ d % 2 ^ 32 < 2 ^ 31 := by
  have hlt : ts.toNat < 2 ^ 32 := ts.toNat_lt
  simp only [sessionRejectStaleAudio, hfl, hts, Bool.not_true, Bool.false_eq_true, if_false,
    decide_eq_false_iff_not, UInt32.toNat_ofNat', Int.bmod_def]
  split <;> omega

/-- **Exactly when a continuing stream is admitted.** After a flush at `ts`, whatever the threads do
short of another flush: packet `k` of the stream that continues from the flush, with timestamp
`ts + k * frames_per_pkt` modulo `2 ^ 32`, is admitted iff `k * frames_per_pkt` modulo `2 ^ 32` is below
`2 ^ 31`; and every timestamp one to `2 ^ 31` samples before `ts` is rejected. -/
theorem stream_after_flush_admitted_iff (s : Session) (seq : UInt16) (ts : UInt32) (evs : List SessionEvent)
    (h : ∀ e ∈ evs, e.isFlush = false) (k : Nat) :
    (sessionRejectStaleAudio (runSession (sessionFlush s seq ts) evs).1
        (UInt32.ofNat (ts.toNat + k * s.framesPerPkt.toNat)) = false ↔
      k * s.framesPerPkt.toNat % 2 ^ 32 < 2 ^ 31) ∧
    ∀ d, 1 ≤ d → d ≤ 2 ^ 31 →
      sessionRejectStaleAudio (runSession (sessionFlush s seq ts) evs).1
        (UInt32.ofNat (ts.toNat + (2 ^ 32 - d))) = true := by
  obtain ⟨hts, hfl⟩ := boundary_after_flush s seq ts evs h
  refine ⟨reject_iff hts hfl _, fun d h1 h2 => ?_⟩
  rw [← Bool.not_eq_false, reject_iff hts hfl, Nat.mod_eq_of_lt (by omega)]
  omega

/-- The first `n` packets of a stream that continues from `(seq, ts)`, in stream order. -/
def inOrder (seq : UInt16) (ts : UInt32) (framesPerPkt n : Nat) : List SessionEvent :=
  (List.range n).map fun i =>
    .rx ⟨seq + UInt16.ofNat i, UInt32.ofNat (ts.toNat + i * framesPerPkt), [0]⟩

theorem inOrder_no_flush (seq : UInt16) (ts : UInt32) (framesPerPkt n : Nat) :
    ∀ e ∈ inOrder seq ts framesPerPkt n, e.isFlush = false := by
  intro e he
  obtain ⟨i, _, rfl⟩ := List.mem_map.1 he
  rfl

/-- Early in the stream: packet 1000 after the flush is admitted. -/
theorem stream_after_flush_admitted_iff_early :
    sessionRejectStaleAudio
      (runSession (sessionFlush (sessionStart 352 0 0) 200 5) (inOrder 200 5 352 1000)).1
      (UInt32.ofNat ((5 : UInt32).toNat + 1000 * 352)) = false :=
  (stream_after_flush_admitted_iff (sessionStart 352 0 0) 200 5 (inOrder 200 5 352 1000)
    (inOrder_no_flush 200 5 352 1000) 1000).1.2 (by decide)

/-- Packet 6100806 of an unbroken stream of 352-frame packets is rejected as stale. -/
theorem long_stream_rejected :
    sessionRejectStaleAudio
      (runSession (sessionFlush (sessionStart 352 0 0) 200 5) (inOrder 200 5 352 6100806)).1
      (UInt32.ofNat ((5 : UInt32).toNat + 6100806 * 352)) = true := by
  obtain ⟨hts, hfl⟩ := boundary_after_flush (sessionStart 352 0 0) 200 5 (inOrder 200 5 352 6100806)
    (inOrder_no_flush 200 5 352 6100806)
  rw [← Bool.not_eq_false, reject_iff hts hfl]
  decide

end ShairKindle
