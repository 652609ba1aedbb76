import ShairKindle.Session.Receiver

/-!
# What is played was received (src/session.c, src/rtp.c, src/jitter.c)

From the socket to the player: a slot the player is handed as data holds the payload, the timestamp and the number of
an audio packet that came from the sender's address, on the audio socket or embedded in a resend on the control
socket, whole, and after the last flush. Datagrams from other addresses, of other formats, or cut off by the receive
buffer leave no trace in what is played.

The buffer for a datagram is 64 bytes longer than the longest payload and the headers are shorter than that, so a
datagram that is cut off is one whose payload the jitter buffer refuses (`brings_of_take`).
-/

namespace ShairKindle.Receiver

open Bytes

/-! ## What a datagram brings -/

/-- The audio packet a datagram of a socket carries. -/
def audioOf (port : Port) (buf : Bytes) : Option RtpAudio :=
  match port with
  | .audio => rtpParseAudio buf
  | .control =>
    match rtpClassifyControl buf with
    | .resendAudio inner => rtpParseAudio inner
    | _ => none
  | .timing => none

/-- `buf`, come in on `port`, is `a` as the sender sends it: by itself or embedded in a resend. -/
def Brings (port : Port) (buf : Bytes) (a : RtpAudio) : Prop :=
  ∃ marker ssrc, ssrc.length = 4 ∧ 16 ≤ a.payload.length ∧
    (port = .audio ∧ buf = audioPacket marker ssrc a ∨
      port = .control ∧ ∃ b0 again b2 b3, buf = resentPacket b0 again b2 b3 (audioPacket marker ssrc a))

theorem length_audioPacket (marker : Bool) {ssrc : Bytes} (hs : ssrc.length = 4) (a : RtpAudio) :
    (audioPacket marker ssrc a).length = 12 + a.payload.length := by
  simp only [audioPacket, putBe16, putBe32, List.length_append, List.length_cons, List.length_nil, hs]

theorem length_resentPacket (b0 : UInt8) (marker : Bool) (b2 b3 : UInt8) (packet : Bytes) :
    (resentPacket b0 marker b2 b3 packet).length = 4 + packet.length := by
  simp only [resentPacket, List.length_append, List.length_cons, List.length_nil]

theorem audioOf_eq_some_iff {port : Port} {buf : Bytes} {a : RtpAudio} : audioOf port buf = some a ↔ Brings port buf a := by
  cases port with
  | audio =>
    simp only [audioOf, Brings, rtpParseAudio_eq_some_iff, true_and, reduceCtorEq, false_and, or_false]
  | control =>
    constructor
    · intro h
      simp only [audioOf] at h
      split at h
      · rename_i inner hkind
        obtain ⟨marker, ssrc, hs, hp, rfl⟩ := rtpParseAudio_eq_some_iff.1 h
        obtain ⟨-, b0, again, b2, b3, rfl⟩ := rtpClassifyControl_eq_resendAudio_iff.1 hkind
        exact ⟨marker, ssrc, hs, hp, .inr ⟨rfl, b0, again, b2, b3, rfl⟩⟩
      · cases h
    · rintro ⟨marker, ssrc, hs, hp, ⟨hport, -⟩ | ⟨-, b0, again, b2, b3, rfl⟩⟩
      · cases hport
      have hne : audioPacket marker ssrc a ≠ [] := by
        intro he
        have := length_audioPacket marker hs a
        rw [he] at this
        simp only [List.length_nil] at this
        omega
      have hkind : rtpClassifyControl (resentPacket b0 again b2 b3 (audioPacket marker ssrc a)) =
          .resendAudio (audioPacket marker ssrc a) :=
        rtpClassifyControl_eq_resendAudio_iff.2 ⟨hne, b0, again, b2, b3, rfl⟩
      simp only [audioOf, hkind]
      exact rtpParseAudio_audioPacket marker hs hp
  | timing =>
    simp [audioOf, Brings]

theorem Brings.length_le {port : Port} {buf : Bytes} {a : RtpAudio} (h : Brings port buf a) :
    buf.length ≤ a.payload.length + 16 := by
  obtain ⟨marker, ssrc, hs, -, ⟨-, rfl⟩ | ⟨-, b0, again, b2, b3, rfl⟩⟩ := h
  · rw [length_audioPacket marker hs]
    omega
  · rw [length_resentPacket, length_audioPacket marker hs]
    omega

/-- What the receive buffer holds of a datagram is the whole of it, unless its payload is too long for a slot. -/
theorem brings_of_take {port : Port} {buf : Bytes} {a : RtpAudio} (h : Brings port (buf.take rxBufLen) a)
    (hlen : a.payload.length ≤ jitterMaxPayload) : Brings port buf a := by
  have hle := h.length_le
  rw [List.length_take] at hle
  have hshort : buf.length ≤ rxBufLen := by
    simp only [rxBufLen, jitterMaxPayload] at *
    omega
  rwa [List.take_of_length_le hshort] at h

/-! ## The locked sections of a run -/

/-- The locked section an event runs on the session's shared state, if any. -/
def Event.locked (peer : UInt32) : Event → Option SessionEvent
  | .datagram port source buf _ =>
    if buf.take rxBufLen = [] ∨ source ≠ peer then none else (audioOf port (buf.take rxBufLen)).map .rx
  | .periodic _ _ _ => none
  | .player => some .player
  | .flush seq ts => some (.flush seq ts)

def Event.isFlush : Event → Bool
  | .flush _ _ => true
  | _ => false

theorem rxDispatch_session (s : Rx) (port : Port) (buf : Bytes) (t4 : Nat) :
    (rxDispatch s port buf t4).1.session = ((audioOf port buf).map (rxInsert s.session)).getD s.session := by
  cases port with
  | audio =>
    simp only [rxDispatch, audioOf]
    cases rtpParseAudio buf with
    | none => rfl
    | some a => rfl
  | control =>
    simp only [rxDispatch, audioOf]
    cases rtpClassifyControl buf with
    | sync =>
      dsimp only
      cases rtpParseSync buf <;> rfl
    | resendAudio inner =>
      dsimp only
      cases rtpParseAudio inner <;> rfl
    | unknown => rfl
  | timing =>
    simp only [rxDispatch, audioOf]
    rcases timingDatagram s.exchange buf t4 with ⟨x, _ | r⟩ <;> rfl

/-- **The receiver runs the session's locked sections** and touches the shared state in no other way. -/
theorem step_session (peer : UInt32) (s : Rx) (ev : Event) :
    (step peer s ev).1.session = ((ev.locked peer).map fun e => (sessionStep s.session e).1).getD s.session := by
  cases ev with
  | datagram port source buf t4 =>
    by_cases hdrop : buf.take rxBufLen = [] ∨ source ≠ peer
    · simp only [step, Event.locked, if_pos hdrop]
      rfl
    · simp only [step, Event.locked, if_neg hdrop]
      rw [rxDispatch_session]
      cases audioOf port (buf.take rxBufLen) <;> rfl
  | periodic now t1 sendOk =>
    simp only [step, rxPeriodic, Event.locked]
    split <;> rfl
  | player => rfl
  | flush seq ts => rfl

/-! ## What the slots hold -/

theorem seqextSeq_low {s s' : Seqext} {w : UInt16} {v : Nat} (h : seqextSeq s w = some (v, s')) : w = UInt16.ofNat v := by
  have hw := w.toNat_lt
  simp only [seqextSeq] at h
  split_ifs at h <;>
  · obtain ⟨rfl, -⟩ := Prod.mk.inj (Option.some.inj h)
    rw [← UInt16.toNat_inj, UInt16.toNat_ofNat']
    simp only [Int.bmod_def] at *
    split <;> split at * <;> omega

/-- What the player does to the buffer: nothing, one pop, or one resync. -/
theorem plIteration_cases (s : Session) :
    (plIteration s).1.jit = s.jit ∧ (∀ slot, (plIteration s).2 ≠ .play slot) ∨
    (∃ slot, (plIteration s).2 = .play slot ∧ jitterPop sessionDeadline s.jit = ((plIteration s).1.jit, some slot)) ∨
    ∃ n, (plIteration s).2 = .resynced n ∧ jitterTryResync s.jit = ((plIteration s).1.jit, some n) := by
  simp only [plIteration]
  split
  · exact .inl ⟨rfl, fun slot h => by cases h⟩
  · obtain ⟨-, he⟩ | ⟨-, -, he⟩ | ⟨-, -, he⟩ := jitterPop_cases sessionDeadline s.jit
    · simp only [he]
      exact .inr (.inl ⟨_, rfl, rfl⟩)
    · simp only [he]
      exact .inr (.inl ⟨_, rfl, rfl⟩)
    · simp only [he]
      split
      · cases hr : jitterTryResync s.jit with
        | mk j out =>
          cases out with
          | none =>
            refine .inl ⟨?_, fun slot h => by cases h⟩
            obtain hn | ⟨_, _, _, _, _, _, _, _, hn⟩ := jitterTryResync_cases s.jit
            · rw [hn] at hr
              exact (Prod.mk.inj hr).1.symm
            · rw [hn] at hr
              cases (Prod.mk.inj hr).2
          | some n => exact .inr (.inr ⟨n, rfl, rfl⟩)
      · exact .inl ⟨rfl, fun slot h => by cases h⟩

/-- The player leaves each slot as it is, or takes it out of the received ones. -/
theorem plIteration_slots (s : Session) : (plIteration s).1.jit.gen = s.jit.gen ∧
    ∀ e, (plIteration s).1.jit.ring.get e = s.jit.ring.get e ∨
      ((plIteration s).1.jit.ring.get e).gen = s.jit.gen ∧ ((plIteration s).1.jit.ring.get e).state ≠ .received := by
  obtain ⟨he, -⟩ | ⟨slot, -, hpop⟩ | ⟨n, -, hres⟩ := plIteration_cases s
  · rw [he]
    exact ⟨rfl, fun e => .inl rfl⟩
  · obtain ⟨hh, he⟩ | ⟨-, -, he⟩ | ⟨-, -, he⟩ := jitterPop_cases sessionDeadline s.jit
    · rw [he] at hpop
      rw [← (Prod.mk.inj hpop).1]
      refine ⟨rfl, fun e => ?_⟩
      simp only [CellRing.get_set]
      split
      · exact .inr ⟨(holds_iff.1 hh).1, by simp⟩
      · exact .inl rfl
    · rw [he] at hpop
      rw [← (Prod.mk.inj hpop).1]
      refine ⟨rfl, fun e => ?_⟩
      simp only [CellRing.get_set]
      split
      · exact .inr ⟨rfl, by simp⟩
      · exact .inl rfl
    · rw [he] at hpop
      cases (Prod.mk.inj hpop).2
  · obtain he | ⟨_, _, _, _, _, _, _, _, he⟩ := jitterTryResync_cases s.jit
    · rw [he] at hres
      cases (Prod.mk.inj hres).2
    · rw [he] at hres
      rw [← (Prod.mk.inj hres).1]
      exact ⟨rfl, fun e => .inl rfl⟩

/-- Every received slot of the current generation has the property `P`, which may speak of the events so far. -/
structure Holding (P : List Event → RingSlot → Prop) (s : Rx) (evs : List Event) : Prop where
  gens : Generations s.session.jit (evs.countP Event.isFlush)
  slots : ∀ e, s.session.jit.live (s.session.jit.ring.get e) = true → P evs (s.session.jit.ring.get e)

section Holding

variable {P : List Event → RingSlot → Prop} {peer : UInt32} {s s' : Rx} {evs : List Event} {ev : Event}

theorem holding_start (P : List Event → RingSlot → Prop) (frameLength : Int) (seq : UInt16) (ts : UInt32) (t1 : Nat)
    (sendOk : Bool) (last : Nat) : Holding P (start frameLength seq ts t1 sendOk last).1 [] where
  gens := Generations.init frameLength seq ts
  slots e h := by simp [start, sessionStart, jitterInit, zeroSlot, Jitter.live] at h

/-- A step that is no flush, where each slot that is received afterwards is as it was or has the property. -/
theorem Holding.concat (hmono : ∀ slot, P evs slot → P (evs ++ [ev]) slot) (h : Holding P s evs) (hev : ev.isFlush = false)
    (hgen : s'.session.jit.gen = s.session.jit.gen)
    (hring : ∀ e, s'.session.jit.ring.get e = s.session.jit.ring.get e ∨
      (s'.session.jit.ring.get e).gen = s.session.jit.gen ∧
        ((s'.session.jit.ring.get e).state = .received → P (evs ++ [ev]) (s'.session.jit.ring.get e))) :
    Holding P s' (evs ++ [ev]) := by
  have hcount : (evs ++ [ev]).countP Event.isFlush = evs.countP Event.isFlush := by simp [hev]
  refine ⟨?_, fun e he => ?_⟩
  · rw [hcount]
    refine ⟨hgen.trans h.gens.gen_eq, fun e he => ?_⟩
    rcases hring e with hr | hr
    · rw [hr] at he ⊢
      exact h.gens.written e he
    · exact ⟨_, le_refl _, hr.1.trans h.gens.gen_eq⟩
  · rcases hring e with hr | hr
    · rw [hr] at he ⊢
      exact hmono _ (h.slots e (by simpa [Jitter.live, hgen] using he))
    · exact hr.2 (live_iff.1 he).2

theorem Holding.quiet (hmono : ∀ slot, P evs slot → P (evs ++ [ev]) slot) (h : Holding P s evs) (hev : ev.isFlush = false)
    (hs : s'.session = s.session) : Holding P s' (evs ++ [ev]) :=
  h.concat hmono hev (by rw [hs]) fun e => .inl (by rw [hs])

/-- What a datagram from the sender puts into a slot, when it puts something there. -/
def Stores (peer : UInt32) (s : Rx) (ev : Event) (a : RtpAudio) (ext : Nat) : Prop :=
  ∃ port buf t4, ev = .datagram port peer buf t4 ∧ Brings port buf a ∧ a.payload.length ≤ jitterMaxPayload ∧
    sessionRejectStaleAudio s.session a.rtptime = false ∧ (seqextSeq s.session.jit.sx a.seq).map (·.1) = some ext

theorem Holding.insert {port : Port} {buf : Bytes} {t4 : Nat} {a : RtpAudio}
    (hmono : ∀ slot, P evs slot → P (evs ++ [.datagram port peer buf t4]) slot)
    (hnew : ∀ ext, Stores peer s (.datagram port peer buf t4) a ext →
      P (evs ++ [.datagram port peer buf t4]) ⟨.received, s.session.jit.gen, ext, a.rtptime, a.payload, a.payload.length⟩)
    (h : Holding P s evs) (ha : Brings port (buf.take rxBufLen) a) (hs : s'.session = rxInsert s.session a) :
    Holding P s' (evs ++ [.datagram port peer buf t4]) := by
  by_cases hstale : sessionRejectStaleAudio s.session a.rtptime = true
  · rw [rxInsert, if_pos hstale] at hs
    exact h.quiet hmono rfl hs
  · rw [rxInsert, if_neg hstale] at hs
    have hjit : s'.session.jit = (jitterInsert s.session.jit a.seq a.rtptime a.payload).1 := by rw [hs]
    obtain ⟨-, hsame⟩ | ⟨ext, hseq, -, -, -, hrc, hst⟩ := jitterInsert_cases s.session.jit a.seq a.rtptime a.payload
    · exact h.concat hmono rfl (by rw [hjit, hsame.gen]) fun e => .inl (by rw [hjit, hsame.ring])
    · have hlen : a.payload.length ≤ jitterMaxPayload := by
        by_contra hlong
        simp [jitterInsert, jitterInsertWith, not_le.1 hlong] at hrc
      refine h.concat hmono rfl (by rw [hjit, hst.gen]) fun e => ?_
      rw [hjit, hst.ring, CellRing.get_set]
      split
      · exact .inr ⟨rfl, fun _ => hnew ext ⟨port, buf, t4, rfl, brings_of_take ha hlen, hlen, by simpa using hstale, hseq⟩⟩
      · exact .inl rfl

/-- No slot is of the generation a flush begins. -/
theorem Holding.flush (h : Holding P s evs) (seq : UInt16) (ts : UInt32)
    (hok : (evs ++ [Event.flush seq ts]).countP Event.isFlush < 2 ^ 32) :
    Holding P (step peer s (.flush seq ts)).1 (evs ++ [.flush seq ts]) := by
  have hcount : (evs ++ [Event.flush seq ts]).countP Event.isFlush = evs.countP Event.isFlush + 1 := by simp [Event.isFlush]
  rw [hcount] at hok
  have hjit : (step peer s (.flush seq ts)).1.session.jit = jitterFlush s.session.jit seq ts := rfl
  refine ⟨?_, fun e he => ?_⟩
  · rw [hcount, hjit]
    exact h.gens.flush seq ts
  · rw [hjit] at he
    obtain ⟨hg, hst⟩ := live_iff.1 he
    have hst' : (s.session.jit.ring.get e).state = .received := hst
    exact absurd hg (h.gens.flush_fresh hok seq ts e (by rw [hst']; simp))

/-- **One step keeps it**: what is stored has to have the property, and it must not be lost between flushes. -/
theorem Holding.step (hmono : ev.isFlush = false → ∀ slot, P evs slot → P (evs ++ [ev]) slot)
    (hnew : ∀ a ext, Stores peer s ev a ext →
      P (evs ++ [ev]) ⟨.received, s.session.jit.gen, ext, a.rtptime, a.payload, a.payload.length⟩)
    (h : Holding P s evs) (hok : (evs ++ [ev]).countP Event.isFlush < 2 ^ 32) :
    Holding P (step peer s ev).1 (evs ++ [ev]) := by
  cases ev with
  | datagram port source buf t4 =>
    have hses := step_session peer s (.datagram port source buf t4)
    by_cases hdrop : buf.take rxBufLen = [] ∨ source ≠ peer
    · rw [Event.locked, if_pos hdrop] at hses
      exact h.quiet (hmono rfl) rfl hses
    · rw [Event.locked, if_neg hdrop] at hses
      obtain rfl : source = peer := by
        by_contra hne
        exact hdrop (.inr hne)
      cases ha : audioOf port (buf.take rxBufLen) with
      | none =>
        rw [ha] at hses
        exact h.quiet (hmono rfl) rfl hses
      | some a =>
        rw [ha] at hses
        exact h.insert (hmono rfl) (hnew a) (audioOf_eq_some_iff.1 ha) hses
  | periodic now t1 sendOk => exact h.quiet (hmono rfl) rfl (step_session peer s (.periodic now t1 sendOk))
  | player =>
    obtain ⟨hgen, hring⟩ := plIteration_slots s.session
    exact h.concat (hmono rfl) rfl hgen fun e => (hring e).imp id fun hr => ⟨hr.1, fun hst => absurd hst hr.2⟩
  | flush seq ts => exact h.flush seq ts hok

/-- What the player is handed as data is what the cursor's slot holds. -/
theorem Holding.play (h : Holding P s evs) {slot : JitterSlot} (hout : (plIteration s.session).2 = .play slot)
    (hk : slot.kind = .data) :
    slot.extSeq = s.session.jit.playCursor ∧ ∃ cell : RingSlot, P evs cell ∧ cell.extSeq = slot.extSeq ∧ cell.rtpTs = slot.rtpTs ∧
      cell.payload.take cell.len = slot.payload ∧ cell.len = slot.len := by
  obtain ⟨-, hno⟩ | ⟨slot', hplay, hpop⟩ | ⟨n, hres, -⟩ := plIteration_cases s.session
  · exact absurd hout (hno slot)
  · obtain rfl : slot' = slot := PlayerOut.play.inj (hplay.symm.trans hout)
    obtain ⟨hh, he⟩ | ⟨-, -, he⟩ | ⟨-, -, he⟩ := jitterPop_cases sessionDeadline s.session.jit
    · rw [he] at hpop
      obtain rfl := Option.some.inj (Prod.mk.inj hpop).2
      obtain ⟨hg, hx, hst⟩ := holds_iff.1 hh
      exact ⟨rfl, _, h.slots _ (live_iff.2 ⟨hg, hst⟩), hx, rfl, rfl, rfl⟩
    · rw [he] at hpop
      obtain rfl := Option.some.inj (Prod.mk.inj hpop).2
      cases hk
    · rw [he] at hpop
      cases (Prod.mk.inj hpop).2
  · rw [hres] at hout
    cases hout

end Holding

/-! ## Where a packet came from -/

/-- The packet came in a datagram of `evs` from the sender, and no flush came after it. -/
def Source (peer : UInt32) (evs : List Event) (a : RtpAudio) : Prop :=
  ∃ evs₁ port buf t4 evs₂, evs = evs₁ ++ .datagram port peer buf t4 :: evs₂ ∧ (∀ ev ∈ evs₂, ev.isFlush = false) ∧
    Brings port buf a

theorem Source.concat {peer : UInt32} {evs : List Event} {a : RtpAudio} (h : Source peer evs a) {ev : Event}
    (hev : ev.isFlush = false) : Source peer (evs ++ [ev]) a := by
  obtain ⟨evs₁, port, buf, t4, evs₂, rfl, hfl, hb⟩ := h
  refine ⟨evs₁, port, buf, t4, evs₂ ++ [ev], by simp, fun e he => ?_, hb⟩
  rcases List.mem_append.1 he with he | he
  · exact hfl e he
  · rw [List.mem_singleton.1 he]
    exact hev

/-- The slot holds the whole payload of a packet that came from the sender. -/
def FromSender (peer : UInt32) (evs : List Event) (slot : RingSlot) : Prop :=
  slot.len = slot.payload.length ∧ Source peer evs ⟨UInt16.ofNat slot.extSeq, slot.rtpTs, slot.payload⟩

theorem fromSender_run (peer : UInt32) (frameLength : Int) (seq : UInt16) (ts : UInt32) (t1 : Nat) (sendOk : Bool)
    (last : Nat) (evs : List Event) (hok : evs.countP Event.isFlush < 2 ^ 32) :
    Holding (FromSender peer) (run peer (start frameLength seq ts t1 sendOk last).1 evs).1 evs := by
  refine Machine.run_inputs (Holding (FromSender peer)) (fun evs => evs.countP Event.isFlush < 2 ^ 32)
    (fun evs ev h => by rw [List.countP_append] at h; omega) (holding_start _ frameLength seq ts t1 sendOk last)
    (fun s evs ev hs hok => hs.step (fun hev slot hslot => ⟨hslot.1, hslot.2.concat hev⟩) (fun a ext hst => ?_) hok) evs hok
  obtain ⟨port, buf, t4, rfl, hb, -, -, hseq⟩ := hst
  obtain ⟨⟨v, sx⟩, hv, rfl⟩ := Option.map_eq_some_iff.1 hseq
  have hlow : UInt16.ofNat v = a.seq := (seqextSeq_low hv).symm
  exact ⟨rfl, evs, port, buf, t4, [], rfl, by simp, by rw [hlow]; exact hb⟩

/-- Only the player's turns show what it does. -/
theorem player_of_obs {peer : UInt32} {s : Rx} {ev : Event} {out : PlayerOut} (h : (Receiver.step peer s ev).2 = .player out) :
    ev = .player ∧ (plIteration s.session).2 = out := by
  cases ev with
  | datagram port source buf t4 =>
    simp only [Receiver.step] at h
    split at h
    · cases h
    · cases port with
      | audio =>
        simp only [rxDispatch] at h
        split at h <;> cases h
      | control =>
        simp only [rxDispatch] at h
        split at h
        · split at h <;> cases h
        · split at h <;> cases h
        · cases h
      | timing =>
        simp only [rxDispatch] at h
        split at h <;> cases h
  | periodic now t1 sendOk =>
    simp only [Receiver.step, rxPeriodic] at h
    split at h <;> cases h
  | player => exact ⟨rfl, Obs.player.inj h⟩
  | flush seq ts => cases h

/-! ## From the socket to the player -/

/-- **What is played was received.** Whatever datagrams come in on the three sockets, from the sender and from anyone
else, however the player's turns, the periodic turns and fewer than `2 ^ 32` flushes fall between them: a slot that
the player is handed as data has the timestamp, the low bits of the number and exactly the payload of an audio packet
that came before, whole, from the sender's address, by itself on the audio socket or embedded in a resend on the
control socket, and no flush came between the two. -/
theorem played_was_received (peer : UInt32) (frameLength : Int) (seq : UInt16) (ts : UInt32) (t1 : Nat) (sendOk : Bool)
    (last : Nat) (evs : List Event) (hfl : evs.countP Event.isFlush < 2 ^ 32) (pre post : List Obs) (slot : JitterSlot)
    (htr : (run peer (start frameLength seq ts t1 sendOk last).1 evs).2 = pre ++ .player (.play slot) :: post)
    (hk : slot.kind = .data) :
    ∃ evs₁ port buf t4 evs₂ evs₃, evs = (evs₁ ++ .datagram port peer buf t4 :: evs₂) ++ .player :: evs₃ ∧
      evs₁.length + 1 + evs₂.length = pre.length ∧ (∀ ev ∈ evs₂, ev.isFlush = false) ∧
      slot.len = slot.payload.length ∧ Brings port buf ⟨UInt16.ofNat slot.extSeq, slot.rtpTs, slot.payload⟩ := by
  obtain ⟨before, ev, after, rfl, hpre, hobs, -⟩ := Machine.run_split htr
  have hfl' : before.countP Event.isFlush < 2 ^ 32 := by
    rw [List.countP_append] at hfl
    omega
  have hheld := fromSender_run peer frameLength seq ts t1 sendOk last before hfl'
  obtain ⟨rfl, hout⟩ := player_of_obs hobs
  obtain ⟨-, cell, ⟨hlen, evs₁, port, buf, t4, evs₂, rfl, hno, hb⟩, hx, hts, hpl, hl⟩ := hheld.play hout hk
  rw [hlen, List.take_length] at hpl
  rw [hx, hts, hpl] at hb
  rw [hlen, hpl] at hl
  refine ⟨evs₁, port, buf, t4, evs₂, after, rfl, ?_, hno, hl.symm, hb⟩
  rw [← hpre, Machine.length_run]
  simp only [List.length_append, List.length_cons]
  omega

/-- A stranger's packet 7 and then the sender's own, with as many frames as the start gate asks for. -/
def strangerThenPeer : List Event :=
  [.datagram .audio 9 (audioPacket false [0, 0, 0, 0] ⟨7, 0, List.replicate 16 66⟩) 0,
    .datagram .control 1 (resentPacket 0x80 true 0 1 (audioPacket true [1, 2, 3, 4] ⟨7, 0, List.replicate 16 65⟩)) 0, .player]

theorem played_was_received_stranger :
    ∃ evs₁ port buf t4 evs₂ evs₃, strangerThenPeer = (evs₁ ++ .datagram port 1 buf t4 :: evs₂) ++ .player :: evs₃ ∧
      evs₁.length + 1 + evs₂.length = 2 ∧ (∀ ev ∈ evs₂, ev.isFlush = false) ∧ 16 = (List.replicate 16 (65 : UInt8)).length ∧
      Brings port buf ⟨7, 0, List.replicate 16 65⟩ :=
  played_was_received 1 22050 7 0 0 true 0 strangerThenPeer (by decide) [.quiet, .quiet] []
    ⟨.data, 7, 0, 22050, List.replicate 16 65, 16⟩ (by decide +kernel) rfl

end ShairKindle.Receiver
