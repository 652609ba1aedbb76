import ShairKindle.Server.Framer

/-!
# Framing does not depend on segmentation

The server of `Basic.lean` computes the framer of `Framer.lean` (`deliver_framer`), whatever `rtp_open`
and the session calls return, as long as its replies can be written. Since the framer takes a chunk in
any number of pieces, so does the server: `framing_independent_of_segmentation`.
-/

namespace ShairKindle

open Bytes

/-- The framing part of the server. -/
def Server.framer (S : Server) : Framer := ⟨S.clientOpen, S.rbuf, S.bcap.map (·.remaining), S.rtsp.state⟩

@[simp] theorem Server.framer_isOpen (S : Server) : S.framer.isOpen = S.clientOpen := rfl

@[simp] theorem Server.framer_rbuf (S : Server) : S.framer.rbuf = S.rbuf := rfl

@[simp] theorem Server.framer_remaining (S : Server) : S.framer.remaining = S.bcap.map (·.remaining) := rfl

@[simp] theorem Server.framer_state (S : Server) : S.framer.state = S.rtsp.state := rfl

/-- Requests, captures with their bytes, and the drop of a malformed stream. -/
def ServerObs.isFraming : ServerObs → Bool
  | .startPlay _ | .rtpOpened _ | .rtpClosed _ => false
  | _ => true

/-- The framing part of a trace. -/
def framing (tr : List ServerObs) : List ServerObs := tr.filter ServerObs.isFraming

@[simp] theorem framing_nil : framing [] = [] := rfl

@[simp] theorem framing_append (a b : List ServerObs) : framing (a ++ b) = framing a ++ framing b :=
  List.filter_append ..

@[simp] theorem framing_cons_request (m : RtspMsg) (k : Nat) (tr : List ServerObs) :
    framing (.request m k :: tr) = .request m k :: framing tr := rfl

@[simp] theorem framing_cons_malformed (tr : List ServerObs) : framing (.malformed :: tr) = .malformed :: framing tr := rfl

@[simp] theorem framing_cons_captureEnd (tr : List ServerObs) :
    framing (.captureEnd :: tr) = .captureEnd :: framing tr := rfl

@[simp] theorem framing_cons_capture (mode : BodycapMode) (n : Nat) (tr : List ServerObs) :
    framing (.capture mode n :: tr) = .capture mode n :: framing tr := rfl

@[simp] theorem framing_map_fed (bs : Bytes) : framing (bs.map .fed) = bs.map .fed := by
  simp [framing, List.filter_eq_self, ServerObs.isFraming]

@[simp] theorem framing_map_stored (bs : Bytes) : framing (bs.map .stored) = bs.map .stored := by
  simp [framing, List.filter_eq_self, ServerObs.isFraming]

/-! ## One request -/

theorem teardownClient_framer (S : Server) :
    (teardownClient S).1.framer = .closed ∧
      framing (teardownClient S).2 = if S.bcap.isSome then [.captureEnd] else [] := by
  refine ⟨rfl, ?_⟩
  unfold teardownClient
  cases S.sess with
  | some set => cases S.bcap <;> rfl
  | none => cases S.rtpBound <;> cases S.bcap <;> rfl

theorem captureCreds_framer (S : Server) (m : RtspMsg) :
    (captureCreds S m).framer = S.framer ∧ (captureCreds S m).bcap = S.bcap := by
  rw [captureCreds_eq]
  exact ⟨rfl, rfl⟩

theorem bindRtp_framer (env : MsgEnv) (S : Server) (m : RtspMsg) :
    (bindRtp env S m).1.framer = S.framer ∧ (bindRtp env S m).1.bcap = S.bcap ∧ framing (bindRtp env S m).2 = [] := by
  unfold bindRtp
  split
  · split <;> exact ⟨rfl, rfl, rfl⟩
  · exact ⟨rfl, rfl, rfl⟩

theorem captureInline_framer (env : FileEnv) (S : Server) (m : RtspMsg) :
    (captureInline env S m).1.framer = S.framer ∧ (captureInline env S m).1.bcap = S.bcap ∧
      framing (captureInline env S m).2 = if S.bcap.isSome then [] else inlineObs m := by
  unfold captureInline inlineObs
  cases hb : S.bcap with
  | some cap => exact ⟨rfl, hb, rfl⟩
  | none =>
    cases inlineBody m with
    | none => exact ⟨rfl, hb, rfl⟩
    | some b =>
      refine ⟨?_, rfl, by simp⟩
      simp [Server.framer, beginBodyCapture, finishBodyCapture, hb]

theorem startPlay_framer (env : MsgEnv) (S : Server) :
    (startPlay env S).1.framer = S.framer ∧ framing (startPlay env S).2 = [] := by
  unfold startPlay
  split
  · exact ⟨rfl, rfl⟩
  · split <;> exact ⟨rfl, rfl⟩

/-- Up to the reply, buffer and capture stay, the protocol state moves, and the action says whether
the connection is to end. -/
theorem prepareReply_framer (P : Platform) (env : MsgEnv) (S : Server) (m : RtspMsg) :
    (prepareReply P env S m).1.framer = { S.framer with state := protoNext P.longMax S.rtsp.state m } ∧
    (prepareReply P env S m).1.bcap = S.bcap ∧
    framing (prepareReply P env S m).2 = (if S.bcap.isSome then [] else inlineObs m) ∧
    ((prepareReply P env S m).1.rtsp.action = .teardown ↔ endsConn S.rtsp.state m = true) := by
  obtain ⟨c1, c2⟩ := captureCreds_framer S m
  obtain ⟨b1, b2, b3⟩ := bindRtp_framer env (captureCreds S m) m
  obtain ⟨i1, i2, i3⟩ := captureInline_framer env.file (bindRtp env (captureCreds S m) m).1 m
  simp only [prepareReply, framing_append, b3, i3, List.nil_append]
  generalize captureInline env.file (bindRtp env (captureCreds S m) m).1 m = T at i1 i2 ⊢
  have hfr : T.1.framer = S.framer := by rw [i1, b1, c1]
  have hbc : T.1.bcap = S.bcap := by rw [i2, b2, c2]
  have hst : T.1.rtsp.state = S.rtsp.state := congrArg Framer.state hfr
  have hnext := rtspDispatch_state P { T.1.rtsp with action := .none } m
  have hact := (rtspDispatch_transition P { T.1.rtsp with action := .none } m).teardown_iff
  have hsess : (rtspHandle P T.1.rtsp m respCap).1 =
      (rtspDispatch P { T.1.rtsp with action := .none } m).sess := rfl
  rw [hsess]
  generalize (rtspDispatch P { T.1.rtsp with action := .none } m).sess = s' at hnext hact ⊢
  refine ⟨?_, hbc, by rw [b2, c2], ?_⟩
  · rw [← hst, ← hnext, ← hfr]
    rfl
  · rw [hact, hst]
    simp [endsConn]

theorem replyAndAct_framer (env : MsgEnv) (S : Server) :
    (if (replyAndAct env S).2.2 then (replyAndAct env S).1.framer = .closed
      else (replyAndAct env S).1.framer = S.framer) ∧
    (env.writeOk = true → ((replyAndAct env S).2.2 = true ↔ S.rtsp.action = .teardown) ∧
      framing (replyAndAct env S).2.1 =
        if S.rtsp.action = .teardown ∧ S.bcap.isSome then [.captureEnd] else []) := by
  obtain ⟨t1, t2⟩ := teardownClient_framer S
  obtain ⟨p1, p2⟩ := startPlay_framer env S
  unfold replyAndAct
  cases hw : env.writeOk with
  | false => exact ⟨t1, fun h => by cases h⟩
  | true =>
    simp only [Bool.not_true, Bool.false_eq_true, if_false, forall_const]
    cases ha : S.rtsp.action with
    | startPlay => exact ⟨p1, by simp, by simpa using p2⟩
    | teardown => exact ⟨t1, by simp, by simpa using t2⟩
    | none | bindRtp | flush | setVolume => exact ⟨rfl, by simp, by simp⟩

/-- Handling a request leaves buffer and capture alone and moves the protocol state, or ends the
connection. -/
theorem handleMsg_framer (P : Platform) (env : MsgEnv) (S : Server) (m : RtspMsg) :
    if (handleMsg P env S m).2.2 then (handleMsg P env S m).1.framer = .closed
    else (handleMsg P env S m).1.framer = { S.framer with state := protoNext P.longMax S.rtsp.state m } := by
  have hr := (replyAndAct_framer env (prepareReply P env S m).1).1
  rw [(prepareReply_framer P env S m).1] at hr
  exact hr

/-- When the reply can be written, the connection ends exactly for a TEARDOWN outside idle. -/
theorem handleMsg_written (P : Platform) {env : MsgEnv} (S : Server) (m : RtspMsg) (hw : env.writeOk = true) :
    (handleMsg P env S m).2.2 = endsConn S.rtsp.state m ∧
      framing (handleMsg P env S m).2.1 = (if S.bcap.isSome then [] else inlineObs m) ++
        (if endsConn S.rtsp.state m && S.bcap.isSome then [.captureEnd] else []) := by
  obtain ⟨_, a2, a3, a4⟩ := prepareReply_framer P env S m
  obtain ⟨r1, r2⟩ := (replyAndAct_framer env (prepareReply P env S m).1).2 hw
  refine ⟨?_, ?_⟩
  · rw [Bool.eq_iff_iff, ← a4]
    exact r1
  · simp only [handleMsg, framing_append, a3, r2, a2, a4, Bool.and_eq_true]

/-! ## The loops -/

theorem drainLoop_framer (P : Platform) (env : Nat → MsgEnv) (hw : ∀ i, (env i).writeOk = true) :
    ∀ (fuel i : Nat) (S : Server) (buf : Bytes), S.clientOpen = true → S.bcap = none →
      (drainLoop P env fuel i S buf).1.framer = (Framer.drain P.longMax fuel S.rtsp.state buf).1 ∧
        framing (drainLoop P env fuel i S buf).2 = (Framer.drain P.longMax fuel S.rtsp.state buf).2
  | 0, i, S, buf, ho, hb => by simp [drainLoop, Framer.drain, Server.framer, ho, hb]
  | fuel + 1, i, S, buf, ho, hb => by
    simp only [drainLoop, Framer.drain]
    cases rtspMsgParse P.longMax buf with
    | needHead | needBody m k => simp [Server.framer, ho, hb]
    | malformed =>
      obtain ⟨t1, t2⟩ := teardownClient_framer S
      exact ⟨t1, by simp [t2, hb]⟩
    | complete m k =>
      dsimp only
      have h1 := handleMsg_framer P (env i) S m
      obtain ⟨h2, h3⟩ := handleMsg_written P S m (hw i)
      simp only [hb, Option.isSome_none, Bool.and_false, Bool.false_eq_true, if_false, List.append_nil] at h3
      rw [h2] at h1 ⊢
      cases he : endsConn S.rtsp.state m with
      | true =>
        rw [he, if_pos rfl] at h1
        exact ⟨h1, by simp [h3]⟩
      | false =>
        rw [he, if_neg Bool.false_ne_true] at h1
        have ho' : (handleMsg P (env i) S m).1.clientOpen = true := (congrArg Framer.isOpen h1).trans ho
        have hb' : (handleMsg P (env i) S m).1.bcap = none := by
          have := congrArg Framer.remaining h1
          simpa [Server.framer, hb] using this
        have hst : (handleMsg P (env i) S m).1.rtsp.state = protoNext P.longMax S.rtsp.state m :=
          congrArg Framer.state h1
        obtain ⟨i1, i2⟩ := drainLoop_framer P env hw fuel (i + 1) (handleMsg P (env i) S m).1 (buf.drop k) ho' hb'
        rw [hst] at i1 i2
        exact ⟨i1, by simp [h3, i2]⟩

theorem drain_framer (P : Platform) {env : Nat → MsgEnv} (hw : ∀ i, (env i).writeOk = true) {S : Server}
    (ho : S.clientOpen = true) (hb : S.bcap = none) :
    (drain P env S).1.framer = (Framer.drainAll P.longMax S.rtsp.state S.rbuf).1 ∧
      framing (drain P env S).2 = (Framer.drainAll P.longMax S.rtsp.state S.rbuf).2 :=
  drainLoop_framer P env hw S.rbuf.length 0 S S.rbuf ho hb

theorem frameOversized_framer (P : Platform) {env : MsgEnv} (file : FileEnv) {S : Server} (hw : env.writeOk = true)
    (ho : S.clientOpen = true) (hb : S.bcap = none) :
    (frameOversized P env file S).1.framer = (S.framer.oversized P.longMax).1 ∧
      framing (frameOversized P env file S).2 = (S.framer.oversized P.longMax).2 := by
  obtain ⟨t1, t2⟩ := teardownClient_framer S
  simp only [frameOversized, Framer.oversized, Server.framer_rbuf, Server.framer_state]
  cases rtspMsgParse P.longMax S.rbuf with
  | needHead | malformed | complete m k => exact ⟨t1, by simp [t2, hb]⟩
  | needBody m k =>
    dsimp only
    generalize hT : ({ beginBodyCapture file S m m.bodyLen (S.rbuf.drop k) with rbuf := [] } : Server) = T
    have hfr : T.framer = ⟨true, [], some (m.bodyLen - (S.rbuf.drop k).length), S.rtsp.state⟩ := by
      rw [← hT]
      simp [Server.framer, beginBodyCapture, bodycapBegin, ho]
    have hTb : T.bcap.isSome = true := by rw [← hT]; rfl
    have hst : T.rtsp.state = S.rtsp.state := congrArg Framer.state hfr
    have h1 := handleMsg_framer P env T m
    obtain ⟨h2, h3⟩ := handleMsg_written P T m hw
    rw [h2, hst, hfr] at h1
    rw [hst] at h3
    simp only [framing_append, framing_cons_capture, framing_map_fed, framing_cons_request, h3, hTb, if_true,
      List.nil_append, Bool.and_true]
    by_cases he : endsConn S.rtsp.state m = true
    · rw [if_pos he] at h1
      simp only [he, if_true, List.cons_append, List.append_assoc, List.nil_append, and_true]
      exact h1
    · rw [if_neg he] at h1
      simp only [he, Bool.false_eq_true, if_false, and_true]
      exact h1

theorem onData_framer (P : Platform) {env : Nat → MsgEnv} (file : FileEnv) {S : Server} (chunk : Bytes)
    (hw : ∀ i, (env i).writeOk = true) (ho : S.clientOpen = true) :
    (onData P env file S chunk).1.framer = (S.framer.recv P.longMax chunk).1 ∧
      framing (onData P env file S chunk).2 = (S.framer.recv P.longMax chunk).2 := by
  unfold onData Framer.recv
  cases hb : S.bcap with
  | none =>
    simp only [Server.framer_remaining, Server.framer_rbuf, Server.framer_state, hb, Option.map_none]
    exact drain_framer (S := { S with rbuf := S.rbuf ++ chunk, bcap := none }) P hw ho rfl
  | some b =>
    simp only [Server.framer_remaining, Server.framer_rbuf, Server.framer_state, hb, Option.map_some]
    obtain ⟨buf, hbuf⟩ : ∃ buf : Bytes, S.rbuf ++ chunk = buf := ⟨_, rfl⟩
    simp only [hbuf]
    have hrem : (bodycapFeed b (buf.take b.remaining) file).remaining = b.remaining - min b.remaining buf.length := by
      rw [bodycapFeed_remaining, List.length_take]
    by_cases hlt : buf.length < b.remaining
    · have hdone : bodycapDone (bodycapFeed b (buf.take b.remaining) file) = false := by
        simp only [bodycapDone, hrem, beq_eq_false_iff_ne]
        omega
      rw [if_pos hlt]
      simp only [hdone, Bool.not_false, if_true, framing_map_fed]
      refine ⟨?_, by rw [List.take_of_length_le hlt.le]⟩
      simp only [Server.framer, Option.map_some, hrem, List.drop_of_length_le hlt.le, Nat.min_eq_right hlt.le]
    · have hdone : bodycapDone (bodycapFeed b (buf.take b.remaining) file) = true := by
        simp only [bodycapDone, hrem, beq_iff_eq]
        omega
      rw [if_neg hlt]
      simp only [hdone, Bool.not_true, Bool.false_eq_true, if_false, framing_append, framing_map_fed,
        framing_cons_captureEnd]
      generalize hT : finishBodyCapture file
        { S with bcap := some (bodycapFeed b (buf.take b.remaining) file), rbuf := buf.drop b.remaining }
        (bodycapFeed b (buf.take b.remaining) file) = T
      have hTo : T.clientOpen = true := by rw [← hT]; exact ho
      have hTb : T.bcap = none := by rw [← hT]; rfl
      have hTr : T.rbuf = buf.drop b.remaining := by rw [← hT]; rfl
      have hTs : T.rtsp.state = S.rtsp.state := by rw [← hT]; rfl
      obtain ⟨d1, d2⟩ := drain_framer P hw hTo hTb
      rw [hTr, hTs] at d1 d2
      exact ⟨d1, by rw [d2]⟩

/-! ## Delivering a stream -/

/-- A chunk of the stream and what the system answers while it is delivered. The poll loop finds the
socket readable; if the buffer is full the first call does not receive (main.c:361-364), and the loop
calls again. -/
structure Delivery where
  chunk : Bytes
  envFull : Nat → MsgEnv
  fileFull : FileEnv
  env : Nat → MsgEnv
  file : FileEnv

/-- Every reply can be written. -/
def Delivery.WritesOk (d : Delivery) : Prop := (∀ i, (d.envFull i).writeOk = true) ∧ ∀ i, (d.env i).writeOk = true

/-- The events of a delivery: the one that makes room, if the buffer is full, and the one that receives. -/
def Delivery.events (d : Delivery) (S : Server) : List ServerEvent :=
  (if S.full then [.readable (.data d.chunk) d.envFull d.fileFull] else []) ++ [.readable (.data d.chunk) d.env d.file]

/-- One chunk through `on_client_readable`. -/
def deliver (P : Platform) (S : Server) (d : Delivery) : Server × List ServerObs :=
  let t := Machine.run (serverStep P) S (d.events S)
  (t.1, t.2.flatten)

/-- `recv` returned at least one byte and no more than there was room for. -/
def ChunkFits (S : Server) (d : Delivery) : Prop := S.framer.Fits d.chunk

instance (S : Server) (d : Delivery) : Decidable (ChunkFits S d) := inferInstanceAs (Decidable (S.framer.Fits d.chunk))

theorem Server.full_iff (S : Server) :
    S.full = true ↔ S.rbuf.length = rbufCap ∧ S.bcap.map (·.remaining) = none := by
  simp [Server.full]

/-- Receiving with room left. -/
theorem receive_framer (P : Platform) {S : Server} {d : Delivery} (hw : d.WritesOk) (ho : S.clientOpen = true)
    (hf : S.full = false) :
    (serverStep P S (.readable (.data d.chunk) d.env d.file)).1.framer = (S.framer.recv P.longMax d.chunk).1 ∧
      framing (serverStep P S (.readable (.data d.chunk) d.env d.file)).2 =
        (S.framer.recv P.longMax d.chunk).2 := by
  simp only [serverStep, onClientReadable, ho, hf, if_true, Bool.false_eq_true, if_false]
  exact onData_framer P d.file d.chunk hw.2 ho

/-- The event that makes room is the framer getting ready; afterwards the buffer is not full. -/
theorem makeRoom_framer (P : Platform) {S : Server} {d : Delivery} (hw : d.WritesOk) (ho : S.clientOpen = true)
    (hf : S.full = true) :
    (serverStep P S (.readable (.data d.chunk) d.envFull d.fileFull)).1.framer = (S.framer.oversized P.longMax).1 ∧
      framing (serverStep P S (.readable (.data d.chunk) d.envFull d.fileFull)).2 =
        (S.framer.oversized P.longMax).2 ∧
      (serverStep P S (.readable (.data d.chunk) d.envFull d.fileFull)).1.full = false := by
  have hb : S.bcap = none := by simpa using (S.full_iff.1 hf).2
  obtain ⟨o1, o2⟩ := frameOversized_framer P d.fileFull (hw.1 0) ho hb
  simp only [serverStep, onClientReadable, ho, hf, if_true]
  refine ⟨o1, o2, ?_⟩
  have hnil : (frameOversized P (d.envFull 0) d.fileFull S).1.rbuf = [] :=
    (congrArg Framer.rbuf o1).trans (Framer.oversized_ok P.longMax S.framer).2
  simp [Server.full, hnil, rbufCap]

/-- A closed connection is not polled. -/
theorem serverStep_closed (P : Platform) {S : Server} (ho : S.clientOpen = false) (r : Recv) (env : Nat → MsgEnv)
    (file : FileEnv) : serverStep P S (.readable r env file) = (S, []) := by
  simp [serverStep, ho]

/-- **The server computes the framer.** -/
theorem deliver_framer (P : Platform) (S : Server) {d : Delivery} (hw : d.WritesOk) :
    (deliver P S d).1.framer = (S.framer.deliver P.longMax d.chunk).1 ∧
      framing (deliver P S d).2 = (S.framer.deliver P.longMax d.chunk).2 := by
  unfold Framer.deliver Framer.ready
  simp only [Server.framer_isOpen, Server.framer_rbuf, Server.framer_remaining, ← S.full_iff]
  unfold deliver Delivery.events
  cases ho : S.clientOpen with
  | false =>
    cases S.full <;> simp [Machine.run_cons, serverStep_closed P ho]
  | true =>
    cases hf : S.full with
    | false =>
      obtain ⟨d1, d2⟩ := receive_framer P hw ho hf
      simp [Machine.run_cons, Framer.andThen, ho, d1, d2]
    | true =>
      obtain ⟨r1, r2, r3⟩ := makeRoom_framer P hw ho hf
      simp only [if_true, List.cons_append, List.nil_append, Machine.run_cons, Machine.run_nil, List.flatten_cons,
        List.flatten_nil, List.append_nil, framing_append, Framer.andThen, ← r1, ← r2, Server.framer_isOpen]
      cases hm : (serverStep P S (.readable (.data d.chunk) d.envFull d.fileFull)).1.clientOpen with
      | false => simp [serverStep_closed P hm, ← r1, ← r2]
      | true =>
        obtain ⟨d1, d2⟩ := receive_framer P hw hm r3
        simp [d1, d2]

/-- A run of the server over deliveries is the framer's run over their chunks. -/
theorem run_deliver_framer (P : Platform) (S : Server) (ds : List Delivery) (hw : ∀ d ∈ ds, d.WritesOk) :
    (Machine.run (deliver P) S ds).1.framer =
        (Machine.run (Framer.deliver P.longMax) S.framer (ds.map (·.chunk))).1 ∧
      framing (Machine.run (deliver P) S ds).2.flatten =
        (Machine.run (Framer.deliver P.longMax) S.framer (ds.map (·.chunk))).2.flatten ∧
      (Machine.AllSteps (deliver P) ChunkFits S ds →
        Machine.AllSteps (Framer.deliver P.longMax) Framer.Fits S.framer (ds.map (·.chunk))) := by
  induction ds generalizing S with
  | nil => exact ⟨rfl, rfl, id⟩
  | cons d ds ih =>
    obtain ⟨d1, d2⟩ := deliver_framer P S (hw d List.mem_cons_self)
    obtain ⟨i1, i2, i3⟩ := ih (deliver P S d).1 fun e he => hw e (List.mem_cons_of_mem _ he)
    rw [d1] at i1 i2 i3
    simp only [List.map_cons, Machine.run_cons, List.flatten_cons, framing_append]
    exact ⟨i1, by rw [d2, i2], fun h => ⟨h.1, i3 h.2⟩⟩

/-! ## Between two events

Whatever is answered, whether or not replies can be written: a capture has an empty buffer behind it
and bytes to come, so `recv` always has room. -/

/-- What framing leaves in the buffer; no capture starts there. -/
theorem drainLoop_left (P : Platform) (env : Nat → MsgEnv) :
    ∀ (fuel i : Nat) (S : Server) (buf : Bytes), S.bcap = none →
      (drainLoop P env fuel i S buf).1.rbuf.length ≤ buf.length ∧ (drainLoop P env fuel i S buf).1.bcap = none
  | 0, i, S, buf, hb => ⟨Nat.le_refl _, hb⟩
  | fuel + 1, i, S, buf, hb => by
    simp only [drainLoop]
    cases rtspMsgParse P.longMax buf with
    | needHead | needBody m k => exact ⟨Nat.le_refl _, hb⟩
    | malformed => exact ⟨Nat.zero_le _, rfl⟩
    | complete m k =>
      dsimp only
      have h1 := handleMsg_framer P (env i) S m
      have hbc : ∀ F : Framer, F.remaining = none → (handleMsg P (env i) S m).1.framer = F →
          (handleMsg P (env i) S m).1.bcap = none := by
        rintro F hF rfl
        simpa using hF
      split
      · rw [if_pos ‹_›] at h1
        exact ⟨by rw [show (handleMsg P (env i) S m).1.rbuf = [] from congrArg Framer.rbuf h1]; exact Nat.zero_le _,
          hbc _ rfl h1⟩
      · rw [if_neg ‹_›] at h1
        obtain ⟨i1, i2⟩ := drainLoop_left P env fuel (i + 1) (handleMsg P (env i) S m).1 (buf.drop k)
          (hbc _ (by simp [hb]) h1)
        exact ⟨i1.trans (by simp), i2⟩

theorem drain_ok (P : Platform) (env : Nat → MsgEnv) {S : Server} (hb : S.bcap = none) (hlen : S.rbuf.length ≤ rbufCap) :
    (drain P env S).1.framer.Ok := by
  obtain ⟨h1, h2⟩ := drainLoop_left P env S.rbuf.length 0 S S.rbuf hb
  exact ⟨h1.trans hlen, by simp [drain, h2]⟩

theorem Framer.closed_ok : Framer.closed.Ok := ⟨Nat.zero_le _, by simp [Framer.closed]⟩

theorem frameOversized_ok (P : Platform) (env : MsgEnv) (file : FileEnv) (S : Server) :
    (frameOversized P env file S).1.framer.Ok := by
  unfold frameOversized
  cases he : rtspMsgParse P.longMax S.rbuf with
  | needHead => exact Framer.closed_ok
  | malformed => exact Framer.closed_ok
  | complete m k => exact Framer.closed_ok
  | needBody m n =>
    dsimp only
    obtain ⟨hn, -, hlt⟩ := rtspMsgParse_eq_needBody he
    have hle := (hdrsEnd_eq_some hn).2.1
    have h1 := handleMsg_framer P env { beginBodyCapture file S m m.bodyLen (S.rbuf.drop n) with rbuf := [] } m
    split at h1
    · rw [h1]; exact Framer.closed_ok
    · rw [h1]
      refine ⟨Nat.zero_le _, ?_⟩
      simp only [Server.framer, beginBodyCapture, Option.map_some, bodycapFeed_remaining, Option.mem_def,
        Option.some.injEq, forall_eq', true_and, List.length_drop, bodycapBegin]
      omega

theorem onData_ok (P : Platform) (env : Nat → MsgEnv) (file : FileEnv) {S : Server} {chunk : Bytes}
    (hlen : S.rbuf.length + chunk.length ≤ rbufCap) : (onData P env file S chunk).1.framer.Ok := by
  rw [← List.length_append] at hlen
  unfold onData
  obtain ⟨buf, hbuf⟩ : ∃ buf : Bytes, S.rbuf ++ chunk = buf := ⟨_, rfl⟩
  simp only [hbuf] at hlen ⊢
  cases hb : S.bcap with
  | none => exact drain_ok P env rfl hlen
  | some b =>
    dsimp only
    split
    · rename_i hdone
      simp only [bodycapDone, bodycapFeed_remaining, List.length_take, Bool.not_eq_true', beq_eq_false_iff_ne] at hdone
      refine ⟨by simp [Server.framer]; omega, ?_⟩
      simp only [Server.framer, Option.map_some, bodycapFeed_remaining, Option.mem_def, Option.some.injEq, forall_eq',
        List.length_take, List.drop_eq_nil_iff]
      omega
    · exact drain_ok P env rfl (by simp [finishBodyCapture]; omega)

/-- `recv` fills at most the room it is given, with at least one byte. -/
def RecvFits (S : Server) : ServerEvent → Prop
  | .readable (.data chunk) _ _ =>
    S.clientOpen = true → S.full = false → chunk ≠ [] ∧ chunk.length ≤ rbufCap - S.rbuf.length
  | _ => True

theorem serverStep_ok (P : Platform) {S : Server} {e : ServerEvent} (hok : S.framer.Ok) (hfit : RecvFits S e) :
    (serverStep P S e).1.framer.Ok := by
  cases e with
  | accept peer =>
    simp only [serverStep, onListenReadable]
    cases peer with
    | none => exact hok
    | some ip =>
      dsimp only
      split
      · exact hok
      · exact ⟨Nat.zero_le _, fun r hr => ⟨rfl, (hok.2 r hr).2⟩⟩
  | readable r env file =>
    cases ho : S.clientOpen with
    | false => rw [serverStep_closed P ho]; exact hok
    | true =>
      simp only [serverStep, onClientReadable, ho, if_true]
      cases hf : S.full with
      | true => exact frameOversized_ok P (env 0) file S
      | false =>
        cases r with
        | data chunk =>
          have hlen := (hfit ho hf).2
          have hcap : S.rbuf.length ≤ rbufCap := hok.1
          exact onData_ok P env file (by omega)
        | again => exact hok
        | eof | error => exact Framer.closed_ok
  | deadline =>
    simp only [serverStep]
    split
    · exact Framer.closed_ok
    · exact hok

/-! ## The result -/

/-- The deliveries of a connection on which every reply can be written and every chunk fits. -/
def Sent (P : Platform) (S : Server) (ds : List Delivery) : Prop :=
  (∀ d ∈ ds, d.WritesOk) ∧ Machine.AllSteps (deliver P) ChunkFits S ds

/-- **Framing does not depend on segmentation.** From a fresh connection, two ways of cutting one
stream into chunks give the same requests with everything the parser read, the same captures with the
same bytes, the same drop of a malformed stream at the same position, and leave the same framing state;
positions in the trace are positions in the stream. And in every run, whatever the system answers, a
capture has an empty buffer behind it and bytes to come, and `recv` is called with room. -/
theorem framing_independent_of_segmentation (P : Platform) {S : Server} (hr : S.rbuf = []) (hb : S.bcap = none) :
    (∀ ds es, Sent P S ds → Sent P S es → ds.flatMap (·.chunk) = es.flatMap (·.chunk) →
      framing (Machine.run (deliver P) S ds).2.flatten = framing (Machine.run (deliver P) S es).2.flatten ∧
      (Machine.run (deliver P) S ds).1.framer = (Machine.run (deliver P) S es).1.framer) ∧
    (∀ ds, Sent P S ds → (Machine.run (deliver P) S ds).1.clientOpen = true →
      streamPos (framing (Machine.run (deliver P) S ds).2.flatten) + (Machine.run (deliver P) S ds).1.rbuf.length =
        (ds.flatMap (·.chunk)).length) ∧
    (∀ es T, Machine.AllSteps (serverStep P) RecvFits S es → (Machine.run (serverStep P) S es).1 = T →
      (∀ b ∈ T.bcap, T.rbuf = [] ∧ 0 < b.remaining) ∧ (T.full = false → 0 < rbufCap - T.rbuf.length)) := by
  have hinit : S.framer.Ok := ⟨by simp [hr], by simp [hb]⟩
  refine ⟨fun ds es hds hes heq => ?_, fun ds hds hopen => ?_, fun es T hes hT => ?_⟩
  · obtain ⟨a1, a2, a3⟩ := run_deliver_framer P S ds hds.1
    obtain ⟨b1, b2, b3⟩ := run_deliver_framer P S es hes.1
    obtain ⟨c1, c2⟩ := (framerSplits P.longMax).chunking (fun F c h => h.1) hinit (a3 hds.2) (b3 hes.2)
      (by simpa [List.flatMap_def] using heq)
    exact ⟨by rw [a2, b2, c2], by rw [a1, b1, c1]⟩
  · obtain ⟨a1, a2, a3⟩ := run_deliver_framer P S ds hds.1
    have hpos := (Framer.run_pos P.longMax S.framer (ds.map (·.chunk)) (a1 ▸ hopen)).2
    rw [← a1, ← a2] at hpos
    simpa [hr, List.flatMap_def] using hpos
  · have hok : T.framer.Ok := by
      rw [← hT]
      exact Machine.run_inv_of_allSteps (fun S => S.framer.Ok) (fun s e h hp => serverStep_ok P h hp) hinit es hes
    have hcap : ∀ b ∈ T.bcap, T.rbuf = [] ∧ 0 < b.remaining := fun b hb =>
      hok.2 b.remaining (by simp [Option.mem_def.1 hb])
    refine ⟨hcap, fun hfull => ?_⟩
    have hle : T.rbuf.length ≤ rbufCap := hok.1
    by_contra hroom
    have hlen : T.rbuf.length = rbufCap := by omega
    have hsome : T.bcap ≠ none := by
      intro hn
      simp [Server.full, hlen, hn] at hfull
    obtain ⟨b, hb⟩ := Option.ne_none_iff_exists'.1 hsome
    simp [(hcap b hb).1, rbufCap] at hlen

/-- A client that has just been accepted. -/
def freshClient : Server := onListenReadable (Server.init [] []) (some 0)

/-- A chunk for which every call succeeds. -/
def Delivery.quiet (chunk : Bytes) : Delivery :=
  let env : MsgEnv := ⟨some (6000, 6001, 6002), true, true, true, ⟨true, true, true⟩⟩
  ⟨chunk, fun _ => env, env.file, fun _ => env, env.file⟩

theorem Delivery.quiet_writesOk (cs : List Bytes) : ∀ d ∈ cs.map Delivery.quiet, d.WritesOk := by
  intro d hd
  obtain ⟨c, _, rfl⟩ := List.mem_map.1 hd
  exact ⟨fun _ => rfl, fun _ => rfl⟩

/-- Two pipelined requests in one chunk. -/
def pipelinedWhole : List Bytes := [ascii "OPTIONS * RTSP/1.0\r\n\r\nX /x RTSP/1.0\r\nContent-Length: 2\r\n\r\nhi"]

/-- The same, cut inside a line end and inside the body. -/
def pipelinedCut : List Bytes :=
  [ascii "OPTIONS * RTSP/1.0\r", ascii "\n\r\nX /x RTSP/1.0\r\nContent-Length: 2\r\n\r\nh", ascii "i"]

/-- Both ways of cutting give two requests. -/
theorem framing_independent_of_segmentation_pipelined :
    framing (Machine.run (deliver barePlatform) freshClient (pipelinedWhole.map .quiet)).2.flatten =
      framing (Machine.run (deliver barePlatform) freshClient (pipelinedCut.map .quiet)).2.flatten ∧
    (framing (Machine.run (deliver barePlatform) freshClient (pipelinedCut.map .quiet)).2.flatten).length = 2 := by
  refine ⟨?_, by decide +kernel⟩
  have h := (framing_independent_of_segmentation barePlatform (S := freshClient) rfl rfl).1
  exact (h _ _ ⟨Delivery.quiet_writesOk _, by decide +kernel⟩ ⟨Delivery.quiet_writesOk _, by decide +kernel⟩
    (by decide +kernel)).1

end ShairKindle
