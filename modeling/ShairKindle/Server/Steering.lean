import ShairKindle.Rtsp.ContentLength
import ShairKindle.Server.Remote

/-!
# Content and the player

Album art and metadata come as bodies of SET_PARAMETER requests, and so does the volume. `rtsp_handle`
looks for `volume:` in the first 255 bytes of every SET_PARAMETER body (rtsp.c:161-177) without a look at
its Content-Type, so art that spells it turns the volume. `content_steers_iff` says exactly which bodies
do. A body that exceeds the read buffer is answered from its headers (main.c:343) and never read that way.
-/

namespace ShairKindle

open Bytes

/-! ## What a request does to the player -/

/-- What the switch at the end of `handle_msg` has the player do (main.c:246-315). -/
inductive PlaybackAction
  | start | flush | teardown
  | setVolume (pct : Int)
deriving DecidableEq, Repr

/-- The action the switch carries out in `S`, which `rtsp_handle` has left. -/
def playbackAction (S : Server) : Option PlaybackAction :=
  match S.rtsp.action with
  | .startPlay => if S.rtpBound then some .start else none
  | .flush => if S.sess.isSome then some .flush else none
  | .setVolume => if S.sess.isSome then some (.setVolume S.rtsp.pendingVolumePct) else none
  | .teardown => some .teardown
  | .none | .bindRtp => none

/-- Session state, pending volume and RTP anchor are the same. -/
structure SamePlayback (s s' : RtspSession) : Prop where
  state : s.state = s'.state
  volume : s.pendingVolumePct = s'.pendingVolumePct
  anchor : s.rtpSeq = s'.rtpSeq ∧ s.rtpTs = s'.rtpTs

/-- Handling `m` leaves all of that alone and has the player do nothing. -/
structure Unsteered (P : Platform) (env : MsgEnv) (S : Server) (m : RtspMsg) : Prop where
  same : SamePlayback (handleMsg P env S m).1.rtsp S.rtsp
  action : playbackAction (prepareReply P env S m).1 = none

/-- Only a SETUP binds sockets. -/
theorem prepareReply_others (P : Platform) (env : MsgEnv) (S : Server) {m : RtspMsg} (h : mth m "SETUP" = false) :
    (prepareReply P env S m).1.rtsp = (rtspHandle P S.rtsp m respCap).1 ∧
    (prepareReply P env S m).1.sess = S.sess ∧ (prepareReply P env S m).1.rtpBound = S.rtpBound := by
  have hbind : bindRtp env (captureCreds S m) m = (captureCreds S m, []) := by simp [bindRtp, h]
  simp only [prepareReply, hbind]
  rw [captureInline_eq, captureCreds_eq]
  exact ⟨rfl, rfl, rfl⟩

/-- A SET_PARAMETER up to the reply: the volume its body names, if any, is taken over. -/
theorem prepareReply_setParameter (P : Platform) (env : MsgEnv) (S : Server) {m : RtspMsg}
    (h : mth m "SET_PARAMETER" = true) :
    (prepareReply P env S m).1.sess = S.sess ∧
    (prepareReply P env S m).1.rtsp = match (volumeText m).bind volumePct with
      | none => { S.rtsp with action := .none }
      | some pct => { S.rtsp with pendingVolumePct := pct, action := .setVolume } := by
  obtain ⟨h1, h2, -⟩ := prepareReply_others P env S (mth_unique h (b := "SETUP") (by decide))
  refine ⟨h2, h1.trans ?_⟩
  change (rtspDispatch P { S.rtsp with action := .none } m).sess = _
  rw [rtspDispatch_setParameter P _ h]
  cases (volumeText m).bind volumePct <;> rfl

/-- A written reply to a request whose action is none or the volume is all that happens. -/
theorem handleMsg_quiet (P : Platform) {env : MsgEnv} (S : Server) (m : RtspMsg) (hw : env.writeOk = true)
    (ha : (prepareReply P env S m).1.rtsp.action = .none ∨ (prepareReply P env S m).1.rtsp.action = .setVolume) :
    (handleMsg P env S m).1 = (prepareReply P env S m).1 := by
  rcases ha with ha | ha <;> simp [handleMsg, replyAndAct, hw, ha]

/-- By what is read of the body. -/
theorem unsteered_iff_read (P : Platform) (env : MsgEnv) (S : Server) (m : RtspMsg)
    (hm : mth m "SET_PARAMETER" = true) (hw : env.writeOk = true) :
    Unsteered P env S m ↔ (volumeText m).bind volumePct = none ∨
      S.sess = none ∧ (volumeText m).bind volumePct = some S.rtsp.pendingVolumePct := by
  obtain ⟨hsess, hrtsp⟩ := prepareReply_setParameter P env S hm
  cases hv : (volumeText m).bind volumePct with
  | none =>
    rw [hv] at hrtsp
    have hmsg := handleMsg_quiet P S m hw (.inl (by rw [hrtsp]))
    refine iff_of_true ⟨?_, by simp [playbackAction, hrtsp]⟩ (.inl rfl)
    rw [hmsg, hrtsp]
    exact ⟨rfl, rfl, rfl, rfl⟩
  | some pct =>
    rw [hv] at hrtsp
    have hmsg := handleMsg_quiet P S m hw (.inr (by rw [hrtsp]))
    constructor
    · intro h
      have hvol := h.same.volume
      have hact := h.action
      rw [hmsg, hrtsp] at hvol
      simp only [playbackAction, hrtsp, hsess] at hact
      refine .inr ⟨?_, congrArg some hvol⟩
      cases hS : S.sess with
      | none => rfl
      | some set => simp [hS] at hact
    · rintro (h | ⟨hnone, hpct⟩)
      · cases h
      · obtain rfl := Option.some.inj hpct
        refine ⟨?_, by simp [playbackAction, hrtsp, hsess, hnone]⟩
        rw [hmsg, hrtsp]
        exact ⟨rfl, rfl, rfl, rfl⟩

/-- By the text of the body. -/
theorem unsteered_iff (P : Platform) (env : MsgEnv) (S : Server) (m : RtspMsg) (hm : mth m "SET_PARAMETER" = true)
    (hw : env.writeOk = true) :
    Unsteered P env S m ↔ ∀ text, volumeText m = some text →
      ReadsNan text ∨ S.sess = none ∧ volumePct text = some S.rtsp.pendingVolumePct := by
  rw [unsteered_iff_read P env S m hm hw]
  cases volumeText m with
  | none => exact iff_of_true (.inl rfl) nofun
  | some text =>
    rw [Option.bind_some, volumePct_eq_none_iff]
    refine ⟨fun h text' heq => ?_, fun h => h text rfl⟩
    obtain rfl := Option.some.inj heq
    exact h

/-! ## Requests and the connection -/

/-- The client is gone after the request: the reply could not be written, or it was a TEARDOWN. -/
def tornDown (env : MsgEnv) (S : Server) (m : RtspMsg) : Bool := !env.writeOk || endsConn S.rtsp.state m

/-- The flag says whether the client is gone. -/
theorem handleMsg_tornDown (P : Platform) (env : MsgEnv) (S : Server) (m : RtspMsg) :
    (handleMsg P env S m).2.2 = tornDown env S m := by
  cases hw : env.writeOk with
  | false => simp [handleMsg, replyAndAct, tornDown, hw]
  | true => simpa [tornDown, hw] using (handleMsg_written P S m hw).1

theorem replyAndAct_bcap (env : MsgEnv) (T : Server) (h : (replyAndAct env T).2.2 = false) :
    (replyAndAct env T).1.bcap = T.bcap := by
  unfold replyAndAct at h ⊢
  cases hw : env.writeOk with
  | false => simp [hw] at h
  | true =>
    cases ha : T.rtsp.action with
    | startPlay =>
      simp only [Bool.not_true, Bool.false_eq_true, if_false, startPlay]
      split
      · rfl
      · split <;> rfl
    | teardown => simp [hw, ha] at h
    | none | bindRtp | flush | setVolume => rfl

/-- A request after which the client is still there leaves buffer and capture alone. -/
theorem handleMsg_kept (P : Platform) {env : MsgEnv} {S : Server} {m : RtspMsg} (h : tornDown env S m = false) :
    (handleMsg P env S m).1.clientOpen = S.clientOpen ∧ (handleMsg P env S m).1.rbuf = S.rbuf ∧
      (handleMsg P env S m).1.bcap = S.bcap := by
  rw [← handleMsg_tornDown P] at h
  have hfr := handleMsg_framer P env S m
  rw [h, if_neg Bool.false_ne_true] at hfr
  refine ⟨congrArg Framer.isOpen hfr, congrArg Framer.rbuf hfr, ?_⟩
  exact (replyAndAct_bcap env _ h).trans (prepareReply_framer P env S m).2.1

/-- One after which the client is gone closes the connection. -/
theorem handleMsg_gone (P : Platform) {env : MsgEnv} {S : Server} {m : RtspMsg} (h : tornDown env S m = true) :
    (handleMsg P env S m).1.clientOpen = false := by
  rw [← handleMsg_tornDown P] at h
  have hfr := handleMsg_framer P env S m
  rw [h, if_pos rfl] at hfr
  exact congrArg Framer.isOpen hfr

/-! ## The rest of a body -/

theorem drain_nil (P : Platform) (env : Nat → MsgEnv) {S : Server} (h : S.rbuf = []) : drain P env S = (S, []) := by
  simp only [drain, h, List.length_nil, drainLoop]
  rw [← h]

/-- One read while a body is streamed, within what is left of it, goes into the capture. -/
theorem serverStep_streaming (P : Platform) (env : Nat → MsgEnv) (file : FileEnv) {S : Server} {b : Bodycap} {c : Bytes}
    (ho : S.clientOpen = true) (hb : S.bcap = some b) (hr : S.rbuf = []) (hc : c.length ≤ b.remaining) :
    (serverStep P S (.readable (.data c) env file)).1 =
      if c.length = b.remaining then
        finishBodyCapture file { S with bcap := some (bodycapFeed b c file) } (bodycapFeed b c file)
      else { S with bcap := some (bodycapFeed b c file) } := by
  have hfull : S.full = false := by simp [Server.full, hb]
  have htake : c.take b.remaining = c := List.take_of_length_le hc
  have hdrop : c.drop b.remaining = [] := List.drop_eq_nil_of_le hc
  have hdone : bodycapDone (bodycapFeed b c file) = decide (c.length = b.remaining) := by
    rw [bodycapDone, bodycapFeed_remaining, Bool.eq_iff_iff, beq_iff_eq, decide_eq_true_iff]
    omega
  simp only [serverStep, ho, if_true, onClientReadable, hfull, Bool.false_eq_true, if_false, onData, hb, hr,
    List.nil_append, htake, hdrop, hdone]
  by_cases hall : c.length = b.remaining
  · simp only [hall, decide_true, Bool.not_true, Bool.false_eq_true, if_false, if_true]
    rw [drain_nil P env rfl, ← hr]
  · simp only [hall, decide_false, Bool.not_false, if_true, if_false, ← hr]

/-- One read while a body is streamed keeps the player out of it, whatever the art file does. -/
theorem readable_keeps (P : Platform) (env : Nat → MsgEnv) (file : FileEnv) {S : Server} {b : Bodycap} {c : Bytes}
    (ho : S.clientOpen = true) (hb : S.bcap = some b) (hr : S.rbuf = []) (hc : c.length ≤ b.remaining) :
    (serverStep P S (.readable (.data c) env file)).1.rtsp = S.rtsp ∧
    (serverStep P S (.readable (.data c) env file)).1.sess = S.sess ∧
    (c.length < b.remaining →
      (serverStep P S (.readable (.data c) env file)).1 = { S with bcap := some (bodycapFeed b c file) }) := by
  rw [serverStep_streaming P env file ho hb hr hc]
  split
  · next hall => exact ⟨rfl, rfl, fun hlt => absurd hall hlt.ne⟩
  · exact ⟨rfl, rfl, fun _ => rfl⟩

/-- The rest of a body, in any pieces, keeps the player out of it. -/
theorem stream_keeps (P : Platform) : ∀ (reads : List (Bytes × (Nat → MsgEnv) × FileEnv)) {S : Server} {b : Bodycap},
    S.clientOpen = true → S.bcap = some b → S.rbuf = [] → (∀ r ∈ reads, r.1 ≠ []) →
    (reads.map Prod.fst).flatten.length ≤ b.remaining →
    (Machine.run (serverStep P) S (reads.map fun r => .readable (.data r.1) r.2.1 r.2.2)).1.rtsp = S.rtsp ∧
    (Machine.run (serverStep P) S (reads.map fun r => .readable (.data r.1) r.2.1 r.2.2)).1.sess = S.sess
  | [], S, b, _, _, _, _, _ => ⟨rfl, rfl⟩
  | (c, env, file) :: reads, S, b, ho, hb, hr, hne, hlen => by
    simp only [List.forall_mem_cons] at hne
    simp only [List.map_cons, List.flatten_cons, List.length_append] at hlen
    obtain ⟨h1, h2, h3⟩ := readable_keeps P env file ho hb hr (by omega : c.length ≤ b.remaining)
    rw [List.map_cons, Machine.run_cons]
    dsimp only
    by_cases hlt : c.length < b.remaining
    · rw [h3 hlt]
      exact stream_keeps P reads (S := { S with bcap := some (bodycapFeed b c file) }) ho rfl hr hne.2
        (by rw [bodycapFeed_remaining]; omega)
    · -- the body is complete: there is nothing left to read
      have hnil : reads = [] := by
        cases reads with
        | nil => rfl
        | cons d ds =>
          have := List.length_pos_of_ne_nil (hne.2 d (by simp))
          simp only [List.map_cons, List.flatten_cons, List.length_append] at hlen
          omega
      subst hnil
      exact ⟨h1, h2⟩

/-! ## Content that steers -/

/-- What `frame_oversized` hands to `handle_msg`: the capture armed with what is there of the body, and
the buffer emptied. -/
def armOversized (file : FileEnv) (S : Server) (m : RtspMsg) (k : Nat) : Server :=
  { beginBodyCapture file S m m.bodyLen (S.rbuf.drop k) with rbuf := [] }

theorem hdrLine_body {longMax : Nat} {m m' : RtspMsg} {line : Bytes} (h : hdrLine longMax m line = some m') :
    m'.body = m.body := by
  unfold hdrLine at h
  split at h
  · obtain rfl := Option.some.inj h
    rfl
  · dsimp only at h
    split_ifs at h
    · split at h <;> · obtain rfl := Option.some.inj h; rfl
    · split at h
      · obtain rfl := Option.some.inj h
        rfl
      · cases h
    · obtain rfl := Option.some.inj h
      rfl

theorem foldlM_hdrLine_body {longMax : Nat} : ∀ {ls : List Bytes} {m m' : RtspMsg},
    ls.foldlM (hdrLine longMax) m = some m' → m'.body = m.body
  | [], m, m', h => by
    simp only [List.foldlM_nil, Option.pure_def, Option.some.injEq] at h
    rw [h]
  | line :: ls, m, m', h => by
    simp only [List.foldlM_cons, Option.bind_eq_bind, Option.bind_eq_some_iff] at h
    obtain ⟨m₁, h₁, h₂⟩ := h
    rw [foldlM_hdrLine_body h₂, hdrLine_body h₁]

/-- A message whose body is not there yet has none, and less of it lies behind the headers than declared. -/
theorem needBody_body {longMax k : Nat} {buf : Bytes} {m : RtspMsg} (h : rtspMsgParse longMax buf = .needBody m k) :
    m.body = none ∧ (buf.drop k).length < m.bodyLen := by
  obtain ⟨hn, hm, hlt⟩ := rtspMsgParse_eq_needBody h
  obtain ⟨_, hle, _⟩ := hdrsEnd_eq_some hn
  obtain ⟨_, _, _, _, _, _, _, _, hfold⟩ := parseHead_eq_some hm
  refine ⟨foldlM_hdrLine_body hfold, ?_⟩
  rw [List.length_drop]
  omega

/-- **Exactly which content steers the player.** For every server state and every SET_PARAMETER whose reply
is written, of whatever Content-Type and size. On the buffered path session state, pending volume and RTP
anchor stay and the player is left alone iff the body's first 255 bytes do not spell `volume:`, or what
follows it reads as NaN, or as the pending volume while nothing plays. On the oversized path they always
stay, through to the end of the body. -/
theorem content_steers_iff (P : Platform) (env : MsgEnv) (S : Server) (m : RtspMsg)
    (hm : mth m "SET_PARAMETER" = true) (hw : env.writeOk = true) :
    (Unsteered P env S m ↔ ∀ text, volumeText m = some text →
      ReadsNan text ∨ S.sess = none ∧ volumePct text = some S.rtsp.pendingVolumePct) ∧
    (∀ (file : FileEnv) (k : Nat), S.clientOpen = true → rtspMsgParse P.longMax S.rbuf = .needBody m k →
      playbackAction (prepareReply P env (armOversized file S m k) m).1 = none ∧
      ∀ reads : List (Bytes × (Nat → MsgEnv) × FileEnv), (∀ r ∈ reads, r.1 ≠ []) →
        (S.rbuf.drop k).length + (reads.map Prod.fst).flatten.length ≤ m.bodyLen →
        SamePlayback (Machine.run (serverStep P) (frameOversized P env file S).1
          (reads.map fun r => .readable (.data r.1) r.2.1 r.2.2)).1.rtsp S.rtsp ∧
        (Machine.run (serverStep P) (frameOversized P env file S).1
          (reads.map fun r => .readable (.data r.1) r.2.1 r.2.2)).1.sess = S.sess) := by
  refine ⟨unsteered_iff P env S m hm hw, fun file k ho hparse => ?_⟩
  have hvol : volumeText m = none := by rw [volumeText, (needBody_body hparse).1]
  have hun : Unsteered P env (armOversized file S m k) m :=
    (unsteered_iff P env _ m hm hw).2 fun text htext => nomatch hvol.symm.trans htext
  refine ⟨hun.action, fun reads hne hlen => ?_⟩
  obtain ⟨hsess, hrtsp⟩ := prepareReply_setParameter P env (armOversized file S m k) hm
  rw [hvol, Option.bind_none] at hrtsp
  have hmsg := handleMsg_quiet P (armOversized file S m k) m hw (.inl (by rw [hrtsp]))
  have htorn : tornDown env (armOversized file S m k) m = false := by
    simp [tornDown, hw, endsConn, mth_unique hm (b := "TEARDOWN") (by decide)]
  obtain ⟨k1, k2, k3⟩ := handleMsg_kept P htorn
  have hframe : (frameOversized P env file S).1 = (handleMsg P env (armOversized file S m k) m).1 := by
    simp only [frameOversized, hparse, armOversized]
  obtain ⟨r1, r2⟩ := stream_keeps P reads (S := (handleMsg P env (armOversized file S m k) m).1)
    (k1.trans ho) k3 k2 hne (by rw [bodycapFeed_remaining]; simp only [bodycapBegin]; omega)
  rw [hframe, r1, r2]
  refine ⟨hun.same, ?_⟩
  rw [hmsg, hsess]
  rfl

/-- The server while a stream plays. -/
def playingServer : Server := (Machine.run (serverStep barePlatform) (Server.init [] []) oneStream).1

/-- Album art of the given bytes, in one message. -/
def artMsg (jpeg : Bytes) : RtspMsg :=
  ⟨ascii "SET_PARAMETER", ascii "*", [⟨ascii "Content-Type", ascii "image/jpeg"⟩], some jpeg, jpeg.length, 1⟩

/-- Art that spells `volume: -144` mutes the player. -/
theorem art_mutes_player :
    playingServer.sess = some 0 ∧ playingServer.rtsp.pendingVolumePct = -1 ∧
    bodyMode (artMsg (ascii "volume: -144")) = .file ∧
    playbackAction (prepareReply barePlatform ((Delivery.quiet []).env 0) playingServer
      (artMsg (ascii "volume: -144"))).1 = some (.setVolume 0) ∧
    (handleMsg barePlatform ((Delivery.quiet []).env 0) playingServer
      (artMsg (ascii "volume: -144"))).1.rtsp.pendingVolumePct = 0 := by
  decide +kernel

/-- Other art does not. -/
theorem content_steers_iff_plain_art :
    Unsteered barePlatform ((Delivery.quiet []).env 0) playingServer (artMsg [0xff, 0xd8, 0xff, 0xd9]) :=
  (content_steers_iff barePlatform ((Delivery.quiet []).env 0) playingServer (artMsg [0xff, 0xd8, 0xff, 0xd9])
    (by decide +kernel) (by decide +kernel)).1.2 fun text htext =>
      nomatch (by decide +kernel : volumeText (artMsg [0xff, 0xd8, 0xff, 0xd9]) = none).symm.trans htext

end ShairKindle
