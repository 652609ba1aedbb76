import ShairKindle.Server.Steering

/-!
# Art and metadata on two paths

A request that fits the read buffer is captured by `handle_msg` in one go (main.c:233-240); a larger one is
captured by `frame_oversized` (main.c:343), which answers it from its headers, and the rest of the body is
fed to the capture as it arrives. The two do not agree: `frame_oversized` goes by the Content-Type alone,
where `handle_msg` captures a SET_PARAMETER only; and it publishes after the request is answered, where
`handle_msg` publishes before. `handled_alike_iff` says exactly which requests are treated alike.
-/

namespace ShairKindle

open Bytes

/-! ## Streaming a body -/

/-- Every call on the art file succeeds. -/
def FileEnv.ok : FileEnv := ⟨true, true, true⟩

/-- What a finished capture of `body` does to the now-playing record. -/
def publish (mode : BodycapMode) (body : Bytes) (np : NpState) : NpState :=
  match mode with
  | .file => npPublishArt np
  | .mem => npPublishMeta np (daapParse body).strings
  | .discard => np

/-- A capture nothing has gone wrong with, whose declared rest fits. -/
def Bodycap.Good (b : Bodycap) : Prop :=
  b.failed = false ∧ (b.mode = .mem → b.stored.length + b.remaining ≤ b.memCap)

theorem Bodycap.Good.feed {b : Bodycap} (h : b.Good) {c : Bytes} (hc : c.length ≤ b.remaining) :
    (bodycapFeed b c .ok).Good ∧ (bodycapFeed b c .ok).mode = b.mode ∧
      (b.mode ≠ .discard → (bodycapFeed b c .ok).stored = b.stored ++ c) := by
  obtain ⟨hf, hfit⟩ := h
  have htake : c.take b.remaining = c := List.take_of_length_le hc
  by_cases hnil : c = []
  · subst hnil
    simpa [bodycapFeed, Bodycap.Good, hf] using hfit
  · cases hmode : b.mode with
    | discard => simp [bodycapFeed, htake, hnil, hf, hmode, Bodycap.Good]
    | file => simp [bodycapFeed, htake, hnil, hf, hmode, Bodycap.Good, FileEnv.ok]
    | mem =>
      have hle := hfit hmode
      have hroom : ¬b.memCap < b.stored.length + c.length := by omega
      simp [bodycapFeed, htake, hnil, hf, hmode, Bodycap.Good, hroom]
      omega

/-- A good capture that is done publishes what it stored. -/
theorem finishBodyCapture_good (S : Server) {b : Bodycap} (h : b.Good) (hdone : b.remaining = 0) :
    finishBodyCapture .ok S b = { S with np := publish b.mode b.stored S.np, bcap := none } := by
  have hfin : bodycapFinish b .ok = true := by
    cases hm : b.mode <;> simp [bodycapFinish, bodycapDone, hdone, h.1, hm, FileEnv.ok]
  simp only [finishBodyCapture, hfin, if_true]
  rfl

/-- One read while a body is streamed, within what is left of it. -/
theorem readable_streaming (P : Platform) (env : Nat → MsgEnv) {S : Server} {b : Bodycap} {c : Bytes}
    (ho : S.clientOpen = true) (hb : S.bcap = some b) (hr : S.rbuf = []) (hg : b.Good)
    (hc : c.length ≤ b.remaining) :
    (serverStep P S (.readable (.data c) env .ok)).1 =
      if c.length = b.remaining then
        { S with np := publish b.mode (bodycapFeed b c .ok).stored S.np, bcap := none }
      else { S with bcap := some (bodycapFeed b c .ok) } := by
  obtain ⟨hg', hmode, -⟩ := hg.feed hc
  rw [serverStep_streaming P env .ok ho hb hr hc]
  refine if_ctx_congr Iff.rfl (fun hall => ?_) fun _ => rfl
  have hrem : (bodycapFeed b c .ok).remaining = 0 := by
    rw [bodycapFeed_remaining]
    omega
  rw [finishBodyCapture_good _ hg' hrem, hmode]

/-- **The rest of a body, in any pieces.** When the last of it has come, what was captured is published,
and nothing else has changed. -/
theorem stream_run (P : Platform) (env : Nat → MsgEnv) : ∀ (chunks : List Bytes) {S : Server} {b : Bodycap},
    S.clientOpen = true → S.bcap = some b → S.rbuf = [] → b.Good → 0 < b.remaining →
    chunks.flatten.length = b.remaining → (∀ c ∈ chunks, c ≠ []) →
    ∃ stored, (b.mode ≠ .discard → stored = b.stored ++ chunks.flatten) ∧
      (Machine.run (serverStep P) S (chunks.map fun c => .readable (.data c) env .ok)).1 =
        { S with np := publish b.mode stored S.np, bcap := none }
  | [], S, b, _, _, _, _, hpos, hlen, _ => by
    simp only [List.flatten_nil, List.length_nil] at hlen
    omega
  | c :: cs, S, b, ho, hb, hr, hg, hpos, hlen, hne => by
    simp only [List.forall_mem_cons] at hne
    simp only [List.flatten_cons, List.length_append] at hlen
    have hc : c.length ≤ b.remaining := by omega
    obtain ⟨hg', hmode, hstored⟩ := hg.feed hc
    have hstep := readable_streaming P env ho hb hr hg hc
    rw [List.map_cons, Machine.run_cons]
    dsimp only
    rw [hstep]
    by_cases hdone : c.length = b.remaining
    · have hcs : cs = [] := by
        cases cs with
        | nil => rfl
        | cons d ds =>
          have := List.length_pos_of_ne_nil (hne.2 d (by simp))
          simp only [List.flatten_cons, List.length_append] at hlen
          omega
      subst hcs
      rw [if_pos hdone]
      exact ⟨(bodycapFeed b c .ok).stored, by simpa using hstored, rfl⟩
    · rw [if_neg hdone]
      have hrem : (bodycapFeed b c .ok).remaining = b.remaining - c.length := bodycapFeed_remaining b c .ok
      obtain ⟨stored, hst, hrun⟩ := stream_run P env cs
        (S := { S with bcap := some (bodycapFeed b c .ok) }) ho rfl hr hg' (by omega) (by omega) hne.2
      rw [hmode] at hst hrun
      refine ⟨stored, fun hd => ?_, hrun⟩
      rw [hst hd, hstored hd, List.append_assoc, List.flatten_cons]

/-- Once the client is gone nothing is read. -/
theorem stream_closed (P : Platform) (env : Nat → MsgEnv) (chunks : List Bytes) {S : Server}
    (ho : S.clientOpen = false) :
    (Machine.run (serverStep P) S (chunks.map fun c => .readable (.data c) env .ok)).1 = S := by
  induction chunks with
  | nil => rfl
  | cons c cs ih =>
    rw [List.map_cons, Machine.run_cons]
    simpa [serverStep, ho] using ih

/-! ## Answering -/

theorem rtspDispatch_record (P : Platform) (s : RtspSession) {m : RtspMsg} (h : mth m "RECORD" = true) :
    (rtspDispatch P s m).sess.action = if s.state = .setup then .startPlay else s.action := by
  have hno : ∀ name : String, ascii "RECORD" ≠ ascii name → mth m name = false := fun name hne => mth_unique h hne
  simp only [rtspDispatch, hno "OPTIONS" (by decide), hno "ANNOUNCE" (by decide), hno "SETUP" (by decide), h,
    Bool.false_eq_true, if_false, if_true]
  by_cases hs : s.state = .setup <;> simp [hs, refuse]

/-- The request starts a play session. -/
def startsPlay (env : MsgEnv) (S : Server) (m : RtspMsg) : Bool :=
  mth m "RECORD" && S.rtsp.state == .setup && S.rtpBound && env.createOk && env.startOk

/-- What the answer does to the now-playing record. -/
def answerNp (env : MsgEnv) (S : Server) (m : RtspMsg) (np : NpState) : NpState :=
  if tornDown env S m then npSetPlaying (npReset np) false
  else if startsPlay env S m then npSetPlaying np true
  else np

theorem startPlay_iff (P : Platform) (s : RtspSession) (m : RtspMsg) :
    (rtspHandle P s m respCap).1.action = .startPlay ↔ mth m "RECORD" = true ∧ s.state = .setup := by
  have hsess : (rtspHandle P s m respCap).1 = (rtspDispatch P { s with action := .none } m).sess := rfl
  rw [hsess]
  by_cases hm : mth m "RECORD" = true
  · rw [rtspDispatch_record P _ hm]
    by_cases hs : s.state = .setup <;> simp [hs, hm]
  · refine iff_of_false ?_ fun h => hm h.1
    cases rtspDispatch_transition P { s with action := .none } m with
    | refused hs | kept hs | badSdp _ _ hs | announced _ _ _ _ _ hs | setUp _ _ _ _ hs | flushed _ _ hs
    | volume _ _ hs => rw [hs]; simp
    | recorded h => exact absurd h hm
    | tornDown _ hs =>
      rw [hs]
      by_cases hi : s.state = .idle <;> simp [hi]

theorem replyAndAct_np (env : MsgEnv) (T : Server) :
    (replyAndAct env T).1.np =
      if !env.writeOk || T.rtsp.action == .teardown then npSetPlaying (npReset T.np) false
      else if T.rtsp.action == .startPlay && T.rtpBound && env.createOk && env.startOk then npSetPlaying T.np true
      else T.np := by
  unfold replyAndAct
  cases env.writeOk with
  | false => rfl
  | true =>
    cases T.rtsp.action with
    | startPlay =>
      cases hb : T.rtpBound <;> cases hc : env.createOk <;> cases hs : env.startOk <;> simp [startPlay, hb, hc, hs]
    | none | bindRtp | flush | teardown | setVolume => rfl

/-- **One request and the now-playing record**: what is captured inline, then what the answer does. -/
theorem handleMsg_np (P : Platform) (env : MsgEnv) (S : Server) (m : RtspMsg) :
    (handleMsg P env S m).1.np = answerNp env S m (prepareReply P env S m).1.np := by
  have htear : ((prepareReply P env S m).1.rtsp.action == .teardown) = endsConn S.rtsp.state m := by
    rw [Bool.eq_iff_iff, beq_iff_eq]
    exact (prepareReply_framer P env S m).2.2.2
  have hstart : ((prepareReply P env S m).1.rtsp.action == .startPlay && (prepareReply P env S m).1.rtpBound) =
      (mth m "RECORD" && S.rtsp.state == .setup && S.rtpBound) := by
    by_cases hm : mth m "SETUP" = true
    · -- a SETUP starts nothing, whatever it binds
      have hact : (prepareReply P env S m).1.rtsp.action ≠ .startPlay := by
        rw [Ne, show (prepareReply P env S m).1.rtsp = (rtspHandle P
          (captureInline env.file (bindRtp env (captureCreds S m) m).1 m).1.rtsp m respCap).1 from rfl, startPlay_iff]
        rintro ⟨hrec, -⟩
        rw [mth_unique hm (b := "RECORD") (by decide)] at hrec
        cases hrec
      rw [beq_eq_false_iff_ne.2 hact, mth_unique hm (b := "RECORD") (by decide)]
      rfl
    · obtain ⟨h1, -, h3⟩ := prepareReply_others P env S (Bool.not_eq_true _ ▸ hm)
      rw [h1, h3]
      congr 1
      rw [Bool.eq_iff_iff, beq_iff_eq, startPlay_iff]
      simp
  change (replyAndAct env (prepareReply P env S m).1).1.np = _
  rw [replyAndAct_np, htear, hstart]
  rfl

/-! ## The two paths -/

/-- A request that fits: `seen` is in the buffer, and with `chunk` the message is there. -/
structure ArrivesWhole (P : Platform) (seen chunk : Bytes) (m : RtspMsg) (body : Bytes) : Prop where
  parse : rtspMsgParse P.longMax (seen ++ chunk) = .complete m (seen ++ chunk).length
  fits : (seen ++ chunk).length ≤ rbufCap
  more : chunk ≠ []
  body_eq : m.body = some body

/-- A request that does not fit: `seen` fills the buffer with its headers and the start of its body, the
rest of the body comes in `chunks`. -/
structure ArrivesInPieces (P : Platform) (seen : Bytes) (chunks : List Bytes) (m : RtspMsg) (body : Bytes) : Prop where
  full : seen.length = rbufCap
  parse : ∃ k, rtspMsgParse P.longMax seen = .needBody m k ∧ seen.drop k ++ chunks.flatten = body
  declared : m.bodyLen = body.length
  nonempty : ∀ c ∈ chunks, c ≠ []

/-- The now-playing record after a request that fits, when `S` has `seen` in its buffer and `np` as its
record. -/
def npWhole (P : Platform) (env : Nat → MsgEnv) (S : Server) (seen chunk : Bytes) (np : NpState) : NpState :=
  (serverStep P { S with rbuf := seen, np := np } (.readable (.data chunk) env .ok)).1.np

/-- The same after a request that does not: the full buffer is framed, then the chunks are read. -/
def npPieces (P : Platform) (env : Nat → MsgEnv) (S : Server) (seen : Bytes) (chunks : List Bytes) (np : NpState) :
    NpState :=
  (Machine.run (serverStep P) { S with rbuf := seen, np := np }
    (.readable .again env .ok :: chunks.map fun c => .readable (.data c) env .ok)).1.np

/-- The body of a complete message is as long as declared. -/
theorem complete_body {longMax k : Nat} {buf body : Bytes} {m : RtspMsg}
    (h : rtspMsgParse longMax buf = .complete m k) (hb : m.body = some body) :
    m.bodyLen = body.length ∧ 0 < m.bodyLen := by
  obtain ⟨n, m', -, -, hle, rfl, -⟩ := rtspMsgParse_eq_complete h
  by_cases hpos : 0 < m'.bodyLen
  · simp only [hpos, if_true, Option.some.injEq] at hb
    subst hb
    simp only [List.length_take, List.length_drop]
    omega
  · simp [hpos] at hb

/-- A whole body, captured inline, is published if the request is a SET_PARAMETER. -/
theorem captureInline_np {S : Server} {m : RtspMsg} {body : Bytes} (hcap : S.bcap = none)
    (hb : m.body = some body) (hlen : m.bodyLen = body.length) (hpos : 0 < m.bodyLen) (hsize : body.length ≤ 16384) :
    (captureInline .ok S m).1.np =
      if mth m "SET_PARAMETER" then publish (bodyMode m) body S.np else S.np := by
  by_cases hin : mth m "SET_PARAMETER" = true ∧ bodyMode m ≠ .discard
  · have hinline : inlineBody m = some body := by simp [inlineBody, hb, hin.1, hin.2, hpos]
    have hgood : (bodycapBegin (bodyMode m) m.bodyLen (if bodyMode m = .mem then 16384 else 0) .ok).Good := by
      refine ⟨by simp [bodycapBegin, FileEnv.ok], fun hmem => ?_⟩
      have hmem' : bodyMode m = .mem := hmem
      simp only [bodycapBegin, hmem', if_true, List.length_nil]
      omega
    obtain ⟨hg, hmode, hst⟩ := hgood.feed (c := body) (by simp [bodycapBegin, hlen])
    have hrem : (bodycapFeed (bodycapBegin (bodyMode m) m.bodyLen (if bodyMode m = .mem then 16384 else 0) .ok)
        body .ok).remaining = 0 := by
      rw [bodycapFeed_remaining]
      simp [bodycapBegin, hlen]
    simp only [captureInline, hcap, hinline, beginBodyCapture, hin.1, if_true]
    rw [finishBodyCapture_good _ hg hrem, hmode, hst hin.2]
    rfl
  · have hinline : inlineBody m = none := by
      simp only [inlineBody, hb, ite_eq_right_iff, reduceCtorEq, imp_false, Bool.and_eq_true, bne_iff_ne]
      rintro ⟨⟨h1, -⟩, h2⟩
      exact hin ⟨h1, h2⟩
    have hnp : (captureInline .ok S m).1.np = S.np := by simp [captureInline, hinline]
    rw [hnp]
    by_cases hs : mth m "SET_PARAMETER" = true
    · have hd : bodyMode m = .discard := by
        by_contra hne
        exact hin ⟨hs, hne⟩
      simp [hd, publish]
    · simp [hs]

/-- What reaches the inline capture is the record and the capture of `S`. -/
theorem prepareReply_np (P : Platform) (env : MsgEnv) (S : Server) (m : RtspMsg) :
    ∃ T : Server, T.np = S.np ∧ T.bcap = S.bcap ∧
      (prepareReply P env S m).1.np = (captureInline env.file T m).1.np := by
  refine ⟨(bindRtp env (captureCreds S m) m).1, ?_, ?_, rfl⟩
  · rw [bindRtp_eq, captureCreds_eq]
  · rw [bindRtp_eq, captureCreds_eq]

theorem readable_plain (P : Platform) (env : Nat → MsgEnv) (file : FileEnv) {S : Server} (c : Bytes)
    (ho : S.clientOpen = true) (hb : S.bcap = none) (hf : S.full = false) :
    serverStep P S (.readable (.data c) env file) = drain P env { S with rbuf := S.rbuf ++ c } := by
  simp only [serverStep, ho, if_true, onClientReadable, hf, Bool.false_eq_true, if_false, onData, hb]

theorem readable_full (P : Platform) (env : Nat → MsgEnv) (file : FileEnv) {S : Server} (r : Recv)
    (ho : S.clientOpen = true) (hf : S.full = true) :
    serverStep P S (.readable r env file) = frameOversized P (env 0) file S := by
  simp only [serverStep, ho, if_true, onClientReadable, hf]

/-- A message that takes the whole buffer is the only one handled. -/
theorem drain_single (P : Platform) (env : Nat → MsgEnv) {S : Server} {m : RtspMsg}
    (h : rtspMsgParse P.longMax S.rbuf = .complete m S.rbuf.length) :
    (drain P env S).1.np = (handleMsg P (env 0) S m).1.np := by
  obtain ⟨f, hf⟩ : ∃ f, S.rbuf.length = f + 1 :=
    ⟨S.rbuf.length - 1, by have := (rtspMsgParse_complete_bounds h).1; omega⟩
  have hnext : ∀ T : Server, (drainLoop P env f 1 T []).1.np = T.np := by
    intro T
    cases f <;> rfl
  rw [drain, hf, drainLoop, h]
  dsimp only
  split
  · rfl
  · rw [List.drop_length]
    exact hnext _

theorem npWhole_eq (P : Platform) (env : Nat → MsgEnv) {S : Server} {seen chunk body : Bytes} {m : RtspMsg}
    (ho : S.clientOpen = true) (hcap : S.bcap = none) (h : ArrivesWhole P seen chunk m body)
    (hsize : body.length ≤ 16384) (hfile : (env 0).file = .ok) (np : NpState) :
    npWhole P env S seen chunk np =
      answerNp (env 0) S m (if mth m "SET_PARAMETER" then publish (bodyMode m) body np else np) := by
  obtain ⟨hlen, hpos⟩ := complete_body h.parse h.body_eq
  have hroom : ({ S with rbuf := seen, np := np } : Server).full = false := by
    have := List.length_pos_of_ne_nil h.more
    have hfits := h.fits
    rw [List.length_append] at hfits
    simp only [Server.full, Bool.and_eq_false_iff, beq_eq_false_iff_ne]
    omega
  have hstep : npWhole P env S seen chunk np =
      (handleMsg P (env 0) { S with rbuf := seen ++ chunk, np := np } m).1.np := by
    rw [npWhole, readable_plain P env .ok (S := { S with rbuf := seen, np := np }) chunk ho hcap hroom]
    exact drain_single P env h.parse
  obtain ⟨T, hT, hTcap, hTnp⟩ := prepareReply_np P (env 0) { S with rbuf := seen ++ chunk, np := np } m
  rw [hstep, handleMsg_np, hTnp, hfile, captureInline_np (hTcap.trans hcap) h.body_eq hlen hpos hsize, hT]
  rfl

theorem npPieces_eq (P : Platform) (env : Nat → MsgEnv) {S : Server} {seen body : Bytes} {chunks : List Bytes}
    {m : RtspMsg} (ho : S.clientOpen = true) (hcap : S.bcap = none) (h : ArrivesInPieces P seen chunks m body)
    (hsize : body.length ≤ 16384) (np : NpState) :
    npPieces P env S seen chunks np =
      if tornDown (env 0) S m then answerNp (env 0) S m np
      else publish (bodyMode m) body (answerNp (env 0) S m np) := by
  obtain ⟨k, hparse, hbody⟩ := h.parse
  have hfull : ({ S with rbuf := seen, np := np } : Server).full = true := by simp [Server.full, h.full, hcap]
  have hmore : (seen.drop k).length < m.bodyLen := (needBody_body hparse).2
  have hrest : (seen.drop k).length + chunks.flatten.length = m.bodyLen := by
    rw [h.declared, ← hbody, List.length_append]
  -- the capture as it is armed, with the part of the body that is already there
  let cap := bodycapBegin (bodyMode m) m.bodyLen (if bodyMode m = .mem then 16384 else 0) .ok
  have hgood : cap.Good := by
    refine ⟨by simp [cap, bodycapBegin, FileEnv.ok], fun hmem => ?_⟩
    have hmem' : bodyMode m = .mem := hmem
    have hdecl := h.declared
    simp only [cap, bodycapBegin, hmem', if_true, List.length_nil]
    omega
  obtain ⟨hg, hmode, hst⟩ := hgood.feed (c := seen.drop k) (by simp only [cap, bodycapBegin]; omega)
  have hrem : (bodycapFeed cap (seen.drop k) .ok).remaining = m.bodyLen - (seen.drop k).length :=
    bodycapFeed_remaining cap _ _
  let armed : Server := armOversized .ok { S with rbuf := seen, np := np } m k
  have hframe : (serverStep P { S with rbuf := seen, np := np } (.readable .again env .ok)).1 =
      (handleMsg P (env 0) armed m).1 := by
    rw [readable_full P env .ok (S := { S with rbuf := seen, np := np }) .again ho hfull]
    simp only [frameOversized, hparse]
    rfl
  obtain ⟨T, hT, hTcap, hTnp⟩ := prepareReply_np P (env 0) armed m
  have hnp : (handleMsg P (env 0) armed m).1.np = answerNp (env 0) S m np := by
    have hskip : (captureInline (env 0).file T m).1.np = np := by
      have hbusy : T.bcap = some (bodycapFeed cap (seen.drop k) .ok) := hTcap
      simp only [captureInline, hbusy]
      exact hT
    rw [handleMsg_np, hTnp, hskip]
    rfl
  have hrun : npPieces P env S seen chunks np = (Machine.run (serverStep P) (handleMsg P (env 0) armed m).1
      (chunks.map fun c => .readable (.data c) env .ok)).1.np := by
    rw [npPieces, Machine.run_cons, hframe]
  rw [hrun]
  cases htorn : tornDown (env 0) S m with
  | true =>
    rw [stream_closed P env chunks (handleMsg_gone P (S := armed) htorn)]
    exact hnp
  | false =>
    obtain ⟨k1, k2, k3⟩ := handleMsg_kept P (S := armed) (m := m) htorn
    have hcap' : (handleMsg P (env 0) armed m).1.bcap = some (bodycapFeed cap (seen.drop k) .ok) := k3
    obtain ⟨stored, hstored, hfin⟩ := stream_run P env chunks (k1.trans ho) hcap' k2 hg (by omega) (by omega) h.nonempty
    rw [hfin]
    dsimp only
    rw [hnp, hmode]
    by_cases hd : bodyMode m = .discard
    · simp [cap, bodycapBegin, hd, publish]
    · have hcapmode : cap.mode = bodyMode m := rfl
      have hempty : cap.stored = [] := rfl
      rw [hstored (by rw [hmode, hcapmode]; exact hd), hst (by rw [hcapmode]; exact hd), hempty, List.nil_append,
        hbody, hcapmode]
      simp

/-! ## Where the paths agree -/

/-- A published body shows: some record is changed by it in its counters. -/
theorem publish_counts {mode : BodycapMode} (body : Bytes) (h : mode ≠ .discard) :
    ∃ songMeta, ∀ np : NpState, np.songMeta = songMeta →
      (publish mode body np).artSerial + (publish mode body np).gen = np.artSerial + np.gen + 1 := by
  cases mode with
  | discard => exact absurd rfl h
  | file =>
    refine ⟨⟨[], [], []⟩, fun np _ => ?_⟩
    simp only [publish, npPublishArt]
    omega
  | mem =>
    obtain ⟨other, hother⟩ : ∃ other : DaapMeta, other ≠ (daapParse body).strings := by
      by_cases h0 : (⟨[], [], []⟩ : DaapMeta) = (daapParse body).strings
      · refine ⟨⟨[0], [], []⟩, ?_⟩
        rw [← h0]
        simp
      · exact ⟨_, h0⟩
    refine ⟨other, fun np hnp => ?_⟩
    have hne : np.songMeta ≠ (daapParse body).strings := by rw [hnp]; exact hother
    simp only [publish, npPublishMeta, hne, if_false]
    omega

/-- The answer counts one teardown or nothing, and a record that stays keeps its metadata. -/
theorem answerNp_counts (env : MsgEnv) (S : Server) (m : RtspMsg) (np : NpState) :
    (answerNp env S m np).artSerial + (answerNp env S m np).gen =
      np.artSerial + np.gen + (if tornDown env S m then 1 else 0) ∧
    (tornDown env S m = false → (answerNp env S m np).songMeta = np.songMeta) := by
  unfold answerNp
  split
  · rename_i h
    simp only [npSetPlaying, npReset, h]
    exact ⟨by omega, fun h => by cases h⟩
  · rename_i h
    split <;> exact ⟨by simp [npSetPlaying], fun _ => rfl⟩

/-- **Exactly which requests are treated alike on both paths.** Take a request of given method, headers
and body of at most 16384 bytes, that fits the buffer in one message and exceeds it in another (its URI
may be longer), with no errors on the art file. Whatever the server's state, whatever pieces the body
comes in: both do the same to every now-playing record iff the body is no art or metadata, or the request
is a SET_PARAMETER and the client is still there after the answer, or it is neither. -/
theorem handled_alike_iff (P : Platform) (env : Nat → MsgEnv) (S : Server) (ho : S.clientOpen = true)
    (hcap : S.bcap = none) (hfile : (env 0).file = .ok) (seen chunk seen' : Bytes) (chunks : List Bytes)
    (m m' : RtspMsg) (body : Bytes) (hwhole : ArrivesWhole P seen chunk m body)
    (hpieces : ArrivesInPieces P seen' chunks m' body) (hmethod : m.method = m'.method) (hhdr : m.hdr = m'.hdr)
    (hsize : body.length ≤ 16384) :
    (∀ np, npWhole P env S seen chunk np = npPieces P env S seen' chunks np) ↔
      bodyMode m = .discard ∨
        (mth m "SET_PARAMETER" = true ↔ (env 0).writeOk = true ∧ endsConn S.rtsp.state m = false) := by
  have hmth : ∀ name, mth m' name = mth m name := fun name => by simp only [mth, hmethod]
  have hmode : bodyMode m' = bodyMode m := by simp only [bodyMode, hhdr]
  have htorn : tornDown (env 0) S m' = tornDown (env 0) S m := by simp only [tornDown, endsConn, hmth]
  have hstarts : startsPlay (env 0) S m' = startsPlay (env 0) S m := by simp only [startsPlay, hmth]
  have hanswer : answerNp (env 0) S m' = answerNp (env 0) S m := by
    funext np
    simp only [answerNp, htorn, hstarts]
  have hstays : ((env 0).writeOk = true ∧ endsConn S.rtsp.state m = false) ↔ tornDown (env 0) S m = false := by
    simp [tornDown]
  simp only [npWhole_eq P env ho hcap hwhole hsize hfile, npPieces_eq P env ho hcap hpieces hsize, hmode, htorn,
    hanswer, hstays]
  by_cases hd : bodyMode m = .discard
  · refine iff_of_true (fun np => ?_) (.inl hd)
    simp [hd, publish]
  obtain ⟨songMeta, hpub⟩ := publish_counts body hd
  obtain ⟨np, hnp⟩ : ∃ np : NpState, np.songMeta = songMeta := ⟨{ NpState.init with songMeta := songMeta }, rfl⟩
  simp only [hd, false_or]
  cases hs : mth m "SET_PARAMETER" <;> cases ht : tornDown (env 0) S m
  · -- neither is published inline, the streamed one is
    refine iff_of_false (fun hall => ?_) (by simp)
    have h := hall np
    simp only [Bool.false_eq_true, if_false] at h
    have hcount := hpub _ (((answerNp_counts (env 0) S m np).2 ht).trans hnp)
    rw [← h] at hcount
    omega
  · exact iff_of_true (fun np => by simp) (by simp)
  · -- a SET_PARAMETER is answered without touching the record
    have hans : ∀ np, answerNp (env 0) S m np = np := by
      intro np
      simp [answerNp, ht, startsPlay, mth_unique hs (b := "RECORD") (by decide)]
    exact iff_of_true (fun np => by simp [hans]) (by simp)
  · -- the reply failed: only the inline capture was published before
    refine iff_of_false (fun hall => ?_) (by simp)
    have h := hall np
    simp only [if_true] at h
    have h1 := (answerNp_counts (env 0) S m (publish (bodyMode m) body np)).1
    have h2 := (answerNp_counts (env 0) S m np).1
    have hcount := hpub np hnp
    rw [h] at h1
    omega

/-! ## One request, short and long

The same method, headers and body in a message that fits and in one whose URI makes it exceed the buffer. -/

/-- Text without a carriage return in front moves the end of the headers by its length. -/
theorem hdrsEnd_skip {a : Bytes} (h : 13 ∉ a) (b : Bytes) : hdrsEnd (a ++ b) = (hdrsEnd b).map (· + a.length) := by
  induction a with
  | nil => simp
  | cons x a ih =>
    simp only [List.mem_cons, not_or] at h
    have hx : [13, 10, 13, 10].isPrefixOf (x :: (a ++ b)) = false := by simp [List.isPrefixOf, h.1]
    rw [List.cons_append, hdrsEnd, hx, if_neg Bool.false_ne_true, ih h.2, Option.map_map]
    congr 1

theorem hdrLine_uri (longMax : Nat) (m : RtspMsg) (uri line : Bytes) :
    hdrLine longMax { m with uri := uri } line = (hdrLine longMax m line).map ({ · with uri := uri }) := by
  unfold hdrLine
  split
  · rfl
  · dsimp only
    split
    · rfl
    · split
      · split <;> rfl
      · split
        · split <;> rfl
        · rfl

theorem foldlM_hdrLine_uri (longMax : Nat) (uri : Bytes) : ∀ (ls : List Bytes) (m : RtspMsg),
    ls.foldlM (hdrLine longMax) { m with uri := uri } =
      (ls.foldlM (hdrLine longMax) m).map ({ · with uri := uri })
  | [], m => rfl
  | line :: ls, m => by
    simp only [List.foldlM_cons, Option.bind_eq_bind, hdrLine_uri]
    cases hdrLine longMax m line with
    | none => rfl
    | some m' => exact foldlM_hdrLine_uri longMax uri ls m'

/-- The URI has no part in how the headers are read. -/
theorem parseHead_uri (longMax : Nat) {method uri : Bytes} (hm : 32 ∉ method) (hu : 32 ∉ uri) (x : Bytes) :
    parseHead longMax (method ++ 32 :: (uri ++ 32 :: x)) =
      (parseHead longMax (method ++ 32 :: ([] ++ 32 :: x))).map ({ · with uri := uri }) := by
  have h1 : ∀ r, memchr 32 (method ++ 32 :: r) = some (method, r) := fun r => memchr_eq_some_iff.2 ⟨rfl, hm⟩
  have h2 : memchr 32 (uri ++ 32 :: x) = some (uri, x) := memchr_eq_some_iff.2 ⟨rfl, hu⟩
  have h3 : memchr 32 ([] ++ 32 :: x) = some ([], x) := memchr_eq_some_iff.2 ⟨rfl, by simp⟩
  simp only [parseHead, h1, h2, h3]
  cases memchr 10 x with
  | none => rfl
  | some r => exact foldlM_hdrLine_uri longMax uri _ ⟨method, [], [], none, 0, -1⟩

/-- What follows the URI of a request with three bytes of art. -/
def artHead : Bytes := ascii "RTSP/1.0\r\nContent-Type: image/jpeg\r\nContent-Length: 3\r\n\r\n"

/-- Such a request, with `n` bytes of its body. -/
def artBytes (method uri : Bytes) (n : Nat) : Bytes := method ++ 32 :: (uri ++ 32 :: artHead) ++ (ascii "JPG").take n

def artRequest (method uri : Bytes) (body : Option Bytes) : RtspMsg :=
  ⟨method, uri, [⟨ascii "Content-Type", ascii "image/jpeg"⟩, ⟨ascii "Content-Length", ascii "3"⟩], body, 3, -1⟩

/-- A URI that leaves room for all but one byte of the body. -/
def longUri (method : Bytes) : Bytes := List.replicate (rbufCap - (artBytes method [] 2).length) 120

theorem art_arrives_in_pieces {method : Bytes} (hm : method = ascii "GET_PARAMETER" ∨ method = ascii "SET_PARAMETER") :
    ArrivesInPieces barePlatform (artBytes method (longUri method) 2) [ascii "G"]
      (artRequest method (longUri method) none) (ascii "JPG") := by
  have hclosed : 13 ∉ method ++ [32] ∧ 32 ∉ method ∧ (artBytes method [] 2).length ≤ rbufCap ∧
      parseHead barePlatform.longMax (method ++ 32 :: ([] ++ 32 :: artHead)) = some (artRequest method [] none) := by
    rcases hm with rfl | rfl <;> decide +kernel
  obtain ⟨hcr, hsp, hlen, hhead⟩ := hclosed
  have huri : ∀ c ∈ longUri method, c = 120 := fun c hc => List.eq_of_mem_replicate hc
  have hend : hdrsEnd (32 :: artHead ++ ascii "JP") = some (32 :: artHead).length := by decide +kernel
  have hJP : (ascii "JPG").take 2 = ascii "JP" := by decide +kernel
  -- the header block is everything but the two bytes of the body
  have hsplit : artBytes method (longUri method) 2 =
      (method ++ [32] ++ longUri method) ++ (32 :: artHead ++ ascii "JP") := by
    simp [artBytes, hJP]
  have hblock : artBytes method (longUri method) 2 = method ++ 32 :: (longUri method ++ 32 :: artHead) ++ ascii "JP" := by
    rw [artBytes, hJP]
  have hn : hdrsEnd (artBytes method (longUri method) 2) =
      some (method ++ 32 :: (longUri method ++ 32 :: artHead)).length := by
    rw [hsplit, hdrsEnd_skip, hend]
    · simp only [Option.map_some, List.length_append, List.length_cons, List.length_nil]
      congr 1
      omega
    · simp only [List.mem_append, not_or] at hcr ⊢
      exact ⟨hcr, fun h => absurd (huri 13 h) (by decide)⟩
  have hhead' : parseHead barePlatform.longMax
      ((artBytes method (longUri method) 2).take (method ++ 32 :: (longUri method ++ 32 :: artHead)).length) =
        some (artRequest method (longUri method) none) := by
    rw [hblock, List.take_left', parseHead_uri barePlatform.longMax hsp fun h => absurd (huri 32 h) (by decide), hhead]
    · rfl
    · rfl
  have hbody : 3 = (ascii "JPG").length := by decide +kernel
  refine ⟨?_, ⟨(method ++ 32 :: (longUri method ++ 32 :: artHead)).length, ?_, ?_⟩, hbody, by decide +kernel⟩
  · simp only [artBytes, longUri, List.length_append, List.length_cons, List.length_replicate,
      List.length_nil] at hlen ⊢
    omega
  · rw [rtspMsgParse_of_head hn hhead', if_pos]
    rw [hblock]
    have hshort : (ascii "JP").length < 3 := by decide +kernel
    rw [List.length_append, Nat.add_sub_cancel_left]
    exact hshort
  · rw [hblock, List.drop_left']
    · decide +kernel
    · rfl

/-- A GET_PARAMETER with art: the short one does nothing, the long one publishes it. -/
theorem oversized_get_parameter_publishes :
    ArrivesWhole barePlatform [] (artBytes (ascii "GET_PARAMETER") (ascii "*") 3)
      (artRequest (ascii "GET_PARAMETER") (ascii "*") (some (ascii "JPG"))) (ascii "JPG") ∧
    ArrivesInPieces barePlatform (artBytes (ascii "GET_PARAMETER") (longUri (ascii "GET_PARAMETER")) 2) [ascii "G"]
      (artRequest (ascii "GET_PARAMETER") (longUri (ascii "GET_PARAMETER")) none) (ascii "JPG") ∧
    npWhole barePlatform (Delivery.quiet []).env freshClient [] (artBytes (ascii "GET_PARAMETER") (ascii "*") 3)
      NpState.init = NpState.init ∧
    npPieces barePlatform (Delivery.quiet []).env freshClient
      (artBytes (ascii "GET_PARAMETER") (longUri (ascii "GET_PARAMETER")) 2) [ascii "G"] NpState.init =
        { NpState.init with haveArt := true, artSerial := 1 } := by
  refine ⟨⟨by decide +kernel, by decide +kernel, by decide +kernel, rfl⟩, art_arrives_in_pieces (.inl rfl),
    by decide +kernel, ?_⟩
  rw [npPieces_eq barePlatform (Delivery.quiet []).env (by decide +kernel) (by decide +kernel)
    (art_arrives_in_pieces (.inl rfl)) (by decide +kernel)]
  decide +kernel

/-- A SET_PARAMETER with art publishes it either way. -/
theorem handled_alike_iff_set_parameter :
    mth (artRequest (ascii "SET_PARAMETER") (ascii "*") (some (ascii "JPG"))) "SET_PARAMETER" = true ∧
    ∀ np, npWhole barePlatform (Delivery.quiet []).env freshClient [] (artBytes (ascii "SET_PARAMETER") (ascii "*") 3) np =
      npPieces barePlatform (Delivery.quiet []).env freshClient
        (artBytes (ascii "SET_PARAMETER") (longUri (ascii "SET_PARAMETER")) 2) [ascii "G"] np :=
  ⟨by decide +kernel,
    (handled_alike_iff barePlatform (Delivery.quiet []).env freshClient (by decide +kernel) (by decide +kernel)
      (by decide +kernel) [] (artBytes (ascii "SET_PARAMETER") (ascii "*") 3)
      (artBytes (ascii "SET_PARAMETER") (longUri (ascii "SET_PARAMETER")) 2) [ascii "G"]
      (artRequest (ascii "SET_PARAMETER") (ascii "*") (some (ascii "JPG")))
      (artRequest (ascii "SET_PARAMETER") (longUri (ascii "SET_PARAMETER")) none) (ascii "JPG")
      ⟨by decide +kernel, by decide +kernel, by decide +kernel, rfl⟩ (art_arrives_in_pieces (.inr rfl)) rfl rfl
      (by decide +kernel)).2 (.inr (by decide +kernel))⟩

/-! ## A track -/

theorem npPublishMeta_songMeta (np : NpState) (song : DaapMeta) : (npPublishMeta np song).songMeta = song := by
  unfold npPublishMeta
  split
  · next h => exact h
  · rfl

/-- A track's title in one message. -/
def trackTags : Forest := .cons (.node (ascii "mlit") (.cons (.leaf (ascii "minm") (ascii "New Track")) .nil)) .nil

def trackBytes : Bytes :=
  ascii "SET_PARAMETER * RTSP/1.0\r\nContent-Type: application/x-dmap-tagged\r\nContent-Length: 25\r\n\r\n" ++
    trackTags.encode

end ShairKindle
