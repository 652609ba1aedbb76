import ShairKindle.Server.Ownership

/-!
# The remote control across requests

The kindlet's buttons work as long as the DACP record holds the sender's credentials and the port found
for them. `handle_msg` begins a new DACP session on every ANNOUNCE (main.c:208), before `rtsp_handle` has
decided whether the ANNOUNCE is accepted (main.c:243): one that is refused with 453 while a stream plays
has wiped the credentials of the sender that is playing. Every other refused request leaves them alone
(`refused_keeps_remote_iff`), unless its reply cannot be written, which ends the connection.
-/

namespace ShairKindle

open Bytes

/-- The two records agree in everything a button press uses except the peer's address. -/
structure SameRemote (a b : DacpState) : Prop where
  generation : a.generation = b.generation
  haveCreds : a.haveCreds = b.haveCreds
  dacpId : a.dacpId = b.dacpId
  activeRemote : a.activeRemote = b.activeRemote
  resolvedPort : a.resolvedPort = b.resolvedPort
  resolvedGen : a.resolvedGen = b.resolvedGen

instance (a b : DacpState) : Decidable (SameRemote a b) :=
  decidable_of_iff (a.generation = b.generation ∧ a.haveCreds = b.haveCreds ∧ a.dacpId = b.dacpId ∧
      a.activeRemote = b.activeRemote ∧ a.resolvedPort = b.resolvedPort ∧ a.resolvedGen = b.resolvedGen)
    ⟨fun ⟨h1, h2, h3, h4, h5, h6⟩ => ⟨h1, h2, h3, h4, h5, h6⟩,
      fun ⟨h1, h2, h3, h4, h5, h6⟩ => ⟨h1, h2, h3, h4, h5, h6⟩⟩

/-- The request's last DACP-ID and Active-Remote are both there and both valid. -/
def carriesPair (m : RtspMsg) : Bool :=
  match lastHdr m (ascii "Active-Remote"), lastHdr m (ascii "DACP-ID") with
  | some ar, some id => (dacpNormalizeId id).isSome && (dacpSanitizeToken 32 ar).isSome
  | _, _ => false

/-! ## What a request does to the record -/

/-- An invalid pair changes at most the peer's address. -/
theorem dacpStateCapture_invalid {st : DacpState} {id token : Bytes} {peer : Nat}
    (h : ((dacpNormalizeId id).isSome && (dacpSanitizeToken 32 token).isSome) = false) :
    dacpStateCapture st id token peer = { st with peerIpBe := peer } := by
  unfold dacpStateCapture
  split
  · rename_i nid ntok hid htok
    simp [hid, htok] at h
  · rfl

theorem captureCreds_remote {S : Server} {m : RtspMsg} (h : carriesPair m = false) :
    ∃ peer, (captureCreds S m).dacp =
      { (if mth m "ANNOUNCE" then dacpStateNewSession S.dacp else S.dacp) with peerIpBe := peer } := by
  cases har : lastHdr m (ascii "Active-Remote") with
  | none =>
    refine ⟨(if mth m "ANNOUNCE" then dacpStateNewSession S.dacp else S.dacp).peerIpBe, ?_⟩
    simp [captureCreds, har]
  | some ar =>
    cases hid : lastHdr m (ascii "DACP-ID") with
    | none =>
      refine ⟨(if mth m "ANNOUNCE" then dacpStateNewSession S.dacp else S.dacp).peerIpBe, ?_⟩
      simp [captureCreds, har, hid]
    | some id =>
      simp only [carriesPair, har, hid] at h
      refine ⟨S.clientIpBe, ?_⟩
      simp only [captureCreds, har, hid]
      exact dacpStateCapture_invalid h

theorem prepareReply_dacp (P : Platform) (env : MsgEnv) (S : Server) (m : RtspMsg) :
    (prepareReply P env S m).1.dacp = (captureCreds S m).dacp := by
  simp only [prepareReply]
  rw [captureInline_eq, bindRtp_eq]

theorem prepareReply_sess (P : Platform) (env : MsgEnv) (S : Server) (m : RtspMsg) :
    (prepareReply P env S m).1.sess = S.sess := by
  simp only [prepareReply]
  rw [captureInline_eq, bindRtp_eq, captureCreds_eq]

/-- With a session `rtsp_handle` is given the session as it stands: no sockets are bound. -/
theorem prepareReply_rtsp (P : Platform) (env : MsgEnv) {S : Server} (m : RtspMsg) (hs : S.sess.isSome = true) :
    (prepareReply P env S m).1.rtsp = (rtspHandle P S.rtsp m respCap).1 := by
  have hnot : (captureCreds S m).sess.isNone = false := by
    rw [captureCreds_eq]
    simpa using hs
  have hbind : bindRtp env (captureCreds S m) m = (captureCreds S m, []) := by
    rw [bindRtp, hnot, Bool.and_false, if_neg Bool.false_ne_true]
  simp only [prepareReply, hbind]
  rw [captureInline_eq, captureCreds_eq]

/-- A refused request asks for nothing to be done. -/
theorem refused_action {P : Platform} {s : RtspSession} {m : RtspMsg}
    (h : answers200 (rtspHandle P s m respCap).2.2 = false) : (rtspHandle P s m respCap).1.action = .none := by
  have hst : (rtspDispatch P { s with action := .none } m).status ≠ .ok := by
    intro hok
    rw [(answers200_iff P s m).2 hok] at h
    cases h
  change (rtspDispatch P { s with action := .none } m).sess.action = .none
  cases rtspDispatch_transition P { s with action := .none } m with
  | refused hs => rw [hs]
  | badSdp left hi hs => rw [hs]
  | kept _ hok => exact absurd hok hst
  | announced _ _ _ _ _ _ hok => exact absurd hok hst
  | setUp _ _ _ _ _ hok => exact absurd hok hst
  | recorded _ _ _ hok => exact absurd hok hst
  | flushed _ _ _ hok => exact absurd hok hst
  | volume _ _ _ hok => exact absurd hok hst
  | tornDown _ _ hok => exact absurd hok hst

/-- A refused request is answered, and that is all, if the reply can be written. -/
theorem handleMsg_refused (P : Platform) (env : MsgEnv) {S : Server} {m : RtspMsg} (hsess : S.sess.isSome = true)
    (href : answers200 (rtspHandle P S.rtsp m respCap).2.2 = false) :
    (handleMsg P env S m).1 =
      if env.writeOk then (prepareReply P env S m).1 else (teardownClient (prepareReply P env S m).1).1 := by
  have hact : (prepareReply P env S m).1.rtsp.action = .none := by
    rw [prepareReply_rtsp P env m hsess]
    exact refused_action href
  cases hw : env.writeOk <;> simp [handleMsg, replyAndAct, hw, hact]

/-- A new session is never the one before it: its generation differs. -/
theorem newSession_generation (st : DacpState) : (dacpStateNewSession st).generation ≠ st.generation := by
  simp only [dacpStateNewSession, dacpStateInit]
  omega

theorem newSession_twice_generation (st : DacpState) :
    (dacpStateNewSession (dacpStateNewSession st)).generation ≠ st.generation := by
  simp only [dacpStateNewSession, dacpStateInit]
  omega

/-! ## Refused requests -/

/-- **Exactly when a refused request leaves the remote control alone.** For every server with a live
session, with or without credentials, and every request that is answered with another status than 200 and carries no
valid pair of its own: generation, credentials and cached port stay as they are iff the request is not an
ANNOUNCE and its reply can be written. -/
theorem refused_keeps_remote_iff (P : Platform) (env : MsgEnv) (S : Server) (m : RtspMsg)
    (hsess : S.sess.isSome = true)
    (href : answers200 (rtspHandle P S.rtsp m respCap).2.2 = false) (hpair : carriesPair m = false) :
    SameRemote (handleMsg P env S m).1.dacp S.dacp ↔ mth m "ANNOUNCE" = false ∧ env.writeOk = true := by
  obtain ⟨peer, hdacp⟩ := captureCreds_remote (S := S) hpair
  rw [← prepareReply_dacp P env S m] at hdacp
  have hmsg : (handleMsg P env S m).1.dacp =
      if env.writeOk then (prepareReply P env S m).1.dacp
      else dacpStateNewSession (prepareReply P env S m).1.dacp := by
    rw [handleMsg_refused P env hsess href, apply_ite Server.dacp]
    rfl
  rw [hmsg, hdacp]
  cases hann : mth m "ANNOUNCE" <;> cases hw : env.writeOk
  · exact iff_of_false (fun h => newSession_generation _ h.generation) (by simp)
  · exact iff_of_true ⟨rfl, rfl, rfl, rfl, rfl, rfl⟩ ⟨rfl, rfl⟩
  · exact iff_of_false (fun h => newSession_twice_generation _ h.generation) (by simp)
  · exact iff_of_false (fun h => newSession_generation _ h.generation) (by simp)

/-- A stream is opened and its sender's credentials are captured. -/
def controlledStream : List ServerEvent :=
  oneStream ++ [.readable (.data (ascii
    "OPTIONS * RTSP/1.0\r\nDACP-ID: 56B2A4D4\r\nActive-Remote: 123456\r\n\r\n"))
    (Delivery.quiet []).env (Delivery.quiet []).file]

def controlledServer : Server := (Machine.run (serverStep barePlatform) (Server.init [] []) controlledStream).1

theorem controlledServer_playing :
    controlledServer.sess = some 0 ∧ controlledServer.dacp.haveCreds = true ∧ controlledServer.rtsp.state = .playing := by
  decide +kernel

/-- A second ANNOUNCE, with neither body nor credentials. -/
def strayAnnounce : RtspMsg := ⟨ascii "ANNOUNCE", ascii "*", [], none, 0, -1⟩

theorem strayAnnounce_refused (P : Platform) {s : RtspSession} (h : s.state ≠ .idle) :
    answers200 (rtspHandle P s strayAnnounce respCap).2.2 = false := by
  have hrefuse : rtspDispatch P { s with action := .none } strayAnnounce =
      refuse { s with action := .none } .notEnoughBandwidth := by
    rw [rtspDispatch, if_neg (by decide +kernel), if_pos (by decide +kernel), if_pos h]
  rw [← Bool.not_eq_true, answers200_iff, hrefuse]
  simp [refuse]

/-- A SETUP without a Transport header is refused in any state. -/
theorem straySetup_refused (P : Platform) (s : RtspSession) :
    answers200 (rtspHandle P s { strayAnnounce with method := ascii "SETUP" } respCap).2.2 = false := by
  have hrefuse : rtspDispatch P { s with action := .none } { strayAnnounce with method := ascii "SETUP" } =
      refuse { s with action := .none } .methodNotValid := by
    rw [rtspDispatch, if_neg (by decide +kernel), if_neg (by decide +kernel), if_pos (by decide +kernel)]
    rfl
  rw [← Bool.not_eq_true, answers200_iff, hrefuse]
  simp [refuse]

/-- The second ANNOUNCE is refused with 453, the stream plays on, and the credentials are gone. -/
theorem refused_announce_wipes_creds :
    controlledServer.sess = some 0 ∧ controlledServer.dacp.haveCreds = true ∧
    answers200 (rtspHandle barePlatform controlledServer.rtsp strayAnnounce respCap).2.2 = false ∧
    carriesPair strayAnnounce = false ∧
    (handleMsg barePlatform ((Delivery.quiet []).env 0) controlledServer strayAnnounce).1.sess = some 0 ∧
    (handleMsg barePlatform ((Delivery.quiet []).env 0) controlledServer strayAnnounce).1.dacp.haveCreds = false := by
  obtain ⟨hsess, hcreds, hstate⟩ := controlledServer_playing
  have href := strayAnnounce_refused barePlatform (s := controlledServer.rtsp) (by simp [hstate])
  have hpair : carriesPair strayAnnounce = false := by decide +kernel
  have hmsg := handleMsg_refused barePlatform ((Delivery.quiet []).env 0) (by simp [hsess]) href
  rw [if_pos (by decide +kernel)] at hmsg
  rw [hmsg, prepareReply_sess, prepareReply_dacp]
  obtain ⟨peer, hdacp⟩ := captureCreds_remote (S := controlledServer) hpair
  rw [hdacp, if_pos (by decide +kernel)]
  exact ⟨hsess, hcreds, href, hpair, hsess, rfl⟩

/-- A refused SETUP leaves them. -/
theorem refused_keeps_remote_iff_setup :
    SameRemote (handleMsg barePlatform ((Delivery.quiet []).env 0) controlledServer
      { strayAnnounce with method := ascii "SETUP" }).1.dacp controlledServer.dacp :=
  (refused_keeps_remote_iff barePlatform ((Delivery.quiet []).env 0) controlledServer
    { strayAnnounce with method := ascii "SETUP" } (by simp [controlledServer_playing.1])
    (straySetup_refused _ _) (by decide +kernel)).2 (by decide +kernel)

end ShairKindle
