import ShairKindle.Dacp.State
import ShairKindle.Rtsp.Session
import ShairKindle.Server.Daap

/-!
# The daemon's server loop (src/main.c)

`server_t` with everything the poll loop does to it: accepting a client, reading and framing its
requests, answering them and carrying out the actions, and tearing the client down.

| here | src/main.c |
|---|---|
| `teardownClient` | `teardown_client` (:121) |
| `bodyMode`, `beginBodyCapture`, `finishBodyCapture` | :140, :153, :168 |
| `handleMsg` and its parts | `handle_msg` (:201) |
| `drain` | `drain` (:323) |
| `frameOversized` | `frame_oversized` (:343) |
| `onClientReadable`, `onListenReadable` | :360, :389 |
| `serverStep` | one round of `run_loop` (:429) |

What the system answers is given with each step: `MsgEnv` for the calls made while handling one
message, `FileEnv` for the art file, `Recv` for `recv`. RTP socket sets are numbered in the order
`rtp_open` returns them. Whether a play session decodes anything is not the server's business: `sess`
is the socket set it owns. The log lines, the keep-alive options and the DACP self-probe are left out.
-/

namespace ShairKindle

open Bytes

/-- `RBUF_CAP` (main.c:59). -/
def rbufCap : Nat := 8192

/-- `AUDIO_LATENCY` (main.c:57). -/
def audioLatency : Int := 88200

/-- `server_t` (main.c:79) with the now-playing record, the DACP record and the wakelock it drives. -/
structure Server where
  /-- `client_fd >= 0` -/
  clientOpen : Bool
  clientIpBe : Nat
  /-- `rbuf[0..rlen)` -/
  rbuf : Bytes
  /-- the capture in flight: `bcap` when `bcap_active` -/
  bcap : Option Bodycap
  rtsp : RtspSession
  ip4 : Bytes
  mac : Bytes
  /-- the set in `socks`, meaningful when bound or handed to a session -/
  socks : Nat
  rtpBound : Bool
  /-- the set the active session owns -/
  sess : Option Nat
  /-- successful `rtp_open` calls so far -/
  rtpOpens : Nat
  wakelock : Bool
  np : NpState
  dacp : DacpState

/-- The state `main` enters the loop with (main.c:567-636). -/
def Server.init (ip4 mac : Bytes) : Server where
  clientOpen := false
  clientIpBe := 0
  rbuf := []
  bcap := none
  rtsp := rtspSessionInit ip4 mac audioLatency
  ip4 := ip4
  mac := mac
  socks := 0
  rtpBound := false
  sess := none
  rtpOpens := 0
  wakelock := false
  np := NpState.init
  dacp := dacpStateInit

/-- The calls made while one message is handled: the ports of a successful `rtp_open`, and whether
`write_all`, `session_create` and `session_start` succeed. -/
structure MsgEnv where
  rtpOpen : Option (Int × Int × Int)
  writeOk : Bool
  createOk : Bool
  startOk : Bool
  file : FileEnv

/-- What a run of the server shows. `request` carries the stream bytes the request took out of the
read buffer. A byte handed to a capture is `fed` when that takes it off the stream and `stored` when
it belongs to a request already counted. `startPlay` tells whether a session was active. -/
inductive ServerObs
  | request (m : RtspMsg) (size : Nat)
  | capture (mode : BodycapMode) (declared : Nat)
  | fed (b : UInt8)
  | stored (b : UInt8)
  | captureEnd
  | malformed
  | startPlay (live : Bool)
  | rtpOpened (set : Nat)
  | rtpClosed (set : Nat)
deriving DecidableEq

/-! ## Teardown -/

/-- `teardown_client` (main.c:121). A session closes the sockets it owns; sockets bound for none are
closed here. -/
def teardownClient (S : Server) : Server × List ServerObs :=
  ({ S with
      np := npSetPlaying (npReset S.np) false
      sess := none
      wakelock := if S.sess.isSome then false else S.wakelock
      rtpBound := false
      clientOpen := false
      clientIpBe := 0
      rbuf := []
      dacp := dacpStateNewSession S.dacp
      bcap := none
      rtsp := rtspSessionInit S.ip4 S.mac audioLatency },
    (match S.sess with
      | some set => [.rtpClosed set]
      | none => if S.rtpBound then [.rtpClosed S.socks] else []) ++
    if S.bcap.isSome then [.captureEnd] else [])

/-! ## Body capture -/

/-- `body_mode` (main.c:140): by the first Content-Type. -/
def bodyMode (m : RtspMsg) : BodycapMode :=
  match m.hdr.find? (fun h => ciEq h.name (ascii "Content-Type")) with
  | none => .discard
  | some h =>
    if ciEq (h.val.take 10) (ascii "image/jpeg") then .file
    else if ciEq (h.val.take 25) (ascii "application/x-dmap-tagged") then .mem
    else .discard

/-- `begin_body_capture` (main.c:153). -/
def beginBodyCapture (env : FileEnv) (S : Server) (m : RtspMsg) (declared : Nat) (already : Bytes) : Server :=
  let cap := bodycapBegin (bodyMode m) declared (if bodyMode m = .mem then 16384 else 0) env
  { S with bcap := some (bodycapFeed cap already env) }

/-- `finish_body_capture` (main.c:168): publish what a successful capture collected. -/
def finishBodyCapture (env : FileEnv) (S : Server) (b : Bodycap) : Server :=
  let np :=
    if bodycapFinish b env then
      match b.mode with
      | .file => npPublishArt S.np
      | .mem => npPublishMeta S.np ((daapParse b.stored).strings)
      | .discard => S.np
    else S.np
  { S with np := np, bcap := none }

/-! ## One request -/

/-- The last header of that name (main.c:211-217). -/
def lastHdr (m : RtspMsg) (name : Bytes) : Option Bytes :=
  (m.hdr.reverse.find? (fun h => ciEq h.name name)).map (·.val)

/-- DACP credentials (main.c:208-220). -/
def captureCreds (S : Server) (m : RtspMsg) : Server :=
  let dacp := if mth m "ANNOUNCE" then dacpStateNewSession S.dacp else S.dacp
  match lastHdr m (ascii "Active-Remote"), lastHdr m (ascii "DACP-ID") with
  | some ar, some id => { S with dacp := dacpStateCapture dacp id ar S.clientIpBe }
  | _, _ => { S with dacp := dacp }

/-- RTP is bound before SETUP is answered (main.c:223-231). -/
def bindRtp (env : MsgEnv) (S : Server) (m : RtspMsg) : Server × List ServerObs :=
  if mth m "SETUP" && !S.rtpBound && S.sess.isNone then
    match env.rtpOpen with
    | some (sv, ctl, tim) =>
      ({ S with
          socks := S.rtpOpens
          rtpOpens := S.rtpOpens + 1
          rtpBound := true
          rtsp := rtspSetLocalPorts S.rtsp sv ctl tim }, [.rtpOpened S.rtpOpens])
    | none => (S, [])
  else (S, [])

/-- The body of a buffered SET_PARAMETER that is captured whole (main.c:236-237). -/
def inlineBody (m : RtspMsg) : Option Bytes :=
  match m.body with
  | none => none
  | some b => if mth m "SET_PARAMETER" && 0 < m.bodyLen && bodyMode m != .discard then some b else none

/-- The normal path for art and metadata (main.c:233-240). -/
def captureInline (env : FileEnv) (S : Server) (m : RtspMsg) : Server × List ServerObs :=
  match S.bcap, inlineBody m with
  | none, some b =>
    let S := beginBodyCapture env S m m.bodyLen b
    (match S.bcap with
      | some cap => finishBodyCapture env S cap
      | none => S,
      .capture (bodyMode m) m.bodyLen :: b.map .stored ++ [.captureEnd])
  | _, _ => (S, [])

/-- `ACT_START_PLAY` (main.c:247-297). `session_start` takes the sockets whether or not it succeeds;
`session_destroy` closes them. -/
def startPlay (env : MsgEnv) (S : Server) : Server × List ServerObs :=
  if !S.rtpBound then (S, [.startPlay S.sess.isSome])
  else if env.createOk && env.startOk then
    ({ S with rtpBound := false, sess := some S.socks, wakelock := true, np := npSetPlaying S.np true },
      [.startPlay S.sess.isSome])
  else ({ S with rtpBound := false }, [.startPlay S.sess.isSome, .rtpClosed S.socks])

/-- `handle_msg` from the reply on (main.c:244-319), when `rtsp_handle` has left `S.rtsp`.
The flag is true when the client was torn down (return value -1). -/
def replyAndAct (env : MsgEnv) (S : Server) : Server × List ServerObs × Bool :=
  if !env.writeOk then ((teardownClient S).1, (teardownClient S).2, true)
  else
    match S.rtsp.action with
    | .startPlay => ((startPlay env S).1, (startPlay env S).2, false)
    | .teardown => ((teardownClient S).1, (teardownClient S).2, true)
    | .none | .bindRtp | .flush | .setVolume => (S, [], false)

/-- `handle_msg` up to the reply (main.c:208-243). -/
def prepareReply (P : Platform) (env : MsgEnv) (S : Server) (m : RtspMsg) : Server × List ServerObs :=
  let b := bindRtp env (captureCreds S m) m
  let c := captureInline env.file b.1 m
  ({ c.1 with rtsp := (rtspHandle P c.1.rtsp m respCap).1 }, b.2 ++ c.2)

/-- `handle_msg` (main.c:201). -/
def handleMsg (P : Platform) (env : MsgEnv) (S : Server) (m : RtspMsg) : Server × List ServerObs × Bool :=
  let a := prepareReply P env S m
  let r := replyAndAct env a.1
  (r.1, a.2 ++ r.2.1, r.2.2)

/-! What the parts of `handle_msg` change; every other field is as it was. -/

theorem captureCreds_eq (S : Server) (m : RtspMsg) : captureCreds S m = { S with dacp := (captureCreds S m).dacp } := by
  simp only [captureCreds]
  split <;> rfl

theorem bindRtp_eq (env : MsgEnv) (S : Server) (m : RtspMsg) :
    (bindRtp env S m).1 = { S with
      socks := (bindRtp env S m).1.socks, rtpOpens := (bindRtp env S m).1.rtpOpens
      rtpBound := (bindRtp env S m).1.rtpBound, rtsp := (bindRtp env S m).1.rtsp } := by
  unfold bindRtp
  split
  · split <;> rfl
  · rfl

theorem captureInline_eq (env : FileEnv) (S : Server) (m : RtspMsg) :
    (captureInline env S m).1 = { S with np := (captureInline env S m).1.np } := by
  unfold captureInline
  split
  · next hcap _ => simp only [beginBodyCapture, finishBodyCapture, hcap]
  · rfl

/-! ## Framing -/

/-- The loop of `drain` (main.c:323): `buf` is what lies behind `off`, `env i` goes with the `i`-th
message. Every message takes bytes out of the buffer, so its length is enough fuel. -/
def drainLoop (P : Platform) (env : Nat → MsgEnv) : Nat → Nat → Server → Bytes → Server × List ServerObs
  | 0, _, S, buf => ({ S with rbuf := buf }, [])
  | fuel + 1, i, S, buf =>
    match rtspMsgParse P.longMax buf with
    | .needHead | .needBody _ _ => ({ S with rbuf := buf }, [])
    | .malformed => ((teardownClient S).1, .malformed :: (teardownClient S).2)
    | .complete m k =>
      let r := handleMsg P (env i) S m
      if r.2.2 then (r.1, .request m k :: r.2.1)
      else
        let t := drainLoop P env fuel (i + 1) r.1 (buf.drop k)
        (t.1, .request m k :: r.2.1 ++ t.2)

/-- `drain` (main.c:323). -/
def drain (P : Platform) (env : Nat → MsgEnv) (S : Server) : Server × List ServerObs :=
  drainLoop P env S.rbuf.length 0 S S.rbuf

/-- `frame_oversized` (main.c:343), and the teardown of a buffer it cannot frame (main.c:362). -/
def frameOversized (P : Platform) (env : MsgEnv) (file : FileEnv) (S : Server) : Server × List ServerObs :=
  match rtspMsgParse P.longMax S.rbuf with
  | .needBody m k =>
    let already := S.rbuf.drop k
    let S := { beginBodyCapture file S m m.bodyLen already with rbuf := [] }
    let r := handleMsg P env S m
    (r.1, .capture (bodyMode m) m.bodyLen :: already.map .fed ++ .request m k :: r.2.1)
  | .needHead | .malformed | .complete _ _ => ((teardownClient S).1, .malformed :: (teardownClient S).2)

/-- What `recv` returns. -/
inductive Recv
  | data (chunk : Bytes)
  | eof
  | again
  | error

/-- The buffer is full and no capture is under way (main.c:361). -/
def Server.full (S : Server) : Bool := S.rbuf.length == rbufCap && S.bcap.isNone

/-- New bytes are in the buffer (main.c:375-386): they go to the capture first, the rest is framed. -/
def onData (P : Platform) (env : Nat → MsgEnv) (file : FileEnv) (S : Server) (chunk : Bytes) : Server × List ServerObs :=
  let buf := S.rbuf ++ chunk
  match S.bcap with
  | none => drain P env { S with rbuf := buf }
  | some b =>
    let took := buf.take b.remaining
    let cap := bodycapFeed b took file
    let S := { S with bcap := some cap, rbuf := buf.drop b.remaining }
    if !bodycapDone cap then (S, took.map .fed)
    else
      let r := drain P env (finishBodyCapture file S cap)
      (r.1, took.map .fed ++ .captureEnd :: r.2)

/-- `on_client_readable` (main.c:360). A full buffer is dealt with without a `recv`. -/
def onClientReadable (P : Platform) (env : Nat → MsgEnv) (file : FileEnv) (S : Server) (r : Recv) :
    Server × List ServerObs :=
  if S.full then frameOversized P (env 0) file S
  else
    match r with
    | .data chunk => onData P env file S chunk
    | .again => (S, [])
    | .eof | .error => teardownClient S

/-- `on_listen_readable` (main.c:389): a second client is turned away. -/
def onListenReadable (S : Server) (peer : Option Nat) : Server :=
  match peer with
  | none => S
  | some ip =>
    if S.clientOpen then S
    else { S with clientOpen := true, clientIpBe := ip, rbuf := [], dacp := dacpStateNewSession S.dacp }

/-- What wakes the loop. -/
inductive ServerEvent
  | accept (peer : Option Nat)
  | readable (r : Recv) (env : Nat → MsgEnv) (file : FileEnv)
  | deadline

/-- One round of `run_loop` (main.c:429). The client's descriptor is polled while it is open; the
handshake deadline applies while it has no session. -/
def serverStep (P : Platform) (S : Server) : ServerEvent → Server × List ServerObs
  | .accept peer => (onListenReadable S peer, [])
  | .readable r env file => if S.clientOpen then onClientReadable P env file S r else (S, [])
  | .deadline => if S.clientOpen && S.sess.isNone then teardownClient S else (S, [])

end ShairKindle
