import ShairKindle.Lib.Run
import ShairKindle.Rtsp.Msg
import ShairKindle.Rtsp.Sdp
import ShairKindle.Rtsp.Volume

/-!
# The RTSP session (src/rtsp.c)

`rtsp_handle` answers one parsed request: it moves the session through
IDLE → ANNOUNCED → SETUP → PLAYING, writes the reply and leaves an action for the daemon.

What the function computes with code this development does not model comes in as a `Platform`: the
width of `long` and the signed answer to an Apple-Challenge (RSA).

| here | src/rtsp.c |
|---|---|
| `rtspHdrCopy` | `rtsp_hdr_copy` (:49) |
| `kvInt`, `kvU32` | `kv_int` (:66), `kv_u32` (:77) |
| `rtspSessionInit`, `rtspSetLocalPorts` | :84, :90 |
| `rtspDispatch` | the method switch of `rtsp_handle` (:116-196) |
| `rtspHandle` | `rtsp_handle` (:94) |
-/

namespace ShairKindle

open Bytes

/-- What `rtsp_handle` takes from elsewhere. -/
structure Platform where
  /-- `LONG_MAX`; `ULONG_MAX` is `2 * longMax + 1` -/
  longMax : Nat
  /-- `raop_apple_response` on challenge, address and MAC; `none` when it does not return a length -/
  appleResponse : Bytes → Bytes → Bytes → Option Bytes

/-! ## Header values -/

/-- `rtsp_hdr_copy` (rtsp.c:49): the first header of that name, if its value and a NUL fit in `cap`. -/
def rtspHdrCopy (m : RtspMsg) (name : Bytes) (cap : Nat) : Option Bytes :=
  match m.hdr.find? (fun h => ciEq h.name name) with
  | none => none
  | some h => if cap < h.val.length + 1 then none else some h.val

/-- Sign and digits as `strtol` and `strtoul` read them: blanks, an optional sign, digits. -/
def signedDigits (s : Bytes) : Bool × Nat :=
  match s.dropWhile isSpace with
  | 45 :: r => (true, decimalValue (r.takeWhile isDigit))
  | 43 :: r => (false, decimalValue (r.takeWhile isDigit))
  | r => (false, decimalValue (r.takeWhile isDigit))

/-- `kv_int` (rtsp.c:66). `strtol` clamps to `long`, the function to `int`. -/
def kvInt (longMax : Nat) (val key : Bytes) (dflt : Int) : Int :=
  match afterStr key (cstr val) with
  | none => dflt
  | some r =>
    let v : Int := match signedDigits r with
      | (true, n) => max (-(longMax : Int) - 1) (-n)
      | (false, n) => min longMax n
    max (-(intMax : Int) - 1) (min intMax v)

/-- `kv_u32` (rtsp.c:77). `strtoul` clamps to `unsigned long` and negates modulo its range. -/
def kvU32 (longMax : Nat) (val key : Bytes) (dflt : UInt32) : UInt32 :=
  match afterStr key (cstr val) with
  | none => dflt
  | some r =>
    let ulongMax := 2 * longMax + 1
    let v := match signedDigits r with
      | (true, n) => if ulongMax < n then ulongMax else (ulongMax + 1 - n) % (ulongMax + 1)
      | (false, n) => min ulongMax n
    UInt32.ofNat (min (2 ^ 32 - 1) v)

/-! ## The session -/

/-- `rtsp_state_t` (rtsp.h:16). -/
inductive RtspState
  | idle | announced | setup | playing
deriving DecidableEq, Repr

/-- `rtsp_action_t` (rtsp.h:17). -/
inductive RtspAction
  | none | bindRtp | startPlay | flush | teardown | setVolume
deriving DecidableEq, Repr

/-- `rtsp_session_t` (rtsp.h:20). -/
structure RtspSession where
  state : RtspState
  sdp : RaopSdp
  haveSdp : Bool
  localIp4 : Bytes
  localMac : Bytes
  senderControlPort : Int
  senderTimingPort : Int
  serverPort : Int
  controlPort : Int
  timingPort : Int
  rtpSeq : UInt16
  rtpTs : UInt32
  pendingVolumePct : Int
  audioLatency : Int
  action : RtspAction
deriving DecidableEq, Repr

/-- `rtsp_session_init` (rtsp.c:84). -/
def rtspSessionInit (ip4 mac : Bytes) (audioLatency : Int) : RtspSession where
  state := .idle
  sdp := RaopSdp.zero
  haveSdp := false
  localIp4 := ip4
  localMac := mac
  senderControlPort := 0
  senderTimingPort := 0
  serverPort := 0
  controlPort := 0
  timingPort := 0
  rtpSeq := 0
  rtpTs := 0
  pendingVolumePct := -1
  audioLatency := audioLatency
  action := .none

/-- `rtsp_set_local_ports` (rtsp.c:90). -/
def rtspSetLocalPorts (s : RtspSession) (sv ctl tim : Int) : RtspSession :=
  { s with serverPort := sv, controlPort := ctl, timingPort := tim }

/-- The statuses `rtsp_handle` answers with. -/
inductive Status
  | ok | badRequest | notEnoughBandwidth | methodNotValid | notImplemented
deriving DecidableEq, Repr

def Status.text : Status → String
  | .ok => "200 OK"
  | .badRequest => "400 Bad Request"
  | .notEnoughBandwidth => "453 Not Enough Bandwidth"
  | .methodNotValid => "455 Method Not Valid In This State"
  | .notImplemented => "501 Not Implemented"

/-- What the method switch produces: the session, the locals `status` and `rc`, and the pieces of
the reply. -/
structure Outcome where
  sess : RtspSession
  status : Status
  rc : Int
  extra : Bytes
  body : Bytes
deriving DecidableEq, Repr

/-- `mth` (rtsp.c:40). -/
def mth (m : RtspMsg) (name : String) : Bool := m.method == ascii name

/-- RTP-Info as RECORD and FLUSH take it in (rtsp.c:146-147, :156-157). -/
def takeRtpInfo (P : Platform) (s : RtspSession) (req : RtspMsg) : RtspSession :=
  match rtspHdrCopy req (ascii "RTP-Info") 128 with
  | none => s
  | some ri =>
    { s with
      -- the cast of an `int` to `uint16_t`
      rtpSeq := UInt16.ofNat ((kvInt P.longMax ri (ascii "seq=") 0 % 2 ^ 16).toNat)
      rtpTs := kvU32 P.longMax ri (ascii "rtptime=") 0 }

/-- The volume text of a SET_PARAMETER body (rtsp.c:164-169): at most 255 bytes, read as a C string. -/
def volumeText (req : RtspMsg) : Option Bytes :=
  match req.body with
  | none => none
  | some b => if 0 < req.bodyLen then afterStr (ascii "volume:") (cstr (b.take 255)) else none

/-- A refused request. -/
def refuse (s : RtspSession) (status : Status) : Outcome := ⟨s, status, -1, [], []⟩

/-- The method switch of `rtsp_handle` (rtsp.c:116-196), entered with `action = ACT_NONE`. -/
def rtspDispatch (P : Platform) (s : RtspSession) (req : RtspMsg) : Outcome :=
  if mth req "OPTIONS" then
    ⟨s, .ok, 0, ascii ("Public: ANNOUNCE, SETUP, RECORD, PAUSE, FLUSH, TEARDOWN, " ++
      "OPTIONS, GET_PARAMETER, SET_PARAMETER\r\n"), []⟩
  else if mth req "ANNOUNCE" then
    if s.state ≠ .idle then refuse s .notEnoughBandwidth
    else
      match req.body with
      | none => refuse s .badRequest
      | some b =>
        match sdpParse P.longMax b with
        | .error (_, left) => refuse { s with sdp := left } .badRequest
        | .ok sdp => ⟨{ s with sdp := sdp, haveSdp := true, state := .announced }, .ok, 0, [], []⟩
  else if mth req "SETUP" then
    match rtspHdrCopy req (ascii "Transport") 256 with
    | none => refuse s .methodNotValid
    | some tr =>
      if s.state ≠ .announced then refuse s .methodNotValid
      else
        ⟨{ s with
            senderControlPort := kvInt P.longMax tr (ascii "control_port=") 0
            senderTimingPort := kvInt P.longMax tr (ascii "timing_port=") 0
            state := .setup
            action := .bindRtp }, .ok, 0,
          ascii ("Transport: RTP/AVP/UDP;unicast;mode=record;server_port=" ++ toString s.serverPort ++
            ";control_port=" ++ toString s.controlPort ++ ";timing_port=" ++ toString s.timingPort ++
            "\r\nSession: 1\r\n"), []⟩
  else if mth req "RECORD" then
    if s.state ≠ .setup then refuse s .methodNotValid
    else
      ⟨{ takeRtpInfo P s req with state := .playing, action := .startPlay }, .ok, 0,
        ascii ("Audio-Latency: " ++ toString s.audioLatency ++ "\r\n"), []⟩
  else if mth req "FLUSH" then
    if s.state ≠ .playing then refuse s .methodNotValid
    else ⟨{ takeRtpInfo P s req with action := .flush }, .ok, 0, [], []⟩
  else if mth req "SET_PARAMETER" then
    match (volumeText req).bind volumePct with
    | none => ⟨s, .ok, 0, [], []⟩
    | some pct => ⟨{ s with pendingVolumePct := pct, action := .setVolume }, .ok, 0, [], []⟩
  else if mth req "GET_PARAMETER" then
    if s.state ≠ .setup ∧ s.state ≠ .playing then refuse s .methodNotValid
    else
      ⟨s, .ok, 0, [], if 0 ≤ s.pendingVolumePct then
        ascii ("volume: " ++ toString s.pendingVolumePct ++ "\r\n") else []⟩
  else if mth req "TEARDOWN" then
    ⟨{ s with
        action := if s.state ≠ .idle then .teardown else s.action
        state := .idle
        haveSdp := false
        pendingVolumePct := -1
        senderControlPort := 0
        senderTimingPort := 0
        rtpSeq := 0
        rtpTs := 0 }, .ok, 0, [], []⟩
  else refuse s .notImplemented

/-! ## The reply -/

/-- The Apple-Response header (rtsp.c:105-114), answerable on any request. -/
def appleHeader (P : Platform) (s : RtspSession) (req : RtspMsg) : Bytes :=
  match rtspHdrCopy req (ascii "Apple-Challenge") 256 with
  | none => []
  | some ch =>
    let r := b64Decode ch 32
    if r.2 && 0 < r.1.length then
      match P.appleResponse r.1 s.localIp4 s.localMac with
      | none => []
      | some b64 => ascii "Apple-Response: " ++ b64 ++ ascii "\r\n"
    else []

/-- The daemon's reply buffer (main.c:242). -/
def respCap : Nat := 4096

/-- `resp_append` (rtsp.c:34). -/
def respAppend (cap : Nat) (resp s : Bytes) : Bytes := (resp ++ s).take cap

/-- `resp_vprintf` (rtsp.c:25): text that does not fit is cut, and `vsnprintf`'s NUL takes the last
place. -/
def respVprintf (cap : Nat) (resp s : Bytes) : Bytes :=
  if resp.length + s.length < cap then resp ++ s
  else if resp.length < cap then (resp ++ s).take (cap - 1) ++ [0]
  else resp

/-- `rtsp_handle` (rtsp.c:94): the session, the return value, and the reply in `cap` bytes. -/
def rtspHandle (P : Platform) (s : RtspSession) (req : RtspMsg) (cap : Nat) : RtspSession × Int × Bytes :=
  let o := rtspDispatch P { s with action := .none } req
  let resp := respVprintf cap [] (ascii ("RTSP/1.0 " ++ o.status.text ++ "\r\n"))
  let resp := respVprintf cap resp (ascii ("CSeq: " ++ toString req.cseq ++ "\r\nServer: raopd/1.0\r\n"))
  let resp := respAppend cap resp (appleHeader P s req ++ o.extra)
  let resp := respVprintf cap resp (ascii ("Content-Length: " ++ toString o.body.length ++ "\r\n\r\n"))
  (o.sess, o.rc, respAppend cap resp o.body)

end ShairKindle
