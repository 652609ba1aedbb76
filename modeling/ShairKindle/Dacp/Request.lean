import Mathlib.Data.List.TakeWhile
import ShairKindle.Dacp.State

/-!
# The outgoing DACP request (src/dacp.c, src/dacp_resolve.c)

A command to the controller is an HTTP request that carries the sender's token, sent to a port found by
an mDNS query for the sender's DACP-ID. Both values come from headers of the RTSP connection, so any
bytes the sender likes. What keeps them from breaking out of the request is the record itself: it only
ever holds an upper-case hexadecimal ID and a decimal token (`CredsOk`), and from that alone the request
and the query come out well formed.

| here | there |
| --- | --- |
| `cmdPath`            | `cmd_path` (dacp.c:19) |
| `dacpFormatRequest`  | `dacp_format_request` (dacp.c:28) |
| `inetNtoa`, `peerHost` | `inet_ntoa` and the copy into `host[16]` (dacp.c:138) |
| `srvOwner`           | the `snprintf` into `owner[128]` (dacp.c:109) |
| `encodeName`         | `encode_name` (dacp_resolve.c:19) |
| `dacpSrvBuildQuery`  | `dacp_srv_build_query` (dacp_resolve.c:38) |

C strings are their bytes before the NUL; a buffer filled by `snprintf` holds what fits.
-/

namespace ShairKindle

open Bytes

inductive DacpCmd
  | playpause | nextitem | previtem
  deriving Repr, DecidableEq

def cmdPath : DacpCmd → Bytes
  | .playpause => ascii "playpause"
  | .nextitem => ascii "nextitem"
  | .previtem => ascii "previtem"

/-- The request, or none where the source returns -1. -/
def dacpFormatRequest (cap : Nat) (cmd : DacpCmd) (host : Bytes) (port : Nat) (token : Bytes) : Option Bytes :=
  if port < 1 ∨ 65535 < port then none
  else if 45 < host.length ∨ 31 < token.length then none
  else
    let text := ascii "GET /ctrl-int/1/" ++ cmdPath cmd ++ ascii " HTTP/1.0\r\nHost: " ++ host ++ ascii ":" ++
      ascii (toString port) ++ ascii "\r\nActive-Remote: " ++ token ++ ascii "\r\nConnection: close\r\n\r\n"
    if cap ≤ text.length then none else some text

/-- The octets of an address in network order, as they lie in the memory of a little-endian machine. -/
def octet (ipBe i : Nat) : Nat := ipBe / 256 ^ i % 256

def inetNtoa (ipBe : Nat) : Bytes :=
  ascii (toString (octet ipBe 0)) ++ ascii "." ++ ascii (toString (octet ipBe 1)) ++ ascii "." ++
    ascii (toString (octet ipBe 2)) ++ ascii "." ++ ascii (toString (octet ipBe 3))

def peerHost (ipBe : Nat) : Bytes := (inetNtoa ipBe).take 15

def srvOwner (dacpId : Bytes) : Bytes := (ascii "iTunes_Ctrl_" ++ dacpId ++ ascii "._dacp._tcp.local").take 127

/-- One label behind `o`, with its length in front. -/
def putLabel (cap : Nat) (o l : Bytes) : Option Bytes :=
  if l.length = 0 ∨ 63 < l.length then none
  else if cap ≤ o.length + 1 + l.length then none
  else some (o ++ UInt8.ofNat l.length :: l)

/-- The walk over the labels. An empty rest ends it: the text was empty or ended in a dot. -/
def encodeLabels (cap : Nat) : Bytes → List Bytes → Option Bytes
  | o, [] => some o
  | o, l :: ls => if l = [] ∧ ls = [] then some o else (putLabel cap o l).bind (encodeLabels cap · ls)

def encodeName (cap : Nat) (dotted : Bytes) : Option Bytes :=
  (encodeLabels cap [] (dotted.splitOn 46)).bind fun o => if cap < o.length + 1 then none else some (o ++ [0])

def dacpSrvBuildQuery (cap : Nat) (owner : Bytes) (dnsid : UInt16) : Option Bytes :=
  if cap < 12 then none
  else
    (encodeName (cap - 12) owner).bind fun n =>
      if cap < 12 + n.length + 4 then none
      else some ([(dnsid >>> 8).toUInt8, dnsid.toUInt8, 0, 0, 0, 1, 0, 0, 0, 0, 0, 0] ++ n ++ [0, 33, 0x80, 0x01])

/-! ## What the record can hold -/

def isUpperHex (c : UInt8) : Bool := isDigit c || (65 ≤ c && c ≤ 70)

/-- Credentials in the record are a hexadecimal ID and a decimal token, both within their fields. -/
def CredsOk (st : DacpState) : Prop :=
  st.haveCreds = true →
    (1 ≤ st.dacpId.length ∧ st.dacpId.length ≤ 16 ∧ ∀ c ∈ st.dacpId, isUpperHex c = true) ∧
    (1 ≤ st.activeRemote.length ∧ st.activeRemote.length ≤ 31 ∧ ∀ c ∈ st.activeRemote, isDigit c = true)

theorem isUpperHex_hexval {c d : UInt8} (h : hexval c = some d) : isUpperHex d = true := by
  unfold hexval at h
  split_ifs at h <;> cases h <;>
    simp [isUpperHex, isDigit, UInt8.le_iff_toNat_le, UInt8.toNat_sub] at * <;> omega

theorem mapM_hexval : ∀ {l out : Bytes}, l.mapM hexval = some out →
    out.length = l.length ∧ ∀ c ∈ out, isUpperHex c = true
  | [], out, h => by
    simp only [List.mapM_nil, Option.pure_def, Option.some.injEq] at h
    subst h
    simp
  | c :: l, out, h => by
    simp only [List.mapM_cons, Option.bind_eq_bind, Option.bind_eq_some_iff, Option.pure_def,
      Option.some.injEq] at h
    obtain ⟨d, hd, ds, hds, rfl⟩ := h
    obtain ⟨hlen, hall⟩ := mapM_hexval hds
    refine ⟨by simp [hlen], ?_⟩
    simpa [isUpperHex_hexval hd] using hall

theorem dacpNormalizeId_spec {id out : Bytes} (h : dacpNormalizeId id = some out) :
    1 ≤ out.length ∧ out.length ≤ 16 ∧ ∀ c ∈ out, isUpperHex c = true := by
  unfold dacpNormalizeId at h
  split at h
  · cases h
  · rename_i hin
    simp only [not_or, not_lt] at hin
    obtain ⟨hlen, hall⟩ := mapM_hexval h
    have hpos := List.length_pos_of_ne_nil hin.1
    exact ⟨by omega, by omega, hall⟩

theorem dacpSanitizeToken_spec {token out : Bytes} (h : dacpSanitizeToken 32 token = some out) :
    1 ≤ out.length ∧ out.length ≤ 31 ∧ ∀ c ∈ out, isDigit c = true := by
  simp only [dacpSanitizeToken] at h
  split at h
  · cases h
  · rename_i hin
    simp only [not_or, not_lt] at hin
    obtain rfl := Option.some.inj h
    have hpos := List.length_pos_of_ne_nil hin.2
    exact ⟨by omega, by omega, fun c hc => List.mem_takeWhile_imp hc⟩

/-- A call on the record; ports are published by the command threads. -/
inductive DacpCall
  | newSession
  | capture (id token : Bytes) (peerIpBe : Nat)
  | publishPort (gen port : Nat)

def DacpCall.apply (st : DacpState) : DacpCall → DacpState
  | .newSession => dacpStateNewSession st
  | .capture id token peer => dacpStateCapture st id token peer
  | .publishPort gen port => dacpStatePublishPort st gen port

/-- The record after any calls. -/
def dacpCalls (calls : List DacpCall) : DacpState := calls.foldl DacpCall.apply dacpStateInit

theorem CredsOk.apply {st : DacpState} (h : CredsOk st) (c : DacpCall) : CredsOk (c.apply st) := by
  cases c with
  | newSession => simp [DacpCall.apply, dacpStateNewSession, dacpStateInit, CredsOk]
  | capture id token peer =>
    simp only [DacpCall.apply]
    unfold dacpStateCapture
    split
    · rename_i nid ntok hid htok
      exact fun _ => ⟨dacpNormalizeId_spec hid, dacpSanitizeToken_spec htok⟩
    · exact h
  | publishPort gen port =>
    simp only [DacpCall.apply]
    unfold dacpStatePublishPort
    split <;> exact h

theorem CredsOk.calls (calls : List DacpCall) : CredsOk (dacpCalls calls) := by
  refine List.foldlRecOn calls DacpCall.apply (motive := CredsOk) ?_ fun st h c _ => h.apply c
  simp [CredsOk, dacpStateInit]

/-! ## Lines -/

/-- A text within one line: no carriage return and no line feed. -/
def OneLine (l : Bytes) : Prop := 13 ∉ l ∧ 10 ∉ l

theorem OneLine.append {a b : Bytes} (ha : OneLine a) (hb : OneLine b) : OneLine (a ++ b) := by
  simp only [OneLine, List.mem_append, not_or]
  exact ⟨⟨ha.1, hb.1⟩, ha.2, hb.2⟩

theorem OneLine.of_digits {l : Bytes} (h : ∀ c ∈ l, isDigit c = true) : OneLine l :=
  ⟨fun hm => absurd (h 13 hm) (by decide), fun hm => absurd (h 10 hm) (by decide)⟩

instance (l : Bytes) : Decidable (OneLine l) := inferInstanceAs (Decidable (_ ∧ _))

theorem length_ascii_toString {n k : Nat} (hk : 0 < k) (h : n < 10 ^ k) : (ascii (toString n)).length ≤ k := by
  simpa [ascii, toString, Nat.repr] using (Nat.length_toDigits_le_iff (by decide) hk).2 h

theorem oneLine_toString (n : Nat) : OneLine (ascii (toString n)) := .of_digits fun _ => isDigit_ascii_toString

theorem oneLine_cmdPath (cmd : DacpCmd) : OneLine (cmdPath cmd) := by cases cmd <;> decide +kernel

theorem length_cmdPath (cmd : DacpCmd) : (cmdPath cmd).length ≤ 9 := by cases cmd <;> decide +kernel

/-! ## The peer -/

theorem length_octet (ipBe i : Nat) : (ascii (toString (octet ipBe i))).length ≤ 3 := by
  have hlt : octet ipBe i < 256 := Nat.mod_lt _ (by decide)
  exact length_ascii_toString (by decide) (by omega)

theorem length_inetNtoa (ipBe : Nat) : (inetNtoa ipBe).length ≤ 15 := by
  have h0 := length_octet ipBe 0
  have h1 := length_octet ipBe 1
  have h2 := length_octet ipBe 2
  have h3 := length_octet ipBe 3
  have hdot : (ascii ".").length = 1 := by decide +kernel
  simp only [inetNtoa, List.length_append, hdot]
  omega

/-- `host[16]` holds the whole address. -/
theorem peerHost_eq (ipBe : Nat) : peerHost ipBe = inetNtoa ipBe := List.take_of_length_le (length_inetNtoa ipBe)

theorem oneLine_inetNtoa (ipBe : Nat) : OneLine (inetNtoa ipBe) := by
  have hdot : OneLine (ascii ".") := by decide +kernel
  exact ((((((oneLine_toString _).append hdot).append (oneLine_toString _)).append hdot).append
    (oneLine_toString _)).append hdot).append (oneLine_toString _)

/-! ## The request -/

def requestLine (cmd : DacpCmd) : Bytes := ascii "GET /ctrl-int/1/" ++ cmdPath cmd ++ ascii " HTTP/1.0"

def hostLine (ipBe port : Nat) : Bytes := ascii "Host: " ++ inetNtoa ipBe ++ ascii ":" ++ ascii (toString port)

def tokenLine (token : Bytes) : Bytes := ascii "Active-Remote: " ++ token

def closeLine : Bytes := ascii "Connection: close"

def crlf : Bytes := [13, 10]

theorem dacpFormatRequest_eq (cmd : DacpCmd) (ipBe port : Nat) (token : Bytes) (h1 : 1 ≤ port)
    (h2 : port ≤ 65535) (htok : token.length ≤ 31) :
    dacpFormatRequest 256 cmd (peerHost ipBe) port token =
      some (requestLine cmd ++ crlf ++ hostLine ipBe port ++ crlf ++ tokenLine token ++ crlf ++
        closeLine ++ crlf ++ crlf) := by
  have hip := length_inetNtoa ipBe
  have hcmd := length_cmdPath cmd
  have hport : (ascii (toString port)).length ≤ 5 := length_ascii_toString (by decide) (by omega)
  have ha : ascii " HTTP/1.0\r\nHost: " = ascii " HTTP/1.0" ++ crlf ++ ascii "Host: " := by decide +kernel
  have hb : ascii "\r\nActive-Remote: " = crlf ++ ascii "Active-Remote: " := by decide +kernel
  have hc : ascii "\r\nConnection: close\r\n\r\n" = crlf ++ closeLine ++ crlf ++ crlf := by decide +kernel
  have hlits : (ascii "GET /ctrl-int/1/").length = 16 ∧ (ascii " HTTP/1.0\r\nHost: ").length = 17 ∧
      (ascii ":").length = 1 ∧ (ascii "\r\nActive-Remote: ").length = 17 ∧
      (ascii "\r\nConnection: close\r\n\r\n").length = 23 := by decide +kernel
  obtain ⟨l1, l2, l3, l4, l5⟩ := hlits
  rw [dacpFormatRequest, peerHost_eq, if_neg (by omega), if_neg (by omega)]
  simp only [List.length_append, l1, l2, l3, l4, l5]
  rw [if_neg (by omega), ha, hb, hc]
  simp only [requestLine, hostLine, tokenLine, List.append_assoc]

/-! ## The query -/

/-- Labels of one to 63 bytes that fit go in one after another. -/
theorem encodeLabels_eq {cap : Nat} : ∀ {ls : List Bytes} {o : Bytes},
    (∀ l ∈ ls, 0 < l.length ∧ l.length ≤ 63) → o.length + (ls.map fun l => l.length + 1).sum < cap →
    encodeLabels cap o ls = some (o ++ (ls.map fun l => UInt8.ofNat l.length :: l).flatten)
  | [], o, _, _ => by simp [encodeLabels]
  | l :: ls, o, hall, hfit => by
    simp only [List.forall_mem_cons, List.map_cons, List.sum_cons] at hall hfit
    have hne : ¬(l = [] ∧ ls = []) := fun h => by simp [h.1] at hall
    have hput : putLabel cap o l = some (o ++ UInt8.ofNat l.length :: l) := by
      rw [putLabel, if_neg (by omega), if_neg (by omega)]
    have hrest : (o ++ UInt8.ofNat l.length :: l).length + (ls.map fun l => l.length + 1).sum < cap := by
      simp only [List.length_append, List.length_cons]
      omega
    rw [encodeLabels, if_neg hne, hput, Option.bind_some, encodeLabels_eq hall.2 hrest]
    simp

/-- The owner name is not cut off, and its labels are these four. -/
theorem splitOn_srvOwner {id : Bytes} (hlen : id.length ≤ 16) (hid : ∀ c ∈ id, isUpperHex c = true) :
    (srvOwner id).splitOn 46 = [ascii "iTunes_Ctrl_" ++ id, ascii "_dacp", ascii "_tcp", ascii "local"] := by
  have hlit : (ascii "iTunes_Ctrl_").length = 12 ∧ (ascii "._dacp._tcp.local").length = 17 := by decide +kernel
  have hdot : 46 ∉ ascii "iTunes_Ctrl_" ++ id := by
    intro hm
    rcases List.mem_append.1 hm with h | h
    · revert h
      decide +kernel
    · exact absurd (hid 46 h) (by decide)
  have htail : ascii "._dacp._tcp.local" = 46 :: ascii "_dacp._tcp.local" := by decide +kernel
  have hrest : (ascii "_dacp._tcp.local").splitOn 46 = [ascii "_dacp", ascii "_tcp", ascii "local"] := by
    decide +kernel
  rw [srvOwner, List.take_of_length_le (by simp only [List.length_append, hlit.1, hlit.2]; omega), htail,
    List.splitOn_append_cons_self_of_not_mem hdot, hrest]

theorem dacpSrvBuildQuery_isSome {id : Bytes} (hlen : id.length ≤ 16) (hid : ∀ c ∈ id, isUpperHex c = true)
    (dnsid : UInt16) : (dacpSrvBuildQuery 512 (srvOwner id) dnsid).isSome := by
  have hlit : (ascii "iTunes_Ctrl_").length = 12 ∧ (ascii "_dacp").length = 5 ∧ (ascii "_tcp").length = 4 ∧
      (ascii "local").length = 5 := by decide +kernel
  obtain ⟨l1, l2, l3, l4⟩ := hlit
  have hlabels : ∀ l ∈ [ascii "iTunes_Ctrl_" ++ id, ascii "_dacp", ascii "_tcp", ascii "local"],
      0 < l.length ∧ l.length ≤ 63 := by
    simp only [List.forall_mem_cons, List.length_append, l1, l2, l3, l4]
    simp
    omega
  have hfit : ([] : Bytes).length + ([ascii "iTunes_Ctrl_" ++ id, ascii "_dacp", ascii "_tcp",
      ascii "local"].map fun l => l.length + 1).sum < 500 := by
    simp only [List.map_cons, List.map_nil, List.sum_cons, List.sum_nil, List.length_append,
      List.length_nil, l1, l2, l3, l4]
    omega
  rw [dacpSrvBuildQuery, if_neg (by decide), encodeName, splitOn_srvOwner hlen hid,
    encodeLabels_eq hlabels hfit]
  simp only [List.nil_append, List.map_cons, List.map_nil, List.flatten_cons, List.flatten_nil,
    List.append_nil, Option.bind_some, List.length_append, List.length_cons, l1, l2, l3, l4]
  rw [if_neg (by omega), Option.bind_some, if_neg (by simp [l1, l2, l3, l4]; omega)]
  rfl

/-! ## No injection -/

/-- **No sender can inject into the request.** Whatever headers were captured and sessions begun, a
record with credentials holds one to 16 upper-case hexadecimal digits and a token of one to 31 decimal
digits. So for every command, peer address and port the request fits its 256 bytes and is exactly the
request line, the three header lines and the blank line, none of which contains a line break; and the
query for the sender's service fits its 512 bytes. -/
theorem request_not_injectable (calls : List DacpCall) (hcreds : (dacpCalls calls).haveCreds = true) :
    (1 ≤ (dacpCalls calls).dacpId.length ∧ (dacpCalls calls).dacpId.length ≤ 16 ∧
      ∀ c ∈ (dacpCalls calls).dacpId, isUpperHex c = true) ∧
    (1 ≤ (dacpCalls calls).activeRemote.length ∧ (dacpCalls calls).activeRemote.length ≤ 31 ∧
      ∀ c ∈ (dacpCalls calls).activeRemote, isDigit c = true) ∧
    (∀ (cmd : DacpCmd) (ipBe port : Nat), 1 ≤ port → port ≤ 65535 →
      dacpFormatRequest 256 cmd (peerHost ipBe) port (dacpCalls calls).activeRemote =
        some (requestLine cmd ++ crlf ++ hostLine ipBe port ++ crlf ++
          tokenLine (dacpCalls calls).activeRemote ++ crlf ++ closeLine ++ crlf ++ crlf) ∧
      OneLine (requestLine cmd) ∧ OneLine (hostLine ipBe port) ∧
      OneLine (tokenLine (dacpCalls calls).activeRemote) ∧ OneLine closeLine) ∧
    ∀ dnsid : UInt16, (dacpSrvBuildQuery 512 (srvOwner (dacpCalls calls).dacpId) dnsid).isSome := by
  obtain ⟨hid, htok⟩ := CredsOk.calls calls hcreds
  refine ⟨hid, htok, fun cmd ipBe port h1 h2 => ?_, dacpSrvBuildQuery_isSome hid.2.1 hid.2.2⟩
  have hlits : OneLine (ascii "GET /ctrl-int/1/") ∧ OneLine (ascii " HTTP/1.0") ∧ OneLine (ascii "Host: ") ∧
      OneLine (ascii ":") ∧ OneLine (ascii "Active-Remote: ") ∧ OneLine closeLine := by decide +kernel
  obtain ⟨o1, o2, o3, o4, o5, o6⟩ := hlits
  refine ⟨dacpFormatRequest_eq cmd ipBe port _ h1 h2 htok.2.1, ?_, ?_, ?_, o6⟩
  · exact (o1.append (oneLine_cmdPath cmd)).append o2
  · exact ((o3.append (oneLine_inetNtoa ipBe)).append o4).append (oneLine_toString port)
  · exact o5.append (.of_digits htok.2.2)

/-- A token followed by a line break and a header of the sender's own: only its digits are taken. -/
def hostileCapture : List DacpCall :=
  [.capture (ascii "56b2a4d4") (ascii "123456\r\nX-Evil: 1") 0x1401A8C0]

theorem request_not_injectable_hostile :
    (dacpCalls hostileCapture).activeRemote = ascii "123456" ∧
    dacpFormatRequest 256 .nextitem (peerHost 0x1401A8C0) 49372 (dacpCalls hostileCapture).activeRemote =
      some (requestLine .nextitem ++ crlf ++ hostLine 0x1401A8C0 49372 ++ crlf ++
        tokenLine (dacpCalls hostileCapture).activeRemote ++ crlf ++ closeLine ++ crlf ++ crlf) :=
  ⟨by decide +kernel,
    ((request_not_injectable hostileCapture (by decide +kernel)).2.2.1 .nextitem 0x1401A8C0 49372
      (by decide) (by decide)).1⟩

example : hostLine 0x1401A8C0 49372 = ascii "Host: 192.168.1.20:49372" := by decide +kernel

end ShairKindle
