import ShairKindle.Lib.Bytes

/-!
# The ANNOUNCE body (src/sdp.c, src/b64.c)

`sdp_parse` reads payload type, `fmtp` numbers, wrapped key and IV from an SDP body and builds the
48-byte ALAC cookie. It clears its output first and fills it as it goes, so a failure leaves whatever
was written so far: the error carries that record.

| here | source |
|---|---|
| `b64Decode` | `b64_decode` (b64.c:13) |
| `bodyLines`, `findAttr` | `next_line` (sdp.c:15), `find_attr` (sdp.c:48) |
| `parseUintBounded`, `parseUintList` | sdp.c:122, sdp.c:141 |
| `buildCookie` | `build_cookie` (sdp.c:98) |
| `sdpMedia`, `sdpFmtp`, `sdpKey`, `sdpIv` | the four blocks of `sdp_parse` (sdp.c:168-248) |

`SdpOk` collects what a successful parse guarantees (`sdpParse_ok`).
-/

namespace ShairKindle

open Bytes

/-! ## Base64 -/

/-- `val` (b64.c:4); `none` is -1. -/
def b64Val (c : UInt8) : Option Nat :=
  if 65 ≤ c ∧ c ≤ 90 then some (c.toNat - 65)
  else if 97 ≤ c ∧ c ≤ 122 then some (c.toNat - 97 + 26)
  else if 48 ≤ c ∧ c ≤ 57 then some (c.toNat - 48 + 52)
  else if c = 43 then some 62
  else if c = 47 then some 63
  else none

/-- The locals of `b64_decode`: `acc` is a `uint32_t`. -/
structure B64State where
  acc : Nat
  bits : Nat
  out : Bytes
  n : Nat
  seenPad : Bool
deriving DecidableEq, Repr

/-- CR, LF, space and tab are skipped. -/
def b64Blank (c : UInt8) : Bool := c == 13 || c == 10 || c == 32 || c == 9

/-- The loop of `b64_decode` (b64.c:21-36) into a buffer of `cap` bytes. The flag is false when the
loop returned -1; the bytes written by then stay in the buffer. -/
def b64Loop (cap : Nat) : Bytes → B64State → B64State × Bool
  | [], s => (s, true)
  | c :: cs, s =>
    if b64Blank c then b64Loop cap cs s
    else if c = 61 then b64Loop cap cs { s with seenPad := true }
    else if s.seenPad then (s, false)
    else
      match b64Val c with
      | none => (s, false)
      | some v =>
        let acc := (s.acc <<< 6 ||| v) % 2 ^ 32
        let bits := s.bits + 6
        if 8 ≤ bits then
          if cap ≤ s.out.length then (s, false)
          else b64Loop cap cs ⟨acc, bits - 8, s.out ++ [UInt8.ofNat (acc >>> (bits - 8))], s.n + 1, false⟩
        else b64Loop cap cs ⟨acc, bits, s.out, s.n + 1, false⟩

/-- `b64_decode` (b64.c:13): the bytes written, and whether it returned 0. -/
def b64Decode (input : Bytes) (cap : Nat) : Bytes × Bool :=
  let r := b64Loop cap input ⟨0, 0, [], 0, false⟩
  (r.1.out, r.2 && r.1.n % 4 != 1)

/-! ## Lines and attributes -/

/-- The lines `next_line` (sdp.c:15) steps through; a last line without a line feed counts. -/
def bodyLines : Bytes → List Bytes
  | [] => []
  | x :: xs =>
    if x = 10 then [] :: bodyLines xs
    else match bodyLines xs with
      | [] => [[x]]
      | l :: ls => (x :: l) :: ls

/-- One trailing CR is not part of the line (sdp.c:23). -/
def stripCr (l : Bytes) : Bytes := if l.getLast? = some 13 then l.dropLast else l

/-- The rest of the first line that starts with `pre`. -/
def findLine (pre body : Bytes) : Option Bytes :=
  (((bodyLines body).map stripCr).find? pre.isPrefixOf).map (·.drop pre.length)

/-- `find_attr` (sdp.c:48): the value of the first line `a=<key>:<value>`. -/
def findAttr (key body : Bytes) : Option Bytes := findLine (ascii "a=" ++ key ++ ascii ":") body

/-- `b64_decoded_upper_bound` (sdp.c:35). -/
def b64DecodedUpperBound (s : Bytes) : Nat := s.countP (fun c => !(c == 61 || b64Blank c)) * 6 / 8

/-! ## Numbers -/

/-- `INT_MAX`. -/
def intMax : Nat := 2 ^ 31 - 1

/-- `parse_uint_bounded` (sdp.c:122): the number and what follows its digits. -/
def parseUintBounded (longMax : Nat) (p : Bytes) : Option (Nat × Bytes) :=
  if p.takeWhile isDigit = [] then none
  else
    match (p.takeWhile isDigit).foldlM (pushDigit longMax) 0 with
    | none => none
    | some v => if intMax < v then none else some (v, p.dropWhile isDigit)

/-- `parse_uint_list` (sdp.c:141): exactly `count` numbers and nothing else. -/
def parseUintList (longMax : Nat) : Nat → Bytes → Option (List Nat)
  | 0, p => if p.dropWhile (fun c => c == 32 || c == 9) = [] then some [] else none
  | count + 1, p =>
    match parseUintBounded longMax (p.dropWhile (· == 32)) with
    | none => none
    | some (v, p) => (parseUintList longMax count p).map (v :: ·)

/-- `fmtp_fields_in_range` (sdp.c:156) on `f[0..10]`. -/
def fmtpFieldsInRange (f : List Nat) : Bool :=
  decide (0 < f.getD 0 0) && decide (f.getD 0 0 ≤ 16384) &&
    (List.range 5).all (fun i => decide (f.getD (i + 1) 0 ≤ 255)) &&
    decide (f.getD 6 0 ≤ 255) && decide (f.getD 7 0 ≤ 65535)

/-- `put_be32` (sdp.c:64). -/
def putBe32 (v : Nat) : Bytes :=
  [UInt8.ofNat (v >>> 24), UInt8.ofNat (v >>> 16), UInt8.ofNat (v >>> 8), UInt8.ofNat v]

/-- `put_be16` (sdp.c:71). -/
def putBe16 (v : Nat) : Bytes := [UInt8.ofNat (v >>> 8), UInt8.ofNat v]

/-- `build_cookie` (sdp.c:98). -/
def buildCookie (f : List Nat) : Bytes :=
  [0, 0, 0, 12] ++ ascii "frma" ++ ascii "alac" ++ [0, 0, 0, 36] ++ ascii "alac" ++ [0, 0, 0, 0] ++
    putBe32 (f.getD 0 0) ++ (List.range 6).map (fun i => UInt8.ofNat (f.getD (i + 1) 0)) ++
    putBe16 (f.getD 7 0) ++ putBe32 (f.getD 8 0) ++ putBe32 (f.getD 9 0) ++ putBe32 (f.getD 10 0)

/-! ## The parse -/

/-- `raop_sdp_t` (sdp.h:15). `rsaaeskey` is what has been written of the 256-byte array. -/
structure RaopSdp where
  rsaaeskey : Bytes
  rsaaeskeyLen : Nat
  aesiv : Bytes
  payloadType : Nat
  frameLength : Nat
  bitDepth : Nat
  channels : Nat
  sampleRate : Nat
  cookie : Bytes
  cookieLen : Nat
deriving DecidableEq, Repr

/-- `memset(out, 0, sizeof *out)`. -/
def RaopSdp.zero : RaopSdp := ⟨[], 0, List.replicate 16 0, 0, 0, 0, 0, 0, List.replicate 48 0, 0⟩

/-- The error codes of sdp.h:6. -/
inductive SdpErr
  | parse | format | keylen | fmtp | overflow
deriving DecidableEq, Repr

abbrev SdpResult := Except (SdpErr × RaopSdp) RaopSdp

/-- The media line (sdp.c:168-192). -/
def sdpMedia (longMax : Nat) (body : Bytes) (out : RaopSdp) : SdpResult :=
  -- the search for the profile starts at the line's own start, which cannot match it
  match (findLine (ascii "m=audio ") body).bind (fun m => afterStr (ascii "RTP/AVP ") (ascii "m=audio " ++ m)) with
  | none => .error (.parse, out)
  | some p =>
    match parseUintBounded longMax p with
    | none => .error (.parse, out)
    | some (pt, _) => .ok { out with payloadType := pt }

/-- The format numbers and the cookie (sdp.c:194-219). -/
def sdpFmtp (longMax : Nat) (body : Bytes) (out : RaopSdp) : SdpResult :=
  match findAttr (ascii "fmtp") body with
  | none => .error (.parse, out)
  | some fm =>
    match parseUintList longMax 12 fm with
    | none => .error (.fmtp, out)
    | some all =>
      let f := all.tail
      if all.getD 0 0 ≠ out.payloadType then .error (.format, out)
      else if !fmtpFieldsInRange f then .error (.fmtp, out)
      else
        let out := { out with
          frameLength := f.getD 0 0, bitDepth := f.getD 2 0, channels := f.getD 6 0, sampleRate := f.getD 10 0 }
        if out.channels ≠ 2 ∨ out.sampleRate ≠ 44100 ∨ out.bitDepth ≠ 16 then .error (.format, out)
        else .ok { out with cookie := buildCookie f, cookieLen := 48 }

/-- The wrapped session key (sdp.c:221-233). -/
def sdpKey (body : Bytes) (out : RaopSdp) : SdpResult :=
  match findAttr (ascii "rsaaeskey") body with
  | none => .error (.parse, out)
  | some rk =>
    if 256 < b64DecodedUpperBound rk then .error (.overflow, out)
    else
      let r := b64Decode rk 256
      let out := { out with rsaaeskey := r.1 }
      if !r.2 then .error (.parse, out)
      else
        let out := { out with rsaaeskeyLen := r.1.length }
        if out.rsaaeskeyLen ≠ 128 ∧ out.rsaaeskeyLen ≠ 256 then .error (.keylen, out) else .ok out

/-- The initialisation vector (sdp.c:235-248), decoded into a local buffer first. -/
def sdpIv (body : Bytes) (out : RaopSdp) : SdpResult :=
  match findAttr (ascii "aesiv") body with
  | none => .error (.parse, out)
  | some iv =>
    if 32 < b64DecodedUpperBound iv then .error (.overflow, out)
    else
      let r := b64Decode iv 32
      if !r.2 then .error (.parse, out)
      else if r.1.length ≠ 16 then .error (.keylen, out)
      else .ok { out with aesiv := r.1 }

/-- `sdp_parse` (sdp.c:165). -/
def sdpParse (longMax : Nat) (body : Bytes) : SdpResult := do
  let out ← sdpMedia longMax body RaopSdp.zero
  let out ← sdpFmtp longMax body out
  let out ← sdpKey body out
  sdpIv body out

/-! ## What success guarantees -/

/-- The big-endian number in `c[i..i+4)`. -/
def be32At (c : Bytes) (i : Nat) : Nat :=
  ((c.getD i 0).toNat * 256 + (c.getD (i + 1) 0).toNat) * 65536 +
    ((c.getD (i + 2) 0).toNat * 256 + (c.getD (i + 3) 0).toNat)

/-- The format fields of the record, alone and as the cookie repeats them. -/
structure SdpFormat (o : RaopSdp) : Prop where
  frameLength_pos : 1 ≤ o.frameLength
  frameLength_le : o.frameLength ≤ 16384
  channels : o.channels = 2
  bitDepth : o.bitDepth = 16
  sampleRate : o.sampleRate = 44100
  cookieLen : o.cookieLen = 48
  cookie_length : o.cookie.length = o.cookieLen
  cookie_frameLength : be32At o.cookie 24 = o.frameLength
  cookie_bitDepth : (o.cookie.getD 29 0).toNat = o.bitDepth
  cookie_channels : (o.cookie.getD 33 0).toNat = o.channels
  cookie_sampleRate : be32At o.cookie 44 = o.sampleRate

/-- Everything a successful parse guarantees. -/
structure SdpOk (o : RaopSdp) : Prop extends SdpFormat o where
  keyLen : o.rsaaeskeyLen = 128 ∨ o.rsaaeskeyLen = 256
  key_length : o.rsaaeskey.length = o.rsaaeskeyLen
  aesiv_length : o.aesiv.length = 16

theorem length_buildCookie (f : List Nat) : (buildCookie f).length = 48 := rfl

/-- Four bytes written by `put_be32` read back. -/
theorem be32_putBe32 {v : Nat} (hv : v < 2 ^ 32) :
    (((UInt8.ofNat (v >>> 24)).toNat * 256 + (UInt8.ofNat (v >>> 16)).toNat) * 65536 +
      ((UInt8.ofNat (v >>> 8)).toNat * 256 + (UInt8.ofNat v).toNat)) = v := by
  simp only [UInt8.toNat_ofNat', Nat.shiftRight_eq_div_pow]
  omega

theorem sdpFmtp_ok {longMax : Nat} {body : Bytes} {out o : RaopSdp} (h : sdpFmtp longMax body out = .ok o) :
    SdpFormat o := by
  simp only [sdpFmtp] at h
  split at h
  · cases h
  · split at h
    · cases h
    · rename_i all _
      split at h
      · cases h
      · split at h
        · cases h
        · rename_i hr
          split at h
          · cases h
          · rename_i hf
            obtain rfl := Except.ok.inj h
            simp only [not_or, not_not] at hf
            obtain ⟨hch, hsr, hbd⟩ := hf
            simp only [fmtpFieldsInRange, Bool.and_eq_true, decide_eq_true_eq, Bool.not_eq_true',
              Bool.not_eq_false] at hr
            obtain ⟨⟨⟨⟨h1, h2⟩, _⟩, _⟩, _⟩ := hr
            generalize all.tail = f at *
            refine ⟨h1, h2, hch, hbd, hsr, rfl, length_buildCookie f, ?_, ?_, ?_, ?_⟩
            · exact be32_putBe32 (by omega)
            · change (UInt8.ofNat (f.getD 2 0)).toNat = f.getD 2 0
              rw [hbd]; rfl
            · change (UInt8.ofNat (f.getD 6 0)).toNat = f.getD 6 0
              rw [hch]; rfl
            · exact be32_putBe32 (by rw [hsr]; decide)

theorem sdpKey_ok {body : Bytes} {out o : RaopSdp} (h : sdpKey body out = .ok o) :
    (o.rsaaeskeyLen = 128 ∨ o.rsaaeskeyLen = 256) ∧ o.rsaaeskey.length = o.rsaaeskeyLen ∧
      o = { out with rsaaeskey := o.rsaaeskey, rsaaeskeyLen := o.rsaaeskeyLen } := by
  simp only [sdpKey] at h
  split at h
  · cases h
  · split at h
    · cases h
    · split at h
      · cases h
      · split at h
        · cases h
        · rename_i hl
          obtain rfl := Except.ok.inj h
          exact ⟨by tauto, rfl, rfl⟩

theorem sdpIv_ok {body : Bytes} {out o : RaopSdp} (h : sdpIv body out = .ok o) :
    o.aesiv.length = 16 ∧ o = { out with aesiv := o.aesiv } := by
  simp only [sdpIv] at h
  split at h
  · cases h
  · split at h
    · cases h
    · split at h
      · cases h
      · split at h
        · cases h
        · rename_i hl
          obtain rfl := Except.ok.inj h
          exact ⟨not_not.1 hl, rfl⟩

/-- **A successful parse is a usable format.** -/
theorem sdpParse_ok {longMax : Nat} {body : Bytes} {o : RaopSdp} (h : sdpParse longMax body = .ok o) : SdpOk o := by
  simp only [sdpParse, bind, Except.bind] at h
  split at h
  · cases h
  · split at h
    · cases h
    · rename_i o₂ hf
      split at h
      · cases h
      · rename_i o₃ hk
        obtain ⟨hkl, hkk, e₃⟩ := sdpKey_ok hk
        obtain ⟨hiv, e₄⟩ := sdpIv_ok h
        have hfmt := sdpFmtp_ok hf
        rw [e₄]
        rw [e₃] at *
        exact ⟨⟨hfmt.1, hfmt.2, hfmt.3, hfmt.4, hfmt.5, hfmt.6, hfmt.7, hfmt.8, hfmt.9, hfmt.10, hfmt.11⟩,
          hkl, hkk, hiv⟩

end ShairKindle
