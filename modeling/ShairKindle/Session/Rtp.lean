import Mathlib.Data.List.GetD
import ShairKindle.Rtsp.Sdp
import ShairKindle.Session.Basic

/-!
# The datagrams of a session (src/rtp.c)

Three sockets carry a session: audio packets come in on the first, syncs and resent audio packets on the
second, timing replies on the third; resend requests leave through the second and timing requests through the
third. The readers take no more from a datagram than the code does, so a sender's packet is written here with
free bytes wherever the code does not look.

| here | there |
| --- | --- |
| `be16At`, `be32At`, `be64At` | `rd_be16`, `rd_be32`, `rd_be64` (rtp.c:13-23) |
| `putBe16`, `putBe32`, `putBe64` | `put_be16`, `put_be32`, `put_be64` (rtp.c:25-40) |
| `rtpParseAudio` | `rtp_parse_audio` (rtp.c:44) |
| `CtrlKind`, `rtpClassifyControl` | `ctrl_kind_t`, `rtp_classify_control` (rtp.h:16, rtp.c:66) |
| `rtpParseSync` | `rtp_parse_sync` (rtp.c:90) |
| `rtpBuildResend` | `rtp_build_resend` (rtp.c:101) |
| `rtpBuildTimingRequest` | `rtp_build_timing_request` (rtp.c:115) |
| `rtpParseTimingReply` | `rtp_parse_timing_reply` (rtp.c:133) |
| `audioPacket`, `resentPacket`, `timingReply` | the sender's side, which the source does not have |
-/

namespace ShairKindle

open Bytes

/-! ## The code -/

def be64At (c : Bytes) (i : Nat) : Nat := be32At c i * 2 ^ 32 + be32At c (i + 4)

def putBe64 (v : Nat) : Bytes := putBe32 (v >>> 32) ++ putBe32 v

/-- `none` is the return value -1. -/
def rtpParseAudio (buf : Bytes) : Option RtpAudio :=
  if buf.length < 28 ∨ buf.getD 0 0 &&& 0xC0 ≠ 0x80 ∨ buf.getD 0 0 &&& 0x3F ≠ 0 ∨ buf.getD 1 0 &&& 0x7F ≠ 0x60 then none
  else some ⟨UInt16.ofNat (be16At buf 2), UInt32.ofNat (be32At buf 4), buf.drop 12⟩

/-- `inner` is the packet embedded in a resend. -/
inductive CtrlKind
  | sync
  | resendAudio (inner : Bytes)
  | unknown
deriving DecidableEq, Repr

def rtpClassifyControl (buf : Bytes) : CtrlKind :=
  if buf.length < 2 then .unknown
  else
    let type := buf.getD 1 0 &&& 0x7F
    if type = 0x54 then .sync
    else if type = 0x56 then
      if 4 < buf.length then .resendAudio (buf.drop 4) else .unknown
    else .unknown

/-- The RTP time and the NTP time of a sync. -/
def rtpParseSync (buf : Bytes) : Option (UInt32 × Nat) :=
  if buf.length < 16 then none else some (UInt32.ofNat (be32At buf 4), be64At buf 8)

def rtpBuildResend (first count : UInt16) (cap : Nat) : Option Bytes :=
  if cap < 8 then none
  else some ([0x80, 0xD5] ++ putBe16 0x0001 ++ putBe16 first.toNat ++ putBe16 count.toNat)

def rtpBuildTimingRequest (tTxNtp : Nat) (cap : Nat) : Option Bytes :=
  if cap < 32 then none
  else some ([0x80, 0xD2] ++ putBe16 0x0007 ++ List.replicate 20 0 ++ putBe64 tTxNtp)

/-- The sender's transmit time and the token it echoes. -/
def rtpParseTimingReply (buf : Bytes) : Option (Nat × Nat) :=
  if buf.length < 32 ∨ buf.getD 1 0 &&& 0x7F ≠ 0x53 then none else some (be64At buf 24, be64At buf 8)

/-! ## Numbers on the wire -/

theorem be16_putBe16 {v : Nat} (hv : v < 2 ^ 16) : (UInt8.ofNat (v >>> 8)).toNat * 256 + (UInt8.ofNat v).toNat = v := by
  simp only [UInt8.toNat_ofNat', Nat.shiftRight_eq_div_pow]
  omega

theorem ofNat_eq_byte {b : UInt8} {n : Nat} (h : n % 256 = b.toNat) : UInt8.ofNat n = b := by
  rw [← UInt8.toNat_inj, UInt8.toNat_ofNat']
  exact h

theorem putBe16_bytes (a b : UInt8) : putBe16 (a.toNat * 256 + b.toNat) = [a, b] := by
  have ha := a.toNat_lt
  have hb := b.toNat_lt
  simp only [putBe16, Nat.shiftRight_eq_div_pow]
  rw [ofNat_eq_byte (b := a) (by omega), ofNat_eq_byte (b := b) (by omega)]

theorem putBe32_bytes (a b c d : UInt8) :
    putBe32 ((a.toNat * 256 + b.toNat) * 65536 + (c.toNat * 256 + d.toNat)) = [a, b, c, d] := by
  have ha := a.toNat_lt
  have hb := b.toNat_lt
  have hc := c.toNat_lt
  have hd := d.toNat_lt
  simp only [putBe32, Nat.shiftRight_eq_div_pow]
  rw [ofNat_eq_byte (b := a) (by omega), ofNat_eq_byte (b := b) (by omega), ofNat_eq_byte (b := c) (by omega),
    ofNat_eq_byte (b := d) (by omega)]

theorem length_putBe64 (v : Nat) : (putBe64 v).length = 8 := rfl

theorem be16At_lt (c : Bytes) (i : Nat) : be16At c i < 2 ^ 16 := by
  have h0 := (c.getD i 0).toNat_lt
  have h1 := (c.getD (i + 1) 0).toNat_lt
  simp only [be16At]
  omega

theorem be32At_lt (c : Bytes) (i : Nat) : be32At c i < 2 ^ 32 := by
  have h0 := (c.getD i 0).toNat_lt
  have h1 := (c.getD (i + 1) 0).toNat_lt
  have h2 := (c.getD (i + 2) 0).toNat_lt
  have h3 := (c.getD (i + 3) 0).toNat_lt
  simp only [be32At]
  omega

theorem be64At_lt (c : Bytes) (i : Nat) : be64At c i < 2 ^ 64 := by
  have h0 := be32At_lt c i
  have h1 := be32At_lt c (i + 4)
  simp only [be64At]
  omega

theorem getD_append_add (a b : Bytes) (i : Nat) : (a ++ b).getD (a.length + i) 0 = b.getD i 0 := by
  rw [List.getD_append_right _ _ _ _ (by omega), Nat.add_sub_cancel_left]

theorem be32At_append (a b : Bytes) (i : Nat) : be32At (a ++ b) (a.length + i) = be32At b i := by
  simp only [be32At, Nat.add_assoc, getD_append_add]

/-- Eight bytes written by `put_be64` read back, wherever they stand. -/
theorem be64At_putBe64 (a b : Bytes) {v : Nat} (hv : v < 2 ^ 64) : be64At (a ++ (putBe64 v ++ b)) a.length = v := by
  have hhi : be32At (putBe64 v ++ b) 0 = v >>> 32 :=
    be32_putBe32 (by rw [Nat.shiftRight_eq_div_pow]; omega)
  have hlo : be32At (putBe64 v ++ b) 4 = v % 2 ^ 32 := by
    refine Eq.trans ?_ (be32_putBe32 (v := v % 2 ^ 32) (by omega))
    simp only [be32At, putBe64, putBe32, UInt8.toNat_ofNat', Nat.shiftRight_eq_div_pow, List.cons_append, List.nil_append,
      List.getD_cons_succ, List.getD_cons_zero]
    omega
  have h0 := be32At_append a (putBe64 v ++ b) 0
  rw [Nat.add_zero] at h0
  rw [be64At, h0, be32At_append, hhi, hlo, Nat.shiftRight_eq_div_pow]
  omega

theorem drop_eq_cons {s : Bytes} {i : Nat} (h : i < s.length) : s.drop i = s.getD i 0 :: s.drop (i + 1) := by
  rw [List.drop_eq_getElem_cons h, List.getD_eq_getElem _ _ h]

theorem take_drop_append (s : Bytes) (i n : Nat) : (s.drop i).take n ++ s.drop (i + n) = s.drop i := by
  rw [← List.drop_drop, List.take_append_drop]

theorem drop_eq_putBe16 {s : Bytes} {i : Nat} (h : i + 2 ≤ s.length) : s.drop i = putBe16 (be16At s i) ++ s.drop (i + 2) := by
  rw [be16At, putBe16_bytes, drop_eq_cons (by omega), drop_eq_cons (by omega)]
  rfl

theorem drop_eq_putBe32 {s : Bytes} {i : Nat} (h : i + 4 ≤ s.length) : s.drop i = putBe32 (be32At s i) ++ s.drop (i + 4) := by
  rw [be32At, putBe32_bytes, drop_eq_cons (by omega), drop_eq_cons (by omega), drop_eq_cons (by omega),
    drop_eq_cons (by omega)]
  rfl

theorem drop_eq_putBe64 {s : Bytes} {i : Nat} (h : i + 8 ≤ s.length) : s.drop i = putBe64 (be64At s i) ++ s.drop (i + 8) := by
  have hlt := be32At_lt s (i + 4)
  have hhi : be64At s i >>> 32 = be32At s i := by
    rw [be64At, Nat.shiftRight_eq_div_pow]
    omega
  have hlo : putBe32 (be64At s i) = putBe32 (be32At s (i + 4)) := by
    rw [be64At]
    simp only [putBe32, Nat.shiftRight_eq_div_pow, List.cons.injEq, and_true, ← UInt8.toNat_inj, UInt8.toNat_ofNat']
    omega
  rw [putBe64, hhi, hlo, List.append_assoc, drop_eq_putBe32 (by omega), drop_eq_putBe32 (by omega)]

/-! ## What the sender sends -/

/-- An audio packet: `marker` is the marker bit, `ssrc` the four bytes the code does not look at. -/
def audioPacket (marker : Bool) (ssrc : Bytes) (a : RtpAudio) : Bytes :=
  [0x80, if marker then 0xE0 else 0x60] ++ putBe16 a.seq.toNat ++ putBe32 a.rtptime.toNat ++ ssrc ++ a.payload

/-- A packet sent again: four bytes of header, the type in the second, and the packet as it was. -/
def resentPacket (b0 : UInt8) (marker : Bool) (b2 b3 : UInt8) (packet : Bytes) : Bytes :=
  [b0, if marker then 0xD6 else 0x56, b2, b3] ++ packet

/-- A sync: the RTP time at 4, the NTP time it belongs to at 8. -/
def syncPacket (b0 : UInt8) (marker : Bool) (b2 b3 : UInt8) (rtptime : UInt32) (ntp : Nat) (rest : Bytes) : Bytes :=
  [b0, if marker then 0xD4 else 0x54, b2, b3] ++ putBe32 rtptime.toNat ++ putBe64 ntp ++ rest

/-- A timing reply: the token of the request at 8, the sender's time at 24. -/
def timingReply (b0 : UInt8) (marker : Bool) (hdr recv : Bytes) (token remoteTx : Nat) (rest : Bytes) : Bytes :=
  [b0, if marker then 0xD3 else 0x53] ++ hdr ++ putBe64 token ++ recv ++ putBe64 remoteTx ++ rest

theorem forall_byte {P : UInt8 → Prop} (h : ∀ n : Fin 256, P (UInt8.ofNat n)) (b : UInt8) : P b := by
  simpa using h ⟨b.toNat, b.toNat_lt⟩

/-- The type byte with the marker bit masked out. -/
theorem type_iff (t : UInt8) (ht : t < 128) (b : UInt8) : b &&& 0x7F = t ↔ ∃ marker : Bool, b = if marker then t ||| 0x80 else t := by
  have ht' : t.toNat < 2 ^ 7 := UInt8.lt_iff_toNat_lt.1 ht
  have hb := b.toNat_lt
  have hmask : (b &&& 0x7F).toNat = b.toNat % 2 ^ 7 := by
    rw [UInt8.toNat_and]
    exact Nat.and_two_pow_sub_one_eq_mod _ 7
  have hmark : (t ||| 0x80).toNat = 2 ^ 7 + t.toNat := by
    rw [UInt8.toNat_or, Nat.or_comm]
    exact (Nat.two_pow_add_eq_or_of_lt ht' 1).symm
  have hiff : b &&& 0x7F = t ↔ b = t ||| 0x80 ∨ b = t := by
    rw [← UInt8.toNat_inj, ← UInt8.toNat_inj, ← UInt8.toNat_inj, hmask, hmark]
    omega
  rw [hiff]
  constructor
  · rintro (h | h)
    · exact ⟨true, h⟩
    · exact ⟨false, h⟩
  · rintro ⟨_ | _, h⟩
    · exact .inr h
    · exact .inl h

theorem byte0_iff (b : UInt8) : b &&& 0xC0 = 0x80 ∧ b &&& 0x3F = 0 ↔ b = 0x80 :=
  forall_byte (P := fun b => b &&& 0xC0 = 0x80 ∧ b &&& 0x3F = 0 ↔ b = 0x80) (by decide +kernel) b

theorem rtpParseAudio_audioPacket (marker : Bool) {ssrc : Bytes} (hs : ssrc.length = 4) {a : RtpAudio}
    (hp : 16 ≤ a.payload.length) : rtpParseAudio (audioPacket marker ssrc a) = some a := by
  obtain ⟨seq, rtptime, payload⟩ := a
  match ssrc, hs with
  | [s0, s1, s2, s3], _ =>
    have hlen : ¬ (audioPacket marker [s0, s1, s2, s3] ⟨seq, rtptime, payload⟩).length < 28 := by
      simp only [audioPacket, putBe16, putBe32, List.length_append, List.length_cons, List.length_nil] at hp ⊢
      omega
    have hseq : be16At (audioPacket marker [s0, s1, s2, s3] ⟨seq, rtptime, payload⟩) 2 = seq.toNat :=
      be16_putBe16 seq.toNat_lt
    have hts : be32At (audioPacket marker [s0, s1, s2, s3] ⟨seq, rtptime, payload⟩) 4 = rtptime.toNat :=
      be32_putBe32 rtptime.toNat_lt
    have htype : (audioPacket marker [s0, s1, s2, s3] ⟨seq, rtptime, payload⟩).getD 1 0 &&& 0x7F = 0x60 :=
      (type_iff 0x60 (by decide) _).2 ⟨marker, rfl⟩
    rw [rtpParseAudio, if_neg, hseq, hts, UInt16.ofNat_toNat, UInt32.ofNat_toNat]
    · rfl
    · rintro (h | h | h | h)
      · exact hlen h
      · exact h ((byte0_iff 0x80).2 rfl).1
      · exact h ((byte0_iff 0x80).2 rfl).2
      · exact h htype

/-- A datagram is taken for an audio packet exactly when it is one. -/
theorem rtpParseAudio_eq_some_iff {buf : Bytes} {a : RtpAudio} :
    rtpParseAudio buf = some a ↔
      ∃ marker ssrc, ssrc.length = 4 ∧ 16 ≤ a.payload.length ∧ buf = audioPacket marker ssrc a := by
  constructor
  · intro h
    rw [rtpParseAudio] at h
    split_ifs at h with hbad
    simp only [not_or, not_not, not_lt] at hbad
    obtain ⟨hlen, hversion, hflags, htype⟩ := hbad
    obtain rfl := Option.some.inj h
    obtain ⟨marker, hmarker⟩ := (type_iff 0x60 (by decide) _).1 htype
    have hseq : (UInt16.ofNat (be16At buf 2)).toNat = be16At buf 2 :=
      UInt16.toNat_ofNat'.trans (Nat.mod_eq_of_lt (be16At_lt buf 2))
    have hts : (UInt32.ofNat (be32At buf 4)).toNat = be32At buf 4 :=
      UInt32.toNat_ofNat'.trans (Nat.mod_eq_of_lt (be32At_lt buf 4))
    refine ⟨marker, (buf.drop 8).take 4, by simp; omega, by simp; omega, ?_⟩
    calc buf = buf.getD 0 0 :: buf.getD 1 0 :: buf.drop 2 := by
          rw [← drop_eq_cons (by omega), ← drop_eq_cons (by omega), List.drop_zero]
      _ = [0x80, if marker then 0xE0 else 0x60] ++ buf.drop 2 := by
          rw [(byte0_iff _).1 ⟨hversion, hflags⟩, hmarker]
          rfl
      _ = [0x80, if marker then 0xE0 else 0x60] ++
            (putBe16 (be16At buf 2) ++ (putBe32 (be32At buf 4) ++ ((buf.drop 8).take 4 ++ buf.drop 12))) := by
          rw [take_drop_append buf 8 4, ← drop_eq_putBe32 (by omega : 4 + 4 ≤ _), ← drop_eq_putBe16 (by omega : 2 + 2 ≤ _)]
      _ = audioPacket marker ((buf.drop 8).take 4) _ := by
          simp only [audioPacket, hseq, hts, List.append_assoc]
  · rintro ⟨marker, ssrc, hs, hp, rfl⟩
    exact rtpParseAudio_audioPacket marker hs hp

theorem rtpClassifyControl_eq_resendAudio_iff {buf inner : Bytes} :
    rtpClassifyControl buf = .resendAudio inner ↔ inner ≠ [] ∧ ∃ b0 marker b2 b3, buf = resentPacket b0 marker b2 b3 inner := by
  constructor
  · intro h
    simp only [rtpClassifyControl] at h
    split_ifs at h with _ _ htype hlen
    obtain rfl := CtrlKind.resendAudio.inj h
    match buf, hlen with
    | b0 :: b1 :: b2 :: b3 :: b4 :: rest, _ =>
      obtain ⟨marker, h1⟩ := (type_iff 0x56 (by decide) b1).1 htype
      exact ⟨List.cons_ne_nil _ _, b0, marker, b2, b3, by rw [h1]; rfl⟩
  · rintro ⟨hne, b0, marker, b2, b3, rfl⟩
    have htype : (resentPacket b0 marker b2 b3 inner).getD 1 0 &&& 0x7F = 0x56 := (type_iff 0x56 (by decide) _).2 ⟨marker, rfl⟩
    have hpos := List.length_pos_iff.2 hne
    have hlen : (resentPacket b0 marker b2 b3 inner).length = inner.length + 4 := by
      simp only [resentPacket, List.length_append, List.length_cons, List.length_nil]
      omega
    simp only [rtpClassifyControl, htype, hlen]
    rw [if_neg (by omega), if_neg (by decide), if_pos trivial, if_pos (by omega)]
    rfl

theorem sync_iff {buf : Bytes} {rtptime : UInt32} {ntp : Nat} :
    rtpClassifyControl buf = .sync ∧ rtpParseSync buf = some (rtptime, ntp) ↔
      ntp < 2 ^ 64 ∧ ∃ b0 marker b2 b3 rest, buf = syncPacket b0 marker b2 b3 rtptime ntp rest := by
  constructor
  · rintro ⟨hkind, h⟩
    rw [rtpParseSync] at h
    split_ifs at h with hlen
    obtain ⟨rfl, rfl⟩ := Prod.mk.inj (Option.some.inj h)
    have htype : buf.getD 1 0 &&& 0x7F = 0x54 := by
      simp only [rtpClassifyControl] at hkind
      split_ifs at hkind with _ htype
      exact htype
    obtain ⟨marker, hmarker⟩ := (type_iff 0x54 (by decide) _).1 htype
    have hts : (UInt32.ofNat (be32At buf 4)).toNat = be32At buf 4 :=
      UInt32.toNat_ofNat'.trans (Nat.mod_eq_of_lt (be32At_lt buf 4))
    refine ⟨be64At_lt _ _, buf.getD 0 0, marker, buf.getD 2 0, buf.getD 3 0, buf.drop 16, ?_⟩
    calc buf = buf.getD 0 0 :: buf.getD 1 0 :: buf.getD 2 0 :: buf.getD 3 0 :: buf.drop 4 := by
          rw [← drop_eq_cons (by omega), ← drop_eq_cons (by omega), ← drop_eq_cons (by omega), ← drop_eq_cons (by omega),
            List.drop_zero]
      _ = [buf.getD 0 0, if marker then 0xD4 else 0x54, buf.getD 2 0, buf.getD 3 0] ++
            (putBe32 (be32At buf 4) ++ (putBe64 (be64At buf 8) ++ buf.drop 16)) := by
          rw [drop_eq_putBe32 (by omega : 4 + 4 ≤ _), drop_eq_putBe64 (by omega : 8 + 8 ≤ _), hmarker]
          rfl
      _ = syncPacket _ marker _ _ _ _ _ := by
          simp only [syncPacket, hts, List.append_assoc]
  · rintro ⟨hntp, b0, marker, b2, b3, rest, rfl⟩
    have htype : (syncPacket b0 marker b2 b3 rtptime ntp rest).getD 1 0 &&& 0x7F = 0x54 :=
      (type_iff 0x54 (by decide) _).2 ⟨marker, rfl⟩
    have hlen : (syncPacket b0 marker b2 b3 rtptime ntp rest).length = 16 + rest.length := by
      simp only [syncPacket, putBe32, List.length_append, List.length_cons, List.length_nil, length_putBe64]
    have hts : be32At (syncPacket b0 marker b2 b3 rtptime ntp rest) 4 = rtptime.toNat := be32_putBe32 rtptime.toNat_lt
    have hat : be64At (syncPacket b0 marker b2 b3 rtptime ntp rest) 8 = ntp := by
      have h := be64At_putBe64 ([b0, if marker then 0xD4 else 0x54, b2, b3] ++ putBe32 rtptime.toNat) rest hntp
      simp only [syncPacket, List.append_assoc] at h ⊢
      exact h
    constructor
    · simp only [rtpClassifyControl, htype, hlen]
      rw [if_neg (by omega), if_pos trivial]
    · rw [rtpParseSync, if_neg (by omega), hts, hat, UInt32.ofNat_toNat]

theorem rtpParseTimingReply_timingReply (b0 : UInt8) (marker : Bool) {hdr recv : Bytes} (hh : hdr.length = 6)
    (hr : recv.length = 8) {token remoteTx : Nat} (ht : token < 2 ^ 64) (hx : remoteTx < 2 ^ 64) (rest : Bytes) :
    rtpParseTimingReply (timingReply b0 marker hdr recv token remoteTx rest) = some (remoteTx, token) := by
  have htype : (timingReply b0 marker hdr recv token remoteTx rest).getD 1 0 &&& 0x7F = 0x53 :=
    (type_iff 0x53 (by decide) _).2 ⟨marker, rfl⟩
  have hlen : (timingReply b0 marker hdr recv token remoteTx rest).length = 32 + rest.length := by
    simp only [timingReply, List.length_append, List.length_cons, List.length_nil, length_putBe64, hh, hr]
  have htok : be64At (timingReply b0 marker hdr recv token remoteTx rest) 8 = token := by
    have h := be64At_putBe64 ([b0, if marker then 0xD3 else 0x53] ++ hdr) (recv ++ putBe64 remoteTx ++ rest) ht
    rw [List.length_append, hh] at h
    simp only [timingReply, List.append_assoc] at h ⊢
    exact h
  have htx : be64At (timingReply b0 marker hdr recv token remoteTx rest) 24 = remoteTx := by
    have h := be64At_putBe64 ([b0, if marker then 0xD3 else 0x53] ++ hdr ++ putBe64 token ++ recv) rest hx
    rw [List.length_append, List.length_append, List.length_append, hh, hr, length_putBe64] at h
    simp only [timingReply, List.append_assoc] at h ⊢
    exact h
  rw [rtpParseTimingReply, if_neg, htok, htx]
  rintro (h | h)
  · omega
  · exact h htype

/-- **What the receiver takes for a packet is one**, and every packet is taken for what it is: for each of the four
formats that come in, a datagram is read as exactly the packets of that format, and the fields read are the ones it was
made from. -/
theorem rtp_formats_exact (buf : Bytes) :
    (∀ a, rtpParseAudio buf = some a ↔
      ∃ marker ssrc, ssrc.length = 4 ∧ 16 ≤ a.payload.length ∧ buf = audioPacket marker ssrc a) ∧
    (∀ inner, rtpClassifyControl buf = .resendAudio inner ↔
      inner ≠ [] ∧ ∃ b0 marker b2 b3, buf = resentPacket b0 marker b2 b3 inner) ∧
    (∀ rtptime ntp, rtpClassifyControl buf = .sync ∧ rtpParseSync buf = some (rtptime, ntp) ↔
      ntp < 2 ^ 64 ∧ ∃ b0 marker b2 b3 rest, buf = syncPacket b0 marker b2 b3 rtptime ntp rest) ∧
    ∀ remoteTx token, rtpParseTimingReply buf = some (remoteTx, token) ↔
      token < 2 ^ 64 ∧ remoteTx < 2 ^ 64 ∧ ∃ b0 marker hdr recv rest, hdr.length = 6 ∧ recv.length = 8 ∧
        buf = timingReply b0 marker hdr recv token remoteTx rest := by
  refine ⟨fun a => rtpParseAudio_eq_some_iff, fun inner => rtpClassifyControl_eq_resendAudio_iff,
    fun rtptime ntp => sync_iff, fun remoteTx token => ⟨fun h => ?_, ?_⟩⟩
  · rw [rtpParseTimingReply] at h
    split_ifs at h with hbad
    simp only [not_or, not_not, not_lt] at hbad
    obtain ⟨hlen, htype⟩ := hbad
    obtain ⟨rfl, rfl⟩ := Prod.mk.inj (Option.some.inj h)
    obtain ⟨marker, hmarker⟩ := (type_iff 0x53 (by decide) _).1 htype
    refine ⟨be64At_lt _ _, be64At_lt _ _, buf.getD 0 0, marker, (buf.drop 2).take 6, (buf.drop 16).take 8, buf.drop 32,
      by simp; omega, by simp; omega, ?_⟩
    calc buf = buf.getD 0 0 :: buf.getD 1 0 :: buf.drop 2 := by
          rw [← drop_eq_cons (by omega), ← drop_eq_cons (by omega), List.drop_zero]
      _ = [buf.getD 0 0, if marker then 0xD3 else 0x53] ++ ((buf.drop 2).take 6 ++ buf.drop 8) := by
          rw [hmarker, take_drop_append buf 2 6]
          rfl
      _ = [buf.getD 0 0, if marker then 0xD3 else 0x53] ++ ((buf.drop 2).take 6 ++ (putBe64 (be64At buf 8) ++
            ((buf.drop 16).take 8 ++ (putBe64 (be64At buf 24) ++ buf.drop 32)))) := by
          rw [← drop_eq_putBe64 (by omega : 24 + 8 ≤ _), take_drop_append buf 16 8,
            ← drop_eq_putBe64 (by omega : 8 + 8 ≤ _)]
      _ = timingReply _ marker _ _ _ _ _ := by simp only [timingReply, List.append_assoc]
  · rintro ⟨ht, hx, b0, marker, hdr, recv, rest, hh, hr, rfl⟩
    exact rtpParseTimingReply_timingReply b0 marker hh hr ht hx rest

end ShairKindle
