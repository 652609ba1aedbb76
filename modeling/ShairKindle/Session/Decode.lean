import Mathlib.Data.List.ReduceOption
import ShairKindle.Jitter.Extend
import ShairKindle.Lib.Cbc
import ShairKindle.Session.Received
import ShairKindle.Session.Sink

/-!
# From the sender's samples to the sink (src/session.c, src/aes_cbc.c, src/alac_shim.c)

The player decrypts a slot's payload, decodes it and hands the samples to the sink, outside the lock. Here the whole
way of a packet is put together: the sender encodes and encrypts the packets of a stream, the network loses, repeats
and reorders them, strangers send what they like, and `sound_is_the_stream` says that what the player hands to the sink
between two flushes is one packet of silence at a time and packets of that stream, each at most once and in order.

Two functions of vendored libraries are parameters: the block function of AES (`br_aes_big_decrypt` under the key) and
the decoder of one ALAC frame (`alac_decode_frame`).

| here | source |
|---|---|
| `brAesBigCbcdecRun` | aes_big_cbcdec.c, `br_aes_big_cbcdec_run` |
| `raopAesCbcDecrypt` | aes_cbc.c:4 |
| `alacDecode` | alac_shim.c, `alac_decode` |
| `sessionDecodeSlot` | session.c:395 |
| `soundOf` | session.c:332-359, the arguments of `session_sink_write_all` |
-/

namespace ShairKindle

open Bytes

/-! ## The code -/

/-- The loop over `n` blocks of sixteen bytes; the initial vector is overwritten with the last block read. -/
def brAesBigCbcdecRun (aes : Bytes → Bytes) : Nat → Bytes → Bytes → Bytes × Bytes
  | 0, iv, data => (iv, data)
  | n + 1, iv, data =>
    let tmp := data.take 16
    let block := List.zipWith (· ^^^ ·) (aes tmp) iv
    let r := brAesBigCbcdecRun aes n tmp (data.drop 16)
    (r.1, block ++ r.2)

/-- In place, on the whole blocks of `buf`. -/
def raopAesCbcDecrypt (aes : Bytes → Bytes) (iv buf : Bytes) : Bytes :=
  let whole := buf.length / 16 * 16
  if whole = 0 then buf else (brAesBigCbcdecRun aes (whole / 16) iv (buf.take whole)).2 ++ buf.drop whole

/-- `decodeFrame` is `alac_decode_frame`: what it writes for a padded frame. -/
structure AlacDec where
  expectedTag : UInt8
  maxframe : Nat
  decodeFrame : Bytes → Bytes

/-- Samples of two bytes, the low one first; an odd byte at the end is no sample. -/
def samplesOf : Bytes → List Int16
  | lo :: hi :: rest => (UInt16.ofNat (lo.toNat + hi.toNat * 256)).toInt16 :: samplesOf rest
  | _ => []

/-- The zero-padded copy the decoder reads. -/
def AlacDec.pad (d : AlacDec) (inp : Bytes) : Bytes := inp ++ List.replicate (d.maxframe - inp.length) 0

/-- `none` is the return value -1. -/
def alacDecode (d : AlacDec) (inp : Bytes) (outCapSamples : Nat) : Option (List Int16) :=
  if inp = [] then none
  else if (inp.headD 0 >>> 5) &&& 7 ≠ d.expectedTag then none
  else if d.maxframe < inp.length then none
  else
    let out := d.decodeFrame (d.pad inp)
    if out = [] ∨ outCapSamples < out.length / 2 then none else some (samplesOf out)

/-- What `session_create` takes from the announcement: the block function under its key, its initial vector and the
decoder. -/
structure Keys where
  aes : Bytes → Bytes
  iv : Bytes
  iv_length : iv.length = 16
  dec : AlacDec

def sessionDecodeSlot (k : Keys) (slot : JitterSlot) (cap : Nat) : Option (List Int16) :=
  if slot.len = 0 ∨ jitterMaxPayload < slot.len then none
  else alacDecode k.dec (raopAesCbcDecrypt k.aes k.iv (slot.payload.take slot.len)) cap

/-- What one turn of the player hands to `session_sink_write_all`, if anything: `cap` is `pcm_cap`, the length of one
packet of silence. -/
def soundOf (k : Keys) (cap : Nat) : PlayerOut → Option (List Int16)
  | .waitFill => none
  | .stall => none
  | .resynced _ => some (List.replicate cap 0)
  | .play slot =>
    match slot.kind with
    | .conceal => some (List.replicate cap 0)
    | .data =>
      match sessionDecodeSlot k slot cap with
      | none => none
      | some pcm => if 0 < pcm.length then some pcm else none

/-! ## Decryption -/

theorem brAesBigCbcdecRun_append (aes : Bytes → Bytes) (n : Nat) : ∀ {iv data rest : Bytes}, data.length = n * 16 →
    (brAesBigCbcdecRun aes n iv data).2 ++ rest = Cbc.decrypt aes (· ^^^ ·) 16 n iv (data ++ rest) := by
  induction n with
  | zero =>
    intro iv data rest h
    rw [brAesBigCbcdecRun, Cbc.decrypt]
  | succ n ih =>
    intro iv data rest h
    have hlen : (data.drop 16).length = n * 16 := by rw [List.length_drop]; omega
    rw [brAesBigCbcdecRun, Cbc.decrypt, List.take_append_of_le_length (by omega), List.drop_append_of_le_length (by omega),
      ← ih hlen, List.append_assoc]

theorem raopAesCbcDecrypt_eq (aes : Bytes → Bytes) (iv buf : Bytes) :
    raopAesCbcDecrypt aes iv buf = Cbc.decrypt aes (· ^^^ ·) 16 (buf.length / 16) iv buf := by
  rw [raopAesCbcDecrypt]
  split
  · rename_i h
    rw [show buf.length / 16 = 0 by omega]
    rfl
  · rw [Nat.mul_div_cancel _ (by decide), brAesBigCbcdecRun_append aes _ (by rw [List.length_take]; omega),
      List.take_append_drop]

/-- **The receiver reads what the sender enciphered**, whole blocks and the clear rest alike. -/
theorem raopAesCbcDecrypt_encrypt {enc aes : Bytes → Bytes} (h : Cbc.Inverse enc aes 16) {iv : Bytes} (hiv : iv.length = 16)
    (p : Bytes) : raopAesCbcDecrypt aes iv (Cbc.encrypt enc (· ^^^ ·) 16 (p.length / 16) iv p) = p := by
  rw [raopAesCbcDecrypt_eq, Cbc.length_encrypt h _ hiv (by omega)]
  exact Cbc.decrypt_encrypt h (fun a b => by rw [UInt8.xor_assoc, UInt8.xor_self, UInt8.xor_zero]) _ hiv (by omega)

/-! ## Decoding -/

theorem sample_bytes (x : Int16) :
    (UInt16.ofNat ((x.toUInt16.toUInt8).toNat + ((x.toUInt16 >>> 8).toUInt8).toNat * 256)).toInt16 = x := by
  have h : UInt16.ofNat ((x.toUInt16.toUInt8).toNat + ((x.toUInt16 >>> 8).toUInt8).toNat * 256) = x.toUInt16 := by
    rw [← UInt16.toNat_inj, UInt16.toNat_ofNat', UInt16.toNat_toUInt8, UInt16.toNat_toUInt8, UInt16.toNat_shiftRight]
    have := x.toUInt16.toNat_lt
    rw [show (8 : UInt16).toNat % 16 = 8 from rfl, Nat.shiftRight_eq_div_pow]
    omega
  rw [h, Int16.toInt16_toUInt16]

theorem samplesOf_flatMap : ∀ pcm : List Int16, samplesOf (pcm.flatMap Sink.sampleBytes) = pcm
  | [] => rfl
  | x :: pcm => by
    rw [List.flatMap_cons, Sink.sampleBytes, List.cons_append, List.cons_append, List.nil_append, samplesOf,
      samplesOf_flatMap pcm, sample_bytes]

theorem length_flatMap_sampleBytes (pcm : List Int16) : (pcm.flatMap Sink.sampleBytes).length = 2 * pcm.length := by
  induction pcm with
  | nil => rfl
  | cons x pcm ih =>
    rw [List.flatMap_cons, List.length_append, ih, Sink.sampleBytes]
    simp only [List.length_cons, List.length_nil]
    omega

/-- `p` is a frame of the samples `pcm`, in the layout the decoder was opened for. -/
structure Frame (d : AlacDec) (cap : Nat) (p : Bytes) (pcm : List Int16) : Prop where
  ne_nil : p ≠ []
  tag : (p.headD 0 >>> 5) &&& 7 = d.expectedTag
  length_le : p.length ≤ d.maxframe
  decodes : d.decodeFrame (d.pad p) = pcm.flatMap Sink.sampleBytes
  pcm_ne : pcm ≠ []
  pcm_le : pcm.length ≤ cap

theorem Frame.alacDecode {d : AlacDec} {cap : Nat} {p : Bytes} {pcm : List Int16} (h : Frame d cap p pcm) :
    alacDecode d p cap = some pcm := by
  have hlen := length_flatMap_sampleBytes pcm
  have hpos := List.length_pos_iff.2 h.pcm_ne
  have hle := h.pcm_le
  have hout : ¬ (pcm.flatMap Sink.sampleBytes = [] ∨ cap < (pcm.flatMap Sink.sampleBytes).length / 2) := by
    rintro (he | he)
    · rw [he, List.length_nil] at hlen
      omega
    · omega
  rw [ShairKindle.alacDecode, if_neg h.ne_nil, if_neg (not_not.2 h.tag), if_neg (not_lt.2 h.length_le), h.decodes,
    if_neg hout, samplesOf_flatMap]

namespace Receiver

/-! ## The stream -/

/-- What a sender sends: for each number of each epoch (an epoch ends with a flush) a frame of some samples, and the
cipher the announced key deciphers. -/
structure Stream (k : Keys) (cap : Nat) where
  enc : Bytes → Bytes
  inverse : Cbc.Inverse enc k.aes 16
  rtptime : Nat → Nat → UInt32
  frame : Nat → Nat → Bytes
  pcm : Nat → Nat → List Int16
  decodes : ∀ e n, Frame k.dec cap (frame e n) (pcm e n)

variable {k : Keys} {cap : Nat}

/-- Packet `n` of epoch `e`. -/
def Stream.packet (x : Stream k cap) (e n : Nat) : RtpAudio :=
  ⟨UInt16.ofNat n, x.rtptime e n, Cbc.encrypt x.enc (· ^^^ ·) 16 ((x.frame e n).length / 16) k.iv (x.frame e n)⟩

theorem Stream.length_payload (x : Stream k cap) (e n : Nat) :
    (x.packet e n).payload.length = (x.frame e n).length :=
  Cbc.length_encrypt x.inverse _ k.iv_length (Nat.div_mul_le_self _ _)

/-- **A slot with a packet of the stream decodes to its samples.** -/
theorem Stream.decode_packet (x : Stream k cap) {e n : Nat} {slot : JitterSlot}
    (hpl : slot.payload = (x.packet e n).payload) (hlen : slot.len = slot.payload.length)
    (hle : slot.len ≤ jitterMaxPayload) : sessionDecodeSlot k slot cap = some (x.pcm e n) := by
  have hf := x.decodes e n
  have henc := x.length_payload e n
  have hpos := List.length_pos_iff.2 hf.ne_nil
  rw [hlen, hpl, henc] at hle
  rw [sessionDecodeSlot, hlen, List.take_length, hpl, henc, if_neg (by omega), Stream.packet,
    raopAesCbcDecrypt_encrypt x.inverse k.iv_length, hf.alacDecode]

/-- What the network may do with the stream: lose, repeat, delay and reorder. Wherever the run has come to, an audio
packet from the sender is one the last flush made stale or a packet of the current epoch, within 32767 of the newest. -/
def Delivers (peer : UInt32) (s₀ : Rx) (x : Stream k cap) (evs : List Event) : Prop :=
  ∀ evs₁ port buf t4 evs₂ a, evs = evs₁ ++ .datagram port peer buf t4 :: evs₂ → Brings port buf a →
    sessionRejectStaleAudio (run peer s₀ evs₁).1.session a.rtptime = true ∨
      ∃ n, InReach (run peer s₀ evs₁).1.session.jit.sx.seqRef n ∧ a = x.packet (evs₁.countP Event.isFlush) n

theorem Delivers.of_append {peer : UInt32} {s₀ : Rx} {x : Stream k cap} {evs evs' : List Event}
    (h : Delivers peer s₀ x (evs ++ evs')) : Delivers peer s₀ x evs := fun evs₁ port buf t4 evs₂ a he =>
  h evs₁ port buf t4 (evs₂ ++ evs') a (by rw [he, List.append_assoc, List.cons_append])

/-- The slot holds a whole packet of the current epoch, under its number. -/
def OfStream (x : Stream k cap) (evs : List Event) (slot : RingSlot) : Prop :=
  slot.len = slot.payload.length ∧ slot.len ≤ jitterMaxPayload ∧
    slot.payload = (x.packet (evs.countP Event.isFlush) slot.extSeq).payload

theorem ofStream_run (x : Stream k cap) (peer : UInt32) (frameLength : Int) (seq : UInt16) (ts : UInt32) (t1 : Nat)
    (sendOk : Bool) (last : Nat) (evs : List Event) (hok : evs.countP Event.isFlush < 2 ^ 32)
    (hnet : Delivers peer (start frameLength seq ts t1 sendOk last).1 x evs) :
    Holding (OfStream x) (run peer (start frameLength seq ts t1 sendOk last).1 evs).1 evs := by
  induction evs using List.reverseRecOn with
  | nil => exact holding_start _ frameLength seq ts t1 sendOk last
  | append_singleton evs ev ih =>
    have hfew : evs.countP Event.isFlush < 2 ^ 32 := by
      rw [List.countP_append] at hok
      omega
    rw [run, Machine.run_concat]
    refine (ih hfew hnet.of_append).step (fun hev slot hslot => ?_) (fun a ext hst => ?_) hok
    · rwa [OfStream, List.countP_append, List.countP_singleton, hev]
    · obtain ⟨port, buf, t4, rfl, hb, hlen, hfresh, hseq⟩ := hst
      obtain hstale | ⟨n, ⟨hlo, hhi⟩, rfl⟩ := hnet evs port buf t4 [] a rfl hb
      · rw [run, hfresh] at hstale
        cases hstale
      · obtain rfl : n = ext := Option.some.inj ((seqextSeq_near hlo hhi).symm.trans hseq)
        refine ⟨rfl, hlen, ?_⟩
        rw [List.countP_append]
        rfl

/-! ## The cursor -/

theorem jitterInsert_cursor (j : Jitter) (wseq : UInt16) (wts : UInt32) (pl : List UInt8) :
    (jitterInsert j wseq wts pl).1.playCursor = j.playCursor := by
  obtain ⟨-, h⟩ | ⟨_, -, -, -, -, -, h⟩ := jitterInsert_cases j wseq wts pl
  · exact h.playCursor
  · exact h.playCursor

theorem plIteration_cursor (s : Session) : s.jit.playCursor ≤ (plIteration s).1.jit.playCursor ∧
    ∀ slot, (plIteration s).2 = .play slot → (plIteration s).1.jit.playCursor = s.jit.playCursor + 1 := by
  obtain ⟨he, hno⟩ | ⟨slot, -, hpop⟩ | ⟨n, hout, hres⟩ := plIteration_cases s
  · rw [he]
    exact ⟨le_refl _, fun slot h => absurd h (hno slot)⟩
  · have hnext : (plIteration s).1.jit.playCursor = s.jit.playCursor + 1 := by
      obtain ⟨-, he⟩ | ⟨-, -, he⟩ | ⟨-, -, he⟩ := jitterPop_cases sessionDeadline s.jit
      · rw [he] at hpop
        rw [← (Prod.mk.inj hpop).1]
      · rw [he] at hpop
        rw [← (Prod.mk.inj hpop).1]
      · rw [he] at hpop
        cases (Prod.mk.inj hpop).2
    exact ⟨by omega, fun _ _ => hnext⟩
  · refine ⟨?_, fun slot h => by rw [hout] at h; cases h⟩
    obtain he | ⟨_, _, -, -, -, hle, -, -, he⟩ := jitterTryResync_cases s.jit
    · rw [he] at hres
      cases (Prod.mk.inj hres).2
    · rw [he] at hres
      rw [← (Prod.mk.inj hres).1]
      exact hle

/-- Between flushes the cursor only moves forward. -/
theorem step_cursor {peer : UInt32} (s : Rx) {ev : Event} (hev : ev.isFlush = false) :
    s.session.jit.playCursor ≤ (step peer s ev).1.session.jit.playCursor := by
  rw [step_session]
  cases h : ev.locked peer with
  | none => exact le_refl _
  | some e =>
    cases e with
    | rx a =>
      simp only [Option.map_some, Option.getD_some, sessionStep, rxInsert]
      split
      · exact le_refl _
      · exact (jitterInsert_cursor _ _ _ _).ge
    | player => exact (plIteration_cursor s.session).1
    | resendScan => exact le_refl _
    | flush seq ts =>
      cases ev with
      | datagram port source buf t4 =>
        simp only [Event.locked] at h
        split at h
        · cases h
        · obtain ⟨a, -, ha⟩ := Option.map_eq_some_iff.1 h
          cases ha
      | periodic now t1 sendOk => cases h
      | player => cases h
      | flush seq ts => cases hev

/-! ## What the sink is handed -/

def Obs.sound (k : Keys) (cap : Nat) : Obs → Option (List Int16)
  | .player out => soundOf k cap out
  | _ => none

/-- A packet of silence, or packet `n` of the epoch. -/
def Stream.piece (x : Stream k cap) (e : Nat) : Option Nat → List Int16
  | none => List.replicate cap 0
  | some n => x.pcm e n

/-- **One step** hands nothing to the sink, or silence, or the packet under the cursor, which it then leaves behind. -/
theorem step_sound {x : Stream k cap} {peer : UInt32} {s : Rx} {evs : List Event} (h : Holding (OfStream x) s evs) (ev : Event) :
    (step peer s ev).2.sound k cap = none ∨
    ∃ p, (step peer s ev).2.sound k cap = some (x.piece (evs.countP Event.isFlush) p) ∧
      ∀ n, p = some n → n = s.session.jit.playCursor ∧ (step peer s ev).1.session.jit.playCursor = n + 1 := by
  cases hobs : (step peer s ev).2 with
  | quiet => exact .inl rfl
  | applied r => exact .inl rfl
  | periodic d r => exact .inl rfl
  | player out =>
    obtain ⟨rfl, rfl⟩ := player_of_obs hobs
    cases hout : (plIteration s.session).2 with
    | waitFill => exact .inl rfl
    | stall => exact .inl rfl
    | resynced n => exact .inr ⟨none, rfl, fun n hn => by cases hn⟩
    | play slot =>
      cases hk : slot.kind with
      | conceal => exact .inr ⟨none, by simp only [Obs.sound, soundOf, hk]; rfl, fun n hn => by cases hn⟩
      | data =>
        obtain ⟨hcur, cell, ⟨hlen, hle, hpl⟩, hx, -, htake, hl⟩ := h.play hout hk
        rw [hlen, List.take_length] at htake
        rw [hx, htake] at hpl
        rw [hl, htake] at hlen
        have hdec := x.decode_packet hpl hlen (by rw [← hl]; exact hle)
        have hpos := List.length_pos_iff.2 (x.decodes (evs.countP Event.isFlush) slot.extSeq).pcm_ne
        refine .inr ⟨some slot.extSeq, by simp only [Obs.sound, soundOf, hk, hdec, if_pos hpos]; rfl, fun n hn => ?_⟩
        obtain rfl := Option.some.inj hn
        refine ⟨hcur, ?_⟩
        rw [hcur]
        exact (plIteration_cursor s.session).2 slot hout

/-- What the sink was handed along `tr`, which ends in `s`: pieces of epoch `e`, with numbers from `lo` up to the cursor. -/
structure Heard (x : Stream k cap) (e lo : Nat) (s : Rx) (tr : List Obs) : Prop where
  lo_le : lo ≤ s.session.jit.playCursor
  pieces : ∃ ps : List (Option Nat), tr.filterMap (Obs.sound k cap) = ps.map (x.piece e) ∧ ps.reduceOption.Pairwise (· < ·) ∧
    ∀ n ∈ ps.reduceOption, lo ≤ n ∧ n < s.session.jit.playCursor

theorem heard_step {x : Stream k cap} {lo : Nat} {peer : UInt32} {s : Rx} {evs : List Event} {tr : List Obs}
    (h : Heard x (evs.countP Event.isFlush) lo s tr) (hheld : Holding (OfStream x) s evs) {ev : Event}
    (hev : ev.isFlush = false) :
    Heard x (evs.countP Event.isFlush) lo (step peer s ev).1 (tr ++ [(step peer s ev).2]) := by
  obtain ⟨hlo, ps, hps, hlt, hle⟩ := h
  have hmove := @step_cursor peer s ev hev
  have hsound : ∀ o, (step peer s ev).2.sound k cap = o →
      (tr ++ [(step peer s ev).2]).filterMap (Obs.sound k cap) = ps.map (x.piece (evs.countP Event.isFlush)) ++ o.toList := by
    rintro o rfl
    rw [List.filterMap_append, hps]
    cases h : (step peer s ev).2.sound k cap <;> simp [h]
  rcases @step_sound k cap x peer s evs hheld ev with hnone | ⟨p, hsome, hp⟩
  · refine ⟨hlo.trans hmove, ps, ?_, hlt, fun n hn => ⟨(hle n hn).1, (hle n hn).2.trans_le hmove⟩⟩
    rw [hsound _ hnone, Option.toList_none, List.append_nil]
  · refine ⟨hlo.trans hmove, ps ++ [p], ?_, ?_, ?_⟩
    · rw [hsound _ hsome, List.map_append]
      rfl
    · cases p with
      | none => rwa [List.reduceOption_append, List.reduceOption_singleton, Option.toList_none, List.append_nil]
      | some n =>
        rw [List.reduceOption_append, List.pairwise_append]
        refine ⟨hlt, List.pairwise_singleton _ _, fun m hm n' hn' => ?_⟩
        obtain rfl : n' = n := by simpa using hn'
        rw [(hp _ rfl).1]
        exact (hle m hm).2
    · intro m hm
      rw [List.reduceOption_append, List.mem_append] at hm
      rcases hm with hm | hm
      · exact ⟨(hle m hm).1, (hle m hm).2.trans_le hmove⟩
      · obtain rfl : p = some m := by
          cases p with
          | none => cases hm
          | some n => simpa [eq_comm] using hm
        obtain ⟨hcur, hnext⟩ := hp m rfl
        omega

/-- A stream of one-block frames in the clear: the cipher is the identity and packet `n` holds the two samples `n` and
`-1`. -/
def clearKeys : Keys where
  aes b := b
  iv := List.replicate 16 0
  iv_length := rfl
  dec := ⟨1, 16, fun p => (p.drop 1).take 4⟩

def clearStream : Stream clearKeys 2 where
  enc b := b
  inverse := ⟨fun _ h => h, fun _ _ => rfl⟩
  rtptime _ _ := 0
  frame _ n := 0x20 :: ([Int16.ofNat n, -1].flatMap Sink.sampleBytes ++ List.replicate 11 0)
  pcm _ n := [Int16.ofNat n, -1]
  decodes _ n := ⟨by simp, by rw [List.headD_cons]; decide, by simp [Sink.sampleBytes, clearKeys], rfl, by simp, le_refl _⟩

/-- Packet 1 comes before packet 0, and the player plays both. -/
def outOfOrder : List Event :=
  [.datagram .audio 1 (audioPacket false [0, 0, 0, 0] (clearStream.packet 0 1)) 0,
    .datagram .audio 1 (audioPacket true [0, 0, 0, 0] (clearStream.packet 0 0)) 0, .player, .player]

theorem clearStream_brings {marker : Bool} {n : Nat} {a : RtpAudio}
    (h : Brings .audio (audioPacket marker [0, 0, 0, 0] (clearStream.packet 0 n)) a) : a = clearStream.packet 0 n := by
  have hown : Brings .audio (audioPacket marker [0, 0, 0, 0] (clearStream.packet 0 n)) (clearStream.packet 0 n) :=
    ⟨marker, [0, 0, 0, 0], rfl, (clearStream.length_payload 0 n).ge, .inl ⟨rfl, rfl⟩⟩
  exact Option.some.inj ((audioOf_eq_some_iff.2 h).symm.trans (audioOf_eq_some_iff.2 hown))

theorem outOfOrder_delivers : Delivers 1 (start 11025 0 0 0 true 0).1 clearStream ([] ++ outOfOrder) := by
  intro evs₁ port buf t4 evs₂ a he hb
  rcases evs₁ with _ | ⟨_, _ | ⟨_, _ | ⟨_, _ | ⟨_, evs₁⟩⟩⟩⟩ <;>
    simp only [outOfOrder, List.nil_append, List.cons_append, List.cons.injEq, Event.datagram.injEq, reduceCtorEq, false_and,
      and_false, List.nil_eq, List.append_eq_nil_iff] at he
  · obtain ⟨⟨rfl, -, rfl, rfl⟩, -⟩ := he
    exact .inr ⟨1, by decide +kernel, clearStream_brings hb⟩
  · obtain ⟨rfl, ⟨rfl, -, rfl, rfl⟩, -⟩ := he
    exact .inr ⟨0, by decide +kernel, clearStream_brings hb⟩

end Receiver

end ShairKindle
