import ShairKindle.Rtsp.Base64
import ShairKindle.Rtsp.Uints

/-!
# An ANNOUNCE body read back (src/sdp.c)

The sender's body names the stream in four lines: media, format numbers, wrapped key, IV. Each block of
`sdp_parse` scans the whole body for its own line, so the order of the lines, their endings and what else
stands between them must not matter. `sdp_round_trip` starts from the values, writes the four lines,
mixes them with any others and finds every value again, the format numbers both in the record and in the
cookie that goes to the decoder.
-/

namespace ShairKindle

open Bytes

/-! ## The body -/

/-- Numbers, each after a space. -/
def spaced (vs : List Nat) : Bytes := vs.flatMap fun v => 32 :: ascii (toString v)

/-- The values of an announcement; `padKey` and `padIv` say how many `=` follow the base64. -/
structure Announce where
  port : Nat
  p : Nat
  f : List Nat
  key : Bytes
  iv : Bytes
  padKey : Nat
  padIv : Nat

/-- Its four lines, each split where the search for it stops. -/
def Announce.fields (a : Announce) : List (Bytes × Bytes) :=
  [(ascii "m=audio ", ascii (toString a.port) ++ (ascii " RTP/AVP " ++ ascii (toString a.p))),
    (ascii "a=fmtp:", ascii (toString a.p) ++ spaced a.f),
    (ascii "a=rsaaeskey:", b64Nopad a.key ++ List.replicate a.padKey 61),
    (ascii "a=aesiv:", b64Nopad a.iv ++ List.replicate a.padIv 61)]

def Announce.lines (a : Announce) : List Bytes := a.fields.map fun f => f.1 ++ f.2

/-- What the four lines start with. -/
def sdpPrefixes : List Bytes := [ascii "m=audio ", ascii "a=fmtp:", ascii "a=rsaaeskey:", ascii "a=aesiv:"]

/-- Lines with their endings: CRLF where the flag is set, else LF. -/
def sdpBody (ls : List (Bytes × Bool)) : Bytes := ls.flatMap fun l => l.1 ++ if l.2 then [13, 10] else [10]

/-- The ranges `sdp_parse` accepts (sdp.c:156, :212). -/
structure FmtpFields (f : List Nat) : Prop where
  length : f.length = 11
  frameLength : 1 ≤ f.getD 0 0 ∧ f.getD 0 0 ≤ 16384
  byteFields : ∀ i ∈ [1, 3, 4, 5], f.getD i 0 ≤ 255
  bitDepth : f.getD 2 0 = 16
  channels : f.getD 6 0 = 2
  maxRun : f.getD 7 0 ≤ 65535
  maxFrameBytes : f.getD 8 0 ≤ intMax
  avgBitRate : f.getD 9 0 ≤ intMax
  sampleRate : f.getD 10 0 = 44100

/-- The cookie holds the format numbers at the offsets of sdp.c:79-96. -/
structure CookieHolds (c : Bytes) (f : List Nat) : Prop where
  length : c.length = 48
  frameLength : be32At c 24 = f.getD 0 0
  byteFields : ∀ i < 6, (c.getD (28 + i) 0).toNat = f.getD (i + 1) 0
  maxRun : be16At c 34 = f.getD 7 0
  maxFrameBytes : be32At c 36 = f.getD 8 0
  avgBitRate : be32At c 40 = f.getD 9 0
  sampleRate : be32At c 44 = f.getD 10 0

theorem FmtpFields.byte_le {f : List Nat} (h : FmtpFields f) {i : Nat} (hi : i < 6) : f.getD (i + 1) 0 ≤ 255 := by
  have hb := h.byteFields
  have h2 := h.bitDepth
  have h6 := h.channels
  simp only [List.mem_cons, List.not_mem_nil, or_false, forall_eq_or_imp, forall_eq] at hb
  interval_cases i <;> simp only [Nat.reduceAdd] <;> omega

/-- The cookie behind its two atom headers, their texts spelled out. -/
theorem buildCookie_eq (f : List Nat) :
    buildCookie f = [0, 0, 0, 12, 102, 114, 109, 97, 97, 108, 97, 99, 0, 0, 0, 36, 97, 108, 97, 99, 0, 0, 0, 0] ++
      (putBe32 (f.getD 0 0) ++ (List.range 6).map (fun i => UInt8.ofNat (f.getD (i + 1) 0)) ++
        putBe16 (f.getD 7 0) ++ putBe32 (f.getD 8 0) ++ putBe32 (f.getD 9 0) ++ putBe32 (f.getD 10 0)) := rfl

/-- **The cookie loses nothing.** -/
theorem cookieHolds_buildCookie {f : List Nat} (h : FmtpFields f) : CookieHolds (buildCookie f) f := by
  have h0 := h.frameLength
  have h7 := h.maxRun
  have h8 := h.maxFrameBytes
  have h9 := h.avgBitRate
  have h10 := h.sampleRate
  simp only [intMax] at h8 h9
  rw [buildCookie_eq]
  refine ⟨rfl, ?_, ?_, ?_, ?_, ?_, ?_⟩
  · exact be32_putBe32 (by omega)
  · intro i hi
    have hbyte : (UInt8.ofNat (f.getD (i + 1) 0)).toNat = f.getD (i + 1) 0 := by
      have := h.byte_le hi
      rw [UInt8.toNat_ofNat']
      omega
    interval_cases i <;> exact hbyte
  · change (UInt8.ofNat (f.getD 7 0 >>> 8)).toNat * 256 + (UInt8.ofNat (f.getD 7 0)).toNat = f.getD 7 0
    simp only [UInt8.toNat_ofNat', Nat.shiftRight_eq_div_pow]
    omega
  · exact be32_putBe32 (by omega)
  · exact be32_putBe32 (by omega)
  · exact be32_putBe32 (by omega)

theorem fmtpFieldsInRange_of {f : List Nat} (h : FmtpFields f) : fmtpFieldsInRange f = true := by
  have h0 := h.frameLength
  have h7 := h.maxRun
  have hbytes : ∀ i ∈ List.range 5, decide (f.getD (i + 1) 0 ≤ 255) = true := fun i hi =>
    decide_eq_true (h.byte_le (by have := List.mem_range.1 hi; omega))
  have h6 : f.getD 6 0 ≤ 255 := h.byte_le (i := 5) (by decide)
  simp only [fmtpFieldsInRange, List.all_eq_true.2 hbytes, Bool.and_eq_true, decide_eq_true_eq]
  exact ⟨⟨⟨⟨by omega, h0.2⟩, trivial⟩, h6⟩, h7⟩

/-! ## Lines -/

theorem bodyLines_line {l : Bytes} (rest : Bytes) (h : 10 ∉ l) : bodyLines (l ++ 10 :: rest) = l :: bodyLines rest := by
  induction l with
  | nil => simp [bodyLines]
  | cons x l ih =>
    simp only [List.mem_cons, not_or] at h
    rw [List.cons_append, bodyLines, if_neg fun he => h.1 he.symm, ih h.2]

/-- The lines of a body are those it was made of, a CR left at the end of those that end in CRLF. -/
theorem bodyLines_sdpBody {ls : List (Bytes × Bool)} (h : ∀ l ∈ ls.map Prod.fst, 10 ∉ l) :
    bodyLines (sdpBody ls) = ls.map fun l => l.1 ++ if l.2 then [13] else [] := by
  induction ls with
  | nil => rfl
  | cons l ls ih =>
    simp only [List.map_cons, List.mem_cons, forall_eq_or_imp] at h
    have hsplit : sdpBody (l :: ls) = (l.1 ++ if l.2 then [13] else []) ++ 10 :: sdpBody ls := by
      simp only [sdpBody, List.flatMap_cons]
      split <;> simp
    have hline : 10 ∉ l.1 ++ if l.2 then [13] else [] := by
      simp only [List.mem_append, not_or]
      exact ⟨h.1, by split <;> decide⟩
    rw [hsplit, bodyLines_line _ hline, ih h.2, List.map_cons]

theorem stripCr_isPrefix_self (l : Bytes) : stripCr l <+: l := by
  unfold stripCr
  split
  · exact List.dropLast_prefix l
  · exact List.prefix_rfl

theorem stripCr_concat (l : Bytes) : stripCr (l ++ [13]) = l := by simp [stripCr]

/-- The line under an ending, seen without it. -/
theorem stripCr_line {l : Bytes} (e : Bool) (h : l.getLast? ≠ some 13) : stripCr (l ++ if e then [13] else []) = l := by
  cases e with
  | true => exact stripCr_concat l
  | false => simp [stripCr, h]

theorem find?_unique {α : Type*} {p : α → Bool} {L : List α} {x : α} (hx : x ∈ L) (hp : p x = true)
    (hu : ∀ y ∈ L, p y = true → y = x) : L.find? p = some x := by
  cases hf : L.find? p with
  | none => exact absurd hp (by simpa using List.find?_eq_none.1 hf x hx)
  | some y => rw [hu y (List.mem_of_find?_eq_some hf) (List.find?_some hf)]

/-- **The scan.** The one line that starts with the text looked for is found, wherever it stands. -/
theorem findLine_sdpBody {pre x : Bytes} {ls : List (Bytes × Bool)} (hlf : ∀ l ∈ ls.map Prod.fst, 10 ∉ l)
    (hx : x ∈ ls.map Prod.fst) (hcr : x.getLast? ≠ some 13) (hpre : pre <+: x)
    (huniq : ∀ y ∈ ls.map Prod.fst, pre <+: y → y = x) : findLine pre (sdpBody ls) = some (x.drop pre.length) := by
  have hfind : ((bodyLines (sdpBody ls)).map stripCr).find? pre.isPrefixOf = some x := by
    rw [bodyLines_sdpBody hlf, List.map_map]
    obtain ⟨l, hl, rfl⟩ := List.mem_map.1 hx
    refine find?_unique (List.mem_map.2 ⟨l, hl, stripCr_line l.2 hcr⟩) (List.isPrefixOf_iff_prefix.2 hpre) ?_
    intro y hy hyp
    obtain ⟨⟨z, e'⟩, hz, rfl⟩ := List.mem_map.1 hy
    have hyp := List.isPrefixOf_iff_prefix.1 hyp
    simp only [Function.comp_apply] at hyp ⊢
    -- with its ending taken off, the line starts like the line itself
    have hz' : pre <+: z := by
      cases e' with
      | true => rwa [if_pos rfl, stripCr_concat] at hyp
      | false =>
        rw [if_neg (by decide), List.append_nil] at hyp
        exact hyp.trans (stripCr_isPrefix_self z)
    obtain rfl := huniq z (List.mem_map.2 ⟨_, hz, rfl⟩) hz'
    exact stripCr_line e' hcr
  rw [findLine, hfind, Option.map_some]

/-! ## Numbers -/

theorem decimal_toString (v : Nat) :
    ascii (toString v) ≠ [] ∧ (ascii (toString v)).all isDigit = true ∧ decimalValue (ascii (toString v)) = v := by
  have hdec := decimal_ascii_toString v
  simp only [decimal] at hdec
  split at hdec
  · next hne => exact ⟨hne.1, hne.2, Option.some.inj hdec⟩
  · cases hdec

/-- A printed number is read up to its end. -/
theorem parseUintBounded_toString {longMax v : Nat} (rest : Bytes) (hlong : intMax ≤ longMax) (hv : v ≤ intMax)
    (hrest : ∀ c ∈ rest.head?, isDigit c = false) :
    parseUintBounded longMax (ascii (toString v) ++ rest) = some (v, rest) := by
  obtain ⟨hne, hall, hval⟩ := decimal_toString v
  exact (parseUintBounded_eq_some_iff hlong).2 ⟨_, rfl, hne, hall, hrest, hval.symm, hv⟩

/-- A number as the sender prints it. -/
def printedRun (gap v : Nat) : UintRun := ⟨gap, ascii (toString v), (decimal_toString v).1, (decimal_toString v).2.1⟩

/-- A list of printed numbers is read back. -/
theorem parseUintList_printed {longMax p : Nat} {f : List Nat} (hlong : intMax ≤ longMax) (hp : p ≤ intMax)
    (hf : ∀ v ∈ f, v ≤ intMax) :
    parseUintList longMax (f.length + 1) (ascii (toString p) ++ spaced f) = some (p :: f) := by
  have hvalue : ∀ gap v, decimalValue (printedRun gap v).digits = v := fun _ v => (decimal_toString v).2.2
  refine (parseUintList_eq_some_iff hlong _ _ _).2 ⟨⟨printedRun 0 p :: f.map (printedRun 1), [], ?_, ?_, ?_, ?_, ?_⟩, ?_⟩
  · simp
  · simp [UintRun.text, printedRun, spaced, List.flatMap_map]
  · simp [printedRun]
  · simp
  · simp [hvalue, Function.comp_def]
  · simpa using ⟨hp, hf⟩

/-! ## The four lines among each other -/

/-- A text within one line. -/
def LineText (l : Bytes) : Prop := ∀ c ∈ l, c ≠ 10 ∧ c ≠ 13

-- by the list, not by all 256 bytes
instance (l : Bytes) : Decidable (LineText l) := List.decidableBAll (fun c => c ≠ 10 ∧ c ≠ 13) l

theorem LineText.append {a b : Bytes} (ha : LineText a) (hb : LineText b) : LineText (a ++ b) := by
  intro c hc
  rcases List.mem_append.1 hc with hc | hc
  · exact ha c hc
  · exact hb c hc

theorem lineText_toString (n : Nat) : LineText (ascii (toString n)) := by
  intro c hc
  have hd := isDigit_ascii_toString hc
  constructor <;> rintro rfl <;> exact absurd hd (by decide)

theorem lineText_spaced (vs : List Nat) : LineText (spaced vs) := by
  induction vs with
  | nil => simp [spaced, LineText]
  | cons v vs ih => exact LineText.append (a := [32]) (by decide) ((lineText_toString v).append ih)

theorem lineText_b64 (x : Bytes) (k : Nat) : LineText (b64Nopad x ++ List.replicate k 61) := by
  refine LineText.append ?_ ?_
  · intro c hc
    rw [b64Nopad_eq] at hc
    obtain ⟨v, hv, rfl⟩ := List.mem_map.1 hc
    have hblank := b64Blank_b64Char (sextets_lt x v hv)
    constructor <;> intro he <;> rw [he] at hblank <;> exact absurd hblank (by decide)
  · intro c hc
    rw [List.eq_of_mem_replicate hc]
    decide

theorem LineText.no_lf {l : Bytes} (h : LineText l) : 10 ∉ l := fun hm => (h 10 hm).1 rfl

theorem LineText.no_cr {l : Bytes} (h : LineText l) : l.getLast? ≠ some 13 := fun hl =>
  (h 13 (List.mem_of_getLast? hl)).2 rfl

theorem Announce.fields_fst (a : Announce) : a.fields.map Prod.fst = sdpPrefixes := rfl

theorem Announce.lineText_fields (a : Announce) : ∀ f ∈ a.fields, LineText (f.1 ++ f.2) := by
  simp only [Announce.fields, List.mem_cons, List.not_mem_nil, or_false, forall_eq_or_imp, forall_eq]
  refine ⟨LineText.append (by decide) ?_, LineText.append (by decide) ?_, LineText.append (by decide) ?_,
    LineText.append (by decide) ?_⟩
  · exact (lineText_toString _).append (LineText.append (by decide) (lineText_toString _))
  · exact (lineText_toString _).append (lineText_spaced _)
  · exact lineText_b64 _ _
  · exact lineText_b64 _ _

/-- Two of the four that start alike are the same. -/
theorem Announce.fields_unique {a : Announce} {f g : Bytes × Bytes} (hf : f ∈ a.fields) (hg : g ∈ a.fields)
    (h : f.1 <+: g.1 ∨ g.1 <+: f.1) : f = g := by
  have hpre : sdpPrefixes.Pairwise fun x y => ¬ (x <+: y ∨ y <+: x) := by decide
  rw [← a.fields_fst, List.pairwise_map] at hpre
  have hsymm : Std.Symm fun f g : Bytes × Bytes => ¬ (f.1 <+: g.1 ∨ g.1 <+: f.1) :=
    ⟨fun f g hfg hgf => hfg hgf.symm⟩
  by_contra hne
  exact hpre.forall hf hg hne h

/-- The body of an announcement: its four lines in any order, among others that do not start like them. -/
structure Announce.Body (a : Announce) (others : List Bytes) (ls : List (Bytes × Bool)) : Prop where
  perm : (ls.map Prod.fst).Perm (a.lines ++ others)
  oneLine : ∀ l ∈ others, 10 ∉ l
  other : ∀ l ∈ others, ∀ pre ∈ sdpPrefixes, ¬ pre <+: l

/-- **Each block of the parse finds its own line.** -/
theorem Announce.Body.findLine {a : Announce} {others : List Bytes} {ls : List (Bytes × Bool)} (h : a.Body others ls)
    {f : Bytes × Bytes} (hf : f ∈ a.fields) : findLine f.1 (sdpBody ls) = some f.2 := by
  have hmem : ∀ l, l ∈ ls.map Prod.fst ↔ (∃ g ∈ a.fields, g.1 ++ g.2 = l) ∨ l ∈ others := by
    intro l
    rw [h.perm.mem_iff, List.mem_append, Announce.lines, List.mem_map]
  have hlf : ∀ l ∈ ls.map Prod.fst, 10 ∉ l := by
    intro l hl
    rcases (hmem l).1 hl with ⟨g, hg, rfl⟩ | hl
    · exact (a.lineText_fields g hg).no_lf
    · exact h.oneLine l hl
  have hfind := findLine_sdpBody hlf ((hmem (f.1 ++ f.2)).2 (.inl ⟨f, hf, rfl⟩)) (a.lineText_fields f hf).no_cr
    (List.prefix_append f.1 f.2) fun y hy hpre => by
      rcases (hmem y).1 hy with ⟨g, hg, rfl⟩ | hy
      · rw [Announce.fields_unique hf hg (List.prefix_or_prefix_of_prefix hpre (List.prefix_append g.1 g.2))]
      · exact absurd hpre (h.other y hy f.1 (a.fields_fst ▸ List.mem_map.2 ⟨f, hf, rfl⟩))
  rw [hfind, List.drop_left]

/-! ## The four blocks -/

theorem sdpMedia_of {longMax port p : Nat} {body : Bytes} (out : RaopSdp) (hlong : intMax ≤ longMax) (hp : p ≤ intMax)
    (h : findLine (ascii "m=audio ") body = some (ascii (toString port) ++ (ascii " RTP/AVP " ++ ascii (toString p)))) :
    sdpMedia longMax body out = .ok { out with payloadType := p } := by
  -- the profile's first letter occurs neither in the start of the line nor in the port
  have hbefore : 82 ∉ ascii "m=audio " ++ (ascii (toString port) ++ [32]) := by
    simp only [List.mem_append, not_or]
    exact ⟨by decide, fun hm => absurd (isDigit_ascii_toString hm) (by decide), by decide⟩
  have hafter := afterStr_append (ascii "TP/AVP ") (ascii (toString p)) hbefore
  have htext : ascii "m=audio " ++ (ascii (toString port) ++ [32]) ++ (82 :: ascii "TP/AVP ") ++ ascii (toString p) =
      ascii "m=audio " ++ (ascii (toString port) ++ (ascii " RTP/AVP " ++ ascii (toString p))) := by
    simp only [List.append_assoc]
    rfl
  have havp : (82 :: ascii "TP/AVP ") = ascii "RTP/AVP " := rfl
  rw [htext, havp] at hafter
  have hnum := parseUintBounded_toString [] hlong hp (by simp)
  rw [List.append_nil] at hnum
  simp only [sdpMedia, h, Option.bind_some, hafter, hnum]

theorem FmtpFields.le_intMax {f : List Nat} (h : FmtpFields f) : ∀ v ∈ f, v ≤ intMax := by
  intro v hv
  obtain ⟨i, hi, rfl⟩ := List.mem_iff_getElem.1 hv
  have hget : f[i] = f.getD i 0 := by simp [hi]
  have hi' := hi
  rw [h.length] at hi'
  rw [hget]
  by_cases hsmall : 1 ≤ i ∧ i ≤ 6
  · have hb := h.byte_le (i := i - 1) (by omega)
    rw [Nat.sub_add_cancel hsmall.1] at hb
    exact hb.trans (by decide)
  · have h0 := h.frameLength
    have h7 := h.maxRun
    have h8 := h.maxFrameBytes
    have h9 := h.avgBitRate
    have h10 := h.sampleRate
    simp only [intMax] at h8 h9 ⊢
    interval_cases i <;> omega

theorem sdpFmtp_of {longMax p : Nat} {f : List Nat} {body : Bytes} {out : RaopSdp} (hlong : intMax ≤ longMax)
    (hp : p ≤ intMax) (hf : FmtpFields f) (hout : out.payloadType = p)
    (h : findLine (ascii "a=fmtp:") body = some (ascii (toString p) ++ spaced f)) :
    sdpFmtp longMax body out = .ok { out with
      frameLength := f.getD 0 0, bitDepth := f.getD 2 0, channels := f.getD 6 0, sampleRate := f.getD 10 0,
      cookie := buildCookie f, cookieLen := 48 } := by
  have hlist : parseUintList longMax 12 (ascii (toString p) ++ spaced f) = some (p :: f) := by
    have hread := parseUintList_printed hlong hp hf.le_intMax
    rwa [hf.length] at hread
  have hattr : findAttr (ascii "fmtp") body = some (ascii (toString p) ++ spaced f) := h
  simp only [sdpFmtp, hattr, hlist, List.getD_cons_zero, hout, List.tail_cons, fmtpFieldsInRange_of hf, hf.channels,
    hf.sampleRate, hf.bitDepth, ne_eq, not_true_eq_false, if_false, Bool.not_true, Bool.false_eq_true, or_false]

theorem sdpKey_of {key : Bytes} {k : Nat} {body : Bytes} (out : RaopSdp) (hkey : key.length = 128 ∨ key.length = 256)
    (h : findLine (ascii "a=rsaaeskey:") body = some (b64Nopad key ++ List.replicate k 61)) :
    sdpKey body out = .ok { out with rsaaeskey := key, rsaaeskeyLen := key.length } := by
  have hdec := b64Decode_padded key k 256 (by omega)
  have hbound := (upperBound_lt_iff hdec 256).1
  have hattr : findAttr (ascii "rsaaeskey") body = some (b64Nopad key ++ List.replicate k 61) := h
  simp only [sdpKey, hattr, hdec]
  rw [if_neg (by omega), if_neg (by decide), if_neg (by omega)]

theorem sdpIv_of {iv : Bytes} {k : Nat} {body : Bytes} (out : RaopSdp) (hiv : iv.length = 16)
    (h : findLine (ascii "a=aesiv:") body = some (b64Nopad iv ++ List.replicate k 61)) :
    sdpIv body out = .ok { out with aesiv := iv } := by
  have hdec := b64Decode_padded iv k 32 (by omega)
  have hbound := (upperBound_lt_iff hdec 32).1
  have hattr : findAttr (ascii "aesiv") body = some (b64Nopad iv ++ List.replicate k 61) := h
  simp only [sdpIv, hattr, hdec]
  rw [if_neg (by omega), if_neg (by decide), if_neg (by omega)]

/-- **The round trip.** Whatever payload type, format numbers in range, key and IV an announcement has, its four
lines in any order, with either ending, with or without base64 padding and among any other lines are accepted, for
every `long` at least as wide as `int`; the record holds the values and the cookie all eleven format numbers. -/
theorem sdp_round_trip (longMax : Nat) (a : Announce) (others : List Bytes) (ls : List (Bytes × Bool))
    (hlong : intMax ≤ longMax) (hp : a.p ≤ intMax) (hf : FmtpFields a.f)
    (hkey : a.key.length = 128 ∨ a.key.length = 256) (hiv : a.iv.length = 16) (hbody : a.Body others ls) :
    ∃ cookie, CookieHolds cookie a.f ∧
      sdpParse longMax (sdpBody ls) = .ok {
        payloadType := a.p, frameLength := a.f.getD 0 0, bitDepth := a.f.getD 2 0, channels := a.f.getD 6 0,
        sampleRate := a.f.getD 10 0, rsaaeskey := a.key, rsaaeskeyLen := a.key.length, aesiv := a.iv,
        cookie := cookie, cookieLen := 48 } := by
  refine ⟨buildCookie a.f, cookieHolds_buildCookie hf, ?_⟩
  have hfind : ∀ f ∈ a.fields, ShairKindle.findLine f.1 (sdpBody ls) = some f.2 := fun f hf => hbody.findLine hf
  simp only [Announce.fields, List.mem_cons, List.not_mem_nil, or_false, forall_eq_or_imp, forall_eq] at hfind
  obtain ⟨hm, hfm, hk, hi⟩ := hfind
  simp only [sdpParse, bind, Except.bind, sdpMedia_of RaopSdp.zero hlong hp hm]
  rw [sdpFmtp_of hlong hp hf rfl hfm]
  dsimp only
  rw [sdpKey_of _ hkey hk]
  exact sdpIv_of _ hiv hi

/-- An announcement of the format every sender uses. -/
def sampleAnnounce : Announce :=
  ⟨0, 96, [352, 0, 16, 40, 10, 14, 2, 255, 0, 0, 44100], List.replicate 128 7, List.replicate 16 9, 1, 2⟩

/-- The lines backwards, after a line that is none of them. -/
theorem sdp_round_trip_backwards :
    ∃ cookie, CookieHolds cookie [352, 0, 16, 40, 10, 14, 2, 255, 0, 0, 44100] ∧
      sdpParse intMax (sdpBody ((ascii "v=0", true) :: sampleAnnounce.lines.reverse.map fun l => (l, false))) = .ok {
        payloadType := 96, frameLength := 352, bitDepth := 16, channels := 2, sampleRate := 44100,
        rsaaeskey := List.replicate 128 7, rsaaeskeyLen := 128, aesiv := List.replicate 16 9,
        cookie := cookie, cookieLen := 48 } := by
  have hperm : (((ascii "v=0", true) :: sampleAnnounce.lines.reverse.map fun l => (l, false)).map Prod.fst).Perm
      (sampleAnnounce.lines ++ [ascii "v=0"]) := by
    rw [List.map_cons, List.map_map, Function.comp_def, List.map_id']
    exact ((List.reverse_perm _).cons _).trans (List.perm_append_singleton _ _).symm
  exact sdp_round_trip intMax sampleAnnounce [ascii "v=0"] _ le_rfl (by decide)
    ⟨rfl, by decide, by decide, rfl, rfl, by decide, by decide, by decide, rfl⟩ (.inl rfl) rfl
    ⟨hperm, by decide, by decide⟩

end ShairKindle
