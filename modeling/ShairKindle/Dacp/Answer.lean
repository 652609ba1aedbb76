import ShairKindle.Dacp.Request
import ShairKindle.Dacp.Resolve

/-!
# Whose answer it is (src/dacp_resolve.c)

Two questions about the same match. Does the parser find every answer it should? On well-formed responses
it does: it returns the port of the first service record with the owner's name
(`dacpSrvParseResponse_wellFormed`). Does it take only answers it should? Not on every packet. The
comparison is between dotted texts, and the single label `a.b` has the text of the two labels `a` and `b`;
a NUL inside a label ends the text early. `dacpSrvParseResponse_exact_iff` says which packets are read
right: those where the record taken shares its port with one whose labels are clean.
-/

namespace ShairKindle

open Bytes Dns

/-! ## What the parser returns -/

/-- The checks before the two loops, and the loops. -/
theorem dacpSrvParseResponse_eq {pkt owner : Bytes} {dnsid off : Nat} (hlen : 12 ≤ pkt.length)
    (hid : dnsid = 0 ∨ be16At pkt 0 = dnsid) (hqr : pkt.getD 2 0 &&& 0x80 ≠ 0) (hfit : (cstr owner).length < dnsMaxName)
    (hskip : skipQuestions pkt (be16At pkt 4) 12 = some off) :
    dacpSrvParseResponse pkt owner dnsid = scanRecords pkt ((cstr owner).map toLower) (recordCount pkt) off := by
  have h1 : ¬ pkt.length < 12 := by omega
  have h2 : ¬ (dnsid ≠ 0 ∧ be16At pkt 0 ≠ dnsid) := by tauto
  have h3 : ¬ dnsMaxName ≤ (cstr owner).length := by omega
  simp only [dacpSrvParseResponse, h1, h2, hqr, h3, if_false, hskip, recordCount]

/-- The record the packet's port comes from: the first that qualifies, behind questions and records the
parser can read. -/
structure Taken (pkt owner : Bytes) (dnsid : Nat) (r : Rr) : Prop where
  id : dnsid = 0 ∨ be16At pkt 0 = dnsid
  fits : (cstr owner).length < dnsMaxName
  first : ∃ qs before, Response pkt qs (before ++ [r]) ∧ (∀ q ∈ qs, Readable q) ∧ Found (cstr owner) before r

/-- **The parser returns the port of the record taken**, and fails only if there is none. -/
theorem dacpSrvParseResponse_eq_some_iff {pkt owner : Bytes} {dnsid port : Nat} :
    dacpSrvParseResponse pkt owner dnsid = some port ↔ ∃ r, Taken pkt owner dnsid r ∧ r.srvPort = some port := by
  constructor
  · intro h
    have hchecks : 12 ≤ pkt.length ∧ (dnsid = 0 ∨ be16At pkt 0 = dnsid) ∧ pkt.getD 2 0 &&& 0x80 ≠ 0 ∧
        (cstr owner).length < dnsMaxName := by
      unfold dacpSrvParseResponse at h
      split_ifs at h with h1 h2 h3 h4
      exact ⟨by omega, by tauto, h3, by omega⟩
    obtain ⟨hlen, hid, hqr, hfit⟩ := hchecks
    cases hskip : skipQuestions pkt (be16At pkt 4) 12 with
    | none =>
      unfold dacpSrvParseResponse at h
      simp [hskip] at h
    | some off =>
      rw [dacpSrvParseResponse_eq hlen hid hqr hfit hskip, scanRecords_eq_some_iff] at h
      obtain ⟨before, r, e, hrs, hcount, hf, hport⟩ := h
      obtain ⟨qs, hqs, hqlen, hread⟩ := skipQuestions_eq_some_iff.1 hskip
      exact ⟨r, ⟨hid, hfit, qs, before, ⟨hlen, hqr, hqlen, by simpa using hcount, off, e, hqs, hrs⟩, hread, hf⟩, hport⟩
  · rintro ⟨r, ⟨hid, hfit, qs, before, hresp, hread, hf⟩, hport⟩
    obtain ⟨off, e, hqs, hrs⟩ := hresp.walk
    have hskip := skipQuestions_eq_some_iff.2 ⟨qs, hqs, hresp.questions, hread⟩
    have hcount := hresp.records
    rw [List.length_append, List.length_singleton] at hcount
    rw [dacpSrvParseResponse_eq hresp.header hid hresp.qr hfit hskip, scanRecords_eq_some_iff]
    exact ⟨before, r, e, hrs, hcount, hf, hport⟩

/-! ## No answer is missed -/

/-- A name as it is asked for. -/
structure OwnerName where
  labels : List Bytes
  label_length : ∀ l ∈ labels, 1 ≤ l.length ∧ l.length ≤ 63
  clean : Clean labels
  length_le : (dotted labels).length ≤ 253

def OwnerName.text (o : OwnerName) : Bytes := dotted o.labels

theorem OwnerName.nul_notMem_text (o : OwnerName) : (0 : UInt8) ∉ o.text := nul_notMem_dotted o.clean

theorem OwnerName.cstr_text (o : OwnerName) : cstr o.text = o.text := cstr_of_notMem o.nul_notMem_text

theorem OwnerName.dotLabels_text (o : OwnerName) : dotLabels o.text = o.labels :=
  dotLabels_dotted (fun l hl => List.length_pos_iff.1 (o.label_length l hl).1) o.clean

/-- A name of a well-formed message. -/
structure WellFormedName (nm : Name) : Prop where
  clean : Clean nm.labels
  length_le : (dotted nm.labels).length ≤ 253
  hops_le : nm.hops ≤ 8

theorem WellFormedName.readable {nm : Name} (h : WellFormedName nm) : Readable nm :=
  ⟨h.hops_le, lt_of_le_of_lt h.length_le (by decide)⟩

/-- A response with the questions `qs` and, over its three sections, the records `rs`. -/
structure WellFormedResponse (pkt : Bytes) (qs : List Name) (rs : List Rr) : Prop extends Response pkt qs rs where
  complete : rs.length = recordCount pkt
  question_names : ∀ q ∈ qs, WellFormedName q
  record_names : ∀ r ∈ rs, WellFormedName r.owner

/-- The answer looked for: a live service record of the owner with a port. -/
def IsAnswer (o : OwnerName) (r : Rr) : Prop :=
  r.type = dnsTypeSrv ∧ SameName r.owner.labels o.labels ∧ r.ttl ≠ 0 ∧ 6 ≤ r.rdata.length ∧ be16At r.rdata 4 ≠ 0

instance (o : OwnerName) (r : Rr) : Decidable (IsAnswer o r) := by
  unfold IsAnswer
  infer_instance

theorem qualifies_iff_isAnswer {o : OwnerName} {r : Rr} (hne : ∀ l ∈ r.owner.labels, l ≠ [])
    (hr : WellFormedName r.owner) : Qualifies o.text r ↔ IsAnswer o r := by
  have hname := spells_iff hne hr.clean o.nul_notMem_text
  rw [o.dotLabels_text] at hname
  unfold Qualifies IsAnswer
  rw [hname]
  tauto

/-- **No valid answer is missed.** On a well-formed response to the question, or with the id not asked for, the
parser returns the port of the first answer in section order, and fails if there is none. -/
theorem dacpSrvParseResponse_wellFormed (o : OwnerName) {pkt : Bytes} {qs : List Name} {rs : List Rr} {dnsid : Nat}
    (h : WellFormedResponse pkt qs rs) (hid : dnsid = 0 ∨ be16At pkt 0 = dnsid) :
    dacpSrvParseResponse pkt o.text dnsid =
      (rs.find? fun r => decide (IsAnswer o r)).map fun r => be16At r.rdata 4 := by
  obtain ⟨off, e, hqs, hrs⟩ := h.walk
  have hskip := skipQuestions_eq_some_iff.2
    ⟨qs, hqs, h.questions, fun q hq => (h.question_names q hq).readable⟩
  have hfit : (cstr o.text).length < dnsMaxName := by
    rw [o.cstr_text]
    exact lt_of_le_of_lt o.length_le (by decide)
  rw [dacpSrvParseResponse_eq h.header hid h.qr hfit hskip, ← h.complete, o.cstr_text,
    scanRecords_records hrs fun r hr => (h.record_names r hr).readable]
  -- on these records the text comparison is the comparison of names
  have hfind : rs.find? (fun r => decide (Qualifies o.text r)) = rs.find? fun r => decide (IsAnswer o r) := by
    refine List.find?_congr fun r hr => ?_
    rw [decide_eq_decide]
    exact qualifies_iff_isAnswer (hrs.ne_nil r hr) (h.record_names r hr)
  rw [hfind]
  cases hf : rs.find? fun r => decide (IsAnswer o r) with
  | none => rfl
  | some r =>
    have hans : IsAnswer o r := by simpa using List.find?_some hf
    exact if_pos hans.2.2.2.1

/-- The owner asked for by the device with the ID 56B2A4D4. -/
def sampleOwner : OwnerName where
  labels := [ascii "iTunes_Ctrl_56B2A4D4", ascii "_dacp", ascii "_tcp", ascii "local"]
  label_length := by decide
  clean := by decide
  length_le := by decide

/-- Its labels on the wire. -/
def sampleOwnerWire : Bytes :=
  20 :: ascii "iTunes_Ctrl_56B2A4D4" ++ 5 :: ascii "_dacp" ++ 4 :: ascii "_tcp" ++ 5 :: ascii "local" ++ [0]

/-- One question for the owner and, in the additional section, its service record with a pointer for a name. -/
def compressedPkt : Bytes :=
  [0xAB, 0xCD, 0x84, 0, 0, 1, 0, 0, 0, 0, 0, 1] ++ sampleOwnerWire ++ [0, 33, 0x80, 1] ++
    [0xC0, 12, 0, 33, 0, 1, 0, 0, 0, 120, 0, 7, 0, 0, 0, 0, 0xC7, 0x39, 0]

theorem nameAt_compressedPkt : NameAt compressedPkt 12 sampleOwner.labels 0 51 := by
  have hpkt : compressedPkt = compressedPkt.take 12 ++ (wire sampleOwner.labels ++ 0 :: compressedPkt.drop 51) := by
    decide
  have hname := nameAt_wire sampleOwner.label_length (compressedPkt.take 12) (compressedPkt.drop 51)
  rw [← hpkt] at hname
  exact hname

theorem recordAt_compressedPkt :
    RecordAt compressedPkt 55 ⟨⟨sampleOwner.labels, 1⟩, 33, 120, [0, 0, 0, 0, 0xC7, 0x39, 0]⟩ 74 := by
  have htag : compressedPkt[55]? = some 0xC0 := by decide
  have hlo : compressedPkt[56]? = some 12 := by decide
  have hname : NameAt compressedPkt 55 sampleOwner.labels 1 57 :=
    .pointer htag (by decide) hlo (by decide) nameAt_compressedPkt
  exact @RecordAt.mk compressedPkt 55 57 ⟨sampleOwner.labels, 1⟩ hname (by decide)

theorem dacpSrvParseResponse_compressed : dacpSrvParseResponse compressedPkt sampleOwner.text 0xABCD = some 51001 := by
  have hname : ∀ k ≤ 8, WellFormedName ⟨sampleOwner.labels, k⟩ := fun k hk =>
    ⟨sampleOwner.clean, sampleOwner.length_le, hk⟩
  have hresp : WellFormedResponse compressedPkt [⟨sampleOwner.labels, 0⟩]
      [⟨⟨sampleOwner.labels, 1⟩, 33, 120, [0, 0, 0, 0, 0xC7, 0x39, 0]⟩] :=
    { header := by decide
      qr := by decide
      questions := by decide
      records := by decide
      walk := ⟨55, 74, .cons nameAt_compressedPkt (by decide) .nil, .cons recordAt_compressedPkt .nil⟩
      complete := by decide
      question_names := by simpa using hname 0 (by decide)
      record_names := by simpa using hname 1 (by decide) }
  rw [dacpSrvParseResponse_wellFormed sampleOwner hresp (.inr (by decide))]
  decide

/-! ## Whose answer is taken -/

/-- The packet holds a live service record with the port and exactly the owner's labels. -/
def AnswersExactly (pkt owner : Bytes) (port : Nat) : Prop :=
  ∃ r, HasRecord pkt r ∧ r.type = dnsTypeSrv ∧ r.ttl ≠ 0 ∧ r.srvPort = some port ∧
    SameName r.owner.labels (dotLabels (cstr owner))

/-- Some live service record with the port has the owner's text and neither a dot nor a NUL in a label. -/
def VouchedFor (pkt owner : Bytes) (port : Option Nat) : Prop :=
  ∃ r, HasRecord pkt r ∧ r.type = dnsTypeSrv ∧ r.ttl ≠ 0 ∧ r.srvPort = port ∧
    Spells r.owner.labels (cstr owner) ∧ Clean r.owner.labels

theorem HasRecord.ne_nil {pkt : Bytes} {r : Rr} (h : HasRecord pkt r) : ∀ l ∈ r.owner.labels, l ≠ [] := by
  obtain ⟨qs, before, hresp⟩ := h
  obtain ⟨off, e, -, hrs⟩ := hresp.walk
  exact hrs.ne_nil r (by simp)

theorem answersExactly_iff {pkt owner : Bytes} {port : Nat} :
    AnswersExactly pkt owner port ↔ VouchedFor pkt owner (some port) := by
  have hs := nul_notMem_cstr owner
  constructor
  · rintro ⟨r, hr, htype, httl, hport, hname⟩
    have hclean := clean_of_sameName hs hname
    exact ⟨r, hr, htype, httl, hport, (spells_iff (HasRecord.ne_nil hr) hclean hs).2 hname, hclean⟩
  · rintro ⟨r, hr, htype, httl, hport, hspells, hclean⟩
    exact ⟨r, hr, htype, httl, hport, (spells_iff (HasRecord.ne_nil hr) hclean hs).1 hspells⟩

theorem Taken.hasRecord {pkt owner : Bytes} {dnsid : Nat} {r : Rr} (h : Taken pkt owner dnsid r) : HasRecord pkt r := by
  obtain ⟨qs, before, hresp, -, -⟩ := h.first
  exact ⟨qs, before, hresp⟩

theorem Taken.qualifies {pkt owner : Bytes} {dnsid : Nat} {r : Rr} (h : Taken pkt owner dnsid r) :
    Qualifies (cstr owner) r := by
  obtain ⟨qs, before, -, -, hf⟩ := h.first
  exact hf.taken

/-- A record taken with clean labels vouches for itself. -/
theorem Taken.vouchedFor {pkt owner : Bytes} {dnsid : Nat} {r : Rr} (h : Taken pkt owner dnsid r)
    (hclean : Clean r.owner.labels) : VouchedFor pkt owner r.srvPort :=
  have hq := h.qualifies
  ⟨r, h.hasRecord, hq.1.1, hq.1.2.2.1, rfl, hq.1.2.2.2, hclean⟩

/-- **Exact owner.** The port comes from the exact owner on those packets, and only those, where the first record
that qualifies by its text shares its port with a record of that text and clean labels. -/
theorem dacpSrvParseResponse_exact_iff (pkt owner : Bytes) (dnsid : Nat) :
    (∀ port, dacpSrvParseResponse pkt owner dnsid = some port → AnswersExactly pkt owner port) ↔
      ∀ r, Taken pkt owner dnsid r → VouchedFor pkt owner r.srvPort := by
  constructor
  · intro h r hr
    have hport := hr.qualifies.srvPort
    rw [hport, ← answersExactly_iff]
    exact h _ (dacpSrvParseResponse_eq_some_iff.2 ⟨r, hr, hport⟩)
  · intro h port hp
    obtain ⟨r, hr, hport⟩ := dacpSrvParseResponse_eq_some_iff.1 hp
    rw [answersExactly_iff, ← hport]
    exact h r hr

/-- A response whose one record has the single label `iTunes_Ctrl_56B2A4D4._dacp._tcp.local`. -/
def oneLabelPkt : Bytes :=
  [0, 0, 0x84, 0, 0, 0, 0, 1, 0, 0, 0, 0] ++ 37 :: ascii "iTunes_Ctrl_56B2A4D4._dacp._tcp.local" ++
    [0, 0, 33, 0, 1, 0, 0, 0, 120, 0, 7, 0, 0, 0, 0, 0xC0, 0xDC, 0]

theorem nameAt_oneLabelPkt : NameAt oneLabelPkt 12 [ascii "iTunes_Ctrl_56B2A4D4._dacp._tcp.local"] 0 51 :=
  .label (b := 37) (by decide) (by decide) (by decide) (by decide) <| .root (by decide)

/-- The packet holds no other name. -/
theorem hasRecord_oneLabelPkt {r : Rr} (h : HasRecord oneLabelPkt r) :
    r.owner.labels = [ascii "iTunes_Ctrl_56B2A4D4._dacp._tcp.local"] := by
  obtain ⟨qs, before, hresp⟩ := h
  have hq : qs = [] := List.length_eq_zero_iff.1 (hresp.questions.trans (by decide))
  have hb : before = [] := by
    have hcount := hresp.records
    rw [List.length_append, List.length_singleton, show recordCount oneLabelPkt = 1 by decide] at hcount
    exact List.length_eq_zero_iff.1 (by omega)
  subst hq hb
  obtain ⟨off, e, hqs, hrs⟩ := hresp.walk
  cases hqs
  cases hrs with
  | cons head _ =>
    cases head with
    | mk name _ => exact (name.unique nameAt_oneLabelPkt).1

/-- The owner the device asks for is four labels; the answer of one label is taken. -/
theorem oneLabel_taken :
    dacpSrvParseResponse oneLabelPkt (srvOwner (ascii "56B2A4D4")) 0 = some 49372 ∧
      ¬ AnswersExactly oneLabelPkt (srvOwner (ascii "56B2A4D4")) 49372 := by
  constructor
  · decide
  · rintro ⟨r, hr, -, -, -, hname⟩
    rw [SameName, hasRecord_oneLabelPkt hr] at hname
    exact absurd hname (by decide)

end ShairKindle
