import ShairKindle.Lib.Dns

/-!
# The mDNS answer (src/dacp_resolve.c)

The resolver takes the first service record of the packet that bears the sender's name. Names are read
into a dotted, lower-cased C string of at most 255 bytes, over at most eight compression pointers, and
compared by `strcmp`. The transaction id is not checked on the device path (dacp_resolve.c:210 passes 0),
so the name is all that ties an answer to the question.

| here | there |
| --- | --- |
| `readName`             | `read_name` (dacp_resolve.c:55) |
| `skipQuestions`        | the loop over the question section (dacp_resolve.c:121) |
| `scanRecords`          | the loop over the three record sections (dacp_resolve.c:128) |
| `dacpSrvParseResponse` | `dacp_srv_parse_response` (dacp_resolve.c:96) |

`readName` is the relation `NameAt` cut off at its two bounds (`readName_eq_some_iff`), and the two loops
are walks over questions and records laid out one behind the other (`skipQuestions_eq_some_iff`,
`scanRecords_eq_some_iff`).
-/

namespace ShairKindle

open Bytes Dns

/-! ## The model -/

def dnsTypeSrv : Nat := 33

def dnsMaxName : Nat := 256

/-- The text after one more label: a dot before every label but the first. -/
def addLabel (out l : Bytes) : Bytes := out ++ (if out = [] then [] else [46]) ++ l.map toLower

/-- The `for (;;)` of `read_name`. A label lengthens `out` and a pointer counts as a hop, both of them
bounded, so `readName` gives it the fuel it can use up at most. -/
def readLoop (p : Bytes) : Nat → Nat → Nat → Bytes → Option Nat → Option (Bytes × Nat)
  | 0, _, _, _, _ => none
  | fuel + 1, hops, cur, out, next =>
    match p[cur]? with
    | none => none
    | some b =>
      if b &&& 0xC0 = 0xC0 then
        match p[cur + 1]? with
        | none => none
        | some lo =>
          let ptr := (b &&& 0x3F).toNat * 256 + lo.toNat
          if cur ≤ ptr then none
          else if 8 < hops + 1 then none
          else readLoop p fuel (hops + 1) ptr out (some (next.getD (cur + 2)))
      else if b &&& 0xC0 ≠ 0 then none
      else if b.toNat = 0 then
        if dnsMaxName ≤ out.length then none else some (out, next.getD (cur + 1))
      else if 63 < b.toNat then none
      else if p.length < cur + 1 + b.toNat then none
      else if dnsMaxName ≤ out.length + b.toNat + 1 then none
      else readLoop p fuel hops (cur + 1 + b.toNat) (addLabel out ((p.drop (cur + 1)).take b.toNat)) next

def readName (p : Bytes) (off : Nat) : Option (Bytes × Nat) := readLoop p (dnsMaxName + 9) 0 off [] none

def skipQuestions (p : Bytes) : Nat → Nat → Option Nat
  | 0, off => some off
  | n + 1, off =>
    match readName p off with
    | none => none
    | some (_, next) => if p.length < next + 4 then none else skipQuestions p n (next + 4)

def scanRecords (p want : Bytes) : Nat → Nat → Option Nat
  | 0, _ => none
  | n + 1, off =>
    match readName p off with
    | none => none
    | some (nm, next) =>
      if p.length < next + 10 then none
      else
        let rdlen := be16At p (next + 8)
        let rdata := next + 10
        if p.length < rdata + rdlen then none
        else if (be16At p next = dnsTypeSrv ∧ 6 ≤ rdlen ∧ u32At p (next + 4) ≠ 0 ∧ cstr nm = want) ∧
            be16At p (rdata + 4) ≠ 0 then some (be16At p (rdata + 4))
        else scanRecords p want n (rdata + rdlen)

/-- The port, or none where the source returns -1. -/
def dacpSrvParseResponse (pkt owner : Bytes) (dnsid : Nat) : Option Nat :=
  if pkt.length < 12 then none
  else if dnsid ≠ 0 ∧ be16At pkt 0 ≠ dnsid then none
  else if pkt.getD 2 0 &&& 0x80 = 0 then none
  else if dnsMaxName ≤ (cstr owner).length then none
  else match skipQuestions pkt (be16At pkt 4) 12 with
    | none => none
    | some off => scanRecords pkt ((cstr owner).map toLower) (be16At pkt 6 + be16At pkt 8 + be16At pkt 10) off

/-! ## The bytes of a name -/

theorem tag_pointer_iff (b : UInt8) : b &&& 0xC0 = 0xC0 ↔ 192 ≤ b.toNat := by
  have key : ∀ n : Fin 256, UInt8.ofNat n &&& 0xC0 = 0xC0 ↔ 192 ≤ n.val := by decide +kernel
  simpa using key ⟨b.toNat, b.toNat_lt⟩

theorem tag_label_iff (b : UInt8) : b &&& 0xC0 = 0 ↔ b.toNat ≤ 63 := by
  have key : ∀ n : Fin 256, UInt8.ofNat n &&& 0xC0 = 0 ↔ n.val ≤ 63 := by decide +kernel
  simpa using key ⟨b.toNat, b.toNat_lt⟩

theorem toNat_and_0x3F (b : UInt8) : (b &&& 0x3F).toNat = b.toNat % 64 := by
  rw [UInt8.toNat_and]
  exact Nat.and_two_pow_sub_one_eq_mod b.toNat 6

/-- What one turn of the loop did if the name was read: a pointer, the root or a label. -/
theorem readLoop_cases {p out : Bytes} {fuel hops cur : Nat} {next : Option Nat} {r : Bytes × Nat}
    (h : readLoop p (fuel + 1) hops cur out next = some r) :
    (∃ b lo : UInt8, p[cur]? = some b ∧ 192 ≤ b.toNat ∧ p[cur + 1]? = some lo ∧
      b.toNat % 64 * 256 + lo.toNat < cur ∧ hops + 1 ≤ 8 ∧
      readLoop p fuel (hops + 1) (b.toNat % 64 * 256 + lo.toNat) out (some (next.getD (cur + 2))) = some r) ∨
    (p[cur]? = some 0 ∧ out.length < dnsMaxName ∧ r = (out, next.getD (cur + 1))) ∨
    (∃ b : UInt8, p[cur]? = some b ∧ 0 < b.toNat ∧ b.toNat ≤ 63 ∧ cur + 1 + b.toNat ≤ p.length ∧
      out.length + b.toNat + 1 < dnsMaxName ∧
      readLoop p fuel hops (cur + 1 + b.toNat) (addLabel out ((p.drop (cur + 1)).take b.toNat)) next = some r) := by
  unfold readLoop at h
  cases hb : p[cur]? with
  | none => simp [hb] at h
  | some b =>
    simp only [hb, tag_pointer_iff, tag_label_iff, toNat_and_0x3F, ne_eq] at h
    by_cases hptr : 192 ≤ b.toNat
    · cases hlo : p[cur + 1]? with
      | none => simp [hptr, hlo] at h
      | some lo =>
        simp only [hptr, hlo, if_true] at h
        split_ifs at h with hback hhops
        exact .inl ⟨b, lo, rfl, hptr, rfl, by omega, by omega, h⟩
    · simp only [hptr, if_false] at h
      by_cases h63 : b.toNat ≤ 63
      · simp only [h63, not_true, if_false] at h
        split_ifs at h with h0 hcap hlen hroom
        · have hb0 : b = 0 := UInt8.toNat_inj.1 h0
          exact .inr (.inl ⟨by rw [hb0], by omega, by simpa using h.symm⟩)
        · exact .inr (.inr ⟨b, rfl, by omega, h63, by omega, by omega, h⟩)
      · simp [h63] at h

theorem readLoop_pointer {p out : Bytes} {fuel hops cur : Nat} {next : Option Nat} {b lo : UInt8}
    (hb : p[cur]? = some b) (htag : 192 ≤ b.toNat) (hlo : p[cur + 1]? = some lo)
    (hback : b.toNat % 64 * 256 + lo.toNat < cur) (hhops : hops + 1 ≤ 8) :
    readLoop p (fuel + 1) hops cur out next =
      readLoop p fuel (hops + 1) (b.toNat % 64 * 256 + lo.toNat) out (some (next.getD (cur + 2))) := by
  have h1 : ¬ cur ≤ b.toNat % 64 * 256 + lo.toNat := by omega
  have h2 : ¬ 8 < hops + 1 := by omega
  simp only [readLoop, hb, hlo, tag_pointer_iff, htag, toNat_and_0x3F, h1, h2, if_true, if_false]

theorem readLoop_root {p out : Bytes} {fuel hops cur : Nat} {next : Option Nat} (hb : p[cur]? = some 0)
    (hout : out.length < dnsMaxName) :
    readLoop p (fuel + 1) hops cur out next = some (out, next.getD (cur + 1)) := by
  have h1 : ¬ dnsMaxName ≤ out.length := by omega
  simp [readLoop, hb, h1]

theorem readLoop_label {p out : Bytes} {fuel hops cur : Nat} {next : Option Nat} {b : UInt8}
    (hb : p[cur]? = some b) (hpos : 0 < b.toNat) (hle : b.toNat ≤ 63) (hin : cur + 1 + b.toNat ≤ p.length)
    (hroom : out.length + b.toNat + 1 < dnsMaxName) :
    readLoop p (fuel + 1) hops cur out next =
      readLoop p fuel hops (cur + 1 + b.toNat) (addLabel out ((p.drop (cur + 1)).take b.toNat)) next := by
  have h1 : ¬ 192 ≤ b.toNat := by omega
  have h2 : ¬ b.toNat = 0 := by omega
  have h3 : ¬ 63 < b.toNat := by omega
  have h4 : ¬ p.length < cur + 1 + b.toNat := by omega
  have h5 : ¬ dnsMaxName ≤ out.length + b.toNat + 1 := by omega
  simp only [readLoop, hb, tag_pointer_iff, tag_label_iff, ne_eq, hle, h1, h2, h3, h4, h5, not_true, if_false]

/-! ## The text so far -/

theorem length_addLabel (out l : Bytes) :
    (addLabel out l).length = out.length + (if out = [] then 0 else 1) + l.length := by
  unfold addLabel
  split_ifs
  · simp
  · simp only [List.length_append, List.length_map, List.length_singleton]

theorem addLabel_ne_nil {out l : Bytes} (hl : l ≠ []) : addLabel out l ≠ [] := by
  simp [addLabel, hl]

theorem foldl_addLabel_of_ne_nil {out : Bytes} (hout : out ≠ []) {ls : List Bytes} (hne : ∀ l ∈ ls, l ≠ []) (hls : ls ≠ []) :
    ls.foldl addLabel out = out ++ 46 :: dotted (lower ls) := by
  induction ls generalizing out with
  | nil => exact absurd rfl hls
  | cons l ls ih =>
    have hstep : addLabel out l = out ++ 46 :: l.map toLower := by simp [addLabel, hout]
    rw [List.foldl_cons]
    by_cases h : ls = []
    · subst h
      simp [hstep, lower, dotted]
    · rw [ih (addLabel_ne_nil (hne l (by simp))) (fun m hm => hne m (by simp [hm])) h, hstep, dotted_lower_cons h]
      simp

theorem foldl_addLabel {ls : List Bytes} (hne : ∀ l ∈ ls, l ≠ []) : ls.foldl addLabel [] = dotted (lower ls) := by
  cases ls with
  | nil => rfl
  | cons l ls =>
    have hl : l ≠ [] := hne l (by simp)
    have hstep : addLabel [] l = l.map toLower := by simp [addLabel]
    by_cases h : ls = []
    · subst h
      simp [hstep, lower, dotted]
    · have hout : l.map toLower ≠ [] := by simpa using hl
      rw [List.foldl_cons, hstep, foldl_addLabel_of_ne_nil hout (fun m hm => hne m (by simp [hm])) h,
        dotted_lower_cons h]

theorem length_add_length_le_foldl {ls : List Bytes} (hne : ∀ l ∈ ls, l ≠ []) (out : Bytes) :
    out.length + ls.length ≤ (ls.foldl addLabel out).length := by
  induction ls generalizing out with
  | nil => simp
  | cons l ls ih =>
    have hl := List.length_pos_iff.2 (hne l (by simp))
    have hih := ih (fun m hm => hne m (by simp [hm])) (addLabel out l)
    have hadd := length_addLabel out l
    rw [List.foldl_cons, List.length_cons]
    omega

/-! ## `read_name` and the wire format -/

theorem readLoop_of_nameAt {p : Bytes} {cur h e : Nat} {ls : List Bytes} (hn : NameAt p cur ls h e) :
    ∀ {fuel hops : Nat} {out : Bytes} {next : Option Nat}, ls.length + h < fuel → hops + h ≤ 8 →
      (ls.foldl addLabel out).length < dnsMaxName →
      readLoop p fuel hops cur out next = some (ls.foldl addLabel out, next.getD e) := by
  induction hn with
  | root hb =>
    intro fuel hops out next hfuel _ hout
    obtain ⟨fuel, rfl⟩ : ∃ f, fuel = f + 1 := ⟨fuel - 1, by omega⟩
    exact readLoop_root hb hout
  | @label off h e b ls hb hpos hle hin rest ih =>
    intro fuel hops out next hfuel hhops hout
    obtain ⟨fuel, rfl⟩ : ∃ f, fuel = f + 1 := ⟨fuel - 1, by omega⟩
    have hlen : ((p.drop (off + 1)).take b.toNat).length = b.toNat := by
      simp only [List.length_take, List.length_drop]
      omega
    have hadd := length_addLabel out ((p.drop (off + 1)).take b.toNat)
    have hmono := length_add_length_le_foldl rest.ne_nil (addLabel out ((p.drop (off + 1)).take b.toNat))
    rw [List.foldl_cons] at hout
    rw [List.length_cons] at hfuel
    have hroom : out.length + b.toNat + 1 < dnsMaxName := by
      by_cases ho : out = []
      · simp only [ho, List.length_nil, dnsMaxName]
        omega
      · rw [if_neg ho] at hadd
        omega
    rw [readLoop_label hb hpos hle hin hroom, List.foldl_cons]
    exact ih (by omega) hhops hout
  | pointer hb htag hlo hback rest ih =>
    intro fuel hops out next hfuel hhops hout
    obtain ⟨fuel, rfl⟩ : ∃ f, fuel = f + 1 := ⟨fuel - 1, by omega⟩
    -- `next` is set by the first pointer, so what the tail reports is not used
    rw [readLoop_pointer hb htag hlo hback (by omega), ih (by omega) (by omega) hout]
    rfl

theorem nameAt_of_readLoop {p : Bytes} {fuel hops cur : Nat} {out : Bytes} {next : Option Nat} {r : Bytes × Nat}
    (h : readLoop p fuel hops cur out next = some r) (hhops : hops ≤ 8) :
    ∃ ls k e, NameAt p cur ls k e ∧ hops + k ≤ 8 ∧ r = (ls.foldl addLabel out, next.getD e) ∧
      r.1.length < dnsMaxName := by
  induction fuel generalizing hops cur out next with
  | zero => simp [readLoop] at h
  | succ fuel ih =>
    rcases readLoop_cases h with ⟨b, lo, hb, htag, hlo, hback, hle, h⟩ | ⟨hb, hout, rfl⟩ |
      ⟨b, hb, hpos, hle, hin, hroom, h⟩
    · obtain ⟨ls, k, e, hn, hk, rfl, hlen⟩ := ih h hle
      exact ⟨ls, k + 1, cur + 2, .pointer hb htag hlo hback hn, by omega, rfl, hlen⟩
    · exact ⟨[], 0, cur + 1, .root hb, hhops, rfl, hout⟩
    · obtain ⟨ls, k, e, hn, hk, rfl, hlen⟩ := ih h hhops
      exact ⟨_ :: ls, k, e, .label hb hpos hle hin hn, hk, rfl, hlen⟩

/-- A name within the two bounds of `read_name`. -/
def Readable (nm : Name) : Prop := nm.hops ≤ 8 ∧ (dotted nm.labels).length < dnsMaxName

/-- **`read_name` reads exactly the names of the wire format within its bounds**, into the lower-cased text,
and goes on where the message does. -/
theorem readName_eq_some_iff {p text : Bytes} {off next : Nat} :
    readName p off = some (text, next) ↔
      ∃ nm : Name, NameAt p off nm.labels nm.hops next ∧ Readable nm ∧ text = dotted (lower nm.labels) := by
  constructor
  · intro h
    obtain ⟨ls, k, e, hn, hk, hr, hlen⟩ := nameAt_of_readLoop h (by omega)
    rw [Prod.mk.injEq, foldl_addLabel hn.ne_nil] at hr
    obtain ⟨rfl, rfl⟩ := hr
    rw [Nat.zero_add] at hk
    exact ⟨⟨ls, k⟩, hn, ⟨hk, by rwa [length_dotted_lower] at hlen⟩, rfl⟩
  · rintro ⟨⟨ls, k⟩, hn, ⟨hk, hlen⟩, rfl⟩
    have htext : ls.foldl addLabel [] = dotted (lower ls) := foldl_addLabel hn.ne_nil
    have hlen' : (ls.foldl addLabel []).length < dnsMaxName := by rwa [htext, length_dotted_lower]
    have hmono := length_add_length_le_foldl hn.ne_nil []
    simp only [List.length_nil, Nat.zero_add] at hmono
    simp only at hn hk hmono
    rw [readName, readLoop_of_nameAt hn (by omega) (by omega) hlen', htext]
    rfl

theorem readName_of_nameAt {p : Bytes} {off next : Nat} {nm : Name} (hn : NameAt p off nm.labels nm.hops next)
    (hr : Readable nm) : readName p off = some (dotted (lower nm.labels), next) :=
  readName_eq_some_iff.2 ⟨nm, hn, hr, rfl⟩

/-! ## The walk over the packet -/

theorem skipQuestions_eq_some_iff {p : Bytes} {n off e : Nat} :
    skipQuestions p n off = some e ↔ ∃ qs, Questions p off qs e ∧ qs.length = n ∧ ∀ q ∈ qs, Readable q := by
  constructor
  · intro h
    induction n generalizing off with
    | zero =>
      simp only [skipQuestions, Option.some.injEq] at h
      subst h
      exact ⟨[], .nil, rfl, by simp⟩
    | succ n ih =>
      unfold skipQuestions at h
      cases hr : readName p off with
      | none => simp [hr] at h
      | some r =>
        obtain ⟨text, next⟩ := r
        simp only [hr] at h
        split_ifs at h with hfit
        obtain ⟨nm, hn, hread, -⟩ := readName_eq_some_iff.1 hr
        obtain ⟨qs, hqs, hlen, hall⟩ := ih h
        exact ⟨nm :: qs, .cons hn (by omega) hqs, by simp [hlen], by simpa using ⟨hread, hall⟩⟩
  · rintro ⟨qs, hqs, rfl, hall⟩
    induction hqs with
    | nil => rfl
    | cons name fits _ ih =>
      rw [List.forall_mem_cons] at hall
      rw [List.length_cons, skipQuestions, readName_of_nameAt name hall.1]
      exact (if_neg (by omega)).trans (ih hall.2)

/-- What the loop asks of a record before it takes its port. -/
def Qualifies (owner : Bytes) (r : Rr) : Prop :=
  (r.type = dnsTypeSrv ∧ 6 ≤ r.rdata.length ∧ r.ttl ≠ 0 ∧ Spells r.owner.labels owner) ∧ be16At r.rdata 4 ≠ 0

instance (owner : Bytes) (r : Rr) : Decidable (Qualifies owner r) := by
  unfold Qualifies
  infer_instance

theorem Qualifies.srvPort {owner : Bytes} {r : Rr} (h : Qualifies owner r) : r.srvPort = some (be16At r.rdata 4) :=
  if_pos h.1.2.1

/-- One turn of the record loop, on the record it stands at. -/
theorem scanRecords_cons {p owner : Bytes} {n off next : Nat} {r : Rr} (hr : RecordAt p off r next)
    (hread : Readable r.owner) :
    scanRecords p (owner.map toLower) (n + 1) off =
      if Qualifies owner r then some (be16At r.rdata 4) else scanRecords p (owner.map toLower) n next := by
  cases hr with
  | @mk next nm name fits =>
    have hlen : ((p.drop (next + 10)).take (be16At p (next + 8))).length = be16At p (next + 8) := by
      simp only [List.length_take, List.length_drop]
      omega
    have h10 : ¬ p.length < next + 10 := by omega
    have hfit : ¬ p.length < next + 10 + be16At p (next + 8) := by omega
    simp only [scanRecords, readName_of_nameAt name hread, h10, hfit, if_false, Qualifies, Spells, hlen]
    by_cases h6 : 6 ≤ be16At p (next + 8)
    · rw [be16At_slice p (by omega)]
    · simp only [h6, false_and, and_false, if_false]

/-- The loop only goes on over whole records with readable names. -/
theorem recordAt_of_scanRecords {p want : Bytes} {n off port : Nat} (h : scanRecords p want (n + 1) off = some port) :
    ∃ r next, RecordAt p off r next ∧ Readable r.owner := by
  unfold scanRecords at h
  cases hr : readName p off with
  | none => simp [hr] at h
  | some x =>
    obtain ⟨text, next⟩ := x
    simp only [hr] at h
    obtain ⟨nm, hn, hread, -⟩ := readName_eq_some_iff.1 hr
    by_cases h10 : p.length < next + 10
    · simp [h10] at h
    · by_cases hfit : p.length < next + 10 + be16At p (next + 8)
      · simp [h10, hfit] at h
      · exact ⟨_, _, .mk hn (by omega), hread⟩

/-- The records before the one taken, and the one taken. -/
structure Found (owner : Bytes) (before : List Rr) (r : Rr) : Prop where
  readable : ∀ s ∈ before ++ [r], Readable s.owner
  passed : ∀ s ∈ before, ¬ Qualifies owner s
  taken : Qualifies owner r

theorem scanRecords_eq_some_iff {p owner : Bytes} {n off port : Nat} :
    scanRecords p (owner.map toLower) n off = some port ↔
      ∃ before r e, Records p off (before ++ [r]) e ∧ before.length < n ∧ Found owner before r ∧
        r.srvPort = some port := by
  constructor
  · intro h
    induction n generalizing off with
    | zero => simp [scanRecords] at h
    | succ n ih =>
      obtain ⟨r, next, hr, hread⟩ := recordAt_of_scanRecords h
      rw [scanRecords_cons hr hread] at h
      split_ifs at h with hq
      · exact ⟨[], r, next, .cons hr .nil, by simp, ⟨by simpa using hread, by simp, hq⟩, hq.srvPort.trans h⟩
      · obtain ⟨before, s, e, hrs, hlen, hf, hport⟩ := ih h
        refine ⟨r :: before, s, e, .cons hr hrs, by simpa using hlen, ⟨?_, ?_, hf.taken⟩, hport⟩
        · rw [List.cons_append, List.forall_mem_cons]
          exact ⟨hread, hf.readable⟩
        · rw [List.forall_mem_cons]
          exact ⟨hq, hf.passed⟩
  · rintro ⟨before, r, e, hrs, hlen, hf, hport⟩
    induction before generalizing n off with
    | nil =>
      obtain ⟨n, rfl⟩ : ∃ m, n = m + 1 := ⟨n - 1, by simp at hlen; omega⟩
      cases hrs with
      | cons head _ =>
        rw [scanRecords_cons head (hf.readable r (by simp)), if_pos hf.taken, ← hport, hf.taken.srvPort]
    | cons s before ih =>
      obtain ⟨n, rfl⟩ : ∃ m, n = m + 1 := ⟨n - 1, by simp at hlen; omega⟩
      cases hrs with
      | cons head rest =>
        rw [scanRecords_cons head (hf.readable s (by simp)), if_neg (hf.passed s (by simp))]
        exact ih rest (by simpa using hlen)
          ⟨fun t ht => hf.readable t (List.mem_cons_of_mem s ht), fun t ht => hf.passed t (List.mem_cons_of_mem s ht),
            hf.taken⟩

/-- Over the records of whole sections the loop is a search. -/
theorem scanRecords_records {p owner : Bytes} {off e : Nat} {rs : List Rr} (h : Records p off rs e)
    (hread : ∀ r ∈ rs, Readable r.owner) :
    scanRecords p (owner.map toLower) rs.length off =
      (rs.find? fun r => decide (Qualifies owner r)).bind Rr.srvPort := by
  induction h with
  | nil => rfl
  | @cons off next e r rs head _ ih =>
    rw [List.forall_mem_cons] at hread
    rw [List.length_cons, scanRecords_cons head hread.1, ih hread.2]
    by_cases hq : Qualifies owner r
    · rw [if_pos hq, List.find?_cons_of_pos (by simpa using hq), Option.bind_some, hq.srvPort]
    · rw [if_neg hq, List.find?_cons_of_neg (by simpa using hq)]

end ShairKindle
