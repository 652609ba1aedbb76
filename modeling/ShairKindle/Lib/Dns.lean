import ShairKindle.Lib.Bytes

/-!
# DNS messages on the wire

Where a name, a question and a resource record lie in a message, as relations between offsets: a name is
a chain of labels that may continue behind a compression pointer, but the message goes on behind the first
pointer. Nothing here bounds the labels of a name or its pointers; a decoder that has such bounds states
them itself.

A dotted text is not a name. Joining labels by dots loses where they end as soon as a label holds a dot,
and reading the text as a C string loses what follows a NUL. `spells_iff` and `clean_of_sameName` say that
nothing else is lost.
-/

namespace Dns

open Bytes

/-! ## Numbers in network order -/

def u32At (p : Bytes) (i : Nat) : Nat := be16At p i * 65536 + be16At p (i + 2)

theorem be16At_slice (p : Bytes) {a n i : Nat} (h : i + 2 ≤ n) : be16At ((p.drop a).take n) i = be16At p (a + i) := by
  have h0 : i < n := by omega
  have h1 : i + 1 < n := by omega
  simp [be16At, h0, h1, Nat.add_assoc]

theorem be16At_append (p x : Bytes) {i : Nat} (h : i + 2 ≤ p.length) : be16At (p ++ x) i = be16At p i := by
  have h0 : i < p.length := by omega
  have h1 : i + 1 < p.length := by omega
  simp [be16At, List.getElem?_append_left, h0, h1]

theorem u32At_append (p x : Bytes) {i : Nat} (h : i + 4 ≤ p.length) : u32At (p ++ x) i = u32At p i := by
  rw [u32At, be16At_append p x (by omega), be16At_append p x (by omega), u32At]

theorem slice_append (p x : Bytes) {a n : Nat} (h : a + n ≤ p.length) : ((p ++ x).drop a).take n = (p.drop a).take n := by
  rw [List.drop_append_of_le_length (by omega), List.take_append_of_le_length (by rw [List.length_drop]; omega)]

/-! ## Names -/

/-- `NameAt p off ls hops next`: at `off` stands the name with labels `ls`, reached over `hops` pointers,
and the message continues at `next`. A pointer leads strictly backward. -/
inductive NameAt (p : Bytes) : Nat → List Bytes → Nat → Nat → Prop
  | root {off : Nat} (hb : p[off]? = some 0) : NameAt p off [] 0 (off + 1)
  | label {off hops next : Nat} {b : UInt8} {ls : List Bytes} (hb : p[off]? = some b) (hpos : 0 < b.toNat)
      (hle : b.toNat ≤ 63) (hin : off + 1 + b.toNat ≤ p.length) (rest : NameAt p (off + 1 + b.toNat) ls hops next) :
      NameAt p off ((p.drop (off + 1)).take b.toNat :: ls) hops next
  | pointer {off hops next : Nat} {b lo : UInt8} {ls : List Bytes} (hb : p[off]? = some b) (htag : 192 ≤ b.toNat)
      (hlo : p[off + 1]? = some lo) (hback : b.toNat % 64 * 256 + lo.toNat < off)
      (rest : NameAt p (b.toNat % 64 * 256 + lo.toNat) ls hops next) :
      NameAt p off ls (hops + 1) (off + 2)

theorem NameAt.ne_nil {p : Bytes} {off hops next : Nat} {ls : List Bytes} (h : NameAt p off ls hops next) :
    ∀ l ∈ ls, l ≠ [] := by
  induction h with
  | root => simp
  | label _ hpos _ hin _ ih =>
    intro l hl
    rcases List.mem_cons.1 hl with rfl | hl
    · rw [← List.length_pos_iff]
      simp only [List.length_take, List.length_drop]
      omega
    · exact ih l hl
  | pointer _ _ _ _ _ ih => exact ih

/-- What stands in a message stands in every longer one. -/
theorem NameAt.append {p : Bytes} {off hops next : Nat} {ls : List Bytes} (h : NameAt p off ls hops next) (x : Bytes) :
    NameAt (p ++ x) off ls hops next := by
  have hget : ∀ {i : Nat} {b : UInt8}, p[i]? = some b → (p ++ x)[i]? = some b := fun hb => by
    obtain ⟨hi, -⟩ := List.getElem?_eq_some_iff.1 hb
    rwa [List.getElem?_append_left hi]
  induction h with
  | root hb => exact .root (hget hb)
  | label hb hpos hle hin _ ih =>
    rw [← slice_append p x hin]
    exact .label (hget hb) hpos hle (by rw [List.length_append]; omega) ih
  | pointer hb htag hlo hback _ ih => exact .pointer (hget hb) htag (hget hlo) hback ih

/-- The first byte tells the three kinds apart, so a name is read in one way only. -/
theorem NameAt.unique {p : Bytes} {off hops hops' next next' : Nat} {ls ls' : List Bytes}
    (h : NameAt p off ls hops next) (h' : NameAt p off ls' hops' next') : ls = ls' ∧ hops = hops' ∧ next = next' := by
  induction h generalizing ls' hops' next' with
  | root hb =>
    cases h' with
    | root => exact ⟨rfl, rfl, rfl⟩
    | label hb' hpos =>
      cases hb.symm.trans hb'
      exact absurd hpos (by decide)
    | pointer hb' htag =>
      cases hb.symm.trans hb'
      exact absurd htag (by decide)
  | label hb hpos hle _ _ ih =>
    cases h' with
    | root hb' =>
      cases hb.symm.trans hb'
      exact absurd hpos (by decide)
    | label hb' _ _ _ rest' =>
      cases hb.symm.trans hb'
      obtain ⟨rfl, rfl, rfl⟩ := ih rest'
      exact ⟨rfl, rfl, rfl⟩
    | pointer hb' htag =>
      cases hb.symm.trans hb'
      omega
  | pointer hb htag hlo _ _ ih =>
    cases h' with
    | root hb' =>
      cases hb.symm.trans hb'
      exact absurd htag (by decide)
    | label hb' _ hle =>
      cases hb.symm.trans hb'
      omega
    | pointer hb' _ hlo' _ rest' =>
      cases hb.symm.trans hb'
      cases hlo.symm.trans hlo'
      obtain ⟨rfl, rfl, -⟩ := ih rest'
      exact ⟨rfl, rfl, rfl⟩

/-! ## The text of a name -/

def dotted (ls : List Bytes) : Bytes := [46].intercalate ls

def lower (ls : List Bytes) : List Bytes := ls.map (List.map toLower)

/-- Equal label by label, up to ASCII case. -/
def SameName (a b : List Bytes) : Prop := lower a = lower b

instance (a b : List Bytes) : Decidable (SameName a b) := inferInstanceAs (Decidable (lower a = lower b))

/-- The labels a dotted text denotes; the empty text is the root. -/
def dotLabels (s : Bytes) : List Bytes := if s = [] then [] else s.splitOn 46

/-- No label holds a dot or a NUL. -/
def Clean (ls : List Bytes) : Prop := ∀ l ∈ ls, (46 : UInt8) ∉ l ∧ (0 : UInt8) ∉ l

instance (ls : List Bytes) : Decidable (Clean ls) :=
  inferInstanceAs (Decidable (∀ l ∈ ls, (46 : UInt8) ∉ l ∧ (0 : UInt8) ∉ l))

theorem Clean.no_dot {ls : List Bytes} (h : Clean ls) : ∀ l ∈ ls, (46 : UInt8) ∉ l := fun l hl => (h l hl).1

theorem clean_lower {ls : List Bytes} : Clean (lower ls) ↔ Clean ls := by
  simp only [Clean, lower, List.forall_mem_map, mem_map_toLower (by decide : (46 : UInt8) < 65),
    mem_map_toLower (by decide : (0 : UInt8) < 65)]

theorem dotted_cons {l : Bytes} {ls : List Bytes} (h : ls ≠ []) : dotted (l :: ls) = l ++ 46 :: dotted ls := by
  simp [dotted, List.intercalate_cons_of_ne_nil h]

theorem dotted_lower_cons {l : Bytes} {ls : List Bytes} (h : ls ≠ []) :
    dotted (lower (l :: ls)) = l.map toLower ++ 46 :: dotted (lower ls) :=
  dotted_cons (by simpa [lower] using h)

theorem dotted_lower (ls : List Bytes) : dotted (lower ls) = (dotted ls).map toLower := by
  induction ls with
  | nil => rfl
  | cons l ls ih =>
    by_cases h : ls = []
    · subst h
      simp [dotted, lower]
    · have hdot : toLower 46 = 46 := by decide
      rw [dotted_lower_cons h, dotted_cons h, List.map_append, List.map_cons, ih, hdot]

theorem length_dotted_lower (ls : List Bytes) : (dotted (lower ls)).length = (dotted ls).length := by
  rw [dotted_lower, List.length_map]

theorem dotted_eq_nil {ls : List Bytes} (hne : ∀ l ∈ ls, l ≠ []) (h : dotted ls = []) : ls = [] := by
  cases ls with
  | nil => rfl
  | cons l ls =>
    have hl := hne l (by simp)
    by_cases hls : ls = []
    · subst hls
      simp [dotted, hl] at h
    · simp [dotted_cons hls] at h

theorem mem_dotted {ls : List Bytes} {c : UInt8} (h : c ∈ dotted ls) : c = 46 ∨ ∃ l ∈ ls, c ∈ l := by
  induction ls with
  | nil => simp [dotted] at h
  | cons l ls ih =>
    by_cases hls : ls = []
    · subst hls
      exact .inr ⟨l, by simp, by simpa [dotted] using h⟩
    · rw [dotted_cons hls, List.mem_append, List.mem_cons] at h
      rcases h with h | h | h
      · exact .inr ⟨l, by simp, h⟩
      · exact .inl h
      · rcases ih h with h | ⟨m, hm, hc⟩
        · exact .inl h
        · exact .inr ⟨m, by simp [hm], hc⟩

theorem nul_notMem_dotted {ls : List Bytes} (h : Clean ls) : (0 : UInt8) ∉ dotted ls := by
  intro h0
  rcases mem_dotted h0 with h0 | ⟨l, hl, h0⟩
  · exact absurd h0 (by decide)
  · exact (h l hl).2 h0

theorem splitOn_dotted {ls : List Bytes} (h : ∀ l ∈ ls, (46 : UInt8) ∉ l) (hls : ls ≠ []) :
    (dotted ls).splitOn 46 = ls :=
  List.splitOn_intercalate 46 h hls

theorem dotted_splitOn (s : Bytes) : dotted (s.splitOn 46) = s := List.intercalate_splitOn 46

theorem dotted_dotLabels (s : Bytes) : dotted (dotLabels s) = s := by
  unfold dotLabels
  split_ifs with h
  · subst h
    rfl
  · exact dotted_splitOn s

/-- A piece of a split holds no separator, and only bytes of the text. -/
theorem of_mem_splitOn {s : Bytes} : ∀ l ∈ s.splitOn 46, ∀ c ∈ l, c ≠ 46 ∧ c ∈ s := by
  induction s with
  | nil => simp [List.splitOn_nil]
  | cons x s ih =>
    rw [List.splitOn_cons_eq_if_modifyHead]
    split_ifs with hx
    · intro l hl c hc
      rcases List.mem_cons.1 hl with rfl | hl
      · simp at hc
      · exact ⟨(ih l hl c hc).1, List.mem_cons_of_mem x (ih l hl c hc).2⟩
    · -- `x` joins the first piece
      have hne : x ≠ 46 := by simpa using hx
      cases hs : s.splitOn 46 with
      | nil => exact absurd hs (List.splitOn_ne_nil 46 s)
      | cons m ms =>
        rw [hs] at ih
        intro l hl c hc
        rcases List.mem_cons.1 hl with rfl | hl
        · rcases List.mem_cons.1 hc with rfl | hc
          · exact ⟨hne, List.mem_cons_self⟩
          · exact ⟨(ih m List.mem_cons_self c hc).1, List.mem_cons_of_mem x (ih m List.mem_cons_self c hc).2⟩
        · have hmem := ih l (List.mem_cons_of_mem m hl) c hc
          exact ⟨hmem.1, List.mem_cons_of_mem x hmem.2⟩

theorem clean_splitOn {s : Bytes} (h0 : (0 : UInt8) ∉ s) : Clean (s.splitOn 46) :=
  fun l hl => ⟨fun h => (of_mem_splitOn l hl 46 h).1 rfl, fun h => h0 (of_mem_splitOn l hl 0 h).2⟩

theorem clean_dotLabels {s : Bytes} (h0 : (0 : UInt8) ∉ s) : Clean (dotLabels s) := by
  unfold dotLabels
  split_ifs
  · simp [Clean]
  · exact clean_splitOn h0

theorem dotLabels_dotted {ls : List Bytes} (hne : ∀ l ∈ ls, l ≠ []) (h : Clean ls) : dotLabels (dotted ls) = ls := by
  unfold dotLabels
  split_ifs with hd
  · exact (dotted_eq_nil hne hd).symm
  · refine splitOn_dotted h.no_dot ?_
    rintro rfl
    exact hd rfl

/-- What `strcmp` sees of two lower-cased texts: the labels joined by dots, up to the first NUL. -/
def Spells (ls : List Bytes) (s : Bytes) : Prop := cstr (dotted (lower ls)) = s.map toLower

instance (ls : List Bytes) (s : Bytes) : Decidable (Spells ls s) :=
  inferInstanceAs (Decidable (cstr (dotted (lower ls)) = s.map toLower))

/-- **On clean labels the text decides the name.** -/
theorem spells_iff {ls : List Bytes} {s : Bytes} (hne : ∀ l ∈ ls, l ≠ []) (h : Clean ls) (hs : (0 : UInt8) ∉ s) :
    Spells ls s ↔ SameName ls (dotLabels s) := by
  have hcstr : cstr (dotted (lower ls)) = dotted (lower ls) := cstr_of_notMem (nul_notMem_dotted (clean_lower.2 h))
  rw [Spells, hcstr]
  constructor
  · intro heq
    -- both sides split at the dots into the lower-cased labels
    have hne' : ∀ l ∈ lower ls, l ≠ [] := by
      simp only [lower, List.forall_mem_map, ne_eq, List.map_eq_nil_iff]
      exact hne
    have hne'' : dotLabels (s.map toLower) = lower ls := by
      rw [← heq, dotLabels_dotted hne' (clean_lower.2 h)]
    unfold SameName
    rw [← hne'']
    unfold dotLabels
    split_ifs with h1 h2 h2
    · rfl
    · simp at h1
      exact absurd h1 h2
    · simp [h2] at h1
    · have hsplit := splitOn_dotted (clean_lower.2 (clean_splitOn hs)).no_dot (by simp [lower])
      rw [dotted_lower, dotted_splitOn] at hsplit
      exact hsplit
  · intro hsame
    rw [hsame, dotted_lower, dotted_dotLabels]

/-- A name equal to a dotted text has clean labels. -/
theorem clean_of_sameName {ls : List Bytes} {s : Bytes} (hs : (0 : UInt8) ∉ s) (h : SameName ls (dotLabels s)) :
    Clean ls := by
  have hc := clean_lower.2 (clean_dotLabels hs)
  rw [← h, clean_lower] at hc
  exact hc

/-! ## Names without pointers -/

/-- Labels on the wire, each behind its length. -/
def wire (ls : List Bytes) : Bytes := ls.flatMap fun l => UInt8.ofNat l.length :: l

theorem wire_cons (l : Bytes) (ls : List Bytes) : wire (l :: ls) = UInt8.ofNat l.length :: (l ++ wire ls) := by
  rw [wire, List.flatMap_cons]
  rfl

/-- One byte of length for the first label, one for each dot. -/
theorem length_wire {ls : List Bytes} (hls : ls ≠ []) : (wire ls).length = (dotted ls).length + 1 := by
  induction ls with
  | nil => exact absurd rfl hls
  | cons l ls ih =>
    by_cases h : ls = []
    · subst h
      simp [wire, dotted]
    · rw [wire_cons, dotted_cons h]
      simp only [List.length_cons, List.length_append, ih h]

theorem nameAt_wire {ls : List Bytes} (h : ∀ l ∈ ls, 0 < l.length ∧ l.length ≤ 63) (pre post : Bytes) :
    NameAt (pre ++ (wire ls ++ 0 :: post)) pre.length ls 0 (pre.length + (wire ls).length + 1) := by
  induction ls generalizing pre with
  | nil => exact .root (by simp [wire])
  | cons l ls ih =>
    rw [List.forall_mem_cons] at h
    have hb : (UInt8.ofNat l.length).toNat = l.length := UInt8.toNat_ofNat_of_lt' (by simp [UInt8.size]; omega)
    -- the same message, with the label counted to what comes before
    have hmsg : pre ++ (wire (l :: ls) ++ 0 :: post) =
        (pre ++ UInt8.ofNat l.length :: l) ++ (wire ls ++ 0 :: post) := by
      simp [wire_cons]
    have hrest := ih h.2 (pre ++ UInt8.ofNat l.length :: l)
    have hstart : (pre ++ UInt8.ofNat l.length :: l).length = pre.length + 1 + (UInt8.ofNat l.length).toNat := by
      rw [hb, List.length_append, List.length_cons]
      omega
    have hend : (pre ++ UInt8.ofNat l.length :: l).length + (wire ls).length + 1 =
        pre.length + (wire (l :: ls)).length + 1 := by
      simp only [wire_cons, List.length_append, List.length_cons]
      omega
    rw [hend, hstart, ← hmsg] at hrest
    have hslice : ((pre ++ (wire (l :: ls) ++ 0 :: post)).drop (pre.length + 1)).take (UInt8.ofNat l.length).toNat =
        l := by
      rw [hb, wire_cons, ← List.drop_drop, List.drop_left]
      simp
    have hlabel := NameAt.label (by simp [wire_cons]) (by omega) (by omega)
      (by rw [hmsg, List.length_append, hstart]; omega) hrest
    rwa [hslice] at hlabel

/-! ## Records -/

structure Name where
  labels : List Bytes
  hops : Nat
  deriving Repr, DecidableEq

structure Rr where
  owner : Name
  type : Nat
  ttl : Nat
  rdata : Bytes
  deriving Repr, DecidableEq

/-- Names of the question section, each before a type and a class. -/
inductive Questions (p : Bytes) : Nat → List Name → Nat → Prop
  | nil {off : Nat} : Questions p off [] off
  | cons {off next e : Nat} {q : Name} {qs : List Name} (name : NameAt p off q.labels q.hops next)
      (fits : next + 4 ≤ p.length) (rest : Questions p (next + 4) qs e) : Questions p off (q :: qs) e

/-- A record: the name, ten bytes of type, class, TTL and data length, the data. -/
inductive RecordAt (p : Bytes) (off : Nat) : Rr → Nat → Prop
  | mk {next : Nat} {nm : Name} (name : NameAt p off nm.labels nm.hops next)
      (fits : next + 10 + be16At p (next + 8) ≤ p.length) :
      RecordAt p off ⟨nm, be16At p next, u32At p (next + 4), (p.drop (next + 10)).take (be16At p (next + 8))⟩
        (next + 10 + be16At p (next + 8))

inductive Records (p : Bytes) : Nat → List Rr → Nat → Prop
  | nil {off : Nat} : Records p off [] off
  | cons {off next e : Nat} {r : Rr} {rs : List Rr} (head : RecordAt p off r next) (rest : Records p next rs e) :
      Records p off (r :: rs) e

theorem Records.ne_nil {p : Bytes} {off e : Nat} {rs : List Rr} (h : Records p off rs e) :
    ∀ r ∈ rs, ∀ l ∈ r.owner.labels, l ≠ [] := by
  induction h with
  | nil => simp
  | cons head _ ih =>
    intro r hr
    rcases List.mem_cons.1 hr with rfl | hr
    · cases head with
      | mk name _ => exact name.ne_nil
    · exact ih r hr

theorem Questions.append {p : Bytes} {off e : Nat} {qs : List Name} (h : Questions p off qs e) (x : Bytes) :
    Questions (p ++ x) off qs e := by
  induction h with
  | nil => exact .nil
  | cons name fits _ ih => exact .cons (name.append x) (by rw [List.length_append]; omega) ih

theorem RecordAt.append {p : Bytes} {off e : Nat} {r : Rr} (h : RecordAt p off r e) (x : Bytes) :
    RecordAt (p ++ x) off r e := by
  cases h with
  | @mk next nm name fits =>
    have hlen : be16At (p ++ x) (next + 8) = be16At p (next + 8) := be16At_append p x (by omega)
    have hrec := RecordAt.mk (name.append x) (by rw [hlen, List.length_append]; omega)
    rwa [hlen, be16At_append p x (by omega), u32At_append p x (by omega), slice_append p x fits] at hrec

theorem Records.append {p : Bytes} {off e : Nat} {rs : List Rr} (h : Records p off rs e) (x : Bytes) :
    Records (p ++ x) off rs e := by
  induction h with
  | nil => exact .nil
  | cons head _ ih => exact .cons (head.append x) ih

/-- The port of a service record. -/
def Rr.srvPort (r : Rr) : Option Nat := if 6 ≤ r.rdata.length then some (be16At r.rdata 4) else none

/-- The records of the answer, authority and additional sections together. -/
def recordCount (p : Bytes) : Nat := be16At p 6 + be16At p 8 + be16At p 10

/-- A response (QR set) whose questions are `qs` and whose sections begin with the records `rs`. -/
structure Response (p : Bytes) (qs : List Name) (rs : List Rr) : Prop where
  header : 12 ≤ p.length
  qr : p.getD 2 0 &&& 0x80 ≠ 0
  questions : qs.length = be16At p 4
  records : rs.length ≤ recordCount p
  walk : ∃ off e, Questions p 12 qs off ∧ Records p off rs e

theorem Response.append {p : Bytes} {qs : List Name} {rs : List Rr} (h : Response p qs rs) (x : Bytes) :
    Response (p ++ x) qs rs := by
  have hheader := h.header
  obtain ⟨off, e, hqs, hrs⟩ := h.walk
  refine ⟨by rw [List.length_append]; omega, ?_, ?_, ?_, off, e, hqs.append x, hrs.append x⟩
  · rw [List.getD_eq_getElem?_getD, List.getElem?_append_left (by omega), ← List.getD_eq_getElem?_getD]
    exact h.qr
  · rw [be16At_append p x (by omega)]
    exact h.questions
  · rw [recordCount, be16At_append p x (by omega), be16At_append p x (by omega), be16At_append p x (by omega)]
    exact h.records

/-- The response holds the record in one of its three sections. -/
def HasRecord (p : Bytes) (r : Rr) : Prop := ∃ qs before, Response p qs (before ++ [r])

end Dns
