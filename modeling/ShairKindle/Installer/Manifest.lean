import Mathlib.Data.List.DropRight
import Mathlib.Tactic

/-!
# The payload manifest (PayloadInstaller.java)

The grammar of paths, hashes and modes and the manifest parser, over lists of characters. A path of the
manifest is a text; `components` is what `StringTokenizer(relPath, "/")` makes of it. `parseManifest_valid`
collects what the parser guarantees, `Manifest.Valid`; the last section restates it for components,
which is how the installer uses it.

| here | PayloadInstaller.java |
|---|---|
| `validRelPath`, `validComponent`, `validMode`, `validSha` | :70, :91, :103, :112 |
| `parseManifest`, `splitLines` | :124, :199 |
-/

namespace ShairKindle.Payload

/-- A Java string. -/
abbrev Text := List Char

/-- `STAMP_NAME` (:46). -/
def stampName : Text := ".installed-version".toList

/-- The suffix of temporary files. -/
def newSuffix : Text := ".new".toList

/-- `String.endsWith`. -/
def endsWith (s t : Text) : Bool := t.isSuffixOf s

/-- `String.trim`: drops what is at most a space at both ends. -/
def trim (s : Text) : Text := (s.dropWhile (·.toNat ≤ 32)).rdropWhile (·.toNat ≤ 32)

/-! ## Grammar -/

/-- `validComponent` (:91). -/
def validComponent (c : Text) : Bool :=
  c != [] && c != ".".toList && c != "..".toList && c.all fun ch =>
    ('A' ≤ ch && ch ≤ 'Z') || ('a' ≤ ch && ch ≤ 'z') || ('0' ≤ ch && ch ≤ '9') || ch == '.' || ch == '_' || ch == '-'

/-- The tokens of `StringTokenizer(p, "/", true)`: components and slashes, no empty component. -/
def slashTokens (p : Text) : List Text :=
  (((p.splitOn '/').map fun c => if c = [] then [] else [c]).intersperse [['/']]).flatten

/-- The loop of `validRelPath` (:76-88). -/
def checkTokens : Bool → List Text → Bool
  | expectComponent, [] => !expectComponent
  | expectComponent, tok :: toks =>
    if tok = ['/'] then if expectComponent then false else checkTokens true toks
    else if !validComponent tok then false
    else checkTokens false toks

/-- `validRelPath` (:70). -/
def validRelPath (p : Text) : Bool :=
  if p = [] then false
  else if p = stampName then false
  else if endsWith p newSuffix then false
  else if p.head? = some '/' then false
  else checkTokens true (slashTokens p)

/-- `validMode` (:103): three or four octal digits. -/
def validMode (m : Text) : Bool := 3 ≤ m.length && m.length ≤ 4 && m.all fun ch => '0' ≤ ch && ch ≤ '7'

/-- `validSha` (:112): 64 lower-case hex digits. -/
def validSha (s : Text) : Bool := s.length == 64 && s.all fun ch => ('0' ≤ ch && ch ≤ '9') || ('a' ≤ ch && ch ≤ 'f')

/-! ## The parser -/

/-- `Entry` (:35). -/
structure Entry where
  relPath : Text
  sha256 : Text
  mode : Text
deriving DecidableEq, Repr

/-- `Manifest` (:41). -/
structure Manifest where
  version : Text
  entries : List Entry
deriving DecidableEq, Repr

/-- `splitLines` (:199): a last line without a newline counts if it is not empty. -/
def splitLines (text : Text) : List Text :=
  if (text.splitOn '\n').getLast? = some [] then (text.splitOn '\n').dropLast else text.splitOn '\n'

/-- The tokens of `StringTokenizer(line)`. -/
def fields (line : Text) : List Text :=
  (line.splitOnP fun c => c = ' ' || c = '\t' || c = '\n' || c = '\r' || c = '\x0c').filter (· ≠ [])

/-- One line of the entry loop (:150-178); `seen` are the paths so far. -/
def parseEntry (seen : List Text) (line : Text) : Except Text Entry :=
  match fields line with
  | [relPath, sha, mode] =>
    if !validRelPath relPath then .error ("invalid relPath: ".toList ++ relPath)
    else if !validSha sha then .error ("invalid sha256: ".toList ++ relPath)
    else if !validMode mode then .error ("invalid mode: ".toList ++ relPath)
    else if relPath ∈ seen then .error ("duplicate relPath: ".toList ++ relPath)
    else .ok ⟨relPath, sha, mode⟩
  | _ => .error ("manifest line must have 3 fields: ".toList ++ line)

/-- The entry loop (:147-178). -/
def parseEntries : List Text → List Entry → Except Text (List Entry)
  | [], entries => .ok entries
  | l :: ls, entries =>
    if trim l = [] then parseEntries ls entries
    else
      match parseEntry (entries.map (·.relPath)) (trim l) with
      | .error e => .error e
      | .ok e => parseEntries ls (entries ++ [e])

/-- The first pair with `b.startsWith(a + "/")` (:181-191). An entry is not in that relation to itself. -/
def prefixPair (entries : List Entry) : Option (Entry × Entry) :=
  entries.findSome? fun a => entries.findSome? fun b =>
    if (a.relPath ++ ['/']).isPrefixOf b.relPath then some (a, b) else none

/-- `parseManifest` (:124). -/
def parseManifest (text : Text) : Except Text Manifest :=
  match (splitLines text).dropWhile (trim · = []) with
  | [] => .error "empty manifest".toList
  | v :: rest =>
    if !"version ".toList.isPrefixOf (trim v) then .error "first line must be 'version <str>'".toList
    else
      let version := trim ((trim v).drop "version ".toList.length)
      if version = [] then .error "empty version".toList
      else
        match parseEntries rest [] with
        | .error e => .error e
        | .ok entries =>
          match prefixPair entries with
          | some (a, b) =>
            .error ("relPath '".toList ++ a.relPath ++ "' is a prefix of '".toList ++ b.relPath ++ "'".toList)
          | none => .ok ⟨version, entries⟩

/-! ## What the parser guarantees -/

/-- A well-formed entry. -/
structure Entry.Valid (e : Entry) : Prop where
  relPath : validRelPath e.relPath = true
  sha256 : validSha e.sha256 = true
  mode : validMode e.mode = true

/-- A well-formed manifest: no path twice, and none that is a directory of another. -/
structure Manifest.Valid (m : Manifest) : Prop where
  version_ne : m.version ≠ []
  version_trim : trim m.version = m.version
  entry : ∀ e ∈ m.entries, e.Valid
  nodup : (m.entries.map (·.relPath)).Nodup
  prefixFree : ∀ a ∈ m.entries, ∀ b ∈ m.entries, ¬ (a.relPath ++ ['/']) <+: b.relPath

theorem parseEntry_ok {seen : List Text} {line : Text} {e : Entry} (h : parseEntry seen line = .ok e) :
    e.Valid ∧ e.relPath ∉ seen := by
  unfold parseEntry at h
  split at h
  · simp only [Bool.not_eq_true'] at h
    split at h
    · cases h
    split at h
    · cases h
    split at h
    · cases h
    split at h
    · cases h
    obtain rfl := Except.ok.inj h
    simp only [Bool.not_eq_false] at *
    exact ⟨⟨‹_›, ‹_›, ‹_›⟩, ‹_›⟩
  · cases h

theorem parseEntries_ok {ls : List Text} {acc es : List Entry} (h : parseEntries ls acc = .ok es)
    (hv : ∀ e ∈ acc, e.Valid) (hn : (acc.map (·.relPath)).Nodup) :
    (∀ e ∈ es, e.Valid) ∧ (es.map (·.relPath)).Nodup := by
  induction ls generalizing acc with
  | nil =>
    obtain rfl := Except.ok.inj h
    exact ⟨hv, hn⟩
  | cons l ls ih =>
    unfold parseEntries at h
    split at h
    · exact ih h hv hn
    · split at h
      · cases h
      · rename_i e he
        obtain ⟨hev, hnew⟩ := parseEntry_ok he
        refine ih h ?_ ?_
        · simp only [List.mem_append, List.mem_singleton]
          rintro x (hx | rfl)
          · exact hv x hx
          · exact hev
        · rw [List.map_append, List.nodup_append']
          refine ⟨hn, by simp, ?_⟩
          simpa using hnew

theorem trim_trim (s : Text) : trim (trim s) = trim s := by
  unfold trim
  have hhead : ((s.dropWhile (·.toNat ≤ 32)).rdropWhile (·.toNat ≤ 32)).dropWhile (·.toNat ≤ 32) =
      (s.dropWhile (·.toNat ≤ 32)).rdropWhile (·.toNat ≤ 32) := by
    have hpre := List.rdropWhile_prefix (fun c : Char => decide (c.toNat ≤ 32)) (s.dropWhile (·.toNat ≤ 32))
    rw [List.dropWhile_eq_self_iff]
    intro hl
    have hne : s.dropWhile (·.toNat ≤ 32) ≠ [] := by
      intro h
      simp [h] at hl
    have hget := hpre.getElem hl
    have hlast := List.head_dropWhile_not (fun c : Char => decide (c.toNat ≤ 32)) hne
    rw [List.head_eq_getElem] at hlast
    rw [hget, hlast]
    exact Bool.false_ne_true
  rw [hhead, List.rdropWhile_idempotent]

/-- **What is accepted is well formed.** -/
theorem parseManifest_valid {text : Text} {m : Manifest} (h : parseManifest text = .ok m) : m.Valid := by
  unfold parseManifest at h
  split at h
  · cases h
  · split at h
    · cases h
    dsimp only at h
    split at h
    · cases h
    rename_i hne
    split at h
    · cases h
    rename_i es he
    split at h
    · cases h
    rename_i hpre
    obtain rfl := Except.ok.inj h
    obtain ⟨hv, hn⟩ := parseEntries_ok he (by simp) (by simp)
    refine ⟨hne, trim_trim _, hv, hn, fun a ha b hb hab => ?_⟩
    simp only [prefixPair, List.findSome?_eq_none_iff, ite_eq_right_iff, reduceCtorEq, imp_false,
      List.isPrefixOf_iff_prefix] at hpre
    exact hpre a ha b hb hab

/-! ## Components -/

/-- The tokens of `StringTokenizer(relPath, "/")`. -/
def components (p : Text) : List Text := (p.splitOn '/').filter (· ≠ [])

/-- Components put together again. -/
def joinSlash (cs : List Text) : Text := ['/'].intercalate cs

theorem joinSlash_append {xs ys : List Text} (hx : xs ≠ []) (hy : ys ≠ []) :
    joinSlash (xs ++ ys) = joinSlash xs ++ '/' :: joinSlash ys := by
  induction xs with
  | nil => exact absurd rfl hx
  | cons x xs ih =>
    cases xs with
    | nil =>
      obtain ⟨y, ys, rfl⟩ := List.exists_cons_of_ne_nil hy
      simp [joinSlash, List.intercalate_cons_cons, List.intercalate_singleton]
    | cons z zs =>
      have := ih (by simp)
      simp only [joinSlash, List.cons_append, List.intercalate_cons_cons] at this ⊢
      rw [this]
      simp

/-- The check of the tokens passes only over proper components. -/
theorem checkTokens_components : ∀ {cs : List Text}, cs ≠ [] →
    checkTokens true (((cs.map fun c => if c = [] then [] else [c]).intersperse [['/']]).flatten) = true →
    ∀ c ∈ cs, c ≠ [] ∧ validComponent c = true
  | [], h, _ => absurd rfl h
  | [c], _, h => by
    by_cases hc : c = []
    · simp [hc, checkTokens] at h
    · by_cases hs : c = ['/']
      · simp [hs, checkTokens] at h
      · by_cases hv : validComponent c = true
        · simpa using ⟨hc, hv⟩
        · simp [hc, hs, hv, checkTokens] at h
  | c :: d :: cs, _, h => by
    by_cases hc : c = []
    · simp [hc, checkTokens] at h
    · by_cases hs : c = ['/']
      · simp [hs, checkTokens] at h
      · by_cases hv : validComponent c = true
        · have hrest : checkTokens true
              ((((d :: cs).map fun c => if c = [] then [] else [c]).intersperse [['/']]).flatten) = true := by
            simpa [hc, hs, hv, checkTokens] using h
          have ih := checkTokens_components (by simp) hrest
          simp only [List.mem_cons]
          rintro x (rfl | hx)
          · exact ⟨hc, hv⟩
          · exact ih x (by simpa using hx)
        · simp [hc, hs, hv, checkTokens] at h

section Valid

variable {p q : Text}

theorem validRelPath_splitOn (h : validRelPath p = true) : ∀ c ∈ p.splitOn '/', c ≠ [] ∧ validComponent c = true := by
  unfold validRelPath at h
  simp only [Bool.if_false_left, Bool.and_eq_true] at h
  refine checkTokens_components ?_ h.2.2.2.2
  rw [List.splitOn_eq_splitOnP]
  exact List.splitOnP_ne_nil _ _

theorem components_eq (h : validRelPath p = true) : components p = p.splitOn '/' := by
  unfold components
  rw [List.filter_eq_self]
  intro c hc
  simpa using (validRelPath_splitOn h c hc).1

theorem joinSlash_components (h : validRelPath p = true) : joinSlash (components p) = p := by
  rw [components_eq h]
  exact List.intercalate_splitOn '/'

theorem components_ne_nil (h : validRelPath p = true) : components p ≠ [] := by
  rw [components_eq h, List.splitOn_eq_splitOnP]
  exact List.splitOnP_ne_nil _ _

theorem components_inj (hp : validRelPath p = true) (hq : validRelPath q = true) (h : components p = components q) :
    p = q := by
  rw [← joinSlash_components hp, h, joinSlash_components hq]

/-- The stamp is not a path of the manifest. -/
theorem components_ne_stamp (h : validRelPath p = true) : components p ≠ [stampName] := by
  intro hc
  have hp : p = stampName := by
    rw [← joinSlash_components h, hc, joinSlash, List.intercalate_singleton]
  subst hp
  simp [validRelPath] at h

/-- The last component is not a temporary name. -/
theorem components_last (h : validRelPath p = true) {cs : List Text} {c : Text} (hc : components p = cs ++ [c]) :
    endsWith c newSuffix = false := by
  have hsuf : c <:+ p := by
    rw [← joinSlash_components h, hc]
    cases cs with
    | nil => simp [joinSlash, List.intercalate_singleton]
    | cons d ds =>
      rw [joinSlash_append (by simp) (by simp)]
      simp only [joinSlash, List.intercalate_singleton]
      exact ⟨joinSlash (d :: ds) ++ ['/'], by simp [joinSlash]⟩
  have hp : endsWith p newSuffix = false := by
    unfold validRelPath at h
    simp only [Bool.if_false_left, Bool.and_eq_true, Bool.not_eq_true', decide_eq_false_iff_not] at h
    simpa using h.2.2.1
  rw [← Bool.not_eq_true] at hp ⊢
  simp only [endsWith, List.isSuffixOf_iff_suffix] at hp ⊢
  exact fun hn => hp (hn.trans hsuf)

end Valid

/-- No path of a manifest is a directory of another. -/
theorem Manifest.Valid.not_below {m : Manifest} (hm : m.Valid) {a b : Entry} (ha : a ∈ m.entries) (hb : b ∈ m.entries)
    {rest : List Text} (hr : rest ≠ []) : components b.relPath ≠ components a.relPath ++ rest := by
  intro h
  have hva := (hm.entry a ha).relPath
  refine hm.prefixFree a ha b hb ?_
  rw [← joinSlash_components (hm.entry b hb).relPath, h, joinSlash_append (components_ne_nil hva) hr,
    joinSlash_components hva]
  exact ⟨joinSlash rest, by simp⟩

/-- A path of a manifest belongs to one entry. -/
theorem Manifest.Valid.entry_unique {m : Manifest} (hm : m.Valid) {a b : Entry} (ha : a ∈ m.entries)
    (hb : b ∈ m.entries) (h : a.relPath = b.relPath) : a = b :=
  List.inj_on_of_nodup_map hm.nodup ha hb h

/-- The entry a loop is at is none of those it has done. -/
theorem Manifest.Valid.notMem_before {m : Manifest} (hm : m.Valid) {done todo : List Entry} {e : Entry}
    (h : m.entries = done ++ e :: todo) : e ∉ done := by
  have hnodup : (done ++ e :: todo).Nodup := h ▸ List.Nodup.of_map _ hm.nodup
  exact fun hmem => (List.nodup_append'.1 hnodup).2.2 hmem List.mem_cons_self

end ShairKindle.Payload
