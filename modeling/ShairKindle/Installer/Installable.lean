import ShairKindle.Installer.Local
import ShairKindle.Installer.Stamp

/-!
# Which manifests can be installed

The grammar keeps the stamp's name and names that end in `.new` from being an entry's whole path, and
`parseManifest` keeps an entry from lying below another. It does not keep entries from lying below the
stamp, or below a temporary file. In an empty directory that is all that can go wrong (`Installable`): an
entry below the stamp makes it a directory, one below the staged stamp makes that a directory, and an entry
below another's temporary file is in the way of the other if it is installed first.
-/

namespace ShairKindle.Payload

open Crash Crash.Prog FileTree

/-- The version survives the stamp's encoding, no entry lies below the stamp or the staged stamp, and none
below the temporary file of a later entry. -/
structure Installable (m : Manifest) : Prop where
  ascii : isAscii m.version = true
  stamp : ∀ e ∈ m.entries, ¬ [stampName] <:+ (target [] e).tail
  stagedStamp : ∀ e ∈ m.entries, ¬ staged [stampName] <:+ (target [] e).tail
  stagedEntry : m.entries.Pairwise fun a b => ¬ staged (target [] b) <:+ (target [] a).tail

section AtRoot

variable {hash : Bytes → Text} {m : Manifest} {res : Text → Option Bytes} {fs : Tree}

/-! ## Enough -/

/-- What the entry loop keeps: nothing is in the way of the stamp and of the entries to come. -/
structure Unblocked (m : Manifest) (done : List Entry) (fs : Tree) : Prop where
  links : fs.NoLinks
  stamp : fs.look [stampName] ≠ some .dir
  stagedStamp : fs.look (staged [stampName]) ≠ some .dir
  entries : ∀ e ∈ m.entries, e ∉ done → fs.look (staged (target [] e)) ≠ some .dir

theorem entries_run (hm : m.Valid) (hi : Installable m) (hres : Matches hash m res) (hu : Unblocked m [] fs) :
    ∃ fs', Runs (m.entries.forM (installEntry hash [] res)) fs ⟨⟩ fs' ∧ Unblocked m m.entries fs' := by
  refine Runs.forM_split (Unblocked m) hu fun done e todo t hsplit hu => ?_
  have he : e ∈ m.entries := by simp [hsplit]
  have hnew := hm.notMem_before hsplit
  obtain ⟨data, hdata, hsha⟩ := hres e he
  obtain ⟨t', hrun, hin⟩ := installEntry_runs_of (hm.entry e he) hu.links t.look_root (hu.entries e he hnew) hdata hsha
  refine ⟨t', hrun, hin.links, fun hd => hu.stamp (hin.dirs _ (hi.stamp e he) hd),
    fun hd => hu.stagedStamp (hin.dirs _ (hi.stagedStamp e he) hd), fun b hb hnb hd => ?_⟩
  -- an entry still to come is a later one
  rw [List.mem_append, List.mem_singleton, not_or] at hnb
  have hlater : b ∈ todo := by
    rw [hsplit, List.mem_append, List.mem_cons] at hb
    rcases hb with hb | rfl | hb
    · exact absurd hb hnb.1
    · exact absurd rfl hnb.2
    · exact hb
  have hpair := hi.stagedEntry
  rw [hsplit, List.pairwise_append, List.pairwise_cons] at hpair
  exact hu.entries b hb hnb.1 (hin.dirs _ (hpair.2.1.1 b hlater) hd)

/-- In an empty directory such a manifest is installed, and its stamp is believed. -/
theorem Installable.runs (hi : Installable m) (hm : m.Valid) (hl : fs.NoLinks) (hempty : ∀ q, q ≠ [] → fs.look q = none)
    (hres : Matches hash m res) :
    ∃ fs', Runs (install hash [] m res) fs () fs' ∧ isUpToDate [] m.version fs' = true := by
  have hopen : Open fs [] := fun q hq => .inr (List.suffix_nil.1 hq ▸ fs.look_root)
  obtain ⟨fs₁, hrun₁, hdir₁, hstamp₁⟩ := installFiles_runs_of hl hopen fun fs₂ hl₂ hdir₂ hdirs => by
    have hroot : ∀ q, q ≠ [] → fs₂.look q ≠ some .dir := by
      intro q hq hd
      rcases hdirs q hd with h | h
      · exact hq (List.suffix_nil.1 h)
      · rw [hempty q hq] at h
        cases h
    have hne : ∀ e ∈ m.entries, staged (target [] e) ≠ [] := by
      intro e he h
      have := congrArg List.length h
      rw [length_staged] at this
      exact (target_ne_nil (hm.entry e he) : target [] e ≠ []) (List.length_eq_zero_iff.1 this)
    obtain ⟨fs₃, hrun₃, hu⟩ := entries_run hm hi hres
      ⟨hl₂, hroot _ (by simp), hroot _ (by simp [staged]), fun e he _ => hroot _ (hne e he)⟩
    exact ⟨fs₃, hrun₃, hu.links, fs₃.look_root, hu.stamp, hu.stagedStamp⟩
  obtain ⟨fs', hrun, hl', -, hcontent⟩ := install_runs_of hm hl hrun₁ hdir₁ hstamp₁
  refine ⟨fs', hrun, ?_⟩
  rw [isUpToDate, stampVersion_eq hl', hcontent, Option.map_some, decode_encode hi.ascii, hm.version_trim]
  simp

/-! ## No less -/

/-- A trim that drops nothing. -/
theorem trim_eq_of_length {s : Text} (h : (trim s).length = s.length) : trim s = s := by
  have hsuf := List.dropWhile_suffix (l := s) (fun c : Char => decide (c.toNat ≤ 32))
  have hpre := List.rdropWhile_prefix (fun c : Char => decide (c.toNat ≤ 32)) (s.dropWhile (·.toNat ≤ 32))
  have h1 := hsuf.length_le
  have h2 := hpre.length_le
  unfold trim at h ⊢
  have hdrop : s.dropWhile (·.toNat ≤ 32) = s := hsuf.eq_of_length (by omega)
  rw [hpre.eq_of_length (by omega), hdrop]

/-- Only an ASCII version is read back from its stamp. -/
theorem isAscii_of_decode {v : Text} (h : trim (decodeAscii (encodeAscii v)) = v) : isAscii v = true := by
  have hlen : (decodeAscii (encodeAscii v)).length = v.length := by simp [decodeAscii, encodeAscii]
  have heq : decodeAscii (encodeAscii v) = v := by
    rw [← trim_eq_of_length (s := decodeAscii (encodeAscii v)) (by rw [h, hlen]), h]
  unfold decodeAscii encodeAscii at heq
  rw [List.map_map] at heq
  simp only [isAscii, List.all_eq_true, decide_eq_true_eq]
  intro c hc
  by_contra hbig
  -- such a character comes back as a question mark
  have hid : ∀ x ∈ v, ((fun b : UInt8 => if b.toNat < 128 then Char.ofNat b.toNat else Char.ofNat 0xFFFD) ∘
      fun c : Char => if c.toNat < 128 then UInt8.ofNat c.toNat else 63) x = id x :=
    List.map_inj_left.1 (heq.trans (List.map_id v).symm)
  have hq := hid c hc
  simp only [Function.comp, if_neg hbig, id] at hq
  rw [← hq] at hbig
  exact hbig (by decide)

/-- What the loop has seen so far, from an empty directory. -/
structure InOrder (hash : Bytes → Text) (m : Manifest) (done : List Entry) (fs : Tree) : Prop where
  links : fs.NoLinks
  inPlace : ∀ e ∈ done, InPlace hash [] fs e
  todo : ∀ e ∈ m.entries, e ∉ done → fs.look (target [] e) = none
  pairwise : done.Pairwise fun a b => ¬ staged (target [] b) <:+ (target [] a).tail

theorem entries_end (hm : m.Valid) :
    Ends (InOrder hash m []) (m.entries.forM (installEntry hash [] res)) (fun _ => InOrder hash m m.entries) := by
  refine Under.forM fun done e todo hsplit => Under.of_forall fun s hs => ?_
  have he : e ∈ m.entries := by simp [hsplit]
  have hv := hm.entry e he
  have hnew := hm.notMem_before hsplit
  have hnone := hs.todo e he hnew
  by_cases hbelow : ∃ a ∈ done, staged (target [] e) <:+ (target [] a).tail
  · -- an earlier entry has made a directory of the temporary file
    obtain ⟨a, ha, hsuf⟩ := hbelow
    have hdir : s.look (staged (target [] e)) = some .dir := by
      obtain ⟨c, hc, -⟩ := hs.inPlace a ha
      refine FS.look_suffix (p := target [] a) ?_ (hsuf.trans (List.tail_suffix _)) ?_
      · intro h
        rw [contentAt, h] at hc
        cases hc
      · intro h
        rw [h] at hsuf
        have hne : target [] a ≠ [] := target_ne_nil (hm.entry a (by simp [hsplit, ha]))
        have := hsuf.length_le
        rw [List.length_tail] at this
        have := List.length_pos_of_ne_nil hne
        omega
    have hleads : (∃ s', Runs (installEntry hash [] res e) s () s' ∧ Installs hash [] e s s' ∧ InPlace hash [] s e) ∨ _ :=
      installEntry_leads hv hs.links s.look_root
    rcases hleads with ⟨-, -, -, c, hc, -⟩ | ⟨s₂, hlead, hway⟩
    · rw [contentAt, hnone] at hc
      cases hc
    · have hne : staged (target [] e) ≠ target [] e := fun h => target_ne_staged hm he h.symm
      have hdir₂ : s₂.look (staged (target [] e)) = some .dir := by
        rw [hway.other, hdir]
        · exact fun h => hne (h.eq_of_length (length_staged _))
        · exact fun h => hne (h.eq_of_length (length_staged _).symm).symm
      exact hlead.ends ((extract_refuses hway.links hdir₂).weaken (fun _ => id) (fun _ _ h => h.elim) fun _ => id)
  · refine (installEntry_ends hv hs.links s.look_root).weaken (fun _ => id) (fun _ s' hin => ?_) fun _ => id
    refine ⟨hin.links, ?_, ?_, ?_⟩
    · intro a ha
      rw [List.mem_append, List.mem_singleton] at ha
      rcases ha with ha | rfl
      · have hae : a ≠ e := by
          rintro rfl
          exact hnew ha
        exact (hs.inPlace a ha).congr (hin.other_target hm he (by simp [hsplit, ha]) hae)
      · obtain ⟨d, hd, hh, -⟩ := hin.file
        exact ⟨d.content, contentAt_of_file hd, hh⟩
    · intro b hb hnb
      rw [List.mem_append, List.mem_singleton, not_or] at hnb
      rw [hin.other_target hm he hb hnb.2]
      exact hs.todo b hb hnb.1
    · rw [List.pairwise_append]
      refine ⟨hs.pairwise, by simp, fun a ha b hb => ?_⟩
      rw [List.mem_singleton.1 hb]
      exact fun h => hbelow ⟨a, ha, h⟩

/-- A manifest whose install in an empty directory returns and is believed is such a manifest. -/
theorem installable_of_upToDate (hm : m.Valid) (hl : fs.NoLinks) (hempty : ∀ q, q ≠ [] → fs.look q = none) :
    Ends (· = fs) (install hash [] m res) (fun _ s => isUpToDate [] m.version s = true → Installable m) := by
  have hopen : Open fs [] := fun q hq => .inr (List.suffix_nil.1 hq ▸ fs.look_root)
  have hpair : Ends (· = fs) (installFiles hash [] m res)
      (fun _ _ => m.entries.Pairwise fun a b => ¬ staged (target [] b) <:+ (target [] a).tail) := by
    obtain ⟨fs₁, hrun₁, hl₁, hlook₁⟩ := ensureDir_runs "cannot create installDir: " hl hopen
    obtain ⟨fs₂, hrun₂, hs₂, -⟩ :=
      cleanStaleNewRecursive_runs _ [] fs₁ hl₁ fs₁.look_root (reaches_walkDepth fs₁ [])
    have hstart : InOrder hash m [] fs₂ := by
      refine ⟨hs₂.links, by simp, fun e he _ => ?_, List.Pairwise.nil⟩
      have hne : target [] e ≠ [] := target_ne_nil (hm.entry e he)
      have hnone : fs₁.look (target [] e) = none := by
        rw [hlook₁, if_neg fun h => hne (List.suffix_nil.1 h), hempty _ hne]
      by_contra h
      exact hs₂.ne_none h hnone
    unfold installFiles
    refine Leads.ends (hrun₁.leads (Runs.peek.leads (hrun₂.leads (Leads.refl _ _)))) ?_
    refine ((entries_end hm).weaken ?_ (fun _ _ => id) fun _ => id).bind fun _ => ?_
    · rintro s rfl
      exact hstart
    · refine Under.of_forall fun s hs => ?_
      have hconst : ∀ {α : Type} (x : Install α), Ends (· = s) x
          (fun _ _ => m.entries.Pairwise fun a b => ¬ staged (target [] b) <:+ (target [] a).tail) :=
        fun x => Under.const hs.pairwise
      exact hconst _
  have hkeeps : Ends (· = fs) (installFiles hash [] m res) (fun _ s => s.NoLinks ∧ (∀ e ∈ m.entries, InPlace hash [] s e) ∧
      contentAt s (staged [stampName]) = some (encodeAscii m.version)) :=
    ((installFiles_keeps hm res).under fs).weaken (fun s hs => ⟨hs, hs ▸ hl⟩) (fun _ _ => And.right) fun _ _ => trivial
  unfold install
  refine (hkeeps.and hpair).bind fun _ => Under.of_forall ?_
  rintro s ⟨⟨hls, hin, hcontent⟩, hpairwise⟩
  have hfile : ∀ e ∈ m.entries, s.look (target [] e) ≠ none := by
    intro e he h
    obtain ⟨c, hc, -⟩ := hin e he
    rw [contentAt, h] at hc
    cases hc
  -- above an entry in place there are directories
  have habove : ∀ p, (∃ e ∈ m.entries, p <:+ (target [] e).tail) → s.look p = some .dir := by
    rintro p ⟨e, he, hsuf⟩
    refine FS.look_suffix (hfile e he) (hsuf.trans (List.tail_suffix _)) ?_
    rintro rfl
    have hne : target [] e ≠ [] := target_ne_nil (hm.entry e he)
    have := hsuf.length_le
    rw [List.length_tail] at this
    have := List.length_pos_of_ne_nil hne
    omega
  have hstagedStamp : ∀ e ∈ m.entries, ¬ staged [stampName] <:+ (target [] e).tail := by
    intro e he hsuf
    rw [contentAt, habove _ ⟨e, he, hsuf⟩] at hcontent
    cases hcontent
  by_cases hdir : s.look [stampName] = some .dir
  · refine (renameStamp_into hls hdir).weaken (fun _ => id) ?_ fun _ => id
    rintro - s' ⟨hl', hd'⟩ hup
    rw [isUpToDate, stampVersion_eq hl', contentAt, hd'] at hup
    cases hup
  · obtain ⟨d, hd, hdc⟩ : ∃ d, s.look (staged [stampName]) = some (.file d) ∧ d.content = encodeAscii m.version := by
      unfold contentAt at hcontent
      split at hcontent
      · exact ⟨_, ‹_›, Option.some.inj hcontent⟩
      · cases hcontent
    obtain ⟨s', hrun, hl', hlook⟩ := renameOrThrow_runs hls hd s.look_root hdir
    refine hrun.ends.weaken (fun _ => id) ?_ fun _ => id
    rintro - t ⟨-, rfl⟩ hup
    rw [isUpToDate, stampVersion_eq hl', contentAt_of_file ((hlook _).trans (if_pos rfl)), Option.map_some, hdc,
      decide_eq_true_eq, Option.some.injEq] at hup
    exact ⟨isAscii_of_decode hup, fun e he hsuf => hdir (habove _ ⟨e, he, hsuf⟩), hstagedStamp, hpairwise⟩

end AtRoot

/-! ## Anywhere -/

section Anywhere

variable {hash : Bytes → Text} {m : Manifest} {res : Text → Option Bytes} {dir : Path} {fs : Tree}

theorem made_of_empty (h : fs.list dir = some []) : Made dir fs := by
  simp only [FS.list, Option.bind_eq_some_iff, Option.ite_none_right_eq_some, Option.some.injEq] at h
  obtain ⟨R, hR, hd, hnil⟩ := h
  refine ⟨R, hR, hd, fun n => ?_⟩
  by_contra hn
  rw [← ne_eq, ← FS.mem_children, hnil] at hn
  cases hn

/-- **Which accepted manifests are installable**: into an empty directory, wherever it is, an undisturbed install
with matching resources returns and is believed exactly if the manifest is `Installable`. -/
theorem install_empty_iff {text : Text} (hparse : parseManifest text = .ok m) (hres : Matches hash m res)
    (hempty : fs.list dir = some []) :
    (∃ fs', Returns (install hash dir m res) fs () fs' ∧ isUpToDate dir m.version fs' = true) ↔ Installable m := by
  have hm := parseManifest_valid hparse
  obtain ⟨R, t, hseen, hnone⟩ := (made_of_empty hempty).seen
  constructor
  · rintro ⟨fs', hrun, hup⟩
    obtain ⟨t', hseen', hi⟩ :=
      ((install_sim hash res hm).ends hseen (installable_of_upToDate hm hseen.links hnone)).returns rfl hrun
    exact hi (by rw [← isUpToDate_seen hseen', hup])
  · intro hi
    obtain ⟨t', hrun, hup⟩ := hi.runs hm hseen.links hnone hres
    obtain ⟨fs', hrun', hseen'⟩ := (install_sim hash res hm).returns hseen hrun.returns
    exact ⟨fs', hrun', by rw [isUpToDate_seen hseen', hup]⟩

end Anywhere

/-- A manifest text that lists files of one content. -/
def listingText (version : String) (paths : List String) : Text :=
  ("version " ++ version ++ "\n").toList ++ paths.flatMap fun p => p.toList ++ ' ' :: demoHash [1] ++ " 755\n".toList

/-- What it is parsed to. -/
def listing (version : String) (paths : List String) : Manifest :=
  ⟨version.toList, paths.map fun p => ⟨p.toList, demoHash [1], "755".toList⟩⟩

theorem matches_listing (version : String) (paths : List String) :
    Matches demoHash (listing version paths) fun _ => some [1] := by
  intro e he
  obtain ⟨p, -, rfl⟩ := List.mem_map.1 he
  exact ⟨[1], rfl, rfl⟩

/-- A file system with an empty install directory. -/
def emptyApp : Tree := (FS.empty.mkdir demoDir).getD FS.empty

/-- A nested path next to a file. -/
theorem install_empty_iff_nested :
    emptyApp.list demoDir = some [] ∧
    ∃ fs', Returns (install demoHash demoDir (listing "1" ["a", "a.new/b", "c/d"]) fun _ => some [1]) emptyApp () fs' ∧
      isUpToDate demoDir (listing "1" ["a", "a.new/b", "c/d"]).version fs' = true := by
  have hempty : emptyApp.list demoDir = some [] := by decide +kernel
  have hparse : parseManifest (listingText "1" ["a", "a.new/b", "c/d"]) = .ok (listing "1" ["a", "a.new/b", "c/d"]) := by
    decide +kernel
  refine ⟨hempty, (install_empty_iff hparse (matches_listing _ _) hempty).2 ⟨?_, ?_, ?_, ?_⟩⟩ <;> decide +kernel

theorem not_upToDate {x : Install Unit} {dir : Path} {v : Text} {fs : Tree}
    (h : (match x .quiet (fs, 0) with
      | (.ok _, s) => isUpToDate dir v s.1
      | _ => false) = false) : ¬ ∃ fs', Returns x fs () fs' ∧ isUpToDate dir v fs' = true := by
  rintro ⟨fs', ⟨n, hn⟩, hup⟩
  rw [hn] at h
  exact Bool.false_ne_true (h.symm.trans hup)

/-- **Accepted and not installable.** An entry below another's temporary file that comes first, one below the
staged stamp, one below the stamp, and a version that the stamp cannot hold. -/
theorem accepted_not_installable :
    emptyApp.list demoDir = some [] ∧
    ∀ l ∈ [("1", ["a.new/b", "a"]), ("1", [".installed-version.new/a"]), ("1", [".installed-version/a"]), ("é", ["a"])],
      parseManifest (listingText l.1 l.2) = .ok (listing l.1 l.2) ∧
      Matches demoHash (listing l.1 l.2) (fun _ => some [1]) ∧
      ¬ ∃ fs', Returns (install demoHash demoDir (listing l.1 l.2) fun _ => some [1]) emptyApp () fs' ∧
        isUpToDate demoDir (listing l.1 l.2).version fs' = true := by
  refine ⟨by decide +kernel, fun l hl => ⟨?_, matches_listing _ _, not_upToDate ?_⟩⟩
  · revert l
    decide +kernel
  · revert l
    decide +kernel

end ShairKindle.Payload
