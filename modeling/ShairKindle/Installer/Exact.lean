import ShairKindle.Installer.Installable

/-!
# What an install leaves

An install that returns undisturbed has put every entry in place, pruned what the manifest does not list,
and set the stamp. Whether the tree is then exactly the manifest's depends on two things the installer does
not look after. A file that has its entry's hash is not touched, so it keeps the mode it had (`installEntry`
returns at :384, before `chmod`). And an entry below the stamp's path makes a directory of it: the rename
fails, `mv` drops the staged stamp into the directory, and `install` returns all the same.
-/

namespace ShairKindle.Payload

open Crash Crash.Prog FileTree

/-- The permission bits a mode stands for. -/
def octal (mode : Text) : Nat := mode.foldl (fun n ch => 8 * n + (ch.toNat - '0'.toNat)) 0

/-- The tree under the install directory is the manifest's: every entry with its hash and mode and the stamp,
no other file, and no empty directory. -/
structure Exact (hash : Bytes → Text) (dir : Path) (m : Manifest) (fs : Tree) : Prop where
  entry : ∀ e ∈ m.entries, ∃ d, fs.stat (target dir e) = some (.file d) ∧ hash d.content = e.sha256 ∧
    octal d.mode = octal e.mode
  stamp : ∃ d, fs.stat (stampName :: dir) = some (.file d) ∧ d.content = encodeAscii m.version
  only : ∀ q d, q ≠ [] → fs.stat (q ++ dir) = some (.file d) → q = [stampName] ∨ ∃ e ∈ m.entries, q = target [] e
  noEmpty : ∀ q, q ≠ [] → fs.stat (q ++ dir) = some .dir → fs.list (q ++ dir) ≠ some []

/-- A file that has an entry's hash has its mode too, and no entry lies below the stamp. -/
structure Faithful (hash : Bytes → Text) (dir : Path) (m : Manifest) (fs : Tree) : Prop where
  modes : ∀ e ∈ m.entries, ∀ d, fs.stat (target dir e) = some (.file d) → hash d.content = e.sha256 →
    octal d.mode = octal e.mode
  stamp : ∀ e ∈ m.entries, ¬ [stampName] <:+ (target [] e).tail

/-! ## Names and relative paths -/

/-- A name a file can have. -/
def FileName (n : Text) : Prop := n ≠ [] ∧ '/' ∉ n

/-- Every node has a name that a file can have, and so has whatever is above it. -/
def Named (fs : Tree) : Prop := ∀ q, fs.look q ≠ none → ∀ n ∈ q, FileName n

theorem splitOn_joinSlash {cs : List Text} (hne : cs ≠ []) (h : ∀ c ∈ cs, FileName c) : (joinSlash cs).splitOn '/' = cs :=
  List.splitOn_intercalate '/' (fun c hc => (h c hc).2) hne

theorem fileName_of_mem_target {e : Entry} (he : e.Valid) {n : Text} (hn : n ∈ target [] e) : FileName n := by
  have hc : n ∈ e.relPath.splitOn '/' := by
    rw [← components_eq he.relPath]
    simpa [target] using hn
  obtain ⟨hne, hv⟩ := validRelPath_splitOn he.relPath n hc
  refine ⟨hne, fun hslash => ?_⟩
  simp only [validComponent, Bool.and_eq_true, List.all_eq_true] at hv
  have := hv.2 '/' hslash
  revert this
  decide

/-- A path is a temporary file's if its relative path ends so. -/
theorem isTmp_of_endsWith {cs : List Text} (hne : cs ≠ []) (h : endsWith (joinSlash cs) newSuffix = true) :
    IsTmp cs.reverse := by
  obtain ⟨cs, c, rfl⟩ := (List.eq_nil_or_concat cs).resolve_left hne
  rw [List.concat_eq_append] at h ⊢
  refine ⟨c, cs.reverse, by simp, ?_⟩
  cases cs with
  | nil => simpa [joinSlash, List.intercalate_singleton] using h
  | cons b bs =>
    rw [joinSlash_append (by simp) (by simp)] at h
    have hc : joinSlash [c] = c := by simp [joinSlash, List.intercalate_singleton]
    rw [hc] at h
    simp only [endsWith, List.isSuffixOf_iff_suffix] at h ⊢
    rcases List.suffix_or_suffix_of_suffix h (List.suffix_append (joinSlash (b :: bs) ++ ['/']) c |>.trans (by simp)) with
      h' | h'
    · exact h'
    · -- a shorter last name would put the slash into the suffix
      by_contra hnot
      have hlt : c.length < newSuffix.length := by
        refine lt_of_le_of_ne h'.length_le fun heq => hnot ?_
        rw [h'.eq_of_length heq]
      have hslash : '/' :: c <:+ newSuffix := by
        have hlast : '/' :: c <:+ joinSlash (b :: bs) ++ '/' :: c := List.suffix_append _ _
        refine List.suffix_of_suffix_length_le hlast h ?_
        simpa using hlt
      have : '/' ∈ newSuffix := hslash.subset (by simp)
      revert this
      decide

/-! ## The entry loop -/

section AtRoot

variable {hash : Bytes → Text} {m : Manifest} {res : Text → Option Bytes} {fs : Tree}

/-- Where an entry stands: it is in place, with its mode unless it was in place in `fs₁`. -/
def Placed (hash : Bytes → Text) (fs₁ fs : Tree) (e : Entry) : Prop :=
  ∃ d, fs.look (target [] e) = some (.file d) ∧ hash d.content = e.sha256 ∧
    (fs₁.look (target [] e) = some (.file d) ∨ d.mode = e.mode ∧ ¬ InPlace hash [] fs₁ e)

/-- What the loop keeps, from a tree `fs₁` without temporary files. -/
structure Placing (hash : Bytes → Text) (m : Manifest) (fs₁ : Tree) (done : List Entry) (fs : Tree) : Prop where
  links : fs.NoLinks
  named : Named fs
  noTmp : ∀ q, IsTmp q → ∀ x, fs.look q ≠ some (.file x)
  placed : ∀ e ∈ done, Placed hash fs₁ fs e
  todo : ∀ e ∈ m.entries, e ∉ done → fs.look (target [] e) = fs₁.look (target [] e)

theorem placing_entries (hm : m.Valid) (fs₁ : Tree) :
    Ends (Placing hash m fs₁ []) (m.entries.forM (installEntry hash [] res)) (fun _ => Placing hash m fs₁ m.entries) := by
  refine Under.forM fun done e todo hsplit => Under.of_forall fun s hs => ?_
  have he : e ∈ m.entries := by simp [hsplit]
  have hv := hm.entry e he
  have hnew := hm.notMem_before hsplit
  have hbefore := hs.todo e he hnew
  refine (installEntry_ends hv hs.links s.look_root).weaken (fun _ => id) (fun _ s' hin => ?_) fun _ => id
  refine ⟨hin.links, ?_, ?_, ?_, ?_⟩
  · intro q hq n hn
    rcases hin.nodes q hq with h | h
    · exact hs.named q h n hn
    · exact fileName_of_mem_target hv (h.subset hn)
  · intro q hq x hx
    refine hs.noTmp q hq x (hin.files q x ?_ hx)
    rintro rfl
    exact target_not_isTmp hv hq
  · intro a ha
    rw [List.mem_append, List.mem_singleton] at ha
    rcases ha with ha | rfl
    · have hae : a ≠ e := by
        rintro rfl
        exact hnew ha
      obtain ⟨d, hd, hrest⟩ := hs.placed a ha
      exact ⟨d, by rw [hin.other_target hm he (by simp [hsplit, ha]) hae, hd], hrest⟩
    · obtain ⟨d, hd, hh, hold⟩ := hin.file
      refine ⟨d, hd, hh, ?_⟩
      rcases hold with h | ⟨hmode, hmissing⟩
      · exact .inl (hbefore ▸ h)
      · exact .inr ⟨hmode, fun h => hmissing (h.congr hbefore)⟩
  · intro b hb hnb
    rw [List.mem_append, List.mem_singleton, not_or] at hnb
    rw [hin.other_target hm he hb hnb.2]
    exact hs.todo b hb hnb.1

/-! ## After pruning -/

/-- The tree between pruning and the stamp. -/
structure Settled (hash : Bytes → Text) (m : Manifest) (fs₁ fs : Tree) : Prop where
  links : fs.NoLinks
  entries : ∀ e ∈ m.entries, Placed hash fs₁ fs e
  only : ∀ q x, fs.look q = some (.file x) → q = [stampName] ∨ ∃ e ∈ m.entries, q = target [] e
  noEmpty : ∀ q, q ≠ [] → fs.look q = some .dir → ∃ n, fs.look (n :: q) ≠ none

theorem prune_settles (hm : m.Valid) {fs₁ : Tree} (h : Placing hash m fs₁ m.entries fs) :
    ∃ fs', Runs (pruneOrphans (m.entries.map (·.relPath)) (walkDepth fs) [] []) fs () fs' ∧ Settled hash m fs₁ fs' := by
  obtain ⟨fs', hrun, hs, -, hpruned⟩ :=
    pruneOrphans_runs (m.entries.map (·.relPath)) _ [] [] fs h.links fs.look_root (reaches_walkDepth fs [])
  -- a path below the root, as the walk comes to it
  have hpath : ∀ q : Path, q ≠ [] → ∃ (n : Text) (rels : List Text), q = rels.reverse ++ [n] ∧ q.reverse.foldl relChild [] =
      rels.foldl relChild (relChild [] n) := by
    intro q hq
    cases hr : q.reverse with
    | nil => exact absurd (List.reverse_eq_nil_iff.1 hr) hq
    | cons n rels => exact ⟨n, rels, by rw [← List.reverse_reverse q, hr, List.reverse_cons], rfl⟩
  refine ⟨fs', hrun, hs.links, fun e he => ?_, fun q x hx => ?_, fun q hq hd => ?_⟩
  · obtain ⟨d, hd, hrest⟩ := h.placed e he
    refine ⟨d, ?_, hrest⟩
    obtain ⟨n, rels, hq, hrel⟩ := hpath _ (target_ne_nil (hm.entry e he) : target [] e ≠ [])
    rw [hq] at hd ⊢
    refine (hpruned n).kept rels d hd (.inr (.inr ?_))
    rw [← hrel, target, List.append_nil, List.reverse_reverse, foldl_relChild_components (hm.entry e he)]
    simpa using ⟨e, he, rfl⟩
  · have hqne : q ≠ [] := by
      rintro rfl
      rw [fs'.look_root] at hx
      cases hx
    have hnames : ∀ c ∈ q.reverse, FileName c := fun c hc =>
      h.named q (hs.ne_none (by simp [hx])) c (List.mem_reverse.1 hc)
    have hne : q.reverse ≠ [] := by simpa using hqne
    obtain ⟨n, rels, hq, hrel⟩ := hpath q hqne
    have hkept := (hpruned n).files rels x (hq ▸ hx)
    rw [← hrel, foldl_relChild fun c hc => (hnames c hc).1] at hkept
    rcases hkept with hk | hk | hk
    · refine .inl ?_
      have hsplit := splitOn_joinSlash hne hnames
      rw [hk] at hsplit
      rw [← List.reverse_reverse q, ← hsplit]
      decide +kernel
    · -- temporary files are gone
      exfalso
      have htmp := isTmp_of_endsWith hne hk
      rw [List.reverse_reverse] at htmp
      exact h.noTmp q htmp x (hs.eq_some hx)
    · refine .inr ?_
      simp only [List.contains_eq_mem, decide_eq_true_eq, List.mem_map] at hk
      obtain ⟨e, he, hk⟩ := hk
      refine ⟨e, he, ?_⟩
      have hsplit := splitOn_joinSlash hne hnames
      rw [← hk, ← components_eq (hm.entry e he).relPath] at hsplit
      rw [target, hsplit, List.reverse_reverse, List.append_nil]
  · obtain ⟨n, rels, hq, -⟩ := hpath q hq
    rw [hq] at hd ⊢
    exact (hpruned n).dirs rels hd

/-- Below a directory there is a file. -/
theorem Settled.exists_file {fs₁ : Tree} (h : Settled hash m fs₁ fs) {q : Path} (hq : q ≠ []) (hd : fs.look q = some .dir) :
    ∃ r x, r ≠ [] ∧ fs.look (r ++ q) = some (.file x) := by
  -- by the depth that is left: paths are shorter than there are nodes
  obtain ⟨k, hk⟩ : ∃ k, fs.nodes.entries.length = q.length + k := by
    have := FS.length_lt_of_look (by simp [hd] : fs.look q ≠ none)
    exact ⟨fs.nodes.entries.length - q.length, by omega⟩
  induction k generalizing q with
  | zero =>
    have := FS.length_lt_of_look (by simp [hd] : fs.look q ≠ none)
    omega
  | succ k ih =>
    obtain ⟨n, hn⟩ := h.noEmpty q hq hd
    cases hx : fs.look (n :: q) with
    | none => exact absurd hx hn
    | some x =>
      cases x with
      | file x => exact ⟨[n], x, by simp, hx⟩
      | link t => exact absurd hx (h.links _ t)
      | dir =>
        obtain ⟨r, x, hr, hfile⟩ := ih (by simp) hx (by rw [List.length_cons]; omega)
        exact ⟨r ++ [n], x, by simp, by simpa using hfile⟩

/-- The stamp's path is a directory exactly if an entry lies below it. -/
theorem Settled.stamp_dir {fs₁ : Tree} (h : Settled hash m fs₁ fs) :
    fs.look [stampName] = some .dir ↔ ∃ e ∈ m.entries, [stampName] <:+ (target [] e).tail := by
  constructor
  · intro hd
    obtain ⟨r, x, hr, hfile⟩ := h.exists_file (by simp) hd
    rcases h.only _ x hfile with heq | ⟨e, he, heq⟩
    · exact absurd (by simpa using heq) hr
    · refine ⟨e, he, ?_⟩
      obtain ⟨n, r, rfl⟩ := List.exists_cons_of_ne_nil hr
      rw [← heq, List.cons_append, List.tail_cons]
      exact List.suffix_append _ _
  · rintro ⟨e, he, hsuf⟩
    obtain ⟨d, hd, -⟩ := h.entries e he
    refine FS.look_suffix (by simp [hd]) (hsuf.trans (List.tail_suffix _)) ?_
    intro heq
    rw [← heq] at hsuf
    simpa using hsuf.length_le

/-! ## The stamp -/

/-- The staged stamp is written where there was nothing. -/
structure Staged (m : Manifest) (fs fs' : Tree) : Prop where
  links : fs'.NoLinks
  look : ∃ d, d.content = encodeAscii m.version ∧
    ∀ q, fs'.look q = if q = staged [stampName] then some (.file d) else fs.look q
  before : fs.look (staged [stampName]) = none

theorem stagedStamp_isTmp : IsTmp (staged [stampName]) := staged_isTmp (by simp)

/-- Writing the staged stamp, if it returns. -/
theorem Settled.write_ends {fs₁ : Tree} (hm : m.Valid) (h : Settled hash m fs₁ fs) :
    Ends (· = fs) (writeFileSynced (staged [stampName]) (encodeAscii m.version)) (fun _ fs' => Staged m fs fs') := by
  have hfile : ∀ x, fs.look (staged [stampName]) ≠ some (.file x) := by
    intro x hx
    rcases h.only _ x hx with heq | ⟨e, he, heq⟩
    · exact stamp_not_isTmp (heq ▸ stagedStamp_isTmp)
    · exact target_not_isTmp (hm.entry e he) (heq ▸ stagedStamp_isTmp)
  by_cases hdir : fs.look (staged [stampName]) = some .dir
  · -- an entry below the staged stamp: the write fails
    unfold writeFileSynced mustDo
    refine Under.bind (Q := fun b _ => b = false) ?_ fun b => Under.ite (fun hb => ?_) fun _ => Under.throw fun _ _ => trivial
    · refine Under.attempt quiet_calm (fun _ _ => trivial) ?_ fun _ _ _ => rfl
      rintro s s' rfl hw
      rw [h.links.write] at hw
      obtain ⟨old, hold, -⟩ := FS.put_spec hw
      rw [hdir] at hold
      cases old <;> cases hold
    · rintro _ - s hs
      rw [hb] at hs
      cases hs
  · have hnone : fs.look (staged [stampName]) = none := by
      cases hx : fs.look (staged [stampName]) with
      | none => rfl
      | some x =>
        cases x with
        | dir => exact absurd hx hdir
        | file d => exact absurd hx (hfile d)
        | link t => exact absurd hx (h.links _ t)
    obtain ⟨fs', hwrite, hl', old, hlook⟩ := write_runs
      (f := fun old => ⟨encodeAscii m.version, (old.map (·.mode)).getD newFileMode⟩) h.links fs.look_root hdir
    refine (mustDo_runs hwrite).ends.weaken (fun _ => id) ?_ fun _ => id
    rintro - _ ⟨-, rfl⟩
    exact ⟨hl', ⟨_, rfl, hlook⟩, hnone⟩

/-- The stamp set over a settled tree makes it exact, if the modes are right. -/
theorem Settled.exact_iff {fs₁ fs' : Tree} (h : Settled hash m fs₁ fs) (hl' : fs'.NoLinks) {d : FileData}
    (hd : d.content = encodeAscii m.version) (hm : m.Valid)
    (hlook : ∀ q, fs'.look q = if q = [stampName] then some (.file d) else fs.look q) :
    Exact hash [] m fs' ↔ ∀ e ∈ m.entries, ∀ d, fs.look (target [] e) = some (.file d) → octal d.mode = octal e.mode := by
  have htarget : ∀ e ∈ m.entries, fs'.look (target [] e) = fs.look (target [] e) := by
    intro e he
    rw [hlook, if_neg (target_ne_stamp (hm.entry e he))]
  constructor
  · intro hex e he x hx
    obtain ⟨y, hy, -, hmode⟩ := hex.entry e he
    rw [hl'.stat, htarget e he, hx, Option.some.injEq, Node.file.injEq] at hy
    rwa [hy]
  · intro hmodes
    refine ⟨fun e he => ?_, ⟨d, ?_, hd⟩, fun q x hq hx => ?_, fun q hq hx => ?_⟩
    · obtain ⟨x, hx, hh, -⟩ := h.entries e he
      exact ⟨x, by rw [hl'.stat, htarget e he, hx], hh, hmodes e he x hx⟩
    · rw [hl'.stat, hlook, if_pos rfl]
    · rw [List.append_nil, hl'.stat, hlook] at hx
      split at hx
      · exact .inl ‹_›
      · exact h.only q x hx
    · rw [List.append_nil, hl'.stat, hlook] at hx
      split at hx
      · cases hx
      next hqs =>
      obtain ⟨n, hn⟩ := h.noEmpty q hq hx
      have hthere : fs'.look (n :: q) ≠ none := by
        rw [hlook]
        split
        · simp
        · exact hn
      rw [List.append_nil, hl'.list, hlook, if_neg hqs, if_pos hx]
      intro hnil
      have := FS.mem_children.2 hthere
      rw [Option.some.inj hnil] at this
      cases this

/-- Setting the stamp, if it returns: the tree is exact if and only if no entry lies below the stamp and the
modes are right. -/
theorem Settled.rename_ends {fs₁ fs₅ : Tree} (hm : m.Valid) (h : Settled hash m fs₁ fs) (hst : Staged m fs fs₅) :
    Ends (· = fs₅) (renameOrThrow (staged [stampName]) [stampName]) (fun _ fs' => Exact hash [] m fs' ↔
      (∀ e ∈ m.entries, ∀ d, fs.look (target [] e) = some (.file d) → octal d.mode = octal e.mode) ∧
      ∀ e ∈ m.entries, ¬ [stampName] <:+ (target [] e).tail) := by
  obtain ⟨d, hd, hlook⟩ := hst.look
  have hne : [stampName] ≠ staged [stampName] := by
    intro heq
    have htmp := stagedStamp_isTmp
    rw [← heq] at htmp
    exact stamp_not_isTmp htmp
  have hsame : fs₅.look [stampName] = fs.look [stampName] := by rw [hlook, if_neg hne]
  by_cases hdir : fs.look [stampName] = some .dir
  · refine (renameStamp_into hst.links (hsame.trans hdir)).weaken (fun _ => id) ?_ fun _ => id
    rintro - fs' ⟨hl', hd'⟩
    obtain ⟨e, he, hsuf⟩ := h.stamp_dir.1 hdir
    refine ⟨fun hex => ?_, fun hf => absurd hsuf (hf.2 e he)⟩
    obtain ⟨x, hx, -⟩ := hex.stamp
    rw [hl'.stat, hd'] at hx
    cases hx
  · obtain ⟨fs', hrun, hl', hlook'⟩ := renameOrThrow_runs hst.links ((hlook _).trans (if_pos rfl)) fs₅.look_root
      (hsame ▸ hdir : fs₅.look [stampName] ≠ some .dir)
    refine hrun.ends.weaken (fun _ => id) ?_ fun _ => id
    rintro - _ ⟨-, rfl⟩
    rw [h.exact_iff hl' hd hm fun q => ?_]
    · refine ⟨fun hmodes => ⟨hmodes, fun e he hsuf => hdir (h.stamp_dir.2 ⟨e, he, hsuf⟩)⟩, And.left⟩
    · rw [hlook']
      refine if_congr Iff.rfl rfl ?_
      split
      · next hq =>
        have hbefore : fs.look q = none := hq ▸ hst.before
        exact hbefore.symm
      · next hq => exact (hlook q).trans (if_neg hq)

/-- **What an undisturbed install leaves**, at the root of a tree without links. -/
theorem exact_iff_faithful (hm : m.Valid) (hl : fs.NoLinks) (hn : Named fs) :
    Ends (· = fs) (install hash [] m res) (fun _ s => Exact hash [] m s ↔ Faithful hash [] m fs) := by
  have hopen : Open fs [] := fun q hq => .inr (List.suffix_nil.1 hq ▸ fs.look_root)
  obtain ⟨fs₀, hrun₀, hl₀, hlook₀⟩ := ensureDir_runs "cannot create installDir: " hl hopen
  have hsame₀ : ∀ q, fs₀.look q = fs.look q := by
    intro q
    rw [hlook₀]
    split
    · next hq => rw [List.suffix_nil.1 hq, fs.look_root]
    · rfl
  obtain ⟨fs₁, hrun₁, hs₁, hgone⟩ :=
    cleanStaleNewRecursive_runs _ [] fs₀ hl₀ fs₀.look_root (reaches_walkDepth fs₀ [])
  have hstart : Placing hash m fs₁ [] fs₁ := by
    refine ⟨hs₁.links, fun q hq => ?_, fun q hq x hx => ?_, by simp, fun _ _ _ => rfl⟩
    · exact hn q (hsame₀ q ▸ hs₁.ne_none hq)
    · obtain ⟨n, p, rfl, hn⟩ := hq
      obtain ⟨cs, c, hc⟩ := (List.eq_nil_or_concat (n :: p)).resolve_left (by simp)
      refine hgone c _ ⟨cs, ?_⟩ ⟨n, p, rfl, hn⟩ x hx
      rw [hc, List.concat_eq_append]
  have hends : Ends (· = fs) (install hash [] m res) (fun _ s => ∃ fs₄, Settled hash m fs₁ fs₄ ∧ (Exact hash [] m s ↔
      (∀ e ∈ m.entries, ∀ d, fs₄.look (target [] e) = some (.file d) → octal d.mode = octal e.mode) ∧
      ∀ e ∈ m.entries, ¬ [stampName] <:+ (target [] e).tail)) := by
    have hfiles : Ends (· = fs) (installFiles hash [] m res) (fun _ s => ∃ fs₄, Settled hash m fs₁ fs₄ ∧ Staged m fs₄ s) := by
      unfold installFiles
      refine Leads.ends (hrun₀.leads (Runs.peek.leads (hrun₁.leads (Leads.refl _ _)))) ?_
      refine ((placing_entries hm fs₁).weaken ?_ (fun _ _ => id) fun _ => id).bind fun _ => Under.of_forall fun s hs => ?_
      · rintro s rfl
        exact hstart
      obtain ⟨fs₄, hrun₄, hset⟩ := prune_settles hm hs
      refine Leads.ends (Runs.peek.leads (hrun₄.leads (Leads.refl _ _))) ?_
      exact (hset.write_ends hm).weaken (fun _ => id) (fun _ s' hs' => ⟨fs₄, hset, hs'⟩) fun _ => id
    unfold install
    refine hfiles.bind fun _ => Under.of_forall ?_
    rintro s ⟨fs₄, hset, hst⟩
    exact (hset.rename_ends hm hst).weaken (fun _ => id) (fun _ s' hs' => ⟨fs₄, hset, hs'⟩) fun _ => id
  refine hends.weaken (fun _ => id) ?_ fun _ => id
  rintro - s ⟨fs₄, hset, hiff⟩
  rw [hiff]
  -- an entry keeps the mode it had if it was in place, and gets its own otherwise
  have hbefore : ∀ e ∈ m.entries, fs₁.look (target [] e) = fs.stat (target [] e) := by
    intro e he
    rw [hs₁.rest _ (target_not_isTmp (hm.entry e he)), hsame₀, hl.stat]
  constructor
  · rintro ⟨hmodes, hstamp⟩
    refine ⟨fun e he d hd hh => ?_, hstamp⟩
    obtain ⟨x, hx, -, hold | ⟨-, hmissing⟩⟩ := hset.entries e he
    · rw [hbefore e he, hd, Option.some.injEq, Node.file.injEq] at hold
      exact hmodes e he d (hold ▸ hx)
    · exact absurd ⟨d.content, contentAt_of_file ((hbefore e he).trans hd), hh⟩ hmissing
  · rintro ⟨hmodes, hstamp⟩
    refine ⟨fun e he d hd => ?_, hstamp⟩
    obtain ⟨x, hx, hh, hold | ⟨hmode, -⟩⟩ := hset.entries e he
    · rw [hd, Option.some.injEq, Node.file.injEq] at hx
      subst hx
      exact hmodes e he d (hbefore e he ▸ hold) hh
    · rw [hd, Option.some.injEq, Node.file.injEq] at hx
      rw [hx, hmode]

end AtRoot

/-! ## Anywhere -/

section Anywhere

variable {hash : Bytes → Text} {m : Manifest} {res : Text → Option Bytes} {dir R : Path} {fs s t : Tree}

theorem exact_seen (h : Seen dir R s t) : Exact hash dir m s ↔ Exact hash [] m t := by
  have hstat : ∀ q, s.stat (q ++ dir) = t.stat (q ++ []) := fun q => by rw [List.append_nil, h.stat]
  have hlist : ∀ q, s.list (q ++ dir) = t.list (q ++ []) := fun q => by rw [List.append_nil, h.list]
  have htarget : ∀ e, s.stat (target dir e) = t.stat (target [] e) := fun e => by rw [target_append, h.stat]
  have hstamp : s.stat (stampName :: dir) = t.stat [stampName] := h.stat [stampName]
  constructor
  · rintro ⟨hentry, hst, honly, hempty⟩
    simp only [hstat, hlist, htarget, hstamp] at hentry hst honly hempty
    exact ⟨hentry, hst, honly, hempty⟩
  · rintro ⟨hentry, hst, honly, hempty⟩
    simp only [← hstat, ← hlist, ← htarget, ← hstamp] at hentry hst honly hempty
    exact ⟨hentry, hst, honly, hempty⟩

theorem faithful_seen (h : Seen dir R s t) : Faithful hash dir m s ↔ Faithful hash [] m t := by
  have htarget : ∀ e, s.stat (target dir e) = t.stat (target [] e) := fun e => by rw [target_append, h.stat]
  constructor
  · rintro ⟨hmodes, hstamp⟩
    exact ⟨fun e he d hd => hmodes e he d ((htarget e).trans hd), hstamp⟩
  · rintro ⟨hmodes, hstamp⟩
    exact ⟨fun e he d hd => hmodes e he d ((htarget e).symm.trans hd), hstamp⟩

/-- What is under the directory are files and directories. -/
def Plain (dir : Path) (fs : Tree) : Prop :=
  ∀ R, fs.real dir = some R → ∀ q, fs.look (q ++ R) ≠ none → (∀ l, fs.look (q ++ R) ≠ some (.link l)) ∧ ∀ n ∈ q, FileName n

/-- In a directory that is there. -/
theorem exact_iff_faithful_of_dir (hm : m.Valid) (hp : Plain dir fs) (hd : isDirectory dir fs = true) :
    Ends (· = fs) (install hash dir m res) (fun _ s => Exact hash dir m s ↔ Faithful hash dir m fs) := by
  obtain ⟨R, hR, hlook⟩ : ∃ R, fs.real dir = some R ∧ fs.look R = some .dir := by
    simpa [isDirectory, FS.stat, Option.bind_eq_some_iff] using hd
  have hseen : Seen dir R fs (fs.sub R hlook) := by
    refine seen_sub hR hlook fun q l hl => ?_
    exact (hp R hR q (by simp [hl])).1 l hl
  have hnamed : Named (fs.sub R hlook) := by
    intro q hq
    rw [FS.look_sub] at hq
    exact (hp R hR q hq).2
  refine ((install_sim hash res hm).ends hseen (exact_iff_faithful hm hseen.links hnamed)).weaken (fun _ => id) ?_ fun _ => id
  rintro - s ⟨t', hseen', hiff⟩
  rw [exact_seen hseen', hiff, faithful_seen hseen]

/-- In a directory that is made first. -/
theorem exact_iff_faithful_of_made (hm : m.Valid) (hmade : Made dir s) (hd : isDirectory dir fs = false) :
    Ends (· = s) (install hash dir m res) (fun _ s' => Exact hash dir m s' ↔ Faithful hash dir m fs) := by
  obtain ⟨R, t, hseen, hnone⟩ := hmade.seen
  have hnamed : Named t := by
    intro q hq
    cases q with
    | nil => simp
    | cons n q => exact absurd (hnone (n :: q) (by simp)) hq
  refine ((install_sim hash res hm).ends hseen (exact_iff_faithful hm hseen.links hnamed)).weaken (fun _ => id) ?_ fun _ => id
  rintro - s' ⟨t', hseen', hiff⟩
  rw [exact_seen hseen', hiff]
  -- there is no file under the directory on either side
  have hnofile : ∀ e ∈ m.entries, ∀ d, fs.stat (target dir e) ≠ some (.file d) := by
    intro e he d hfile
    rw [target_append] at hfile
    have hdir : fs.stat dir = some .dir := FS.stat_suffix (target [] e) (target_ne_nil (hm.entry e he)) (by simp [hfile])
    simp [isDirectory, hdir] at hd
  have hnofile' : ∀ e ∈ m.entries, ∀ d, t.stat (target [] e) ≠ some (.file d) := by
    intro e he d
    rw [hseen.links.stat, hnone _ (target_ne_nil (hm.entry e he))]
    simp
  exact ⟨fun h => ⟨fun e he d hd => absurd hd (hnofile e he d), h.stamp⟩,
    fun h => ⟨fun e he d hd => absurd hd (hnofile' e he d), h.stamp⟩⟩

/-- **When an install leaves exactly the manifest**: for an accepted manifest and files and directories under the
install directory, an install that returns undisturbed leaves the manifest's tree if and only if no entry lies below
the stamp and every file that has an entry's hash already has its mode. -/
theorem install_exact_iff {text : Text} (hparse : parseManifest text = .ok m) (hp : Plain dir fs) {fs' : Tree}
    (hrun : Returns (install hash dir m res) fs () fs') : Exact hash dir m fs' ↔ Faithful hash dir m fs := by
  have hm := parseManifest_valid hparse
  by_cases hd : isDirectory dir fs = true
  · exact (exact_iff_faithful_of_dir hm hp hd).returns rfl hrun
  · rw [Bool.not_eq_true] at hd
    have hends : Ends (· = fs) (install hash dir m res) (fun _ s => Exact hash dir m s ↔ Faithful hash dir m fs) := by
      refine install_ends_of_ensureDir ((ensureDir_made _ hd).weaken (fun _ => id) (fun _ s hmade => ?_) fun _ => id)
      refine ⟨?_, exact_iff_faithful_of_made hm hmade hd⟩
      obtain ⟨R, hR, hlook, -⟩ := hmade
      simp [isDirectory, FS.stat, hR, hlook]
    exact hends.returns rfl hrun

end Anywhere

/-! ## A file with the wrong mode -/

/-- `Plain` holds if it holds of the nodes there are. -/
theorem plain_of_keys {dir R : Path} {fs : Tree} (hR : fs.real dir = some R)
    (h : ∀ k ∈ fs.nodes.keys, ∀ q ∈ (strip R k).toList, (match fs.look k with
      | some (.link _) => false
      | _ => true) = true ∧ ∀ n ∈ q, n ≠ [] ∧ '/' ∉ n) : Plain dir fs := by
  intro R' hR' q hq
  obtain rfl : R = R' := Option.some.inj (hR.symm.trans hR')
  obtain ⟨hlink, hnames⟩ := h _ (FS.mem_keys.2 hq) q (by rw [strip_eq_some.2 rfl]; simp)
  refine ⟨fun l hl => ?_, hnames⟩
  rw [hl] at hlink
  cases hlink

/-- The install directory with one file in it. -/
def appWith (d : FileData) : Tree := (emptyApp.put (fun _ => d) ("bin".toList :: demoDir)).getD emptyApp

/-- The install of that file. -/
abbrev binInstall : Install Unit := install demoHash demoDir (listing "1" ["bin"]) fun _ => some [1]

theorem returns_after {x : Install Unit} {fs : Tree} (h : (x .quiet (fs, 0)).1 = .ok ()) :
    Returns x fs () (x.after .quiet fs) := ⟨(x .quiet (fs, 0)).2.2, by rw [← h]; rfl⟩

theorem parse_bin : parseManifest (listingText "1" ["bin"]) = .ok (listing "1" ["bin"]) := by decide +kernel

/-- A file of other content is replaced. -/
theorem install_exact_iff_update :
    Returns binInstall (appWith ⟨[2], "644".toList⟩) () (binInstall.after .quiet (appWith ⟨[2], "644".toList⟩)) ∧
    Exact demoHash demoDir (listing "1" ["bin"]) (binInstall.after .quiet (appWith ⟨[2], "644".toList⟩)) := by
  have hrun : Returns binInstall (appWith ⟨[2], "644".toList⟩) () (binInstall.after .quiet (appWith ⟨[2], "644".toList⟩)) :=
    returns_after (by decide +kernel)
  have hplain : Plain demoDir (appWith ⟨[2], "644".toList⟩) :=
    plain_of_keys (R := demoDir) (by decide +kernel) (by decide +kernel)
  refine ⟨hrun, (install_exact_iff parse_bin hplain hrun).2 ⟨fun e he d hd hh => ?_, by decide +kernel⟩⟩
  obtain rfl : e = demoEntry [1] := List.mem_singleton.1 he
  have hstat : (appWith ⟨[2], "644".toList⟩).stat (target demoDir (demoEntry [1])) = some (.file ⟨[2], "644".toList⟩) := by
    decide +kernel
  rw [hstat, Option.some.injEq, Node.file.injEq] at hd
  rw [← hd] at hh
  exact absurd hh (by decide +kernel)

/-- **A file with the right content keeps a wrong mode.** -/
theorem wrong_mode_survives :
    parseManifest (listingText "1" ["bin"]) = .ok (listing "1" ["bin"]) ∧
    Plain demoDir (appWith ⟨[1], "644".toList⟩) ∧
    Returns binInstall (appWith ⟨[1], "644".toList⟩) () (binInstall.after .quiet (appWith ⟨[1], "644".toList⟩)) ∧
    ¬ Exact demoHash demoDir (listing "1" ["bin"]) (binInstall.after .quiet (appWith ⟨[1], "644".toList⟩)) := by
  refine ⟨parse_bin, plain_of_keys (R := demoDir) (by decide +kernel) (by decide +kernel),
    returns_after (by decide +kernel), fun hexact => ?_⟩
  obtain ⟨d, hd, -, hmode⟩ := hexact.entry (demoEntry [1]) (by decide +kernel)
  have hstat : (binInstall.after .quiet (appWith ⟨[1], "644".toList⟩)).stat (target demoDir (demoEntry [1])) =
      some (.file ⟨[1], "644".toList⟩) := by decide +kernel
  rw [hstat, Option.some.injEq, Node.file.injEq] at hd
  rw [← hd] at hmode
  revert hmode
  decide +kernel

end ShairKindle.Payload
