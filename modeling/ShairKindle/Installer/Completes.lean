import ShairKindle.Installer.Walks

/-!
# An undisturbed install completes

With the walks of `Walks.lean` at their ends, the question is whether `install` gets to its own: no directory may be
in the place of a temporary file or of the stamp (`Clear`), and the resources have to be those of the manifest
(`Matches`). Then each entry is installed (`installEntry_runs`), and so is the whole (`install_runs`).
-/

namespace ShairKindle.Payload

open Crash Crash.Prog FileTree

/-! ## Entries -/

section Entries

variable {hash : Bytes → Text} {dir : Path} {m : Manifest}

theorem readFile_runs {fs : Tree} {p : Path} {d : FileData} (hl : fs.NoLinks) (h : fs.look p = some (.file d)) :
    Runs (readFile p) fs d.content fs := by
  unfold readFile
  refine Runs.query.bind ?_
  rw [hl.read_eq_some.2 h, Option.map_some]
  exact Runs.pure

/-- The hash of the file at a path, if there is one. -/
theorem currentSha_runs {fs : Tree} {p : Path} (hl : fs.NoLinks) (hp : fs.look p ≠ some .dir) :
    Runs (currentSha hash p) fs ((contentAt fs p).map hash) fs := by
  unfold currentSha contentAt
  refine Runs.peek.bind ?_
  cases hx : fs.look p with
  | none =>
    simp only [fileExists, hl.stat, hx, Option.isSome_none, Bool.false_eq_true, if_false]
    exact Runs.pure
  | some x =>
    cases x with
    | dir => exact absurd hx hp
    | link t => exact absurd hx (hl _ t)
    | file d =>
      simp only [fileExists, hl.stat, hx, Option.isSome_some, if_true]
      exact (readFile_runs hl hx).bind Runs.pure

/-- Writing where no directory is. -/
theorem write_runs {fs : Tree} {n : Text} {p : Path} {f : Option FileData → FileData} (hl : fs.NoLinks)
    (hp : fs.look p = some .dir) (hn : fs.look (n :: p) ≠ some .dir) :
    ∃ fs', fs.write f (n :: p) = some fs' ∧ fs'.NoLinks ∧ ∃ old, ∀ q, fs'.look q =
      if q = n :: p then some (.file (f old)) else fs.look q := by
  obtain ⟨fs', h⟩ := hl.exists_write hp hn
  rw [hl.write] at h
  obtain ⟨old, -, hlook⟩ := FS.put_spec h
  exact ⟨fs', by rw [hl.write, h], hl.update hlook (by simp), old, hlook⟩

/-- Renaming a file to where no directory is. -/
theorem renameOrThrow_runs {fs : Tree} {a n : Text} {p q : Path} {d : FileData} (hl : fs.NoLinks)
    (ha : fs.look (a :: p) = some (.file d)) (hq : fs.look q = some .dir) (hn : fs.look (n :: q) ≠ some .dir) :
    ∃ fs', Runs (renameOrThrow (a :: p) (n :: q)) fs () fs' ∧ fs'.NoLinks ∧
      ∀ r, fs'.look r = if r = n :: q then some (.file d) else if r = a :: p then none else fs.look r := by
  obtain ⟨fs', h⟩ := FS.exists_rename ha hq hn
  obtain ⟨x, hx, -, -, hlook⟩ := FS.rename_spec h
  obtain rfl : Node.file d = x := Option.some.inj (ha.symm.trans hx)
  refine ⟨fs', ?_, fun r t => ?_, hlook⟩
  · unfold renameOrThrow
    exact (Runs.attempt_some ((hl.move _ _).trans h)).bind Runs.pure
  · rw [hlook]
    split
    · simp
    · split
      · simp
      · exact hl r t

/-- Where no directory is, a temporary file may be written. -/
theorem odd_eq_false {fs : Tree} {p : Path} (hl : fs.NoLinks) (hp : fs.look p ≠ some .dir) :
    (fileExists p fs && !isFile p fs) = false := by
  simp only [fileExists, isFile, FS.read, hl.stat]
  cases hx : fs.look p with
  | none => rfl
  | some x =>
    cases x with
    | dir => exact absurd hx hp
    | file d => rfl
    | link t => exact absurd hx (hl _ t)

/-- Extracting a resource that has the entry's hash. -/
theorem extract_runs {fs : Tree} {e : Entry} {n : Text} {p : Path} {res : Text → Option Bytes} {data : Bytes}
    (hl : fs.NoLinks) (hp : fs.look p = some .dir) (hn : fs.look (n :: p) ≠ some .dir)
    (htmp : fs.look (staged (n :: p)) ≠ some .dir) (hres : res e.relPath = some data) (hsha : hash data = e.sha256) :
    ∃ fs', Runs (extract hash res e (staged (n :: p)) (n :: p)) fs () fs' ∧ fs'.NoLinks ∧
      ∀ q, fs'.look q = if q = n :: p then some (.file ⟨data, e.mode⟩) else if q = staged (n :: p) then none
        else fs.look q := by
  have hne : n :: p ≠ staged (n :: p) := by
    intro h
    simpa [staged, newSuffix] using congrArg List.length (List.cons.inj h).1
  have hpt : p ≠ staged (n :: p) := fun h => by simpa [staged] using congrArg List.length h
  have hodd := odd_eq_false hl htmp
  obtain ⟨fs₁, hwrite, hl₁, old, hlook₁⟩ :=
    write_runs (f := fun old => ⟨data, (old.map (·.mode)).getD newFileMode⟩) hl hp htmp
  have hfile₁ := (hlook₁ (staged (n :: p))).trans (if_pos rfl)
  have hp₁ : fs₁.look p = some .dir := (hlook₁ p).trans ((if_neg hpt).trans hp)
  have htmp₁ : fs₁.look (staged (n :: p)) ≠ some .dir := by
    rw [hfile₁]
    simp
  obtain ⟨fs₂, hchmod, hl₂, old₂, hlook₂⟩ := write_runs (f := fun _ => ⟨data, e.mode⟩) hl₁ hp₁ htmp₁
  have hfile₂ := (hlook₂ (staged (n :: p))).trans (if_pos rfl)
  have hp₂ : fs₂.look p = some .dir := (hlook₂ p).trans ((if_neg hpt).trans hp₁)
  have hn₂ : fs₂.look (n :: p) ≠ some .dir := by
    rw [(hlook₂ (n :: p)).trans (if_neg hne), (hlook₁ (n :: p)).trans (if_neg hne)]
    exact hn
  obtain ⟨fs₃, hmove, hl₃, hlook₃⟩ := renameOrThrow_runs hl₂ hfile₂ hp₂ hn₂
  refine ⟨fs₃, ?_, hl₃, fun q => ?_⟩
  · unfold extract
    refine Runs.peek.bind ?_
    rw [hodd]
    refine Runs.query.bind ?_
    rw [hres]
    refine (mustDo_runs hwrite).bind ((readFile_runs hl₁ hfile₁).bind ?_)
    rw [if_neg (not_not.2 hsha)]
    refine Runs.bind (mustDo_runs ?_) hmove
    rw [hl₁.read_eq_some.2 hfile₁]
    exact hchmod
  · rw [hlook₃]
    refine if_congr Iff.rfl rfl (if_ctx_congr Iff.rfl (fun _ => rfl) fun hqt => ?_)
    rw [(hlook₂ q).trans (if_neg hqt), (hlook₁ q).trans (if_neg hqt)]

/-- The paths the installer keeps for itself: the stamp and the temporary files. -/
def reserved (dir : Path) (m : Manifest) : List Path :=
  (stampName :: dir) :: staged (stampName :: dir) :: m.entries.map fun e => staged (target dir e)

/-- No directory is in the way of the install directory or at a path the installer keeps for itself, and the
manifest puts none there. -/
structure Clear (dir : Path) (m : Manifest) (fs : Tree) : Prop where
  above : Open fs dir
  noDir : ∀ t ∈ reserved dir m, fs.look t ≠ some .dir
  entries : ∀ t ∈ reserved dir m, ∀ e ∈ m.entries, ¬ t <:+ (target dir e).tail

/-- Every resource is there and has its hash. -/
def Matches (hash : Bytes → Text) (m : Manifest) (res : Text → Option Bytes) : Prop :=
  ∀ e ∈ m.entries, ∃ data, res e.relPath = some data ∧ hash data = e.sha256

/-- What the entry loop keeps. -/
structure Ready (dir : Path) (m : Manifest) (fs : Tree) : Prop where
  links : fs.NoLinks
  isDir : fs.look dir = some .dir
  noDir : ∀ t ∈ reserved dir m, fs.look t ≠ some .dir

/-- What installing an entry does to a tree: the entry is in place, with its mode unless it was in place
before, and nothing else changes but on the way to it. -/
structure Installs (hash : Bytes → Text) (dir : Path) (e : Entry) (fs fs' : Tree) : Prop where
  links : fs'.NoLinks
  isDir : fs'.look dir = some .dir
  file : ∃ d, fs'.look (target dir e) = some (.file d) ∧ hash d.content = e.sha256 ∧
    (fs.look (target dir e) = some (.file d) ∨ d.mode = e.mode ∧ ¬ InPlace hash dir fs e)
  other : ∀ q, ¬ q <:+ target dir e → ¬ target dir e <:+ q → q ≠ staged (target dir e) → fs'.look q = fs.look q
  nodes : ∀ q, fs'.look q ≠ none → fs.look q ≠ none ∨ q <:+ target dir e
  files : ∀ q x, q ≠ target dir e → fs'.look q = some (.file x) → fs.look q = some (.file x)
  dirs : ∀ q, ¬ q <:+ (target dir e).tail → fs'.look q = some .dir → fs.look q = some .dir

/-- The other entries are neither on the way nor below, nor are they temporary files. -/
theorem Installs.other_target {fs fs' : Tree} {e b : Entry} (h : Installs hash dir e fs fs') (hm : m.Valid)
    (he : e ∈ m.entries) (hb : b ∈ m.entries) (hbe : b ≠ e) : fs'.look (target dir b) = fs.look (target dir b) := by
  have hsuf : ∀ {a c : Entry}, a ∈ m.entries → c ∈ m.entries → a ≠ c → ¬ target dir a <:+ target dir c := by
    rintro a c ha hc hac ⟨r, hr⟩
    by_cases hrn : r = []
    · subst hrn
      exact hac (target_inj hm ha hc hr)
    · exact target_not_below hm ha hc hrn hr.symm
  refine h.other _ (hsuf hb he hbe) (hsuf he hb hbe.symm) fun hst => ?_
  exact target_not_isTmp (hm.entry b hb) (hst ▸ staged_target_isTmp hm he)

/-- The way to the entry is made; `fs'` is the tree its file is extracted to. -/
structure MadeWay (hash : Bytes → Text) (dir : Path) (e : Entry) (fs fs' : Tree) : Prop where
  links : fs'.NoLinks
  isDir : fs'.look dir = some .dir
  parent : fs'.look (target dir e).tail = some .dir
  notDir : fs'.look (target dir e) ≠ some .dir
  missing : ¬ InPlace hash dir fs e
  other : ∀ q, ¬ q <:+ target dir e → ¬ target dir e <:+ q → fs'.look q = fs.look q
  above : ∀ q, q <:+ (target dir e).tail ∧ fs'.look q = some .dir ∨ fs'.look q = fs.look q ∨ fs'.look q = none

/-- An entry in place is left as it is; for another the way is made, and its file extracted. -/
theorem installEntry_leads {fs : Tree} {e : Entry} {res : Text → Option Bytes} (hv : e.Valid) (hl : fs.NoLinks)
    (hdir : fs.look dir = some .dir) :
    (∃ fs', Runs (installEntry hash dir res e) fs () fs' ∧ Installs hash dir e fs fs' ∧ InPlace hash dir fs e) ∨
    ∃ fs', Leads (installEntry hash dir res e) fs (extract hash res e (staged (target dir e)) (target dir e)) fs' ∧
      MadeWay hash dir e fs fs' := by
  have hcne := components_ne_nil hv.relPath
  obtain ⟨fs₁, hrun₁, hs₁, hdir₁, hopen, hnot, hself, hother⟩ :=
    clearTypeConflicts_runs (components e.relPath) dir fs hcne hl hdir
  change Open fs₁ (target dir e).tail at hopen
  change fs₁.look (target dir e) ≠ some .dir at hnot
  change fs.look (target dir e) ≠ some .dir → fs₁.look (target dir e) = fs.look (target dir e) at hself
  change ∀ q, ¬ q <:+ target dir e → ¬ target dir e <:+ q → fs₁.look q = fs.look q at hother
  have hcur : Runs (currentSha hash (target dir e)) fs₁ _ fs₁ := currentSha_runs hs₁.links hnot
  generalize hsha : (contentAt fs₁ (target dir e)).map hash = sha at hcur
  unfold installEntry
  by_cases heq : sha = some e.sha256
  · obtain ⟨d, hd, hh⟩ : ∃ d, fs₁.look (target dir e) = some (.file d) ∧ hash d.content = e.sha256 := by
      rw [heq, Option.map_eq_some_iff] at hsha
      obtain ⟨c, hc, hh⟩ := hsha
      unfold contentAt at hc
      split at hc
      · exact ⟨_, ‹_›, Option.some.inj hc ▸ hh⟩
      · cases hc
    have hfile := hs₁.eq_some hd
    refine .inl ⟨fs₁, hrun₁.bind (hcur.bind ?_), ⟨hs₁.links, hdir₁, ⟨d, hd, hh, .inl hfile⟩,
      fun q h1 h2 _ => hother q h1 h2, fun q hq => .inl (hs₁.ne_none hq), fun q x _ hq => hs₁.eq_some hq,
      fun q _ hq => hs₁.eq_some hq⟩, d.content, contentAt_of_file hfile, hh⟩
    rw [if_pos heq]
    exact Runs.pure
  · obtain ⟨fs₂, hrun₂, hl₂, hlook₂⟩ := ensureDir_runs "cannot create parent dir: " hs₁.links hopen
    have hpos : 0 < (target dir e).length := List.length_pos_of_ne_nil (target_ne_nil hv)
    have hself' : ¬ target dir e <:+ (target dir e).tail := by
      intro h
      have := h.length_le
      rw [List.length_tail] at this
      omega
    refine .inr ⟨fs₂, hrun₁.leads (hcur.leads ?_), hl₂, ?_, ?_, ?_, ?_, fun q h1 h2 => ?_, fun q => ?_⟩
    · rw [if_neg heq]
      exact hrun₂.leads (Leads.refl _ _)
    · rw [hlook₂]
      split
      · rfl
      · exact hdir₁
    · rw [hlook₂, if_pos List.suffix_rfl]
    · rw [hlook₂, if_neg hself']
      exact hnot
    · rintro ⟨c, hc, hh⟩
      have hnd : fs.look (target dir e) ≠ some .dir := by
        intro hd
        rw [contentAt, hd] at hc
        cases hc
      rw [contentAt_congr (hself hnd), hc, Option.map_some, hh] at hsha
      exact heq hsha.symm
    · rw [hlook₂, if_neg fun h => h1 (h.trans (List.tail_suffix _)), hother q h1 h2]
    · rw [hlook₂]
      split
      · exact .inl ⟨‹_›, rfl⟩
      · exact .inr (hs₁.look q)

theorem length_staged (p : Path) : (staged p).length = p.length := by
  cases p <;> rfl

/-- The file is extracted to where the way is made. -/
theorem MadeWay.installs {fs fs₂ fs' : Tree} {e : Entry} {data : Bytes} (hv : e.Valid) (h : MadeWay hash dir e fs fs₂)
    (hsha : hash data = e.sha256) (hl' : fs'.NoLinks)
    (hlook : ∀ q, fs'.look q = if q = target dir e then some (.file ⟨data, e.mode⟩)
      else if q = staged (target dir e) then none else fs₂.look q) : Installs hash dir e fs fs' := by
  have hdeep : dir.length < (target dir e).length := by
    have := List.length_pos_of_ne_nil (components_ne_nil hv.relPath)
    simp only [target, List.length_append, List.length_reverse]
    omega
  refine ⟨hl', ?_, ⟨⟨data, e.mode⟩, by rw [hlook, if_pos rfl], hsha, .inr ⟨rfl, h.missing⟩⟩, ?_, ?_, ?_, ?_⟩
  · rw [hlook, if_neg, if_neg, h.isDir]
    · intro hd
      have := congrArg List.length hd
      rw [length_staged] at this
      omega
    · intro hd
      have := congrArg List.length hd
      omega
  · intro q h1 h2 h3
    have hne : q ≠ target dir e := by
      rintro rfl
      exact h1 List.suffix_rfl
    rw [hlook, if_neg hne, if_neg h3, h.other q h1 h2]
  · intro q hq
    rw [hlook] at hq
    split at hq
    · next hqt => exact .inr (hqt ▸ List.suffix_rfl)
    · split at hq
      · exact absurd rfl hq
      · rcases h.above q with ⟨hsuf, -⟩ | hq' | hq'
        · exact .inr (hsuf.trans (List.tail_suffix _))
        · exact .inl (hq' ▸ hq)
        · exact absurd hq' hq
  · intro q x hne hq
    rw [hlook, if_neg hne] at hq
    split at hq
    · cases hq
    · rcases h.above q with ⟨-, hd⟩ | hq' | hq'
      · rw [hd] at hq
        cases hq
      · rw [← hq', hq]
      · rw [hq'] at hq
        cases hq
  · intro q hsuf hq
    rw [hlook] at hq
    split at hq
    · cases hq
    · split at hq
      · cases hq
      · rcases h.above q with ⟨hs, -⟩ | hq' | hq'
        · exact absurd hs hsuf
        · rw [← hq', hq]
        · rw [hq'] at hq
          cases hq

/-- With its resource at hand and no directory in the place of its temporary file, the entry is installed. -/
theorem installEntry_runs_of {fs : Tree} {e : Entry} {res : Text → Option Bytes} {data : Bytes} (hv : e.Valid)
    (hl : fs.NoLinks) (hdir : fs.look dir = some .dir) (htmp : fs.look (staged (target dir e)) ≠ some .dir)
    (hres : res e.relPath = some data) (hsha : hash data = e.sha256) :
    ∃ fs', Runs (installEntry hash dir res e) fs () fs' ∧ Installs hash dir e fs fs' := by
  have hleads : (∃ fs', Runs (installEntry hash dir res e) fs () fs' ∧ Installs hash dir e fs fs' ∧ _) ∨ _ :=
    installEntry_leads hv hl hdir
  rcases hleads with ⟨fs', hrun, hi, -⟩ | ⟨fs₂, hlead, hway⟩
  · exact ⟨fs', hrun, hi⟩
  have hparent := hway.parent
  have hnot := hway.notDir
  have hlook₂ := hway.above (staged (target dir e))
  obtain ⟨n, p, htarget⟩ := List.exists_cons_of_ne_nil (target_ne_nil hv : target dir e ≠ [])
  have htmp₂ : fs₂.look (staged (target dir e)) ≠ some .dir := by
    rcases hlook₂ with ⟨hsuf, -⟩ | h | h
    · have := hsuf.length_le
      rw [length_staged, List.length_tail, htarget, List.length_cons] at this
      omega
    · rwa [h]
    · rw [h]
      simp
  rw [htarget] at hparent hnot htmp₂ hlead
  rw [List.tail_cons] at hparent
  obtain ⟨fs₃, hrun₃, hl₃, hlook₃⟩ := extract_runs hway.links hparent hnot htmp₂ hres hsha
  rw [← htarget] at hlook₃
  exact ⟨fs₃, hlead.runs hrun₃, hway.installs hv hsha hl₃ hlook₃⟩

/-- One entry is installed. -/
theorem installEntry_runs {fs : Tree} {e : Entry} {res : Text → Option Bytes} {data : Bytes} (hm : m.Valid)
    (he : e ∈ m.entries) (hfree : ∀ t ∈ reserved dir m, ¬ t <:+ (target dir e).tail) (hr : Ready dir m fs)
    (hres : res e.relPath = some data) (hsha : hash data = e.sha256) :
    ∃ fs', Runs (installEntry hash dir res e) fs () fs' ∧ Ready dir m fs' := by
  have htmp : staged (target dir e) ∈ reserved dir m :=
    List.mem_cons_of_mem _ (List.mem_cons_of_mem _ (List.mem_map.2 ⟨e, he, rfl⟩))
  obtain ⟨fs', hrun, hi⟩ := installEntry_runs_of (hm.entry e he) hr.links hr.isDir (hr.noDir _ htmp) hres hsha
  exact ⟨fs', hrun, hi.links, hi.isDir, fun t ht hd => hr.noDir t ht (hi.dirs t (hfree t ht) hd)⟩

/-- A directory in the place of the temporary file is refused. -/
theorem extract_refuses {fs : Tree} {e : Entry} {res : Text → Option Bytes} {tmp dst : Path} (hl : fs.NoLinks)
    (htmp : fs.look tmp = some .dir) : Ends (· = fs) (extract hash res e tmp dst) (fun _ _ => False) := by
  have hodd : (fileExists tmp fs && !isFile tmp fs) = true := by
    simp [fileExists, isFile, FS.read, hl.stat, htmp]
  unfold extract
  refine Under.peek.bind fun odd => ?_
  cases odd with
  | true => exact Under.throw fun _ _ => trivial
  | false =>
    rintro _ - s ⟨hs, hodd'⟩
    rw [hs, hodd] at hodd'
    cases hodd'

/-- Whatever the resources, an entry whose installation returns is installed. -/
theorem installEntry_ends {fs : Tree} {e : Entry} {res : Text → Option Bytes} (hv : e.Valid) (hl : fs.NoLinks)
    (hdir : fs.look dir = some .dir) :
    Ends (· = fs) (installEntry hash dir res e) (fun _ fs' => Installs hash dir e fs fs') := by
  have hleads : (∃ fs', Runs (installEntry hash dir res e) fs () fs' ∧ Installs hash dir e fs fs' ∧ _) ∨ _ :=
    installEntry_leads hv hl hdir
  rcases hleads with ⟨fs', hrun, hi, -⟩ | ⟨fs₂, hlead, hway⟩
  · refine hrun.ends.weaken (fun _ => id) ?_ fun _ => id
    rintro _ _ ⟨-, rfl⟩
    exact hi
  refine hlead.ends ?_
  have hparent := hway.parent
  have hnot := hway.notDir
  obtain ⟨n, p, htarget⟩ := List.exists_cons_of_ne_nil (target_ne_nil hv : target dir e ≠ [])
  have hinstalls : ∀ {data : Bytes} {fs' : Tree}, hash data = e.sha256 → fs'.NoLinks → _ → Installs hash dir e fs fs' :=
    fun hsha hl' hlook => hway.installs hv hsha hl' hlook
  rw [htarget] at hparent hnot hinstalls ⊢
  rw [List.tail_cons] at hparent
  by_cases htmp : fs₂.look (staged (n :: p)) = some .dir
  · exact (extract_refuses hway.links htmp).weaken (fun _ => id) (fun _ _ h => h.elim) fun _ => id
  cases hres : res e.relPath with
  | none =>
    unfold extract
    refine Under.peek.bind fun odd => Under.ite (fun _ => Under.throw fun _ _ => trivial) fun _ => ?_
    rw [hres]
    refine (Under.query quiet_calm fun _ _ => trivial).bind fun data => ?_
    cases data with
    | none => exact Under.throw fun _ _ => trivial
    | some c =>
      rintro _ - s ⟨-, hc⟩
      cases hc
  | some data =>
    by_cases hsha : hash data = e.sha256
    · obtain ⟨fs', hrun, hl', hlook⟩ := extract_runs hway.links hparent hnot htmp hres hsha
      refine hrun.ends.weaken (fun _ => id) ?_ fun _ => id
      rintro _ _ ⟨-, rfl⟩
      exact hinstalls hsha hl' hlook
    · obtain ⟨fs₁, hwrite, hl₁, old, hlook₁⟩ :=
        write_runs (f := fun old => ⟨data, (old.map (·.mode)).getD newFileMode⟩) hway.links hparent htmp
      have hfile₁ := (hlook₁ (staged (n :: p))).trans (if_pos rfl)
      have hodd : (fileExists (staged (n :: p)) fs₂ && !isFile (staged (n :: p)) fs₂) = false := odd_eq_false hway.links htmp
      have hmismatch : Leads (extract hash res e (staged (n :: p)) (n :: p)) fs₂
          (throw (.io "sha256 mismatch after extract: " [(components e.relPath).reverse])) fs₁ := by
        unfold extract
        refine Runs.peek.leads ?_
        rw [hodd]
        refine Runs.query.leads ?_
        rw [hres]
        refine (mustDo_runs hwrite).leads ((readFile_runs hl₁ hfile₁).leads ?_)
        rw [if_pos hsha]
        exact Leads.refl _ _
      exact hmismatch.ends (Under.throw fun _ _ => trivial)

end Entries

/-! ## The install -/

section Install

variable {hash : Bytes → Text} {dir : Path} {m : Manifest} {res : Text → Option Bytes} {fs : Tree}

/-- The files are installed and the new stamp is staged, once the entry loop runs on the tree it gets: one
with no directories but those there were and those on the way to the install directory. -/
theorem installFiles_runs_of (hl : fs.NoLinks) (ho : Open fs dir)
    (hloop : ∀ fs₂ : Tree, fs₂.NoLinks → fs₂.look dir = some .dir →
      (∀ q, fs₂.look q = some .dir → q <:+ dir ∨ fs.look q = some .dir) →
      ∃ fs₃, Runs (m.entries.forM (installEntry hash dir res)) fs₂ ⟨⟩ fs₃ ∧ fs₃.NoLinks ∧ fs₃.look dir = some .dir ∧
        fs₃.look (stampName :: dir) ≠ some .dir ∧ fs₃.look (staged (stampName :: dir)) ≠ some .dir) :
    ∃ fs', Runs (installFiles hash dir m res) fs () fs' ∧ fs'.look dir = some .dir ∧
      fs'.look (stampName :: dir) ≠ some .dir := by
  obtain ⟨fs₁, hrun₁, hl₁, hlook₁⟩ := ensureDir_runs "cannot create installDir: " hl ho
  have hdir₁ : fs₁.look dir = some .dir := by rw [hlook₁, if_pos List.suffix_rfl]
  obtain ⟨fs₂, hrun₂, hs₂, -⟩ := cleanStaleNewRecursive_runs _ dir fs₁ hl₁ hdir₁ (reaches_walkDepth fs₁ dir)
  obtain ⟨fs₃, hrun₃, hl₃, hdir₃, hstamp₃, hstaged₃⟩ := hloop fs₂ hs₂.links (hs₂.dirs _ hdir₁) fun q hq => by
    by_contra h
    obtain ⟨h1, h2⟩ := not_or.1 h
    refine hs₂.ne_dir ?_ hq
    rwa [hlook₁, if_neg h1]
  obtain ⟨fs₄, hrun₄, hs₄, hsame, -⟩ :=
    pruneOrphans_runs (m.entries.map (·.relPath)) _ dir [] fs₃ hl₃ hdir₃ (reaches_walkDepth fs₃ dir)
  have hdir₄ : fs₄.look dir = some .dir := by rw [hsame dir fun n => not_cons_suffix n dir, hdir₃]
  obtain ⟨fs₅, hwrite, hl₅, old, hlook₅⟩ := write_runs
    (f := fun old => ⟨encodeAscii m.version, (old.map (·.mode)).getD newFileMode⟩) hs₄.links hdir₄
    (hs₄.ne_dir hstaged₃)
  refine ⟨fs₅, ?_, ?_, ?_⟩
  · unfold installFiles
    refine hrun₁.bind (Runs.peek.bind (hrun₂.bind (hrun₃.bind (Runs.peek.bind (hrun₄.bind ?_)))))
    exact mustDo_runs hwrite
  · rw [hlook₅, if_neg, hdir₄]
    intro h
    simpa using congrArg List.length h
  · rw [hlook₅, if_neg]
    · exact hs₄.ne_dir hstamp₃
    · intro h
      simpa [newSuffix] using congrArg List.length (List.cons.inj h).1

theorem installFiles_runs (hm : m.Valid) (hl : fs.NoLinks) (hc : Clear dir m fs) (hres : Matches hash m res) :
    ∃ fs', Runs (installFiles hash dir m res) fs () fs' ∧ fs'.look dir = some .dir ∧
      fs'.look (stampName :: dir) ≠ some .dir := by
  -- what the installer keeps for itself lies below the directory
  have hdeep : ∀ t ∈ reserved dir m, ¬ t <:+ dir := by
    intro t ht hsuf
    have hlen : dir.length < t.length := by
      simp only [reserved, List.mem_cons, List.mem_map] at ht
      rcases ht with rfl | rfl | ⟨e, he, rfl⟩
      · simp
      · simp [staged]
      · have hpos := List.length_pos_of_ne_nil (components_ne_nil (hm.entry e he).relPath)
        rw [length_staged, target, List.length_append, List.length_reverse]
        omega
    have := hsuf.length_le
    omega
  refine installFiles_runs_of hl hc.above fun fs₂ hl₂ hdir₂ hdirs => ?_
  have hr₂ : Ready dir m fs₂ := by
    refine ⟨hl₂, hdir₂, fun t ht hd => ?_⟩
    rcases hdirs t hd with h | h
    · exact hdeep t ht h
    · exact hc.noDir t ht h
  obtain ⟨fs₃, hrun₃, hr₃⟩ : ∃ fs', Runs (m.entries.forM (installEntry hash dir res)) fs₂ ⟨⟩ fs' ∧ Ready dir m fs' := by
    refine Runs.forM (fun _ => Ready dir m) m.entries fs₂ hr₂ (fun _ e t hr he _ => ?_) ?_
    · obtain ⟨data, hdata, hsha⟩ := hres e he
      exact installEntry_runs hm he (fun t ht => hc.entries t ht e he) hr hdata hsha
    · exact List.Nodup.of_map _ hm.nodup
  exact ⟨fs₃, hrun₃, hr₃.links, hr₃.isDir, hr₃.noDir _ List.mem_cons_self,
    hr₃.noDir _ (List.mem_cons_of_mem _ List.mem_cons_self)⟩

/-- With the files installed and no directory in the place of the stamp, the stamp is set. -/
theorem install_runs_of (hm : m.Valid) (hl : fs.NoLinks) {fs₁ : Tree} (hrun₁ : Runs (installFiles hash dir m res) fs () fs₁)
    (hdir₁ : fs₁.look dir = some .dir) (hstamp₁ : fs₁.look (stampName :: dir) ≠ some .dir) :
    ∃ fs', Runs (install hash dir m res) fs () fs' ∧ fs'.NoLinks ∧ (∀ e ∈ m.entries, InPlace hash dir fs' e) ∧
      contentAt fs' (stampName :: dir) = some (encodeAscii m.version) := by
  obtain ⟨-, hl₁, hin₁, hcontent⟩ := (installFiles_keeps hm res).runs hl hrun₁
  obtain ⟨d, hd, hdc⟩ : ∃ d, fs₁.look (staged (stampName :: dir)) = some (.file d) ∧ d.content = encodeAscii m.version := by
    unfold contentAt at hcontent
    split at hcontent
    · exact ⟨_, ‹_›, Option.some.inj hcontent⟩
    · cases hcontent
  obtain ⟨fs', hrun, hl', hlook⟩ := renameOrThrow_runs hl₁ hd hdir₁ hstamp₁
  refine ⟨fs', hrun₁.bind hrun, hl', fun e he => (hin₁ e he).congr ?_, ?_⟩
  · have hv := hm.entry e he
    have htmp : target dir e ≠ staged (stampName :: dir) := by
      intro h
      exact target_not_isTmp hv (h ▸ staged_isTmp (by simp))
    exact (hlook _).trans ((if_neg (target_ne_stamp hv)).trans (if_neg htmp))
  · rw [contentAt_of_file ((hlook _).trans (if_pos rfl)), hdc]

/-- **An undisturbed install completes** when nothing is in its way: every entry is in place, and the stamp
names the version. -/
theorem install_runs (hm : m.Valid) (hl : fs.NoLinks) (hc : Clear dir m fs) (hres : Matches hash m res) :
    ∃ fs', Runs (install hash dir m res) fs () fs' ∧ fs'.NoLinks ∧ (∀ e ∈ m.entries, InPlace hash dir fs' e) ∧
      contentAt fs' (stampName :: dir) = some (encodeAscii m.version) := by
  obtain ⟨fs₁, hrun₁, hdir₁, hstamp₁⟩ := installFiles_runs hm hl hc hres
  exact install_runs_of hm hl hrun₁ hdir₁ hstamp₁

/-- Where the stamp's path is a directory, it stays one. -/
theorem renameStamp_into (hl : fs.NoLinks) (hdir : fs.look (stampName :: dir) = some .dir) :
    Ends (· = fs) (renameOrThrow (staged (stampName :: dir)) (stampName :: dir)) (fun _ s => s.NoLinks ∧ s.look (stampName :: dir) = some .dir) := by
  have hmove : fs.move (staged (stampName :: dir)) (stampName :: dir) = none := by
    rw [hl.move]
    exact dif_neg fun h => h.2.2 hdir
  unfold renameOrThrow
  refine Under.bind (Q := fun b s => b = false ∧ s = fs) ?_ fun renamed => ?_
  · refine Under.attempt quiet_calm (fun _ _ => trivial) ?_ fun s hs _ => ⟨rfl, hs⟩
    rintro s s' rfl h
    rw [hmove] at h
    cases h
  refine Under.ite (fun h => ?_) fun _ => ?_
  · rintro _ - s ⟨hs, -⟩
    rw [h] at hs
    cases hs
  refine Under.bind (Q := fun _ s => s.NoLinks ∧ s.look (stampName :: dir) = some .dir) ?_ fun moved => ?_
  · refine Under.attempt quiet_calm (fun _ _ => trivial) ?_ fun s hs _ => hs.2 ▸ ⟨hl, hdir⟩
    rintro s s' ⟨-, rfl⟩ h
    rw [mvInto, (isDirectory_iff hl).2 hdir, if_pos rfl] at h
    obtain ⟨hl', -, hother⟩ := move_tmp hl (staged_isTmp (by simp)) h
    refine ⟨hl', (hother _ (by simp [staged]) stamp_not_isTmp).trans hdir⟩
  · exact Under.peek.bind fun there => Under.ite (fun _ => Under.pure fun _ hs => hs.1) fun _ => Under.throw fun _ _ => trivial

end Install

end ShairKindle.Payload
