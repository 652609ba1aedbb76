import ShairKindle.Installer.Steps

/-!
# Undisturbed walks

`Steps.lean` says what an install leaves alone wherever it stops. Here nothing fails and nobody kills the process,
and the tree has no links: making directories and the four walks get to their ends, before the fuel is used up
(`Reaches`), and what they leave is said in full. `cleanStaleNewRecursive` removes the temporary files
(`Cleaned`, `NoTmp`), `deleteTree` the directory (`deleteTree_runs`), `pruneOrphans` what is neither kept nor
leads to something kept (`Pruned`), and `clearTypeConflicts` what is in the way of a path (`Open`).
-/

namespace ShairKindle.Payload

open Crash Crash.Prog FileTree

/-! ## Trees that lose nodes -/

/-- Nothing changes but that nodes are gone. -/
structure Shrinks (fs fs' : Tree) : Prop where
  links : fs'.NoLinks
  look : ∀ q, fs'.look q = fs.look q ∨ fs'.look q = none

section Shrinks

variable {fs fs' fs'' : Tree} {p q : Path}

theorem Shrinks.refl (hl : fs.NoLinks) : Shrinks fs fs := ⟨hl, fun _ => .inl rfl⟩

theorem Shrinks.trans (h : Shrinks fs fs') (h' : Shrinks fs' fs'') : Shrinks fs fs'' := by
  refine ⟨h'.links, fun q => ?_⟩
  rcases h'.look q with hq | hq
  · rw [hq]
    exact h.look q
  · exact .inr hq

/-- What is still there was there before. -/
theorem Shrinks.eq_some (h : Shrinks fs fs') {x : Node Text FileData} (hq : fs'.look q = some x) : fs.look q = some x := by
  rcases h.look q with hlook | hlook
  · rw [← hlook, hq]
  · rw [hq] at hlook
    cases hlook

theorem Shrinks.ne_none (h : Shrinks fs fs') (hq : fs'.look q ≠ none) : fs.look q ≠ none := by
  obtain ⟨x, hx⟩ := Option.ne_none_iff_exists'.1 hq
  rw [h.eq_some hx]
  exact Option.some_ne_none x

theorem Shrinks.ne_dir (h : Shrinks fs fs') (hq : fs.look q ≠ some .dir) : fs'.look q ≠ some .dir :=
  mt h.eq_some hq

theorem Shrinks.of_delete (hl : fs.NoLinks) (h : fs.delete p = some fs') :
    Shrinks fs fs' ∧ ∀ q, fs'.look q = if q = p then none else fs.look q := by
  rw [hl.delete] at h
  obtain ⟨-, hlook⟩ := FS.erase_spec h
  refine ⟨⟨hl.update hlook (by simp), fun q => ?_⟩, hlook⟩
  rw [hlook]
  split
  · exact .inr rfl
  · exact .inl rfl

/-- What is no directory can be deleted. -/
theorem exists_delete (hl : fs.NoLinks) (hp : fs.look p ≠ none) (hd : fs.look p ≠ some .dir) :
    ∃ fs', fs.delete p = some fs' := by
  rw [hl.delete]
  refine FS.exists_erase hp ?_ fun n => FS.look_below hd [n] (by simp)
  rintro rfl
  exact hd fs.look_root

end Shrinks

/-- The walk from a directory gets to the bottom before its fuel is used up. -/
def Reaches (fs : Tree) (k : Nat) (d : Path) : Prop := ∀ q, fs.look q ≠ none → q.length < d.length + k

section Reaches

variable {fs fs' : Tree} {k : Nat} {d : Path}

theorem Reaches.ne_zero (h : Reaches fs 0 d) : fs.look d = none := by
  by_contra hd
  have := h d hd
  omega

theorem Reaches.child (h : Reaches fs (k + 1) d) (hs : Shrinks fs fs') (n : Text) : Reaches fs' k (n :: d) := by
  intro q hq
  have := h q (hs.ne_none hq)
  rw [List.length_cons]
  omega

theorem reaches_walkDepth (fs : Tree) (d : Path) : Reaches fs (walkDepth fs) d := by
  intro q hq
  have hlen := FS.length_lt_of_look hq
  have hle : fs.nodes.entries.length ≤ walkDepth fs := by
    unfold walkDepth FS.maxLinks
    omega
  omega

end Reaches

/-! ## Directories -/

section Dirs

variable {fs : Tree} {p : Path}

theorem isDirectory_eq_false (hl : fs.NoLinks) (hp : fs.look p ≠ some .dir) : isDirectory p fs = false := by
  rw [← Bool.not_eq_true, isDirectory_iff hl]
  exact hp

theorem mustDo_runs {message : String} {f : Tree → Option Tree} {fs' : Tree} (h : f fs = some fs') :
    Runs (mustDo message p f) fs () fs' := by
  unfold mustDo
  exact (Runs.attempt_some h).bind Runs.pure

/-- There is nothing but directories on the way. -/
def Open (fs : Tree) (p : Path) : Prop := ∀ q, q <:+ p → fs.look q = none ∨ fs.look q = some .dir

theorem Open.mono {q : Path} (h : Open fs p) (hq : q <:+ p) : Open fs q := fun r hr => h r (hr.trans hq)

/-- Below a name that is missing nothing is in the way. -/
theorem open_of_missing {n : Text} (hp : fs.look p = some .dir) (hn : fs.look (n :: p) = none) (r : Path) :
    Open fs (r ++ n :: p) ∧ fs.look (r ++ n :: p) = none := by
  have hbelow : ∀ r, fs.look (r ++ n :: p) = none := by
    intro r
    by_cases hr : r = []
    · rw [hr, List.nil_append, hn]
    · exact FS.look_below (by simp [hn]) r hr
  refine ⟨fun q hq => ?_, hbelow r⟩
  rcases List.suffix_or_suffix_of_suffix hq (List.suffix_append r (n :: p)) with h | ⟨r', rfl⟩
  · rcases List.suffix_cons_iff.1 h with rfl | h
    · exact .inl hn
    · exact .inr (FS.look_dir_suffix hp h)
  · exact .inl (hbelow r')

theorem create_runs {n : Text} (hl : fs.NoLinks) (hp : fs.look p = some .dir) (hn : fs.look (n :: p) = none) :
    ∃ fs', Runs (attempt (·.create (n :: p)) : Install Bool) fs true fs' ∧ fs'.NoLinks ∧
      ∀ q, fs'.look q = if q <:+ n :: p then some .dir else fs.look q := by
  obtain ⟨fs', h⟩ := FS.exists_mkdir hp hn
  have hlook := (FS.mkdir_spec h).2
  refine ⟨fs', Runs.attempt_some ((hl.create _).trans h), hl.update hlook (by simp), fun q => ?_⟩
  rw [hlook]
  by_cases hq : q = n :: p
  · simp [hq]
  · rw [if_neg hq]
    split
    · rename_i hsuf
      rcases List.suffix_cons_iff.1 hsuf with h' | h'
      · exact absurd h' hq
      · exact FS.look_dir_suffix hp h'
    · rfl

/-- `mkdirs` makes the whole path. -/
theorem mkdirs_runs : ∀ (p : Path) (fs : Tree), fs.NoLinks → Open fs p →
    ∃ b fs', Runs (mkdirs p) fs b fs' ∧ fs'.NoLinks ∧ ∀ q, fs'.look q = if q <:+ p then some .dir else fs.look q
  | [], fs, hl, _ => by
    refine ⟨false, fs, Runs.pure, hl, fun q => ?_⟩
    split
    · rename_i hq
      rw [List.suffix_nil.1 hq, fs.look_root]
    · rfl
  | n :: p, fs, hl, ho => by
    unfold mkdirs
    rcases ho (n :: p) List.suffix_rfl with hn | hn
    · have hthere : fileExists (n :: p) fs = false := by simp [fileExists, hl.stat, hn]
      by_cases hp : fs.look p = some .dir
      · obtain ⟨fs', hrun, hl', hlook⟩ := create_runs hl hp hn
        refine ⟨true, fs', Runs.peek.bind ?_, hl', hlook⟩
        rw [hthere]
        exact hrun.bind Runs.pure
      · -- the parent is missing: it is made first
        obtain ⟨b, fs₁, hrun₁, hl₁, hlook₁⟩ := mkdirs_runs p fs hl (ho.mono (List.suffix_cons n p))
        have hp₁ : fs₁.look p = some .dir := by rw [hlook₁, if_pos List.suffix_rfl]
        have hn₁ : fs₁.look (n :: p) = none := by
          rw [hlook₁, if_neg, hn]
          intro h
          simpa using h.length_le
        obtain ⟨fs', hrun, hl', hlook⟩ := create_runs hl₁ hp₁ hn₁
        have hfail : fs.create (n :: p) = none := by
          rw [hl.create]
          exact dif_neg fun h => hp h.1
        have hpresent : fileExists p fs₁ = true := by simp [fileExists, hl₁.stat, hp₁]
        refine ⟨true, fs', Runs.peek.bind ?_, hl', fun q => ?_⟩
        · rw [hthere]
          refine (Runs.attempt_none hfail).bind (hrun₁.bind (Runs.peek.bind ?_))
          rw [hpresent, Bool.or_true, if_pos rfl]
          exact hrun
        · rw [hlook]
          split
          · rfl
          · rename_i hq
            rw [hlook₁, if_neg fun h => hq (h.trans (List.suffix_cons n p))]
    · have hthere : fileExists (n :: p) fs = true := by simp [fileExists, hl.stat, hn]
      refine ⟨false, fs, Runs.peek.bind ?_, hl, fun q => ?_⟩
      · rw [hthere]
        exact Runs.pure
      · split
        · exact FS.look_dir_suffix hn ‹_›
        · rfl

theorem ensureDir_runs (message : String) (hl : fs.NoLinks) (ho : Open fs p) :
    ∃ fs', Runs (ensureDir message p) fs () fs' ∧ fs'.NoLinks ∧
      ∀ q, fs'.look q = if q <:+ p then some .dir else fs.look q := by
  unfold ensureDir
  by_cases hp : fs.look p = some .dir
  · refine ⟨fs, Runs.peek.bind ?_, hl, fun q => ?_⟩
    · rw [(isDirectory_iff hl).2 hp]
      exact Runs.pure
    · split
      · exact FS.look_dir_suffix hp ‹_›
      · rfl
  · obtain ⟨b, fs', hrun, hl', hlook⟩ := mkdirs_runs p fs hl ho
    have hnow : isDirectory p fs' = true := by rw [isDirectory_iff hl', hlook, if_pos List.suffix_rfl]
    refine ⟨fs', Runs.peek.bind ?_, hl', hlook⟩
    rw [isDirectory_eq_false hl hp]
    refine hrun.bind (Runs.peek.bind ?_)
    rw [hnow, Bool.or_true, if_pos rfl]
    exact Runs.pure

end Dirs

/-! ## Walks -/

section Walks

theorem eq_of_cons_suffix {n m : Text} {d : Path} (h : n :: d <:+ m :: d) : n = m := by
  have := h.eq_of_length (by simp)
  exact (List.cons.inj this).1

theorem not_cons_suffix (n : Text) (d : Path) : ¬ n :: d <:+ d := fun h => by simpa using h.length_le

/-- At or below what is no directory there is only itself. -/
theorem eq_of_leaf {fs : Tree} {p q : Path} (hp : fs.look p ≠ some .dir) (hq : p <:+ q) (hne : fs.look q ≠ none) :
    q = p := by
  by_contra h
  exact hp (FS.look_suffix hne hq (Ne.symm h))

theorem cons_suffix_inj {n m : Text} {d q : Path} (hn : n :: d <:+ q) (hm : m :: d <:+ q) : n = m := by
  rcases List.suffix_or_suffix_of_suffix hn hm with h | h
  · exact eq_of_cons_suffix h
  · exact (eq_of_cons_suffix h).symm

/-! ### Cleaning -/

/-- What the clean-up does with a name it found. -/
def cleanName (k : Nat) (d : Path) (name : Text) : Install Unit := do
  let isDir ← peek (isDirectory (name :: d))
  if isDir then cleanStaleNewRecursive k (name :: d)
  else if endsWith name newSuffix then do
    let _ ← attempt (·.delete (name :: d))
    pure ()
  else pure ()

theorem cleanStaleNewRecursive_succ (k : Nat) (d : Path) :
    cleanStaleNewRecursive (k + 1) d = (query (·.list d) >>= fun files => (files.getD []).forM (cleanName k d)) := rfl

/-- Only temporary files are gone. -/
structure Cleaned (fs fs' : Tree) : Prop extends Shrinks fs fs' where
  dirs : ∀ q, fs.look q = some .dir → fs'.look q = some .dir
  rest : ∀ q, ¬ IsTmp q → fs'.look q = fs.look q

/-- No temporary file is at the path or below it. -/
def NoTmp (p : Path) (fs : Tree) : Prop := ∀ q, p <:+ q → IsTmp q → ∀ x, fs.look q ≠ some (.file x)

theorem Cleaned.refl {fs : Tree} (hl : fs.NoLinks) : Cleaned fs fs where
  toShrinks := .refl hl
  dirs _ := id
  rest _ _ := rfl

theorem Cleaned.trans {fs fs' fs'' : Tree} (h : Cleaned fs fs') (h' : Cleaned fs' fs'') : Cleaned fs fs'' where
  toShrinks := h.toShrinks.trans h'.toShrinks
  dirs q hq := h'.dirs q (h.dirs q hq)
  rest q hq := (h'.rest q hq).trans (h.rest q hq)

theorem NoTmp.shrinks {p : Path} {fs fs' : Tree} (h : NoTmp p fs) (hs : Shrinks fs fs') : NoTmp p fs' := by
  intro q hq htmp x hx
  exact h q hq htmp x (hs.eq_some hx)

/-- A directory has no temporary file below it when its children have none. -/
theorem noTmp_of_dir {d : Path} {fs : Tree} (hd : fs.look d = some .dir) (h : ∀ n, NoTmp (n :: d) fs) : NoTmp d fs := by
  rintro q ⟨r, rfl⟩ htmp x hx
  rcases List.eq_nil_or_concat r with rfl | ⟨r, n, rfl⟩
  · rw [List.nil_append, hd] at hx
    cases hx
  · exact h n _ ⟨r, by simp⟩ htmp x hx

/-- A name that is no directory is deleted if it is a temporary file; a delete that fails is ignored. -/
theorem cleanName_leaf (k : Nat) {d : Path} {name : Text} {t : Tree} (hl : t.NoLinks)
    (hdir : t.look (name :: d) ≠ some .dir) :
    ∃ t', Runs (cleanName k d name) t () t' ∧ Cleaned t t' ∧ NoTmp (name :: d) t' := by
  have hnot := isDirectory_eq_false hl hdir
  cases hnew : endsWith name newSuffix with
  | false =>
    refine ⟨t, Runs.peek.bind ?_, .refl hl, fun q hq htmp x hx => ?_⟩
    · rw [hnot, if_neg Bool.false_ne_true, hnew, if_neg Bool.false_ne_true]
      exact Runs.pure
    · obtain rfl := eq_of_leaf hdir hq (by simp [hx])
      obtain ⟨n, p, hnp, hn⟩ := htmp
      rw [← (List.cons.inj hnp).1, hnew] at hn
      cases hn
  | true =>
    by_cases hthere : t.look (name :: d) = none
    · have hdel : t.delete (name :: d) = none := by
        rw [hl.delete]
        exact if_pos hthere
      refine ⟨t, Runs.peek.bind ?_, .refl hl, fun q hq _ x hx => ?_⟩
      · rw [hnot, if_neg Bool.false_ne_true, if_pos hnew]
        exact (Runs.attempt_none hdel).bind Runs.pure
      · rw [eq_of_leaf hdir hq (by simp [hx]), hthere] at hx
        cases hx
    · obtain ⟨t', hdel⟩ := exists_delete hl hthere hdir
      obtain ⟨hs, hlook⟩ := Shrinks.of_delete hl hdel
      refine ⟨t', Runs.peek.bind ?_, ⟨hs, fun q hq => ?_, fun q hq => ?_⟩, fun q hq _ x hx => ?_⟩
      · rw [hnot, if_neg Bool.false_ne_true, if_pos hnew]
        exact (Runs.attempt_some hdel).bind Runs.pure
      · rw [hlook, if_neg, hq]
        rintro rfl
        exact hdir hq
      · rw [hlook, if_neg]
        rintro rfl
        exact hq ⟨name, d, rfl, hnew⟩
      · rw [hlook] at hx
        split at hx
        · cases hx
        · next hne => exact hne (eq_of_leaf hdir hq (by simp [hx]))

/-- Cleaning gets to its end, leaves everything but temporary files, and of those none below the directory. -/
theorem cleanStaleNewRecursive_runs : ∀ (k : Nat) (d : Path) (fs : Tree), fs.NoLinks → fs.look d = some .dir →
    Reaches fs k d → ∃ fs', Runs (cleanStaleNewRecursive k d) fs () fs' ∧ Cleaned fs fs' ∧ ∀ n, NoTmp (n :: d) fs'
  | 0, d, fs, _, hd, hr => by
    rw [hr.ne_zero] at hd
    cases hd
  | k + 1, d, fs, hl, hd, hr => by
    have hlist : fs.list d = some (fs.children d) := by rw [hl.list, if_pos hd]
    have hbody : ∀ (done : List Text) (name : Text) (t : Tree), (Cleaned fs t ∧ ∀ n ∈ done, NoTmp (n :: d) t) →
        name ∈ fs.children d → name ∉ done → ∃ t', Runs (cleanName k d name) t () t' ∧
          Cleaned fs t' ∧ ∀ n ∈ done ++ [name], NoTmp (n :: d) t' := by
      rintro done name t ⟨hc, hgone⟩ - -
      obtain ⟨t', hrun, hc', hname⟩ : ∃ t', Runs (cleanName k d name) t () t' ∧ Cleaned t t' ∧ NoTmp (name :: d) t' := by
        by_cases hdir : t.look (name :: d) = some .dir
        · obtain ⟨t', hrun, hc', hbelow⟩ :=
            cleanStaleNewRecursive_runs k (name :: d) t hc.links hdir (hr.child hc.toShrinks name)
          refine ⟨t', Runs.peek.bind ?_, hc', noTmp_of_dir (hc'.dirs _ hdir) hbelow⟩
          rw [(isDirectory_iff hc.links).2 hdir]
          exact hrun
        · exact cleanName_leaf k hc.links hdir
      refine ⟨t', hrun, hc.trans hc', fun n hn => ?_⟩
      rw [List.mem_append, List.mem_singleton] at hn
      rcases hn with hn | rfl
      · exact (hgone n hn).shrinks hc'.toShrinks
      · exact hname
    obtain ⟨fs', hrun, hc, hgone⟩ := Runs.forM (fun done t => Cleaned fs t ∧ ∀ n ∈ done, NoTmp (n :: d) t)
      (fs.children d) fs ⟨.refl hl, by simp⟩ hbody (fs.nodup_children d)
    refine ⟨fs', ?_, hc, fun n q hq htmp x hx => ?_⟩
    · rw [cleanStaleNewRecursive_succ]
      refine Runs.query.bind ?_
      rw [hlist]
      exact hrun
    · refine hgone n (FS.mem_children.2 fun hnone => ?_) q hq htmp x hx
      -- nothing is below a child that is not there
      have hthere := hc.ne_none (by simp [hx] : fs'.look q ≠ none)
      rw [eq_of_leaf (by simp [hnone]) hq hthere] at hthere
      exact hthere hnone

/-! ### Deleting -/

/-- The tree below `d` without what is at or below some of its children. -/
def Without (fs : Tree) (d : Path) (done : List Text) (fs' : Tree) : Prop :=
  fs'.NoLinks ∧ ∀ q, (∃ n ∈ done, n :: d <:+ q) ∧ fs'.look q = none ∨ (¬ ∃ n ∈ done, n :: d <:+ q) ∧ fs'.look q = fs.look q

theorem Without.shrinks {fs fs' : Tree} {d : Path} {done : List Text} (h : Without fs d done fs') : Shrinks fs fs' := by
  refine ⟨h.1, fun q => ?_⟩
  rcases h.2 q with ⟨-, hq⟩ | ⟨-, hq⟩
  · exact .inr hq
  · exact .inl hq

/-- A child that is not done yet is as it was. -/
theorem Without.look_new {fs fs' : Tree} {d : Path} {done : List Text} (h : Without fs d done fs') {name : Text}
    (hnew : name ∉ done) : fs'.look (name :: d) = fs.look (name :: d) := by
  rcases h.2 (name :: d) with ⟨⟨n, hn, hsuf⟩, -⟩ | ⟨-, h⟩
  · exact absurd (eq_of_cons_suffix hsuf ▸ hn) hnew
  · exact h

theorem Without.look_self {fs fs' : Tree} {d : Path} {done : List Text} (h : Without fs d done fs') :
    fs'.look d = fs.look d := by
  rcases h.2 d with ⟨⟨n, -, hn⟩, -⟩ | ⟨-, hq⟩
  · exact absurd hn (not_cons_suffix n d)
  · exact hq

/-- One more child is gone. -/
theorem Without.next {fs t t' : Tree} {d : Path} {done : List Text} {name : Text} (h : Without fs d done t)
    (hl : t'.NoLinks) (hlook : ∀ q, t'.look q = if name :: d <:+ q then none else t.look q) :
    Without fs d (done ++ [name]) t' := by
  refine ⟨hl, fun q => ?_⟩
  rw [hlook]
  by_cases hq : name :: d <:+ q
  · exact .inl ⟨⟨name, by simp, hq⟩, if_pos hq⟩
  · rw [if_neg hq]
    rcases h.2 q with ⟨⟨n, hn, hsuf⟩, hnone⟩ | ⟨hno, hsame⟩
    · exact .inl ⟨⟨n, by simp [hn], hsuf⟩, hnone⟩
    · refine .inr ⟨?_, hsame⟩
      rintro ⟨n, hn, hsuf⟩
      rw [List.mem_append, List.mem_singleton] at hn
      rcases hn with hn | rfl
      · exact hno ⟨n, hn, hsuf⟩
      · exact hq hsuf

/-- Deleting what is no directory deletes all there is below it. -/
theorem look_delete_below {fs : Tree} {p q : Path} (hp : fs.look p ≠ some .dir) :
    (if q = p then none else fs.look q) = if p <:+ q then none else fs.look q := by
  by_cases hq : q = p
  · rw [if_pos hq, hq, if_pos List.suffix_rfl]
  · rw [if_neg hq]
    split
    · rename_i hsuf
      obtain ⟨r, rfl⟩ := hsuf
      refine FS.look_below hp r ?_
      rintro rfl
      exact hq rfl
    · rfl

/-- Below an empty directory there is nothing. -/
theorem look_below_empty {fs : Tree} {d q : Path} (h : ∀ n, fs.look (n :: d) = none) (hq : d <:+ q) (hne : q ≠ d) :
    fs.look q = none := by
  obtain ⟨r, rfl⟩ := hq
  rcases List.eq_nil_or_concat r with rfl | ⟨r, n, rfl⟩
  · exact absurd rfl hne
  · rw [List.concat_eq_append, List.append_assoc, List.singleton_append]
    by_cases hr : r = []
    · rw [hr, List.nil_append, h n]
    · exact FS.look_below (by simp [h n]) r hr

/-- `deleteTree` removes a directory and what is below it. -/
theorem deleteTree_runs : ∀ (k : Nat) (d : Path) (fs : Tree), fs.NoLinks → fs.look d = some .dir → d ≠ [] →
    Reaches fs k d → ∃ fs', Runs (deleteTree k d) fs () fs' ∧ fs'.NoLinks ∧
      ∀ q, fs'.look q = if d <:+ q then none else fs.look q
  | 0, d, fs, _, hd, _, hr => by
    rw [hr.ne_zero] at hd
    cases hd
  | k + 1, d, fs, hl, hd, hne, hr => by
    have hlist : fs.list d = some (fs.children d) := by rw [hl.list, if_pos hd]
    have hbody : ∀ (done : List Text) (name : Text) (t : Tree), Without fs d done t → name ∈ fs.children d →
        name ∉ done → ∃ t', Runs (do
          let isDir ← peek (isDirectory (name :: d))
          let sym ← peek (isSymlink (name :: d))
          if isDir && !sym then deleteTree k (name :: d)
          else mustDo "clear: cannot delete: " (name :: d) (·.delete (name :: d)) : Install Unit) t () t' ∧
          Without fs d (done ++ [name]) t' := by
      intro done name t hw hmem hnew
      have hthere : t.look (name :: d) ≠ none := hw.look_new hnew ▸ FS.mem_children.1 hmem
      have hsym : isSymlink (name :: d) t = false := hw.1.isLink _
      by_cases hdir : t.look (name :: d) = some .dir
      · obtain ⟨t', hrun, hl', hlook⟩ := deleteTree_runs k (name :: d) t hw.1 hdir (by simp) (hr.child hw.shrinks name)
        refine ⟨t', Runs.peek.bind (Runs.peek.bind ?_), hw.next hl' hlook⟩
        rw [(isDirectory_iff hw.1).2 hdir, hsym]
        exact hrun
      · obtain ⟨t', hdel⟩ := exists_delete hw.1 hthere hdir
        obtain ⟨hs, hlook⟩ := Shrinks.of_delete hw.1 hdel
        refine ⟨t', Runs.peek.bind (Runs.peek.bind ?_), hw.next hs.links fun q => ?_⟩
        · rw [isDirectory_eq_false hw.1 hdir]
          exact mustDo_runs hdel
        · rw [hlook, look_delete_below hdir]
    obtain ⟨t, hrun, hw⟩ := Runs.forM _ (fs.children d) fs ⟨hl, fun q => .inr ⟨by simp, rfl⟩⟩ hbody
      (fs.nodup_children d)
    -- the loop has emptied the directory
    have hempty : ∀ n, t.look (n :: d) = none := by
      intro n
      rcases hw.2 (n :: d) with ⟨-, hq⟩ | ⟨hno, hq⟩
      · exact hq
      · rw [hq]
        by_contra hn
        exact hno ⟨n, FS.mem_children.2 hn, List.suffix_rfl⟩
    have htd : t.look d = some .dir := hw.look_self.trans hd
    obtain ⟨fs', hdel⟩ := FS.exists_erase (by simp [htd]) hne hempty
    rw [← hw.1.delete] at hdel
    obtain ⟨hs, hlook⟩ := Shrinks.of_delete hw.1 hdel
    refine ⟨fs', ?_, hs.links, fun q => ?_⟩
    · unfold deleteTree
      refine Runs.query.bind ?_
      rw [hlist]
      exact hrun.bind (mustDo_runs hdel)
    · rw [hlook]
      by_cases hqd : q = d
      · rw [if_pos hqd, hqd, if_pos List.suffix_rfl]
      rw [if_neg hqd]
      split
      · rename_i hq
        exact look_below_empty hempty hq hqd
      · rename_i hq
        rcases hw.2 q with ⟨⟨n, -, hn⟩, -⟩ | ⟨-, h⟩
        · exact absurd ((List.suffix_cons n d).trans hn) hq
        · exact h

/-! ### Pruning -/

/-- A file that pruning leaves alone. -/
def Kept (keep : List Text) (rel : Text) : Prop :=
  rel = stampName ∨ endsWith rel newSuffix = true ∨ keep.contains rel = true

/-- At a child and below it the kept files are as they were, no other file is left, and no empty directory.
`pre` is the child's relative path. -/
structure Pruned (keep : List Text) (c : Path) (pre : Text) (fs fs' : Tree) : Prop where
  files : ∀ (rels : List Text) x, fs'.look (rels.reverse ++ c) = some (.file x) → Kept keep (rels.foldl relChild pre)
  kept : ∀ (rels : List Text) x, fs.look (rels.reverse ++ c) = some (.file x) → Kept keep (rels.foldl relChild pre) →
    fs'.look (rels.reverse ++ c) = some (.file x)
  dirs : ∀ rels : List Text, fs'.look (rels.reverse ++ c) = some .dir → ∃ n, fs'.look (n :: (rels.reverse ++ c)) ≠ none

theorem Pruned.congr {keep : List Text} {c : Path} {pre : Text} {fs fs₁ fs' fs₁' : Tree} (h : Pruned keep c pre fs fs')
    (hfs : ∀ q, c <:+ q → fs₁.look q = fs.look q) (hfs' : ∀ q, c <:+ q → fs₁'.look q = fs'.look q) :
    Pruned keep c pre fs₁ fs₁' := by
  constructor
  · intro rels x hx
    rw [hfs' _ (List.suffix_append _ _)] at hx
    exact h.files rels x hx
  · intro rels x hx hk
    rw [hfs _ (List.suffix_append _ _)] at hx
    rw [hfs' _ (List.suffix_append _ _)]
    exact h.kept rels x hx hk
  · intro rels hd
    rw [hfs' _ (List.suffix_append _ _)] at hd
    obtain ⟨n, hn⟩ := h.dirs rels hd
    refine ⟨n, ?_⟩
    rwa [hfs' _ ((List.suffix_append _ _).trans (List.suffix_cons _ _))]

/-- A child that is no directory, kept or gone. -/
theorem Pruned.of_leaf {keep : List Text} {c : Path} {pre : Text} {fs fs' : Tree} (hdir : fs.look c ≠ some .dir)
    (hs : Shrinks fs fs') (hkeep : Kept keep pre → fs'.look c = fs.look c) (hdrop : ¬ Kept keep pre → fs'.look c = none) :
    Pruned keep c pre fs fs' := by
  have hbelow : ∀ rels : List Text, rels ≠ [] → fs.look (rels.reverse ++ c) = none ∧ fs'.look (rels.reverse ++ c) = none := by
    intro rels hne
    have hr : rels.reverse ≠ [] := by simpa using hne
    exact ⟨FS.look_below hdir _ hr, FS.look_below (hs.ne_dir hdir) _ hr⟩
  constructor
  · intro rels x hx
    by_cases hr : rels = []
    · subst hr
      by_contra hk
      rw [List.reverse_nil, List.nil_append, hdrop hk] at hx
      cases hx
    · rw [(hbelow rels hr).2] at hx
      cases hx
  · intro rels x hx hk
    by_cases hr : rels = []
    · subst hr
      rw [← hx]
      exact hkeep hk
    · rw [(hbelow rels hr).1] at hx
      cases hx
  · intro rels hd
    by_cases hr : rels = []
    · subst hr
      exact absurd hd (hs.ne_dir hdir)
    · rw [(hbelow rels hr).2] at hd
      cases hd

/-- A child directory whose children are pruned; it is not empty, or it has been removed too. -/
theorem Pruned.of_dir {keep : List Text} {c : Path} {pre : Text} {fs fs₁ fs' : Tree} (hdir : fs.look c = some .dir)
    (h : ∀ n, Pruned keep (n :: c) (relChild pre n) fs fs₁) (hdir₁ : fs₁.look c = some .dir)
    (hlook : (∀ q, fs'.look q = fs₁.look q) ∧ (∃ n, fs₁.look (n :: c) ≠ none) ∨
      (∀ q, fs'.look q = if q = c then none else fs₁.look q) ∧ ∀ n, fs₁.look (n :: c) = none) :
    Pruned keep c pre fs fs' := by
  have hrev : ∀ (n : Text) (rels : List Text), (n :: rels).reverse ++ c = rels.reverse ++ n :: c := by simp
  have hbelow : ∀ (n : Text) (rels : List Text), fs'.look (rels.reverse ++ n :: c) = fs₁.look (rels.reverse ++ n :: c) := by
    intro n rels
    rcases hlook with ⟨hsame, -⟩ | ⟨hgone, -⟩
    · exact hsame _
    · rw [hgone, if_neg]
      intro he
      have := congrArg List.length he
      simp only [List.length_append, List.length_cons] at this
      omega
  have hself : ∀ x, fs'.look c ≠ some (.file x) := by
    intro x hx
    rcases hlook with ⟨hsame, -⟩ | ⟨hgone, -⟩
    · rw [hsame, hdir₁] at hx
      cases hx
    · rw [hgone, if_pos rfl] at hx
      cases hx
  constructor
  · intro rels x hx
    cases rels with
    | nil => exact absurd hx (hself x)
    | cons n rels =>
      rw [hrev, hbelow] at hx
      exact (h n).files rels x hx
  · intro rels x hx hk
    cases rels with
    | nil =>
      rw [List.reverse_nil, List.nil_append, hdir] at hx
      cases hx
    | cons n rels =>
      rw [hrev] at hx ⊢
      rw [hbelow]
      exact (h n).kept rels x hx hk
  · intro rels hd
    cases rels with
    | nil =>
      rcases hlook with ⟨hsame, n, hn⟩ | ⟨hgone, -⟩
      · exact ⟨n, by rwa [List.reverse_nil, List.nil_append, hsame]⟩
      · rw [List.reverse_nil, List.nil_append, hgone, if_pos rfl] at hd
        cases hd
    | cons n rels =>
      rw [hrev, hbelow] at hd
      rw [hrev]
      obtain ⟨k, hk⟩ := (h n).dirs rels hd
      refine ⟨k, ?_⟩
      have := hbelow n (rels ++ [k])
      rw [List.reverse_append, List.reverse_singleton, List.singleton_append, List.cons_append] at this
      rwa [this]

/-- What pruning does with a name it found. -/
def pruneName (keep : List Text) (k : Nat) (d : Path) (pre name : Text) : Install Unit := do
  let rel := relChild pre name
  let isDir ← peek (isDirectory (name :: d))
  let sym ← peek (isSymlink (name :: d))
  if isDir && !sym then do
    pruneOrphans keep k (name :: d) rel
    let remaining ← query (·.list (name :: d))
    if remaining = some [] then
      mustDo "prune: cannot remove empty dir: " (name :: d) (·.delete (name :: d))
    else pure ()
  else if rel ≠ stampName ∧ endsWith rel newSuffix = false ∧ keep.contains rel = false then
    mustDo "prune: cannot delete orphan: " (name :: d) (·.delete (name :: d))
  else pure ()

/-- Of `fs` only the children of `d` in `done` have been pruned. -/
structure PrunedTo (keep : List Text) (d : Path) (pre : Text) (done : List Text) (fs t : Tree) : Prop extends
    Shrinks fs t where
  same : ∀ q, (∀ n ∈ done, ¬ n :: d <:+ q) → t.look q = fs.look q
  pruned : ∀ n ∈ done, Pruned keep (n :: d) (relChild pre n) fs t

section PrunedTo

variable {keep : List Text} {d : Path} {pre : Text} {done : List Text} {fs t t' : Tree} {name : Text}

/-- A child that is not done yet is as it was. -/
theorem PrunedTo.look_new (h : PrunedTo keep d pre done fs t) (hnew : name ∉ done) {q : Path} (hq : name :: d <:+ q) :
    t.look q = fs.look q := by
  refine h.same q fun n hn hsuf => hnew ?_
  rw [cons_suffix_inj hq hsuf]
  exact hn

/-- What a step does to a child and below it is no matter for the rest. -/
theorem PrunedTo.next (h : PrunedTo keep d pre done fs t) (hnew : name ∉ done) (hs : Shrinks t t')
    (hrest : ∀ q, ¬ name :: d <:+ q → t'.look q = t.look q) (hp : Pruned keep (name :: d) (relChild pre name) t t') :
    PrunedTo keep d pre (done ++ [name]) fs t' where
  toShrinks := h.toShrinks.trans hs
  same q hq := by rw [hrest q (hq name (by simp)), h.same q fun n hn => hq n (by simp [hn])]
  pruned n hn := by
    rw [List.mem_append, List.mem_singleton] at hn
    rcases hn with hn | rfl
    · refine (h.pruned n hn).congr (fun _ _ => rfl) fun q hq => hrest q fun hsuf => hnew ?_
      rw [cons_suffix_inj hsuf hq]
      exact hn
    · exact hp.congr (fun q hq => (h.look_new hnew hq).symm) fun _ _ => rfl

end PrunedTo

/-- One name is pruned: it shrinks, nothing beside it changes. -/
def PrunesName (keep : List Text) (k : Nat) (d : Path) (pre name : Text) (t : Tree) : Prop :=
  ∃ t', Runs (pruneName keep k d pre name) t () t' ∧ Shrinks t t' ∧
    (∀ q, ¬ name :: d <:+ q → t'.look q = t.look q) ∧ Pruned keep (name :: d) (relChild pre name) t t'

/-- A name that is no directory is kept, or deleted as an orphan. -/
theorem pruneName_leaf (keep : List Text) (k : Nat) {d : Path} (pre : Text) {name : Text} {t : Tree} (hl : t.NoLinks)
    (hthere : t.look (name :: d) ≠ none) (hdir : t.look (name :: d) ≠ some .dir) : PrunesName keep k d pre name t := by
  have hnot := isDirectory_eq_false hl hdir
  by_cases horphan : relChild pre name ≠ stampName ∧ endsWith (relChild pre name) newSuffix = false ∧
      keep.contains (relChild pre name) = false
  · obtain ⟨t', hdel⟩ := exists_delete hl hthere hdir
    obtain ⟨hs, hlook⟩ := Shrinks.of_delete hl hdel
    refine ⟨t', Runs.peek.bind (Runs.peek.bind ?_), hs, fun q hq => ?_,
      .of_leaf hdir hs (fun hk => ?_) fun _ => by rw [hlook, if_pos rfl]⟩
    · rw [hnot]
      simp only [Bool.false_and, Bool.false_eq_true, if_false]
      rw [if_pos horphan]
      exact mustDo_runs hdel
    · rw [hlook, if_neg]
      rintro rfl
      exact hq List.suffix_rfl
    · rcases hk with hk | hk | hk
      · exact absurd hk horphan.1
      · rw [horphan.2.1] at hk
        cases hk
      · rw [horphan.2.2] at hk
        cases hk
  · have hkept : Kept keep (relChild pre name) := by
      by_contra hk
      simp only [Kept, not_or, Bool.not_eq_true] at hk
      exact horphan hk
    refine ⟨t, Runs.peek.bind (Runs.peek.bind ?_), .refl hl, fun _ _ => rfl,
      .of_leaf hdir (.refl hl) (fun _ => rfl) fun hk => absurd hkept hk⟩
    rw [hnot]
    simp only [Bool.false_and, Bool.false_eq_true, if_false]
    rw [if_neg horphan]
    exact Runs.pure

/-- A directory is pruned below, and removed if that leaves it empty. -/
theorem pruneName_dir {keep : List Text} {k : Nat} {d : Path} {pre name : Text} {t t₁ : Tree} (hl : t.NoLinks)
    (hdir : t.look (name :: d) = some .dir) (hrun : Runs (pruneOrphans keep k (name :: d) (relChild pre name)) t () t₁)
    (hs : Shrinks t t₁) (hsame : ∀ q, (∀ n, ¬ n :: name :: d <:+ q) → t₁.look q = t.look q)
    (hpruned : ∀ n, Pruned keep (n :: name :: d) (relChild (relChild pre name) n) t t₁) :
    PrunesName keep k d pre name t := by
  have hsym : isSymlink (name :: d) t = false := hl.isLink _
  have hbelow : ∀ q, ¬ name :: d <:+ q → t₁.look q = t.look q := fun q hq =>
    hsame q fun n hn => hq ((List.suffix_cons n _).trans hn)
  have hdir₁ : t₁.look (name :: d) = some .dir := by rw [hsame _ fun n => not_cons_suffix n _, hdir]
  have hlist : t₁.list (name :: d) = some (t₁.children (name :: d)) := by rw [hs.links.list, if_pos hdir₁]
  by_cases hnil : t₁.children (name :: d) = []
  · have hempty : ∀ n, t₁.look (n :: name :: d) = none := by
      intro n
      by_contra hn
      rw [← ne_eq, ← FS.mem_children, hnil] at hn
      cases hn
    obtain ⟨t₂, hdel⟩ := FS.exists_erase (by simp [hdir₁]) (List.cons_ne_nil name d) hempty
    rw [← hs.links.delete] at hdel
    obtain ⟨hs₂, hlook⟩ := Shrinks.of_delete hs.links hdel
    refine ⟨t₂, Runs.peek.bind (Runs.peek.bind ?_), hs.trans hs₂, fun q hq => ?_,
      .of_dir hdir hpruned hdir₁ (.inr ⟨hlook, hempty⟩)⟩
    · rw [(isDirectory_iff hl).2 hdir, hsym]
      refine hrun.bind (Runs.query.bind ?_)
      rw [hlist, hnil, if_pos rfl]
      exact mustDo_runs hdel
    · rw [hlook, if_neg, hbelow q hq]
      rintro rfl
      exact hq List.suffix_rfl
  · obtain ⟨n, hn⟩ := List.exists_mem_of_ne_nil _ hnil
    refine ⟨t₁, Runs.peek.bind (Runs.peek.bind ?_), hs, hbelow,
      .of_dir hdir hpruned hdir₁ (.inl ⟨fun _ => rfl, n, FS.mem_children.1 hn⟩)⟩
    rw [(isDirectory_iff hl).2 hdir, hsym]
    refine hrun.bind (Runs.query.bind ?_)
    rw [hlist, if_neg (by simpa using hnil)]
    exact Runs.pure

/-- Pruning gets to its end, changes nothing but what is below the directory, and prunes that. -/
theorem pruneOrphans_runs (keep : List Text) : ∀ (k : Nat) (d : Path) (pre : Text) (fs : Tree), fs.NoLinks →
    fs.look d = some .dir → Reaches fs k d → ∃ fs', Runs (pruneOrphans keep k d pre) fs () fs' ∧ Shrinks fs fs' ∧
      (∀ q, (∀ n, ¬ n :: d <:+ q) → fs'.look q = fs.look q) ∧ ∀ n, Pruned keep (n :: d) (relChild pre n) fs fs'
  | 0, d, _, fs, _, hd, hr => by
    rw [hr.ne_zero] at hd
    cases hd
  | k + 1, d, pre, fs, hl, hd, hr => by
    have hlist : fs.list d = some (fs.children d) := by rw [hl.list, if_pos hd]
    have hbody : ∀ (done : List Text) (name : Text) (t : Tree), PrunedTo keep d pre done fs t → name ∈ fs.children d →
        name ∉ done → ∃ t', Runs (pruneName keep k d pre name) t () t' ∧ PrunedTo keep d pre (done ++ [name]) fs t' := by
      intro done name t ht hmem hnew
      have hthere : t.look (name :: d) ≠ none := by
        rw [ht.look_new hnew List.suffix_rfl]
        exact FS.mem_children.1 hmem
      obtain ⟨t', hrun, hs, hrest, hp⟩ : PrunesName keep k d pre name t := by
        by_cases hdir : t.look (name :: d) = some .dir
        · obtain ⟨t₁, hrun, hs, hsame, hpruned⟩ := pruneOrphans_runs keep k (name :: d) (relChild pre name) t
            ht.links hdir (hr.child ht.toShrinks name)
          exact pruneName_dir ht.links hdir hrun hs hsame hpruned
        · exact pruneName_leaf keep k pre ht.links hthere hdir
      exact ⟨t', hrun, ht.next hnew hs hrest hp⟩
    have hstart : PrunedTo keep d pre [] fs fs := ⟨.refl hl, fun _ _ => rfl, by simp⟩
    obtain ⟨fs', hrun, hdone⟩ := Runs.forM (fun done t => PrunedTo keep d pre done fs t) (fs.children d) fs hstart hbody
      (fs.nodup_children d)
    refine ⟨fs', ?_, hdone.toShrinks, fun q hq => hdone.same q fun n _ => hq n, fun n => ?_⟩
    · rw [pruneOrphans]
      refine Runs.query.bind ?_
      rw [hlist]
      exact hrun
    · by_cases hn : n ∈ fs.children d
      · exact hdone.pruned n hn
      · -- a child that is not there
        have hnone : fs.look (n :: d) = none := by
          by_contra h
          exact hn (FS.mem_children.2 h)
        have hnone' : fs'.look (n :: d) = none := by
          by_contra h
          exact hdone.ne_none h hnone
        exact .of_leaf (by simp [hnone]) hdone.toShrinks (fun _ => hnone'.trans hnone.symm) fun _ => hnone'

/-! ### Clearing -/

/-- Clearing the way for a path: afterwards only directories lead to it, and it is none itself. A file
at the path stays, and so does what is neither on the way nor below. -/
theorem clearTypeConflicts_runs : ∀ (ts : List Text) (d : Path) (fs : Tree), ts ≠ [] → fs.NoLinks →
    fs.look d = some .dir → ∃ fs', Runs (clearTypeConflicts d ts) fs () fs' ∧ Shrinks fs fs' ∧ fs'.look d = some .dir ∧
      Open fs' (ts.reverse ++ d).tail ∧ fs'.look (ts.reverse ++ d) ≠ some .dir ∧
      (fs.look (ts.reverse ++ d) ≠ some .dir → fs'.look (ts.reverse ++ d) = fs.look (ts.reverse ++ d)) ∧
      ∀ q, ¬ q <:+ ts.reverse ++ d → ¬ ts.reverse ++ d <:+ q → fs'.look q = fs.look q
  | [], _, _, h, _, _ => absurd rfl h
  | t :: ts, d, fs, _, hl, hd => by
    have hrev : (t :: ts).reverse ++ d = ts.reverse ++ t :: d := by simp
    rw [hrev]
    -- once the name is missing, nothing is in the way any more
    have hgone : ∀ fs' : Tree, fs'.look d = some .dir → fs'.look (t :: d) = none →
        Open fs' (ts.reverse ++ t :: d).tail ∧ fs'.look (ts.reverse ++ t :: d) ≠ some .dir := by
      intro fs' hd' hn
      obtain ⟨ho, hnone⟩ := open_of_missing hd' hn ts.reverse
      exact ⟨ho.mono (List.tail_suffix _), by simp [hnone]⟩
    have hdt : d ≠ t :: d := fun h => by simpa using congrArg List.length h
    unfold clearTypeConflicts
    by_cases hn : fs.look (t :: d) = none
    · have hthere : fileExists (t :: d) fs = false := by simp [fileExists, hl.stat, hn]
      obtain ⟨ho, hnot⟩ := hgone fs hd hn
      refine ⟨fs, Runs.peek.bind ?_, Shrinks.refl hl, hd, ho, hnot, fun _ => rfl, fun _ _ _ => rfl⟩
      rw [hthere]
      exact Runs.pure
    have hthere : fileExists (t :: d) fs = true := by simpa [fileExists, hl.stat, Option.isSome_iff_ne_none] using hn
    have hsym : isSymlink (t :: d) fs = false := hl.isLink _
    by_cases hdir : fs.look (t :: d) = some .dir
    · have hisDir := (isDirectory_iff hl).2 hdir
      by_cases hts : ts = []
      · -- a directory in the place of the file goes with everything in it
        subst hts
        obtain ⟨fs', hrun, hl', hlook⟩ := deleteTree_runs _ _ fs hl hdir (by simp) (reaches_walkDepth fs (t :: d))
        have hd' : fs'.look d = some .dir := by rw [hlook, if_neg (not_cons_suffix t d), hd]
        obtain ⟨ho, hnot⟩ := hgone fs' hd' (by rw [hlook, if_pos List.suffix_rfl])
        refine ⟨fs', Runs.peek.bind ?_, ⟨hl', fun q => ?_⟩, hd', ho, hnot, fun h => absurd hdir h, fun q _ hq => ?_⟩
        · rw [hthere]
          refine Runs.peek.bind (Runs.peek.bind ?_)
          rw [if_pos rfl, hsym, hisDir]
          exact Runs.peek.bind hrun
        · rw [hlook]
          split
          · exact .inr rfl
          · exact .inl rfl
        · rw [hlook, if_neg (by simpa using hq)]
      · obtain ⟨fs', hrun, hs, hd', ho, hnot, hself, hother⟩ := clearTypeConflicts_runs ts (t :: d) fs hts hl hdir
        refine ⟨fs', Runs.peek.bind ?_, hs, FS.look_dir_suffix hd' (List.suffix_cons t d), ho, hnot, hself, hother⟩
        rw [hthere]
        refine Runs.peek.bind (Runs.peek.bind ?_)
        rw [if_neg hts, hsym, hisDir]
        exact hrun
    · have hisDir := isDirectory_eq_false hl hdir
      by_cases hts : ts = []
      · subst hts
        refine ⟨fs, Runs.peek.bind ?_, Shrinks.refl hl, hd, ?_, hdir, fun _ => rfl, fun _ _ _ => rfl⟩
        · rw [hthere]
          refine Runs.peek.bind (Runs.peek.bind ?_)
          rw [if_pos rfl, hsym, hisDir]
          exact Runs.pure
        · exact fun q hq => .inr (FS.look_dir_suffix hd hq)
      · -- a file where a directory has to be
        obtain ⟨fs', hdel⟩ := exists_delete hl hn hdir
        obtain ⟨hs, hlook⟩ := Shrinks.of_delete hl hdel
        have hd' : fs'.look d = some .dir := by rw [hlook, if_neg hdt, hd]
        obtain ⟨ho, hnot⟩ := hgone fs' hd' (by rw [hlook, if_pos rfl])
        refine ⟨fs', Runs.peek.bind ?_, hs, hd', ho, hnot, fun _ => ?_, fun q hq _ => ?_⟩
        · rw [hthere]
          refine Runs.peek.bind (Runs.peek.bind ?_)
          rw [if_neg hts, hsym, hisDir]
          exact mustDo_runs hdel
        · rw [hlook, if_neg]
          intro h
          have := congrArg List.length h
          simp only [List.length_append, List.length_reverse, List.length_cons] at this
          exact hts (List.length_eq_zero_iff.1 (by omega))
        · rw [hlook, if_neg]
          rintro rfl
          exact hq (List.suffix_append _ _)

end Walks

end ShairKindle.Payload
