import ShairKindle.Installer.Steps
import ShairKindle.Lib.Region

/-!
# Where an install works

Whatever is on the file system, links anywhere included, and whatever fails: which nodes `install` touches.
Three of its walks (`clearTypeConflicts`, `deleteTree`, `pruneOrphans`) ask `isSymlink` before they enter a
directory and stay in the tree of the directory they start from. `cleanStaleNewRecursive` (PayloadInstaller.java:468)
does not ask, so it deletes `.new` files wherever a directory link takes it. Staged files are written through a
link if one is in their place (:393 only refuses what is no file), and `mv` follows a link to a directory (:453);
the clean-up and `renameTo` come first, so this takes a file operation that fails.

`CleanIn`, `StagedIn` and `Inner` for the stamp say that none of the three leaves the region `W`, and each function
of the installer then drifts within it (`install_drifts`). The path to a staged file passes no link when it is
written: conflicts are cleared first, and what was no link stays none (`Unlinked`).
-/

namespace ShairKindle.Payload

open Crash Crash.Prog FileTree

/-! ## What has to hold of the tree -/

/-- Every `.new` file in a directory the clean-up walks is in the region. -/
def CleanIn (W : Set Path) (dir : Path) (fs : Tree) : Prop :=
  ∀ q n x, endsWith n newSuffix = true → fs.stat (q ++ dir) = some .dir → fs.place (n :: (q ++ dir)) = some x →
    fs.look x ≠ none → fs.stat (n :: (q ++ dir)) ≠ some .dir → x ∈ W

/-- A `.new` link to a directory is one on every path the clean-up comes to it: none has too many links. -/
def NewLinksReach (dir : Path) (fs : Tree) : Prop :=
  ∀ q n x t j z, endsWith n newSuffix = true → fs.place (n :: (q ++ dir)) = some x → fs.look x = some (.link t) →
    fs.Leads t j z → fs.look z = some .dir → fs.stat (n :: (q ++ dir)) = some .dir

/-- The files an install stages, from its directory. -/
def stagedFiles (m : Manifest) : List Path :=
  staged [stampName] :: m.entries.map fun e => staged (components e.relPath).reverse

/-- A link in the place of a staged file leads into the region, or to a directory. -/
def StagedIn (W : Set Path) (dir : Path) (m : Manifest) (fs : Tree) : Prop :=
  ∀ R n d t r, fs.real dir = some R → n :: d ∈ stagedFiles m → fs.look (n :: (d ++ R)) = some (.link t) →
    fs.real (n :: (d ++ dir)) = some r → fs.look r ≠ some .dir → r ∈ W

section Stable

variable {W : Set Path} {dir : Path} {m : Manifest} {s s' : Tree}

theorem CleanIn.sheds (h : CleanIn W dir s) (hs : FS.Sheds s s') : CleanIn W dir s' := by
  intro q n x hn hd hx hne hnd
  rw [hs.stat_iff] at hd
  rw [hs.place_iff] at hx
  rw [Ne, hs.stat_iff] at hnd
  exact h q n x hn hd hx (by rw [hs.lost x hne]; exact hne) hnd

theorem NewLinksReach.sheds (h : NewLinksReach dir s) (hs : FS.Sheds s s') : NewLinksReach dir s' := by
  intro q n x t j z hn hx ht hleads hz
  have hthere : s'.look z ≠ none := by rw [hz]; simp
  rw [hs.place_iff] at hx
  rw [← hs.lost x (by rw [ht]; simp)] at ht
  rw [← hs.lost z hthere] at hz
  rw [hs.stat_iff]
  exact h q n x t j z hn hx ht (hleads.mono hs.lost hthere) hz

/-- Deleting what the clean-up deletes loses no directory, nor a way to one. -/
theorem NewLinksReach.sheds_of_delete (h : NewLinksReach dir s) {q : Path} {n : Text} (hn : endsWith n newSuffix = true)
    (hnd : s.stat (n :: (q ++ dir)) ≠ some .dir) (hd : s.delete (n :: (q ++ dir)) = some s') : FS.Sheds s s' := by
  obtain ⟨x, hx, -⟩ := Option.bind_eq_some_iff.1 hd
  refine FS.Sheds.of_delete hx (fun hdir => hnd ?_) (fun t j z ht hleads hz => hnd ?_) hd
  · exact FS.stat_eq_some.2 ⟨x, FS.real_of_place hx (by simp [hdir]), hdir⟩
  · exact h q n x t j z hn hx ht hleads hz

theorem StagedIn.drifts (h : StagedIn W dir m s) (hd : FS.Drifts W s s') : StagedIn W dir m s' := by
  obtain ⟨M, hM, hch⟩ := hd
  intro R n d t r hR hf ht hr hnd
  by_cases hm : n :: (d ++ R) ∈ M
  · obtain ⟨j, hleads⟩ := FS.leads_of_link hR ht hr
    exact hM (hch.links _ hm t j r ht hleads)
  have hRm : R ∉ M := fun hR => hm (hch.up.append hR (n :: d))
  by_cases hrm : r ∈ M
  · exact hM hrm
  rw [hch.look _ hm] at ht
  rw [hch.look _ hrm] at hnd
  exact h R n d t r ((hch.real hR).resolve_left hRm) hf ht ((hch.real hr).resolve_left hrm) hnd

end Stable

/-! ## Making directories and cleaning -/

/-- Making a path makes directories on it. -/
theorem mkdirs_of_create {R : Tree → Tree → Prop} [IsPreorder Tree R] {P : Tree → Prop} : ∀ p : Path,
    (∀ q, q <:+ p → ∀ s s', P s → s.create q = some s' → R s s' ∧ P s') → Keeps R P (mkdirs p) fun _ => P
  | [], _ => Keeps.pure fun _ => id
  | n :: p, h => mkdirs_cons_keeps (Keeps.attempt (h _ (List.suffix_refl _)) fun _ => id)
      (mkdirs_of_create p fun q hq => h q (hq.trans (List.suffix_cons n p)))

/-- The clean-up deletes `.new` names that are no directories. -/
theorem clean_of_delete {R : Tree → Tree → Prop} [IsPreorder Tree R] {P : Tree → Prop} {dir : Path}
    (h : ∀ q n s s', endsWith n newSuffix = true → s.stat (n :: (q ++ dir)) ≠ some .dir → P s →
      s.delete (n :: (q ++ dir)) = some s' → R s s' ∧ P s') : ∀ (k : Nat) (q : Path),
    Keeps R P (cleanStaleNewRecursive k (q ++ dir)) (fun _ => P)
  | 0, q => Keeps.throw
  | k + 1, q => by
    unfold cleanStaleNewRecursive
    refine Keeps.query.bind fun files => Keeps.weaken (Keeps.forM_keep fun name _ => ?_) (fun _ => And.left)
      fun _ _ => id
    refine Keeps.peek.bind fun isDir => Keeps.ite (fun _ => ?_) fun hno => Keeps.ite (fun hnew => ?_) fun _ => ?_
    · exact (clean_of_delete h k (name :: q)).weaken (fun _ => And.left) fun _ _ => id
    · refine (Keeps.attempt (Q := fun _ => P) (fun s s' hs hd => ?_) fun _ => And.left).bind fun _ => Keeps.pure fun _ => id
      have hnd : s.stat (name :: (q ++ dir)) ≠ some .dir := fun hstat => hno (hs.2.symm.trans (isDirectory_stat.2 hstat))
      exact h q name s s' hnew hnd hs.1 hd
    · exact Keeps.pure fun _ => And.left

section Parts

variable {W : Set Path} (hW : FS.UpClosed W) {dir : Path} {m : Manifest}
include hW

/-- The clean-up follows directory links; what it deletes is in the region if the tree is such. -/
theorem clean_drifts (k : Nat) :
    Keeps (FS.Drifts W) (fun s => CleanIn W dir s ∧ NewLinksReach dir s) (cleanStaleNewRecursive k dir)
      (fun _ _ => True) := by
  refine (clean_of_delete (fun q n s s' hn hnd hs hd => ?_) k []).weaken (fun _ => id) fun _ _ _ => trivial
  have hsheds := hs.2.sheds_of_delete hn hnd hd
  obtain ⟨x, hx, -⟩ := Option.bind_eq_some_iff.1 hd
  have hxW := hs.1 q n x hn (FS.stat_of_place hx) hx (FS.delete_spec hx hd).1 hnd
  exact ⟨(FS.Trims.delete hW hx hxW hd).1, hs.1.sheds hsheds, hs.2.sheds hsheds⟩

/-! ## Walks that ask for links -/

theorem mustDelete_trims {message : String} {P : Tree → Prop} {n : Text} {d : Path} (hP : ∀ s, P s → FS.Inner W d s)
    (hstable : ∀ s s', FS.Trims W s s' → P s → P s') :
    Keeps (FS.Trims W) P (mustDo message (n :: d) (·.delete (n :: d)))
      (fun _ s => P s ∧ s.stat (n :: d) ≠ some .dir) :=
  mustDo_keeps fun s s' hs hd => by
    have htrims := (hP s hs).trims hW hd
    exact ⟨htrims, hstable s s' htrims hs, by rw [FS.stat_of_delete hd]; simp⟩

/-- A directory is deleted with what is in it; it is left as a directory only if something fails. -/
theorem deleteTree_trims : ∀ (k : Nat) (n : Text) (d : Path),
    Keeps (FS.Trims W) (fun s => FS.Inner W d s ∧ FS.Inner W (n :: d) s) (deleteTree k (n :: d))
      (fun _ s => (FS.Inner W d s ∧ FS.Inner W (n :: d) s) ∧ s.stat (n :: d) ≠ some .dir)
  | 0, n, d => Keeps.throw
  | k + 1, n, d => by
    have hstable : ∀ s s' : Tree, FS.Trims W s s' → FS.Inner W d s ∧ FS.Inner W (n :: d) s →
        FS.Inner W d s' ∧ FS.Inner W (n :: d) s' := fun s s' h hs => ⟨hs.1.drifts h.1, hs.2.drifts h.1⟩
    unfold deleteTree
    refine Keeps.query.bind fun kids => Keeps.bind (Q := fun _ (s : Tree) => FS.Inner W d s ∧ FS.Inner W (n :: d) s)
      (Keeps.weaken (Keeps.forM_keep fun name _ => ?_) (fun _ => And.left) fun _ _ => id) fun _ => ?_
    · refine Keeps.peek.bind fun isDir => Keeps.peek.bind fun sym => Keeps.ite (fun hc => ?_) fun _ => ?_
      · -- a real directory of the tree
        have hrec := (deleteTree_trims k name (n :: d)).frame (A := FS.Inner W d) fun s s' h hs => hs.drifts h.1
        refine hrec.weaken (fun s hs => ?_) fun _ s hs => ⟨hs.2, hs.1.1.1⟩
        obtain ⟨⟨⟨hd, hn⟩, -⟩, hsym⟩ := hs
        have hlink : s.isLink (name :: n :: d) = false := by
          simp only [Bool.and_eq_true, Bool.not_eq_true'] at hc
          exact hsym.trans hc.2
        exact ⟨⟨hn, hn.cons hW hlink⟩, hd⟩
      · refine (mustDelete_trims hW (fun s hs => hs.2) hstable).weaken (fun _ hs => hs.1.1) fun _ _ => And.left
    · exact mustDelete_trims hW (fun s hs => hs.1) hstable

/-- Nothing from the directory to the path in it leads out of the region or, as a link, to a directory. -/
def Cleared (W : Set Path) (d : Path) (cs : List Text) (s : Tree) : Prop :=
  FS.Inner W d s ∧ ∀ pre suf, cs = pre ++ suf → pre ≠ [] →
    FS.Inner W (pre.reverse ++ d) s ∧ FS.Unlinked (pre.reverse ++ d) s

omit hW in
theorem Cleared.inner {d : Path} {cs pre suf : List Text} {s : Tree} (h : Cleared W d cs s) (hcs : cs = pre ++ suf) :
    FS.Inner W (pre.reverse ++ d) s := by
  rcases pre with - | ⟨t, pre⟩
  · exact h.1
  · exact (h.2 (t :: pre) suf hcs (by simp)).1

omit hW in
/-- It is enough that the first name leads to no directory. -/
theorem cleared_of_blocked {d : Path} {t : Text} {ts : List Text} {s : Tree} (hd : FS.Inner W d s)
    (hno : s.stat (t :: d) ≠ some .dir) : Cleared W d (t :: ts) s := by
  refine ⟨hd, fun pre suf h hne => ?_⟩
  rcases pre with - | ⟨u, pre⟩
  · exact absurd rfl hne
  · obtain ⟨rfl, -⟩ := List.cons.inj h
    rw [List.reverse_cons, List.append_assoc]
    exact ⟨FS.inner_of_blocked hno pre.reverse, FS.unlinked_of_stat fun h => hno (FS.stat_dir_suffix pre.reverse h)⟩

omit hW in
theorem Cleared.cons {d : Path} {t : Text} {ts : List Text} {s : Tree} (hd : FS.Inner W d s)
    (hlink : FS.Unlinked (t :: d) s) (h : Cleared W (t :: d) ts s) : Cleared W d (t :: ts) s := by
  refine ⟨hd, fun pre suf hts hne => ?_⟩
  rcases pre with - | ⟨u, pre⟩
  · exact absurd rfl hne
  obtain ⟨rfl, htail⟩ := List.cons.inj hts
  rw [List.reverse_cons, List.append_assoc]
  rcases pre with - | ⟨v, pre⟩
  · exact ⟨h.1, hlink⟩
  · exact h.2 (v :: pre) suf htail (by simp)

/-- Clearing the conflicts leaves nothing on the way to the target that leads elsewhere. -/
theorem clearTypeConflicts_trims : ∀ (ts : List Text) (d : Path),
    Keeps (FS.Trims W) (FS.Inner W d) (clearTypeConflicts d ts) (fun _ => Cleared W d ts)
  | [], d => Keeps.pure fun s hs => ⟨hs, fun pre suf h hne => absurd (List.append_eq_nil_iff.1 h.symm).1 hne⟩
  | t :: ts, d => by
    have hstable : ∀ s s' : Tree, FS.Trims W s s' → FS.Inner W d s → FS.Inner W d s' := fun s s' h hs => hs.drifts h.1
    unfold clearTypeConflicts
    refine Keeps.peek.bind fun there => Keeps.ite (fun hno => Keeps.pure fun s hs => ?_) fun _ => ?_
    · refine cleared_of_blocked hs.1 fun hstat => ?_
      have hthere := hs.2
      rw [fileExists, hstat] at hthere
      rw [← hthere] at hno
      exact absurd hno (by simp)
    refine Keeps.peek.bind fun sym => Keeps.peek.bind fun isDir => ?_
    have hdelete : ∀ message : String, Keeps (FS.Trims W) (FS.Inner W d)
        (mustDo message (t :: d) (·.delete (t :: d))) (fun _ => Cleared W d (t :: ts)) := fun message =>
      (mustDelete_trims hW (fun _ => id) hstable).weaken (fun _ => id) fun _ s hs => cleared_of_blocked hs.1 hs.2
    refine Keeps.ite (fun _ => ?_) fun _ => ?_
    · -- the target itself
      refine Keeps.ite (fun _ => (hdelete _).weaken (fun _ hs => hs.1.1.1) fun _ _ => id) fun hsym => ?_
      refine Keeps.ite (fun _ => ?_) fun hdir => Keeps.pure fun s hs => cleared_of_blocked hs.1.1.1 fun hstat =>
        hdir (hs.2.symm.trans (isDirectory_stat.2 hstat))
      · refine Keeps.peek.bind fun k => (deleteTree_trims hW k t d).weaken (fun s hs => ?_)
          fun _ s hs => cleared_of_blocked hs.1.1 hs.2
        obtain ⟨⟨⟨⟨hd, -⟩, hlink⟩, -⟩, -⟩ := hs
        exact ⟨hd, hd.cons hW (hlink.trans (by simpa using hsym))⟩
    · -- a directory on the way
      refine Keeps.ite (fun _ => (hdelete _).weaken (fun _ hs => hs.1.1.1) fun _ _ => id) fun hc => ?_
      have hrec := (clearTypeConflicts_trims ts (t :: d)).frame
        (A := fun s => FS.Inner W d s ∧ FS.Unlinked (t :: d) s) fun s s' h hs => ⟨hs.1.drifts h.1, hs.2.lose h.2⟩
      refine hrec.weaken (fun s hs => ?_) fun _ s hs => ?_
      · obtain ⟨⟨⟨hd, -⟩, hlink⟩, -⟩ := hs
        simp only [Bool.or_eq_true, Bool.not_eq_true', not_or] at hc
        have hno : s.isLink (t :: d) = false := hlink.trans (by simpa using hc.1)
        exact ⟨hd.cons hW hno, hd, fun _ => hno⟩
      · exact .cons hs.2.1 hs.2.2 hs.1

theorem pruneOrphans_trims (keep : List Text) : ∀ (k : Nat) (d : Path) (pre : Text),
    Keeps (FS.Trims W) (FS.Inner W d) (pruneOrphans keep k d pre) (fun _ => FS.Inner W d)
  | 0, _, _ => Keeps.throw
  | k + 1, d, pre => by
    have hstable : ∀ s s' : Tree, FS.Trims W s s' → FS.Inner W d s → FS.Inner W d s' := fun s s' h hs => hs.drifts h.1
    unfold pruneOrphans
    refine Keeps.query.bind fun files => ?_
    cases files with
    | none => exact Keeps.throw
    | some names =>
      refine Keeps.weaken (Keeps.forM_keep fun name _ => ?_) (fun _ => And.left) fun _ _ => id
      refine Keeps.peek.bind fun isDir => Keeps.peek.bind fun sym => Keeps.ite (fun hc => ?_) fun _ => ?_
      · have hrec := (pruneOrphans_trims keep k (name :: d) (relChild pre name)).frame (A := FS.Inner W d) hstable
        refine (hrec.weaken (fun s hs => ?_) fun _ _ hs => hs.2).bind fun _ => ?_
        · obtain ⟨⟨hd, -⟩, hsym⟩ := hs
          simp only [Bool.and_eq_true, Bool.not_eq_true'] at hc
          exact ⟨hd.cons hW (hsym.trans hc.2), hd⟩
        · refine Keeps.query.bind fun remaining => Keeps.ite (fun _ => ?_) fun _ => Keeps.pure fun _ => And.left
          exact (mustDelete_trims hW (fun _ => id) hstable).weaken (fun _ => And.left) fun _ _ => And.left
      · refine Keeps.ite (fun _ => ?_) fun _ => Keeps.pure fun _ hs => hs.1.1
        exact (mustDelete_trims hW (fun _ => id) hstable).weaken (fun _ hs => hs.1.1) fun _ _ => And.left

/-! ## Staged files -/

/-- What is needed to write the staged file `c.new` of the directory `d`, from the install directory. -/
structure Stages (W : Set Path) (dir : Path) (m : Manifest) (d : Path) (s : Tree) : Prop where
  links : StagedIn W dir m s
  parent : FS.Inner W (d ++ dir) s
  straight : ∀ d', d' ≠ [] → d' <:+ d → FS.Unlinked (d' ++ dir) s

/-- What the path of a staged file writes is in the region: it passes no link before the last name. -/
theorem Stages.writes {c : Text} {d : Path} {s : Tree} (h : Stages W dir m d s) (hf : staged (c :: d) ∈ stagedFiles m)
    (r : Path) (hr : s.real (staged (c :: (d ++ dir))) = some r) (hnd : s.look r ≠ some .dir) : r ∈ W := by
  obtain ⟨q, hq, hd, ⟨t, j, ht, -⟩ | ⟨-, rfl⟩⟩ := FS.real_cons hr
  · obtain ⟨R, hR, -⟩ := FS.stat_eq_some.1 (FS.stat_dir_suffix d (FS.stat_eq_some.2 ⟨q, hq, hd⟩))
    obtain rfl := FS.real_append_of_unlinked hR d h.straight hq hd
    exact h.links R (c ++ newSuffix) d t r hR hf ht hr hnd
  · exact hW q (h.parent q hq hd) (c ++ newSuffix)

/-- Writing a staged file. -/
theorem Stages.write {c : Text} {d : Path} {s s' : Tree} {f : Option FileData → FileData} (h : Stages W dir m d s)
    (hf : staged (c :: d) ∈ stagedFiles m) (hw : s.write f (staged (c :: (d ++ dir))) = some s') :
    FS.Drifts W s s' ∧ Stages W dir m d s' ∧ FS.Led W (staged (c :: (d ++ dir))) s' := by
  obtain ⟨hdrift, hled⟩ := FS.Drifts.write hW (h.writes hW hf) hw
  exact ⟨hdrift, ⟨h.links.drifts hdrift, h.parent.drifts hdrift, fun d' hne hd' => (h.straight d' hne hd').write hw⟩, hled⟩

variable (dir) in
theorem writeFileSynced_drifts {c : Text} {d : Path} (hf : staged (c :: d) ∈ stagedFiles m) (data : Bytes) :
    Keeps (FS.Drifts W) (Stages W dir m d) (writeFileSynced (staged (c :: (d ++ dir))) data)
      (fun _ s => Stages W dir m d s ∧ FS.Led W (staged (c :: (d ++ dir))) s) :=
  mustDo_keeps fun _ _ hs hw => hs.write hW hf hw

variable (dir) in
theorem chmod_drifts {c : Text} {d : Path} (hf : staged (c :: d) ∈ stagedFiles m) (mode : Text) :
    Keeps (FS.Drifts W) (Stages W dir m d) (chmod mode (staged (c :: (d ++ dir))))
      (fun _ s => Stages W dir m d s ∧ FS.Led W (staged (c :: (d ++ dir))) s) :=
  mustDo_keeps fun s s' hs hw => by
    obtain ⟨old, -, hw⟩ := Option.bind_eq_some_iff.1 hw
    exact hs.write hW hf hw

/-- `mv` moves within the region if no directory of the new name is outside. -/
theorem mvInto_drifts {a c : Text} {d : Path} {s s' : Tree} (hd : FS.Inner W d s) (hfinal : FS.Inner W (c :: d) s)
    (hled : FS.Led W (a :: d) s) (hmv : mvInto (a :: d) (c :: d) s = some s') : FS.Drifts W s s' := by
  unfold mvInto at hmv
  split at hmv
  -- into a directory of that name
  · exact FS.Drifts.move hW hd hfinal hled hmv
  · exact FS.Drifts.move hW hd hd hled hmv

theorem renameOrThrow_drifts {a c : Text} {d : Path} :
    Keeps (FS.Drifts W) (fun s => FS.Inner W d s ∧ FS.Inner W (c :: d) s ∧ FS.Led W (a :: d) s)
      (renameOrThrow (a :: d) (c :: d)) (fun _ _ => True) := by
  unfold renameOrThrow
  refine (Keeps.attempt (Q := fun b s => b = false → FS.Inner W d s ∧ FS.Inner W (c :: d) s ∧ FS.Led W (a :: d) s)
    (fun s s' hs hmv => ?_) fun s hs _ => hs).bind fun renamed => ?_
  · exact ⟨FS.Drifts.move hW hs.1 hs.1 hs.2.2 hmv, by simp⟩
  refine Keeps.ite (fun _ => Keeps.pure fun _ _ => trivial) fun hno => ?_
  refine (Keeps.attempt (Q := fun _ _ => True) (fun s s' hs hmv => ⟨?_, trivial⟩) fun _ _ => trivial).bind fun moved =>
    Keeps.peek.bind fun there => Keeps.ite (fun _ => Keeps.pure fun _ _ => trivial) fun _ => Keeps.throw
  obtain ⟨hd, hfinal, hled⟩ := hs (by simpa using hno)
  exact mvInto_drifts hW hd hfinal hled hmv

/-! ## An entry, and the whole -/

variable (hash : Bytes → Text) (res : Text → Option Bytes)

variable (dir) in
theorem extract_drifts {e : Entry} {c : Text} {d : Path} (hf : staged (c :: d) ∈ stagedFiles m) :
    Keeps (FS.Drifts W) (fun s => Stages W dir m d s ∧ FS.Inner W (c :: (d ++ dir)) s)
      (extract hash res e (staged (c :: (d ++ dir))) (c :: (d ++ dir))) (fun _ _ => True) := by
  have hfinal : ∀ s s' : Tree, FS.Drifts W s s' → FS.Inner W (c :: (d ++ dir)) s → FS.Inner W (c :: (d ++ dir)) s' :=
    fun s s' hd hs => hs.drifts hd
  unfold extract
  refine Keeps.peek.bind fun odd => Keeps.ite (fun _ => Keeps.throw) fun _ => Keeps.query.bind fun data => ?_
  cases data with
  | none => exact Keeps.throw
  | some data =>
    have hwrite := (writeFileSynced_drifts hW dir hf data).frame hfinal
    refine Keeps.bind (Q := fun _ s => Stages W dir m d s ∧ FS.Inner W (c :: (d ++ dir)) s)
      (hwrite.weaken (fun _ hs => hs.1.1) fun _ _ hs => ⟨hs.1.1, hs.2⟩) fun _ => ?_
    refine readFile_keeps.bind fun content => Keeps.ite (fun _ => Keeps.throw) fun _ => ?_
    have hchmod := (chmod_drifts hW dir hf e.mode).frame hfinal
    refine (hchmod.weaken (fun _ => And.left) fun _ s hs => ?_).bind fun _ => renameOrThrow_drifts hW
    exact ⟨hs.1.1.parent, hs.2, hs.1.2⟩

/-- What holds between the parts of an install. -/
structure Bounded (W : Set Path) (dir : Path) (m : Manifest) (s : Tree) : Prop where
  onWay : ∀ p, p <:+ dir → FS.OnWay W p s
  links : StagedIn W dir m s
  root : FS.Inner W dir s

omit hW in
theorem Bounded.drifts (s s' : Tree) (hd : FS.Drifts W s s') (h : Bounded W dir m s) : Bounded W dir m s' :=
  ⟨fun p hp => (h.onWay p hp).drifts hd, h.links.drifts hd, h.root.drifts hd⟩

omit hW in
/-- A path from the install directory to a target ends in it or passes names of the target. -/
theorem suffix_append_cases {p : Path} {cs : List Text} (h : p <:+ cs.reverse ++ dir) :
    p <:+ dir ∨ ∃ n a suf, cs = a ++ n :: suf ∧ p = n :: (a.reverse ++ dir) := by
  obtain ⟨r, hr⟩ := h
  rcases List.append_eq_append_iff.1 hr with ⟨a, hcs, rfl⟩ | ⟨a, -, rfl⟩
  · rcases a with - | ⟨n, a⟩
    · exact .inl (List.suffix_refl _)
    · refine .inr ⟨n, a.reverse, r.reverse, ?_, by simp⟩
      rw [← List.reverse_inj, hcs]
      simp
  · exact .inl (List.suffix_append a p)

/-- Making the directories on the way to a target. -/
theorem Cleared.create {cs : List Text} {q : Path} {s s' : Tree} (hb : Bounded W dir m s) (h : Cleared W dir cs s)
    (hq : q <:+ cs.reverse ++ dir) (hc : s.create q = some s') : FS.Drifts W s s' ∧ Cleared W dir cs s' := by
  have hway : FS.OnWay W q s := by
    rcases suffix_append_cases hq with hq | ⟨n, a, suf, hcs, rfl⟩
    · exact hb.onWay q hq
    · exact (h.inner hcs).onWay hW
  have hdrift := FS.Drifts.create hW hway hc
  refine ⟨hdrift, h.1.drifts hdrift, fun pre suf hcs hne => ⟨(h.inner hcs).drifts hdrift, ?_⟩⟩
  refine (h.2 pre suf hcs hne).2.create (List.suffix_or_suffix_of_suffix ?_ hq) hc
  rw [hcs, List.reverse_append, List.append_assoc]
  exact List.suffix_append _ _

theorem installEntry_drifts {e : Entry} (he : e ∈ m.entries) (hv : e.Valid) :
    Keeps (FS.Drifts W) (Bounded W dir m) (installEntry hash dir res e) (fun _ => Bounded W dir m) := by
  obtain ⟨cs, c, hcs⟩ : ∃ cs c, components e.relPath = cs ++ [c] := by
    rcases List.eq_nil_or_concat (components e.relPath) with h | ⟨cs, c, h⟩
    · exact absurd h (components_ne_nil hv.relPath)
    · exact ⟨cs, c, by rw [h, List.concat_eq_append]⟩
  have htarget : target dir e = c :: (cs.reverse ++ dir) := by simp [target, hcs]
  have hstaged : staged (c :: cs.reverse) ∈ stagedFiles m := by
    refine List.mem_cons_of_mem _ (List.mem_map.2 ⟨e, he, ?_⟩)
    rw [hcs, List.reverse_append]
    rfl
  -- from clearing to the end nothing on the way to the target leads out
  let Ready := fun s : Tree => Cleared W dir (components e.relPath) s ∧ Bounded W dir m s
  unfold installEntry
  have hclear := ((clearTypeConflicts_trims hW (components e.relPath) dir).mono fun s s' h => h.1).frame
    (A := Bounded W dir m) Bounded.drifts
  refine (hclear.weaken (fun s hs => ⟨hs.root, hs⟩) fun _ _ => id).bind fun _ => ?_
  have hsha : Keeps (FS.Drifts W) Ready (currentSha hash (target dir e)) (fun _ => Ready) := by
    unfold currentSha
    refine Keeps.peek.bind fun there => Keeps.ite (fun _ => ?_) fun _ => Keeps.pure fun _ => And.left
    exact readFile_keeps.bind fun content => Keeps.pure fun _ hs => hs.1.1
  refine hsha.bind fun sha => Keeps.ite (fun _ => Keeps.pure fun _ hs => hs.2) fun _ => ?_
  have hensure : Keeps (FS.Drifts W) Ready (ensureDir "cannot create parent dir: " (target dir e).tail)
      (fun _ => Ready) := by
    refine ensureDir_of_mkdirs _ (mkdirs_of_create _ fun q hq s s' hs hc => ?_)
    have hq' : q <:+ (components e.relPath).reverse ++ dir := hq.trans (List.tail_suffix _)
    obtain ⟨hdrift, hcleared⟩ := hs.1.create hW hs.2 hq' hc
    exact ⟨hdrift, hcleared, hs.2.drifts s s' hdrift⟩
  refine hensure.bind fun _ => ?_
  rw [htarget]
  have hextract := (extract_drifts hW dir hash res (e := e) hstaged).frame (A := Bounded W dir m) Bounded.drifts
  refine hextract.weaken (fun s hs => ⟨⟨⟨hs.2.links, hs.1.inner hcs, fun d' hne hd' => ?_⟩, ?_⟩, hs.2⟩) fun _ _ => And.right
  · obtain ⟨r, hr⟩ := hd'
    have hpre : components e.relPath = d'.reverse ++ (r.reverse ++ [c]) := by
      rw [hcs, ← List.append_assoc, ← List.reverse_append, hr, List.reverse_reverse]
    have hunlinked := (hs.1.2 d'.reverse _ hpre (by simpa using hne)).2
    rwa [List.reverse_reverse] at hunlinked
  · have hfinal := hs.1.inner (hcs.trans (List.append_nil _).symm)
    rwa [List.reverse_append] at hfinal

/-- The install from its cleaned directory up to the staged stamp. -/
def installRest (dir : Path) (m : Manifest) : Install Unit := do
  m.entries.forM (installEntry hash dir res)
  let k ← peek walkDepth
  pruneOrphans (m.entries.map (·.relPath)) k dir []
  writeFileSynced (staged (stampName :: dir)) (encodeAscii m.version)

omit hW in
theorem installFiles_eq :
    installFiles hash dir m res = (ensureDir "cannot create installDir: " dir >>= fun _ => peek walkDepth >>= fun k =>
      cleanStaleNewRecursive k dir >>= fun _ => installRest hash res dir m) := rfl

theorem installRest_drifts (hm : m.Valid) :
    Keeps (FS.Drifts W) (Bounded W dir m) (installRest hash res dir m)
      (fun _ s => FS.Inner W dir s ∧ FS.Led W (staged (stampName :: dir)) s) := by
  have hentries : Keeps (FS.Drifts W) (Bounded W dir m) (m.entries.forM (installEntry hash dir res))
      (fun _ => Bounded W dir m) :=
    Keeps.forM_keep fun e he => installEntry_drifts hW hash res he (hm.entry e he)
  have hprune : ∀ keep k pre, Keeps (FS.Drifts W) (Bounded W dir m) (pruneOrphans keep k dir pre)
      (fun _ => Bounded W dir m) := fun keep k pre =>
    (((pruneOrphans_trims hW keep k dir pre).mono fun s s' h => h.1).frame (A := Bounded W dir m) Bounded.drifts).weaken
      (fun s hs => ⟨hs.root, hs⟩) fun _ _ => And.right
  have hstage : ∀ s, Bounded W dir m s → Stages W dir m [] s := fun s hs =>
    ⟨hs.links, hs.root, fun d' hne hd' => absurd (List.suffix_nil.1 hd') hne⟩
  unfold installRest
  refine hentries.bind fun _ => Keeps.peek.bind fun k => ?_
  refine ((hprune _ k []).weaken (fun _ => And.left) fun _ _ => id).bind fun _ => ?_
  exact (writeFileSynced_drifts hW dir (c := stampName) List.mem_cons_self _).weaken hstage fun _ s hs => ⟨hs.1.parent, hs.2⟩

/-- **Install drifts within the region**, whatever fails and wherever it is killed, if making its directory and the
clean-up do. -/
theorem install_drifts (hm : m.Valid) {P : Tree → Prop}
    (hensure : ∀ message, Keeps (FS.Drifts W) (fun s => P s ∧ Bounded W dir m s) (ensureDir message dir) (fun _ => P))
    (hclean : ∀ k, Keeps (FS.Drifts W) P (cleanStaleNewRecursive k dir) (fun _ _ => True)) :
    Keeps (FS.Drifts W) (fun s => P s ∧ Bounded W dir m s ∧ FS.Inner W (stampName :: dir) s)
      (install hash dir m res) (fun _ _ => True) := by
  have hstamp : ∀ s s' : Tree, FS.Drifts W s s' → FS.Inner W (stampName :: dir) s → FS.Inner W (stampName :: dir) s' :=
    fun s s' hd hs => hs.drifts hd
  have hfiles : Keeps (FS.Drifts W) (fun s => P s ∧ Bounded W dir m s) (installFiles hash dir m res)
      (fun _ s => FS.Inner W dir s ∧ FS.Led W (staged (stampName :: dir)) s) := by
    rw [installFiles_eq]
    refine (((hensure _).frame (A := Bounded W dir m) Bounded.drifts).weaken (fun s hs => ⟨hs, hs.2⟩)
      fun _ _ => id).bind fun _ => Keeps.peek.bind fun k => ?_
    refine (((hclean k).frame (A := Bounded W dir m) Bounded.drifts).weaken (fun _ => And.left)
      fun _ _ => And.right).bind fun _ => installRest_drifts hW hash res hm
  unfold install
  refine ((hfiles.frame hstamp).weaken (fun s hs => ⟨⟨hs.1, hs.2.1⟩, hs.2.2⟩) fun _ s hs => ?_).bind
    fun _ => renameOrThrow_drifts hW
  exact ⟨hs.1.1, hs.2, hs.1.2⟩

end Parts

end ShairKindle.Payload
