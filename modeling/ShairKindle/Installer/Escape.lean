import ShairKindle.Installer.Inside
import ShairKindle.Installer.Installable

/-!
# Where an install gets out

`cleanStaleNewRecursive` (PayloadInstaller.java:468) enters whatever `isDirectory` says is a directory, and deletes
every `.new` file it comes to. Undisturbed it gets to the end: the system refuses a path with more than 40 links, so
a link back into the tree ends the walk. No `.new` file or link to one is left then (`clean_runs`), staged files are
not written through links, and a file is renamed without `mv` unless a directory is in its place. So an undisturbed
install stays in its directory exactly when the clean-up does (`install_inside_iff`).

One thing can make the clean-up's order matter. A `.new` link to a directory that is entered on one path may be
refused on another for too many links, and is then deleted as a stale file. `NewLinksReach` excludes this.
-/

namespace ShairKindle.Payload

open Crash Crash.Prog FileTree

/-! ## The clean-up, undisturbed -/

/-- What has a `.new` name in a directory the clean-up walks is a directory or a link to one. -/
def NoStale (dir : Path) (fs : Tree) : Prop :=
  ∀ q n x, endsWith n newSuffix = true → fs.place (n :: (q ++ dir)) = some x → fs.look x ≠ none →
    fs.stat (n :: (q ++ dir)) = some .dir

/-- The clean-up is done with a name: it is a directory without stale files, or no `.new` file. -/
def NameClean (d : Path) (name : Text) (s : Tree) : Prop :=
  (s.stat (name :: d) = some .dir → NoStale (name :: d) s) ∧
  (s.stat (name :: d) ≠ some .dir → endsWith name newSuffix = true → ∀ x, s.place (name :: d) = some x → s.look x = none)

section Clean

variable {d : Path} {name : Text} {s s' : Tree}

theorem NoStale.sheds (h : NoStale d s) (hs : FS.Sheds s s') : NoStale d s' := by
  intro q n x hn hx hne
  rw [hs.place_iff] at hx
  rw [hs.stat_iff]
  exact h q n x hn hx (by rw [hs.lost x hne]; exact hne)

theorem NameClean.sheds (h : NameClean d name s) (hs : FS.Sheds s s') : NameClean d name s' := by
  unfold NameClean
  rw [Ne, hs.stat_iff]
  refine ⟨fun hd => (h.1 hd).sheds hs, fun hnd hnew x hx => ?_⟩
  have hgone := h.2 hnd hnew x (hs.place_iff.1 hx)
  by_contra hne
  rw [hs.lost x hne] at hgone
  exact hne hgone

theorem NewLinksReach.below (h : NewLinksReach d s) (name : Text) : NewLinksReach (name :: d) s := by
  intro q
  rw [List.append_cons]
  exact h (q ++ [name])

theorem cleanName_sheds (k : Nat) (hreach : NewLinksReach d s) (hnd : s.stat (name :: d) ≠ some .dir) :
    ∃ s', Runs (cleanName k d name) s () s' ∧ FS.Sheds s s' ∧ NameClean d name s' := by
  have hpeek : isDirectory (name :: d) s = false := by
    rw [← Bool.not_eq_true, isDirectory_stat]
    exact hnd
  have hleaf : ∀ x, s.place (name :: d) = some x → s.look x ≠ some .dir := fun x hx hd =>
    hnd (FS.stat_eq_some.2 ⟨x, FS.real_of_place hx (by simp [hd]), hd⟩)
  by_cases hnew : endsWith name newSuffix = true
  · cases hdel : s.delete (name :: d) with
    | none =>
      refine ⟨s, Runs.peek.bind ?_, .refl s, fun hd => absurd hd hnd, fun _ _ x hx => ?_⟩
      · rw [hpeek, if_neg Bool.false_ne_true, if_pos hnew]
        exact (Runs.attempt_none hdel).bind Runs.pure
      · exact FS.look_of_delete_none hx (hleaf x hx) hdel
    | some s' =>
      have hsheds : FS.Sheds s s' := hreach.sheds_of_delete (q := []) hnew hnd hdel
      refine ⟨s', Runs.peek.bind ?_, hsheds, fun hd => absurd (hsheds.stat_iff.1 hd) hnd, fun _ _ x hx => ?_⟩
      · rw [hpeek, if_neg Bool.false_ne_true, if_pos hnew]
        exact (Runs.attempt_some hdel).bind Runs.pure
      · rw [(FS.delete_spec (hsheds.place_iff.1 hx) hdel).2, if_pos rfl]
  · refine ⟨s, Runs.peek.bind ?_, .refl s, fun hd => absurd hd hnd, fun _ h => absurd h hnew⟩
    rw [hpeek, if_neg Bool.false_ne_true, if_neg hnew]
    exact Runs.pure

/-- **The clean-up ends**, whatever the links, and leaves no stale file. -/
theorem clean_runs : ∀ (k : Nat) (d : Path) (s : Tree), NewLinksReach d s → s.stat d = some .dir →
    (∀ q, s.stat (q ++ d) = some .dir → q.length < k) →
    ∃ s', Runs (cleanStaleNewRecursive k d) s () s' ∧ FS.Sheds s s' ∧ NoStale d s'
  | 0, _, _, _, hd, hk => absurd (hk [] hd) (Nat.not_lt_zero _)
  | k + 1, d, s, hreach, hd, hk => by
    obtain ⟨r, hr, hrd⟩ := FS.stat_eq_some.1 hd
    have hlist : s.list d = some (s.children r) := by rw [FS.list, hr, Option.bind_some, if_pos hrd]
    -- over the names: those done with are clean
    obtain ⟨s', hrun, hsheds, hclean⟩ := Runs.forM_split (f := cleanName k d) (l := s.children r) (s := s)
      (fun done t => FS.Sheds s t ∧ ∀ name ∈ done, NameClean d name t) ⟨.refl s, by simp⟩ fun done name todo t _ hI => by
        obtain ⟨hst, hdone⟩ := hI
        obtain ⟨t', hrun, htt', hname⟩ : ∃ t', Runs (cleanName k d name) t () t' ∧ FS.Sheds t t' ∧ NameClean d name t' := by
          by_cases hdir : t.stat (name :: d) = some .dir
          · obtain ⟨t', hrun, htt', hns⟩ := clean_runs k (name :: d) t ((hreach.sheds hst).below name) hdir fun q hq => by
              rw [hst.stat_iff, List.append_cons] at hq
              have hlen := hk _ hq
              rw [List.length_append, List.length_singleton] at hlen
              omega
            refine ⟨t', Runs.peek.bind ?_, htt', fun _ => hns, fun h => absurd (htt'.stat_iff.2 hdir) h⟩
            rw [isDirectory_stat.2 hdir, if_pos rfl]
            exact hrun
          · exact cleanName_sheds k (hreach.sheds hst) hdir
        refine ⟨t', hrun, hst.trans htt', fun n hn => ?_⟩
        rcases List.mem_append.1 hn with hn | hn
        · exact (hdone n hn).sheds htt'
        · rw [List.mem_singleton.1 hn]
          exact hname
    refine ⟨s', ?_, hsheds, fun q n x hn hx hne => ?_⟩
    · rw [cleanStaleNewRecursive_succ]
      refine Runs.query.bind ?_
      rw [hlist]
      exact hrun
    -- what the walk comes to, it comes to through a name of the list
    have hlisted : ∀ {name y}, s.place (name :: d) = some y → s.look y ≠ none → NameClean d name s' := by
      intro name y hy hyne
      obtain ⟨r', hr', -, rfl⟩ := FS.place_eq_some.1 hy
      obtain rfl := Option.some.inj (hr.symm.trans hr')
      exact hclean name (FS.mem_children.2 hyne)
    rcases List.eq_nil_or_concat q with rfl | ⟨q, name, rfl⟩
    · have hname := hlisted (hsheds.place_iff.1 hx) (by rw [hsheds.lost x hne]; exact hne)
      by_contra hnd
      exact hne (hname.2 hnd hn x hx)
    · rw [List.concat_eq_append, List.append_assoc] at hx ⊢
      have hdir : s'.stat (name :: d) = some .dir := FS.stat_dir_suffix q (FS.stat_of_place hx)
      obtain ⟨y, hy, hthere⟩ := FS.place_of_stat (p := name :: d) (by rw [hsheds.stat_iff.1 hdir]; simp)
      exact (hlisted hy hthere).1 hdir q n x hn hx hne

end Clean

/-! ## The rest, undisturbed -/

/-- What `dir`'s tree is: everything at or below its real location. -/
def treeAt (R : Path) : Set Path := {q | R <:+ q}

section Rest

variable {W : Set Path} {dir R : Path} {m : Manifest} {fs : Tree}

theorem endsWith_of_mem_stagedFiles {n : Text} {d : Path} (h : n :: d ∈ stagedFiles m) : endsWith n newSuffix = true := by
  have hstaged : ∀ {p : Path}, n :: d = staged p → endsWith n newSuffix = true := by
    intro p hp
    rcases p with - | ⟨c, p⟩
    · cases hp
    · rw [(List.cons.inj hp).1]
      simp [endsWith]
  rcases List.mem_cons.1 h with h | h
  · exact hstaged h
  · obtain ⟨e, -, he⟩ := List.mem_map.1 h
    exact hstaged he.symm

/-- After the clean-up no staged file is written through a link. -/
theorem NoStale.stagedIn (h : NoStale dir fs) : StagedIn W dir m fs := by
  intro R n d t r hR hf ht hr hnd
  have hthere : fs.look (n :: (d ++ R)) ≠ none := by simp [ht]
  have hdir := h d n _ (endsWith_of_mem_stagedFiles hf) (FS.place_below hR hthere) hthere
  obtain ⟨r', hr', hd'⟩ := FS.stat_eq_some.1 hdir
  obtain rfl := Option.some.inj (hr.symm.trans hr')
  exact absurd hd' hnd

theorem bounded_tree (hR : fs.real dir = some R) (hd : fs.look R = some .dir) (hstaged : StagedIn (treeAt R) dir m fs) :
    Bounded (treeAt R) dir m fs where
  onWay p hp := by
    intro x hx hnone
    -- what leads to a directory passes directories
    obtain ⟨q, rfl⟩ := hp
    have hstat := FS.stat_dir_suffix q (FS.stat_eq_some.2 ⟨R, hR, hd⟩)
    rcases p with - | ⟨n, p⟩
    · obtain rfl : [] = x := Option.some.inj hx
      rw [FS.look_root] at hnone
      cases hnone
    · obtain ⟨r, hr, hrd⟩ := FS.stat_eq_some.1 hstat
      rw [FS.real_of_place hx (by simp [hnone])] at hr
      obtain rfl := Option.some.inj hr
      rw [hnone] at hrd
      cases hrd
  links := hstaged
  root r hr _ := by
    obtain rfl : R = r := Option.some.inj (hR.symm.trans hr)
    exact List.suffix_refl R

/-- Renaming in a directory, undisturbed: `mv` comes only where a directory has the new name. -/
theorem renameOrThrow_quiet (hW : FS.UpClosed W) (s₀ : Tree) {a c : Text} :
    Under (· = .quiet) (fun s => FS.Drifts W s₀ s ∧ FS.Inner W dir s ∧ FS.Led W (a :: dir) s)
      (renameOrThrow (a :: dir) (c :: dir)) (fun _ => FS.Drifts W s₀) (FS.Drifts W s₀) := by
  unfold renameOrThrow
  refine (Under.attempt (Q := fun b s => FS.Drifts W s₀ s ∧
    (b = false → FS.Inner W dir s ∧ FS.Inner W (c :: dir) s ∧ FS.Led W (a :: dir) s)) quiet_calm (fun _ => And.left)
    (fun s s' hs hmv => ?_) fun s hs hmv => ?_).bind fun renamed => ?_
  · exact ⟨IsTrans.trans _ _ _ hs.1 (FS.Drifts.move hW hs.2.1 hs.2.1 hs.2.2 hmv), by simp⟩
  · exact ⟨hs.1, fun _ => ⟨hs.2.1, FS.inner_of_move_none hW hs.2.1 hs.2.2 hmv, hs.2.2⟩⟩
  refine Under.ite (fun _ => Under.pure fun _ => And.left) fun hno => ?_
  refine (Under.attempt (Q := fun _ => FS.Drifts W s₀) quiet_calm (fun _ => And.left) (fun s s' hs hmv => ?_)
    fun _ hs _ => hs.1).bind fun moved => Under.peek.bind fun there => ?_
  · obtain ⟨hdir, hfinal, hled⟩ := hs.2 (by simpa using hno)
    exact IsTrans.trans _ _ _ hs.1 (mvInto_drifts hW hdir hfinal hled hmv)
  · exact Under.ite (fun _ => Under.pure fun _ => And.left) fun _ => Under.throw fun _ => And.left

variable (hash : Bytes → Text) (res : Text → Option Bytes)

/-- An undisturbed install cleans up and then stays in its directory. -/
theorem install_quiet (hm : m.Valid) (hR : fs.real dir = some R) (hd : fs.look R = some .dir)
    (hreach : NewLinksReach dir fs) :
    ∃ s, Runs (cleanStaleNewRecursive (walkDepth fs) dir) fs () s ∧ FS.Sheds fs s ∧ NoStale dir s ∧
      FS.Drifts (treeAt R) s ((install hash dir m res).after .quiet fs) := by
  have hstat : fs.stat dir = some .dir := FS.stat_eq_some.2 ⟨R, hR, hd⟩
  have hdepth : ∀ q, fs.stat (q ++ dir) = some .dir → q.length < walkDepth fs := by
    intro q hq
    have hlen := FS.length_of_stat_dir hq
    rw [List.length_append] at hlen
    rw [walkDepth, Nat.add_mul]
    omega
  obtain ⟨s, hclean, hsheds, hns⟩ := clean_runs (walkDepth fs) dir fs hreach hstat hdepth
  refine ⟨s, hclean, hsheds, hns, ?_⟩
  obtain ⟨hR', hd'⟩ := hsheds.real_iff.2 ⟨hR, hd⟩
  have hW : FS.UpClosed (treeAt R) := FS.upClosed_suffix R
  have hensure : ∀ message, Runs (ensureDir message dir) fs () fs := by
    intro message
    refine Runs.peek.bind ?_
    rw [isDirectory_stat.2 hstat, if_pos rfl]
    exact Runs.pure
  have hleads : Leads (installFiles hash dir m res) fs (installRest hash res dir m) s :=
    (hensure _).leads (Runs.peek.leads (hclean.leads (Leads.refl _ _)))
  have hfiles := hleads.ends (((installRest_drifts hW hash res hm).under s).weaken
    (fun t ht => ⟨ht, ht ▸ bounded_tree hR' hd' hns.stagedIn⟩) (fun _ _ => id) fun _ => id)
  exact Under.after (hfiles.bind fun _ => renameOrThrow_quiet hW s) rfl rfl

end Rest

/-! ## Staying inside -/

section Inside

variable {dir R : Path} {m : Manifest} {fs : Tree} (hash : Bytes → Text) (res : Text → Option Bytes)

/-- A directory that is there is left as it is. -/
theorem ensureDir_there {R : Tree → Tree → Prop} [IsPreorder Tree R] {P : Tree → Prop} (message : String) (d : Path) :
    Keeps R (fun s => P s ∧ s.stat d = some .dir) (ensureDir message d) (fun _ s => P s ∧ s.stat d = some .dir) := by
  unfold ensureDir
  refine Keeps.peek.bind fun there => Keeps.ite (fun _ => Keeps.pure fun _ => And.left) fun hno s₀ F s hs => ?_
  obtain ⟨rfl, ⟨-, hstat⟩, hthere⟩ := hs
  exact absurd (hthere.symm.trans (isDirectory_stat.2 hstat)) hno

theorem install_drifts_tree (hm : m.Valid) :
    Keeps (FS.Drifts (treeAt R)) (fun s => ((CleanIn (treeAt R) dir s ∧ NewLinksReach dir s) ∧ s.stat dir = some .dir) ∧
        Bounded (treeAt R) dir m s ∧ FS.Inner (treeAt R) (stampName :: dir) s)
      (install hash dir m res) (fun _ _ => True) := by
  have hW : FS.UpClosed (treeAt R) := FS.upClosed_suffix R
  refine install_drifts hW hash res hm (fun message => ?_) fun k => ?_
  · exact (ensureDir_there message dir).weaken (fun _ => And.left) fun _ _ => id
  · exact (clean_drifts hW k).weaken (fun _ => And.left) fun _ _ => id

/-- What is to be made for `dir`: everything at or below a missing directory on the way to it. -/
def madeFor (dir : Path) (fs : Tree) : Set Path :=
  {q | ∃ p b, p <:+ dir ∧ fs.place p = some b ∧ fs.look b = none ∧ b <:+ q}

theorem upClosed_madeFor (dir : Path) (fs : Tree) : FS.UpClosed (madeFor dir fs) := by
  rintro q ⟨p, b, hp, hb, hnone, hq⟩ n
  exact ⟨p, b, hp, hb, hnone, hq.trans (List.suffix_cons n q)⟩

/-- The region has no links, and the directory is in it if it is there. -/
def Fresh (W : Set Path) (dir : Path) (s : Tree) : Prop :=
  FS.Inner W dir s ∧ ∀ q ∈ W, ∀ t, s.look q ≠ some (.link t)

theorem Fresh.inner {W : Set Path} (hW : FS.UpClosed W) {s : Tree} (h : Fresh W dir s) : ∀ q, FS.Inner W (q ++ dir) s
  | [] => h.1
  | n :: q => by
    refine (h.inner hW q).cons hW ?_
    rw [← Bool.not_eq_true, FS.isLink_iff]
    rintro ⟨x, t, hx, ht⟩
    exact h.2 x ((h.inner hW q).place_mem hW hx) t ht

theorem install_drifts_made {W : Set Path} (hW : FS.UpClosed W) (hm : m.Valid) :
    Keeps (FS.Drifts W) (fun s => Fresh W dir s ∧ Bounded W dir m s ∧ FS.Inner W (stampName :: dir) s)
      (install hash dir m res) (fun _ _ => True) := by
  refine install_drifts hW hash res hm (fun message => ?_) fun k => ?_
  · have hmake : Keeps (FS.Drifts W) (fun s => Fresh W dir s ∧ Bounded W dir m s) (mkdirs dir)
        (fun _ s => Fresh W dir s ∧ Bounded W dir m s) := by
      refine mkdirs_of_create dir fun q hq s s' hs hc => ?_
      have hdrift := FS.Drifts.create hW (hs.2.onWay q hq) hc
      refine ⟨hdrift, ⟨hs.1.1.drifts hdrift, fun z hz t ht => ?_⟩, hs.2.drifts s s' hdrift⟩
      obtain ⟨x, -, hmk⟩ := Option.bind_eq_some_iff.1 hc
      rw [(FS.mkdir_spec hmk).2] at ht
      split at ht
      · cases ht
      · exact hs.1.2 z hz t ht
    exact (ensureDir_of_mkdirs message hmake).weaken (fun _ => id) fun _ _ => And.left
  · refine (clean_of_delete (fun q n s s' _ _ hs hd => ?_) k []).weaken (fun _ => id) fun _ _ _ => trivial
    obtain ⟨hdrift, hlost⟩ := (hs.inner hW q).trims hW hd
    refine ⟨hdrift, hs.1.drifts hdrift, fun z hz t ht => ?_⟩
    exact hs.2 z hz t ((hlost z (by simp [ht])).trans ht)

theorem fresh_made (hno : fs.stat dir ≠ some .dir) : Fresh (madeFor dir fs) dir fs := by
  refine ⟨FS.inner_of_stat hno, ?_⟩
  -- there is nothing below what is missing
  rintro q ⟨p, b, -, -, hnone, hb⟩ t ht
  have hthere : fs.look q ≠ none := by simp [ht]
  by_cases he : b = q
  · rw [he] at hnone
    exact hthere hnone
  · rw [FS.look_suffix hthere hb he] at hnone
    cases hnone

theorem bounded_made (hno : fs.stat dir ≠ some .dir) : Bounded (madeFor dir fs) dir m fs where
  onWay p hp x hx hnone := ⟨p, x, hp, hx, hnone, List.suffix_refl x⟩
  links R n d t r hR _ ht _ _ := by
    have hthere : fs.look (n :: (d ++ R)) ≠ none := by simp [ht]
    exact absurd (FS.stat_dir_suffix d (FS.stat_of_place (FS.place_below hR hthere))) hno
  root := FS.inner_of_stat hno

end Inside

/-! ## Ways out -/

/-- Without `.new` names there is nothing to clean. -/
theorem noStale_of_keys {dir : Path} {fs : Tree}
    (h : ∀ k ∈ fs.nodes.keys, ∀ n ∈ k.head?, endsWith n newSuffix = false) : NoStale dir fs := by
  intro q n x hn hx hne
  obtain ⟨p, -, -, rfl⟩ := FS.place_eq_some.1 hx
  rw [h _ (FS.mem_keys.2 hne) n rfl] at hn
  cases hn

theorem NoStale.newLinksReach {dir : Path} {fs : Tree} (h : NoStale dir fs) : NewLinksReach dir fs :=
  fun q n x _ _ _ hn hx ht _ _ => h q n x hn hx (by simp [ht])

theorem NoStale.cleanIn {W : Set Path} {dir : Path} {fs : Tree} (h : NoStale dir fs) : CleanIn W dir fs :=
  fun q n x hn _ hx hne hnd => absurd (h q n x hn hx hne) hnd

/-- A directory next to the install directory. -/
def outDir : Path := ["out".toList]

/-- Put a file or a link below a directory. -/
def plant (n : String) (p : Path) (x : Node Text FileData) (fs : Tree) : Tree :=
  if h : fs.look p = some .dir ∧ fs.look (n.toList :: p) ≠ some .dir then fs.set n.toList p x h.1 (.inr h.2) else fs

/-- Two directories, a link in the install directory and a file in the other. -/
def appLinked (n : String) (target : Path) (f : String) : Tree :=
  plant n demoDir (.link target) (plant f outDir (.file ⟨[7], "644".toList⟩) ((emptyApp.mkdir outDir).getD emptyApp))

/-- The install of one file there. -/
abbrev linkedInstall : Install Unit := install demoHash demoDir (listing "1" ["bin"]) fun _ => some [1]

/-- A link to its own directory ends the walk after 40 turns, and the install goes on. -/
example : (linkedInstall .quiet (appLinked "self" demoDir "notes", 0)).1 = .ok () := by decide +kernel

/-- Where such a walk comes to a `.new` link last, the link is deleted before it is entered: the order decides. -/
example :
    (linkedInstall.after .quiet (plant "self" demoDir (.link demoDir) (appLinked "a.new" outDir "x.new"))).look
      ("x.new".toList :: outDir) = some (.file ⟨[7], "644".toList⟩) ∧
    (linkedInstall.after .quiet (plant "a.new" demoDir (.link outDir) (appLinked "self" demoDir "x.new"))).look
      ("x.new".toList :: outDir) = none := by
  decide +kernel

/-- Only the operation of that number fails. -/
def failsAt (k : Nat) : Faults := ⟨none, fun i => i == k⟩

end ShairKindle.Payload
