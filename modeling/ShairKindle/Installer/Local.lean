import ShairKindle.Installer.Steps
import ShairKindle.Lib.Relate
import ShairKindle.Lib.Subtree

/-!
# The install directory as a tree of its own

What the installer does under a directory without links depends on nothing else in the file system. So an
install into `dir` and an install into the root of a tree that shows what is below `dir` go the same way, step
by step and under the same faults (`install_sim`), and results about the second are results about the first.
There is one lemma a function; the walks are the only ones whose text differs on the two sides, by how deep
they may go.
-/

namespace ShairKindle.Payload

open Crash Crash.Prog FileTree

section Local

variable {dir R : Path} {P P' : Tree → Tree → Prop}

/-! ## Single operations -/

theorem mustDo_sim {message : String} {p p' : Path} {f g : Tree → Option Tree} (hP : ∀ s t, P s t → P' s t)
    (h : ∀ s t, P s t → Option.Rel P' (f s) (g t)) : Sim P (mustDo message p f) (mustDo message p' g) (Same P') := by
  unfold mustDo
  refine (Sim.attempt hP h).bind_same fun ok => Sim.ite Iff.rfl (fun _ => ?_) fun _ => Sim.throw
  exact Sim.pure fun s t hs => ⟨rfl, hs⟩

section Looks

variable {s t : Tree} (h : Seen dir R s t)
include h

theorem fileExists_seen (q : Path) : fileExists (q ++ dir) s = fileExists q t := by rw [fileExists, fileExists, h.stat]

theorem isDirectory_seen (q : Path) : isDirectory (q ++ dir) s = isDirectory q t := by
  rw [isDirectory, isDirectory, h.stat]

theorem isFile_seen (q : Path) : isFile (q ++ dir) s = isFile q t := by rw [isFile, isFile, h.read]

theorem isSymlink_seen (n : Text) (q : Path) : isSymlink (n :: (q ++ dir)) s = isSymlink (n :: q) t := h.isLink n q

theorem mvInto_seen (a n : Text) (p q : Path) :
    Option.Rel (Seen dir R) (mvInto (a :: (p ++ dir)) (n :: (q ++ dir)) s) (mvInto (a :: p) (n :: q) t) := by
  have hd : isDirectory (n :: (q ++ dir)) s = isDirectory (n :: q) t := isDirectory_seen h (n :: q)
  rw [mvInto, mvInto, hd]
  split
  · exact h.move a a p (n :: q)
  · exact h.move a n p q

end Looks

theorem mkdirs_sim : ∀ q, Sim (Seen dir R) (mkdirs (q ++ dir)) (mkdirs q) (Same (Seen dir R))
  | [] => by
    -- the directory is there
    intro F s t n hs
    have hthere : fileExists dir s = true := by
      have := fileExists_seen hs []
      rw [List.nil_append] at this
      rw [this]
      simp [fileExists, hs.links.stat, FS.look_root]
    rw [List.nil_append]
    cases dir with
    | nil => exact ⟨rfl, rfl, hs⟩
    | cons m p =>
      simp only [mkdirs, Bind.bind, peek, hthere]
      exact ⟨rfl, rfl, hs⟩
  | n :: q => by
    rw [List.cons_append, mkdirs, mkdirs]
    refine Sim.peek_bind (fun s t hs => fileExists_seen hs (n :: q)) fun there => Sim.ite Iff.rfl (fun _ => ?_) fun _ => ?_
    · exact Sim.pure fun s t hs => ⟨rfl, hs.1⟩
    have hcreate : Sim (Seen dir R) (attempt (·.create (n :: (q ++ dir)))) (attempt (·.create (n :: q)) : Install Bool)
        (Same (Seen dir R)) := Sim.attempt (fun _ _ => id) fun s t hs => hs.create n q
    refine (hcreate.weaken (fun s t hs => hs.1) fun _ _ _ _ => id).bind_same fun made => ?_
    refine Sim.ite Iff.rfl (fun _ => Sim.pure fun s t hs => ⟨rfl, hs⟩) fun _ => ?_
    refine (mkdirs_sim q).bind_same fun above => Sim.peek_bind (fun s t hs => fileExists_seen hs q) fun present => ?_
    refine Sim.ite Iff.rfl (fun _ => ?_) fun _ => Sim.pure fun s t hs => ⟨rfl, hs.1⟩
    exact hcreate.weaken (fun s t hs => hs.1) fun _ _ _ _ => id

theorem ensureDir_sim (message : String) (q : Path) :
    Sim (Seen dir R) (ensureDir message (q ++ dir)) (ensureDir message q) (Same (Seen dir R)) := by
  unfold ensureDir
  refine Sim.peek_bind (fun s t hs => isDirectory_seen hs q) fun there => Sim.ite Iff.rfl (fun _ => ?_) fun _ => ?_
  · exact Sim.pure fun s t hs => ⟨rfl, hs.1⟩
  refine ((mkdirs_sim q).weaken (fun s t hs => hs.1) fun _ _ _ _ => id).bind_same fun made => ?_
  refine Sim.peek_bind (fun s t hs => isDirectory_seen hs q) fun now => ?_
  exact Sim.ite Iff.rfl (fun _ => Sim.pure fun s t hs => ⟨rfl, hs.1⟩) fun _ => Sim.throw

theorem readFile_sim (q : Path) : Sim (Seen dir R) (readFile (q ++ dir)) (readFile q) (Same (Seen dir R)) := by
  unfold readFile
  refine (Sim.query fun s t hs => ?_).bind_same fun data => ?_
  · rw [hs.read]
  · cases data with
    | none => exact Sim.throw
    | some c => exact Sim.pure fun s t hs => ⟨rfl, hs⟩

theorem writeFileSynced_sim (n : Text) (q : Path) (data : Bytes) :
    Sim (Seen dir R) (writeFileSynced (n :: (q ++ dir)) data) (writeFileSynced (n :: q) data) (Same (Seen dir R)) :=
  mustDo_sim (fun _ _ => id) fun _ _ hs => hs.write _ n q

theorem chmod_sim (mode n : Text) (q : Path) :
    Sim (Seen dir R) (chmod mode (n :: (q ++ dir))) (chmod mode (n :: q)) (Same (Seen dir R)) := by
  refine mustDo_sim (fun _ _ => id) fun s t hs => ?_
  have hread : s.read (n :: (q ++ dir)) = t.read (n :: q) := hs.read (n :: q)
  rw [hread]
  cases t.read (n :: q) with
  | none => exact .none
  | some d => exact hs.write _ n q

theorem renameOrThrow_sim (a n : Text) (p q : Path) :
    Sim (Seen dir R) (renameOrThrow (a :: (p ++ dir)) (n :: (q ++ dir))) (renameOrThrow (a :: p) (n :: q))
      (Same (Seen dir R)) := by
  unfold renameOrThrow
  refine (Sim.attempt (fun _ _ => id) fun s t hs => hs.move a n p q).bind_same fun renamed => ?_
  refine Sim.ite Iff.rfl (fun _ => Sim.pure fun s t hs => ⟨rfl, hs⟩) fun _ => ?_
  refine (Sim.attempt (fun _ _ => id) fun s t hs => mvInto_seen hs a n p q).bind_same fun moved => ?_
  refine Sim.peek_bind (fun s t hs => fileExists_seen hs (n :: q)) fun there => ?_
  exact Sim.ite Iff.rfl (fun _ => Sim.pure fun s t hs => ⟨rfl, hs.1⟩) fun _ => Sim.throw

/-! ## Walks -/

/-- No path of the tree is as long as `N`. -/
def Shallow (N : Nat) (t : Tree) : Prop := ∀ p, t.look p ≠ none → p.length < N

/-- What a walk keeps. -/
def SeenTo (dir R : Path) (N : Nat) (s t : Tree) : Prop := Seen dir R s t ∧ Shallow N t

theorem seenTo_walkDepth {s t : Tree} (h : Seen dir R s t) : SeenTo dir R (min (walkDepth s) (walkDepth t)) s t := by
  refine ⟨h, fun p hp => lt_min ?_ ?_⟩
  · have hthere : s.look (p ++ R) ≠ none := by rwa [h.look]
    have hlen := FS.length_lt_of_look hthere
    rw [List.length_append] at hlen
    unfold walkDepth FS.maxLinks
    omega
  · have hlen := FS.length_lt_of_look hp
    unfold walkDepth FS.maxLinks
    omega

theorem SeenTo.delete {N : Nat} {s t : Tree} (h : SeenTo dir R N s t) (n : Text) (q : Path) :
    Option.Rel (SeenTo dir R N) (s.delete (n :: (q ++ dir))) (t.delete (n :: q)) := by
  have hrel := h.1.delete n q
  cases hs : s.delete (n :: (q ++ dir)) <;> cases ht : t.delete (n :: q)
  · exact .none
  · rw [hs, ht] at hrel
    cases hrel
  · rw [hs, ht] at hrel
    cases hrel
  next s' t' =>
  rw [hs, ht] at hrel
  cases hrel with
  | some hrel =>
    refine .some ⟨hrel, fun p hp => h.2 p ?_⟩
    rw [h.1.links.delete] at ht
    rw [(FS.erase_spec ht).2] at hp
    split at hp
    · exact absurd rfl hp
    · exact hp

theorem SeenTo.lt {N : Nat} {s t : Tree} (h : SeenTo dir R N s t) {q : Path} (hd : isDirectory q t = true) : q.length < N := by
  rw [isDirectory_iff h.1.links] at hd
  exact h.2 q (by simp [hd])

/-- Going down: what is a directory is no deeper than the walk may go. -/
theorem sim_down {N : Nat} {x y : Install Unit} {q : Path} {c : Bool} (hc : c = true) {A : Tree → Tree → Prop}
    (hA : ∀ s t, A s t → SeenTo dir R N s t ∧ isDirectory q t = c)
    (h : q.length < N → Sim (SeenTo dir R N) x y (Same (SeenTo dir R N))) : Sim A x y (Same (SeenTo dir R N)) := by
  refine Sim.of_forall fun s t hs => ?_
  obtain ⟨hseen, hd⟩ := hA s t hs
  refine (h (hseen.lt (hd.trans hc))).weaken ?_ fun _ _ _ _ => id
  rintro _ _ ⟨rfl, rfl⟩
  exact hseen

theorem cleanStaleNewRecursive_sim {N : Nat} : ∀ (k k' : Nat) (q : Path), N ≤ q.length + k → N ≤ q.length + k' →
    q.length < N → Sim (SeenTo dir R N) (cleanStaleNewRecursive k (q ++ dir)) (cleanStaleNewRecursive k' q)
      (Same (SeenTo dir R N))
  | 0, _, q, hk, _, hq => by omega
  | _, 0, q, _, hk', hq => by omega
  | k + 1, k' + 1, q, hk, hk', _ => by
    unfold cleanStaleNewRecursive
    refine (Sim.query fun s t hs => hs.1.list q).bind_same fun files => Sim.forM fun name _ => ?_
    refine Sim.peek_bind (fun s t hs => isDirectory_seen hs.1 (name :: q)) fun isDir => Sim.ite Iff.rfl (fun hd => ?_) fun _ => ?_
    · refine sim_down hd (fun _ _ => id) fun hlt => ?_
      exact cleanStaleNewRecursive_sim k k' (name :: q) (by simp; omega) (by simp; omega) hlt
    · refine Sim.ite Iff.rfl (fun _ => ?_) fun _ => Sim.pure fun s t hs => ⟨rfl, hs.1⟩
      refine (Sim.attempt (fun s t hs => hs.1) fun s t hs => hs.1.delete name q).bind_same fun _ => ?_
      exact Sim.pure fun s t hs => ⟨rfl, hs⟩

theorem deleteTree_sim {N : Nat} : ∀ (k k' : Nat) (n : Text) (q : Path), N ≤ (n :: q).length + k → N ≤ (n :: q).length + k' →
    (n :: q).length < N → Sim (SeenTo dir R N) (deleteTree k (n :: (q ++ dir))) (deleteTree k' (n :: q))
      (Same (SeenTo dir R N))
  | 0, _, _, _, hk, _, hq => by omega
  | _, 0, _, _, _, hk', hq => by omega
  | k + 1, k' + 1, n, q, hk, hk', _ => by
    unfold deleteTree
    refine (Sim.query fun s t hs => hs.1.list (n :: q)).bind_same fun kids => ?_
    refine Sim.bind_same (Sim.forM fun name _ => ?_) fun _ => mustDo_sim (fun _ _ => id) fun s t hs => hs.delete n q
    refine Sim.peek_bind (fun s t hs => isDirectory_seen hs.1 (name :: n :: q)) fun isDir => ?_
    refine Sim.peek_bind (fun s t hs => isSymlink_seen hs.1.1 name (n :: q)) fun sym => Sim.ite Iff.rfl (fun hd => ?_) fun _ => ?_
    · rw [Bool.and_eq_true] at hd
      refine sim_down hd.1 (fun _ _ hs => hs.1) fun hlt => ?_
      exact deleteTree_sim k k' name (n :: q) (by simp at hk ⊢; omega) (by simp at hk' ⊢; omega) hlt
    · exact mustDo_sim (fun _ _ hs => hs.1.1) fun s t hs => hs.1.1.delete name (n :: q)

theorem pruneOrphans_sim {N : Nat} (keep : List Text) : ∀ (k k' : Nat) (q : Path) (pre : Text), N ≤ q.length + k →
    N ≤ q.length + k' → q.length < N → Sim (SeenTo dir R N) (pruneOrphans keep k (q ++ dir) pre)
      (pruneOrphans keep k' q pre) (Same (SeenTo dir R N))
  | 0, _, _, _, hk, _, hq => by omega
  | _, 0, _, _, _, hk', hq => by omega
  | k + 1, k' + 1, q, pre, hk, hk', _ => by
    unfold pruneOrphans
    refine (Sim.query fun s t hs => hs.1.list q).bind_same fun files => ?_
    cases files with
    | none => exact Sim.throw
    | some names =>
      refine Sim.forM fun name _ => ?_
      refine Sim.peek_bind (fun s t hs => isDirectory_seen hs.1 (name :: q)) fun isDir => ?_
      refine Sim.peek_bind (fun s t hs => isSymlink_seen hs.1.1 name q) fun sym => Sim.ite Iff.rfl (fun hd => ?_) fun _ => ?_
      · rw [Bool.and_eq_true] at hd
        refine Sim.bind_same (sim_down hd.1 (fun _ _ hs => hs.1) fun hlt => ?_) fun _ => ?_
        · exact pruneOrphans_sim keep k k' (name :: q) _ (by simp; omega) (by simp; omega) hlt
        refine (Sim.query fun s t hs => hs.1.list (name :: q)).bind_same fun remaining => ?_
        refine Sim.ite Iff.rfl (fun _ => ?_) fun _ => Sim.pure fun s t hs => ⟨rfl, hs⟩
        exact mustDo_sim (fun _ _ => id) fun s t hs => hs.delete name q
      · refine Sim.ite Iff.rfl (fun _ => ?_) fun _ => Sim.pure fun s t hs => ⟨rfl, hs.1.1⟩
        exact mustDo_sim (fun _ _ hs => hs.1.1) fun s t hs => hs.1.1.delete name q

/-- What is walked to the depth each tree has. -/
theorem sim_walk {x y : Nat → Install Unit} {A : Tree → Tree → Prop} {Q : Unit → Unit → Tree → Tree → Prop} (q : Path)
    (hA : ∀ s t, A s t → Seen dir R s t ∧ t.look q ≠ none)
    (h : ∀ N k k', N ≤ k → N ≤ k' → q.length < N → Sim (SeenTo dir R N) (x k) (y k') Q) :
    Sim A (peek walkDepth >>= x) (peek walkDepth >>= y) Q := by
  have hdepth : Sim A (peek walkDepth : Install Nat) (peek walkDepth)
      (fun k k' s t => SeenTo dir R (min k k') s t ∧ q.length < min k k') := by
    refine Sim.peek fun s t hs => ?_
    obtain ⟨hseen, hq⟩ := hA s t hs
    exact ⟨seenTo_walkDepth hseen, (seenTo_walkDepth hseen).2 q hq⟩
  refine hdepth.bind fun k k' => Sim.of_forall fun s t hs => ?_
  refine (h _ k k' (min_le_left _ _) (min_le_right _ _) hs.2).weaken ?_ fun _ _ _ _ => id
  rintro _ _ ⟨rfl, rfl⟩
  exact hs.1

theorem clearTypeConflicts_sim : ∀ (ts : List Text) (q : Path),
    Sim (Seen dir R) (clearTypeConflicts (q ++ dir) ts) (clearTypeConflicts q ts) (Same (Seen dir R))
  | [], _ => Sim.pure fun s t hs => ⟨rfl, hs⟩
  | n :: ts, q => by
    unfold clearTypeConflicts
    refine Sim.peek_bind (fun s t hs => fileExists_seen hs (n :: q)) fun there => Sim.ite Iff.rfl (fun _ => ?_) fun _ => ?_
    · exact Sim.pure fun s t hs => ⟨rfl, hs.1⟩
    refine Sim.peek_bind (fun s t hs => isSymlink_seen hs.1 n q) fun sym => ?_
    refine Sim.peek_bind (fun s t hs => isDirectory_seen hs.1.1 (n :: q)) fun isDir => Sim.ite Iff.rfl (fun _ => ?_) fun _ => ?_
    · refine Sim.ite Iff.rfl (fun _ => ?_) fun _ => Sim.ite Iff.rfl (fun hd => ?_) fun _ => ?_
      · exact mustDo_sim (fun _ _ hs => hs.1.1.1) fun s t hs => hs.1.1.1.delete n q
      · refine sim_walk (n :: q) (fun s t hs => ⟨hs.1.1.1, ?_⟩) fun N k k' hk hk' hlt => ?_
        · have := (isDirectory_iff hs.1.1.1.links).1 (hs.2.trans hd)
          simp [this]
        · refine (deleteTree_sim k k' n q (by omega) (by omega) hlt).weaken (fun _ _ => id) ?_
          exact fun _ _ _ _ hout => ⟨hout.1, hout.2.1⟩
      · exact Sim.pure fun s t hs => ⟨rfl, hs.1.1.1⟩
    · refine Sim.ite Iff.rfl (fun _ => ?_) fun _ => ?_
      · exact mustDo_sim (fun _ _ hs => hs.1.1.1) fun s t hs => hs.1.1.1.delete n q
      · exact (clearTypeConflicts_sim ts (n :: q)).weaken (fun _ _ hs => hs.1.1.1) fun _ _ _ _ => id

/-! ## Installing -/

theorem target_append (dir : Path) (e : Entry) : target dir e = target [] e ++ dir := by simp [target]

section Hash

variable (hash : Bytes → Text)

theorem currentSha_sim (q : Path) : Sim (Seen dir R) (currentSha hash (q ++ dir)) (currentSha hash q) (Same (Seen dir R)) := by
  unfold currentSha
  refine Sim.peek_bind (fun s t hs => fileExists_seen hs q) fun there => Sim.ite Iff.rfl (fun _ => ?_) fun _ => ?_
  · refine ((readFile_sim q).weaken (fun _ _ hs => hs.1) fun _ _ _ _ => id).bind_same fun c => ?_
    exact Sim.pure fun s t hs => ⟨rfl, hs⟩
  · exact Sim.pure fun s t hs => ⟨rfl, hs.1⟩

theorem extract_sim (res : Text → Option Bytes) (e : Entry) (a n : Text) (p q : Path) :
    Sim (Seen dir R) (extract hash res e (a :: (p ++ dir)) (n :: (q ++ dir))) (extract hash res e (a :: p) (n :: q))
      (Same (Seen dir R)) := by
  unfold extract
  refine Sim.peek_bind (fun s t hs => ?_) fun odd => Sim.ite Iff.rfl (fun _ => Sim.throw) fun _ => ?_
  · have hexists := fileExists_seen hs (a :: p)
    have hfile := isFile_seen hs (a :: p)
    rw [List.cons_append] at hexists hfile
    rw [hexists, hfile]
  refine (Sim.query fun _ _ _ => rfl).bind_same fun data => ?_
  cases data with
  | none => exact Sim.throw
  | some data =>
    refine ((writeFileSynced_sim a p data).weaken (fun _ _ hs => hs.1) fun _ _ _ _ => id).bind_same fun _ => ?_
    refine (readFile_sim (a :: p)).bind_same fun c => Sim.ite Iff.rfl (fun _ => Sim.throw) fun _ => ?_
    exact (chmod_sim e.mode a p).bind_same fun _ => renameOrThrow_sim a n p q

theorem installEntry_sim (res : Text → Option Bytes) {e : Entry} (he : e.Valid) :
    Sim (Seen dir R) (installEntry hash dir res e) (installEntry hash [] res e) (Same (Seen dir R)) := by
  have hne : target [] e ≠ [] := target_ne_nil he
  obtain ⟨n, q, hq⟩ := List.exists_cons_of_ne_nil hne
  have htarget : target dir e = n :: (q ++ dir) := by rw [target_append, hq, List.cons_append]
  unfold installEntry
  rw [htarget, hq]
  refine (clearTypeConflicts_sim _ []).bind_same fun _ => (currentSha_sim hash (n :: q)).bind_same fun sha => ?_
  refine Sim.ite Iff.rfl (fun _ => Sim.pure fun s t hs => ⟨rfl, hs⟩) fun _ => ?_
  exact (ensureDir_sim _ q).bind_same fun _ => extract_sim hash res e (n ++ newSuffix) n q q

/-- **Installing below a directory** is installing in the tree below it. -/
theorem install_sim (res : Text → Option Bytes) {m : Manifest} (hm : m.Valid) :
    Sim (Seen dir R) (install hash dir m res) (install hash [] m res) (Same (Seen dir R)) := by
  have hroot : ∀ s t : Tree, Seen dir R s t → Seen dir R s t ∧ t.look [] ≠ none := fun s t hs => ⟨hs, by simp [t.look_root]⟩
  unfold install installFiles
  refine Sim.bind_same ?_ fun _ => renameOrThrow_sim (stampName ++ newSuffix) stampName [] []
  refine (ensureDir_sim _ []).bind_same fun _ => sim_walk [] hroot fun N k k' hk hk' hlt => ?_
  refine (cleanStaleNewRecursive_sim k k' [] (by omega) (by omega) hlt).bind_same fun _ => ?_
  refine Sim.weaken ?_ (fun _ _ hs => hs.1) fun _ _ _ _ => id
  refine (Sim.forM fun e he => installEntry_sim hash res (hm.entry e he)).bind_same fun _ => ?_
  refine sim_walk [] hroot fun N k k' hk hk' hlt => ?_
  refine (pruneOrphans_sim _ k k' [] [] (by omega) (by omega) hlt).bind_same fun _ => ?_
  exact (writeFileSynced_sim (stampName ++ newSuffix) [] _).weaken (fun _ _ hs => hs.1) fun _ _ _ _ => id

end Hash

/-! ## What is seen -/

theorem isUpToDate_seen {s t : Tree} (h : Seen dir R s t) (version : Text) :
    isUpToDate dir version s = isUpToDate [] version t := by
  have hread : s.read (stampName :: dir) = t.read [stampName] := h.read [stampName]
  rw [isUpToDate, isUpToDate, stampVersion, stampVersion, hread]

/-! ## A directory that is not there yet -/

/-- The path leads to an empty directory. -/
def Made (p : Path) (fs : Tree) : Prop := ∃ R, fs.real p = some R ∧ fs.look R = some .dir ∧ ∀ n, fs.look (n :: R) = none

theorem made_of_create {fs fs' : Tree} {n : Text} {p : Path} (h : fs.create (n :: p) = some fs') : Made (n :: p) fs' := by
  obtain ⟨r, hr, hmk⟩ := Option.bind_eq_some_iff.1 h
  obtain ⟨q, hq, hd, rfl⟩ := FS.place_eq_some.1 hr
  obtain ⟨hnone, hlook⟩ := FS.mkdir_spec hmk
  have hmono : ∀ x, fs.look x ≠ none → fs'.look x = fs.look x := by
    intro x hx
    rw [hlook, if_neg]
    rintro rfl
    exact hx hnone
  have hnew : fs'.look (n :: q) = some .dir := by rw [hlook, if_pos rfl]
  have hplace : fs'.place (n :: p) = some (n :: q) :=
    FS.place_eq_some.2 ⟨q, FS.real_mono hmono hq (by simp [hd]), by rw [hmono q (by simp [hd]), hd], rfl⟩
  refine ⟨n :: q, FS.real_of_place hplace (by simp [hnew]), hnew, fun m => ?_⟩
  · rw [hlook, if_neg (by simp)]
    exact FS.look_below (by simp [hnone]) [m] (by simp)

theorem Made.exists_create {fs : Tree} {p : Path} (h : Made p fs) (n : Text) : ∃ fs', fs.create (n :: p) = some fs' := by
  obtain ⟨R, hR, hd, hnone⟩ := h
  obtain ⟨fs', hfs'⟩ := FS.exists_mkdir hd (hnone n)
  exact ⟨fs', Option.bind_eq_some_iff.2 ⟨n :: R, FS.place_eq_some.2 ⟨R, hR, hd, rfl⟩, hfs'⟩⟩

/-- Undisturbed, `mkdirs` makes the directory or does nothing. -/
theorem mkdirs_ends : ∀ (p : Path) (fs : Tree),
    Ends (· = fs) (mkdirs p) (fun made s => if made then Made p s else s = fs)
  | [], fs => Under.pure fun _ => id
  | n :: p, fs => by
    rw [mkdirs]
    have hcreate : ∀ s, Ends (· = s) (attempt (·.create (n :: p)) : Install Bool)
        (fun made s' => if made then Made (n :: p) s' else s' = s ∧ s.create (n :: p) = none) := fun s => by
      refine Under.attempt quiet_calm (fun _ _ => trivial) (fun _ s' _ hs' => made_of_create hs') ?_
      rintro _ rfl hnone
      exact ⟨rfl, hnone⟩
    refine Under.peek.bind fun there => Under.ite (fun _ => Under.pure fun s hs => hs.1) fun _ => ?_
    refine ((hcreate fs).weaken (fun s hs => hs.1) (fun _ _ => id) fun _ => id).bind fun made => Under.ite (fun hmade => ?_) fun hmade => ?_
    · rw [hmade]
      exact Under.pure fun s hs => hs
    rw [Bool.not_eq_true] at hmade
    subst hmade
    refine Under.of_forall ?_
    rintro s ⟨rfl, hfail⟩
    refine (mkdirs_ends p s).bind fun above => Under.peek.bind fun present => Under.ite (fun _ => ?_) fun hnot => ?_
    · refine Under.of_forall fun s₁ hs₁ => (hcreate s₁).weaken (fun _ => id) ?_ fun _ => id
      rintro (_ | _) s₂ hs₂
      · -- a directory that was just made takes the new one
        cases above with
        | true =>
          obtain ⟨s', hs'⟩ := Made.exists_create hs₁.1 n
          rw [hs₂.2] at hs'
          cases hs'
        | false => exact hs₂.1.trans hs₁.1
      · exact hs₂
    · rw [Bool.or_eq_true, not_or, Bool.not_eq_true] at hnot
      refine Under.pure fun s₁ hs₁ => ?_
      rw [hnot.1] at hs₁
      exact hs₁.1

theorem ensureDir_made (message : String) {p : Path} {fs : Tree} (h : isDirectory p fs = false) :
    Ends (· = fs) (ensureDir message p) (fun _ s => Made p s) := by
  unfold ensureDir
  refine Under.peek.bind fun there => Under.ite (fun hthere => ?_) fun _ => ?_
  · refine Under.pure ?_
    rintro s ⟨rfl, hs⟩
    rw [h, hthere] at hs
    cases hs
  refine ((mkdirs_ends p fs).weaken (fun s hs => hs.1) (fun _ _ => id) fun _ => id).bind fun made => Under.peek.bind fun now => ?_
  refine Under.ite (fun hc => Under.pure fun s hs => ?_) fun _ => Under.throw fun _ _ => trivial
  cases made with
  | true => exact hs.1
  | false =>
    obtain ⟨hs, hnow⟩ := hs
    obtain rfl : s = fs := hs
    rw [h] at hnow
    rw [← hnow] at hc
    cases hc

/-- An install goes on from the directory as it would have started there. -/
theorem install_ends_of_ensureDir {hash : Bytes → Text} {m : Manifest} {res : Text → Option Bytes} {fs : Tree}
    {Q : Unit → Tree → Prop} (h : Ends (· = fs) (ensureDir "cannot create installDir: " dir)
      (fun _ s => isDirectory dir s = true ∧ Ends (· = s) (install hash dir m res) Q)) :
    Ends (· = fs) (install hash dir m res) Q := by
  intro F hF s₀ hs₀
  have hout := h F hF s₀ hs₀
  rcases hrun : ensureDir "cannot create installDir: " dir F s₀ with ⟨_ | _, s, k⟩
  · simp only [install, installFiles, Bind.bind, hrun]
  · rw [hrun] at hout
    have hagain := hout.2 F hF (s, k) rfl
    have hthere : ensureDir "cannot create installDir: " dir F (s, k) = (.ok (), (s, k)) := by
      simp [ensureDir, Bind.bind, peek, hout.1, Pure.pure]
    simp only [install, installFiles, Bind.bind, hthere] at hagain
    simpa only [install, installFiles, Bind.bind, hrun] using hagain

theorem Made.seen {p : Path} {fs : Tree} (h : Made p fs) : ∃ R t, Seen p R fs t ∧ ∀ q, q ≠ [] → t.look q = none := by
  obtain ⟨R, hR, hd, hnone⟩ := h
  have hbelow : ∀ q, q ≠ [] → fs.look (q ++ R) = none := by
    intro q hq
    obtain ⟨q, n, rfl⟩ := (List.eq_nil_or_concat q).resolve_left hq
    rw [List.concat_eq_append, List.append_assoc]
    cases q with
    | nil => exact hnone n
    | cons m q => exact FS.look_below (by simp [hnone n]) (m :: q) (by simp)
  refine ⟨R, fs.sub R hd, seen_sub hR hd fun q t => ?_, fun q hq => ?_⟩
  · cases q with
    | nil => simp [hd]
    | cons n q =>
      rw [hbelow (n :: q) (by simp)]
      simp
  · rw [FS.look_sub, hbelow q hq]

end Local

end ShairKindle.Payload
