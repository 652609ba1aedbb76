import ShairKindle.Installer.Basic

/-!
# What an install does to the payload

An install of a manifest touches the files it lists, temporary files, what is in the way of its paths and
what it does not list. `Spares` says what that means for the rest: an entry of the manifest that is in place
stays in place and a stamp is not written, at every point of the run, and only paths of a given set change.
Each function of the installer keeps it (`installEntry_keeps`, `pruneOrphans_keeps`, …) whatever fails and
wherever the process is killed. Links are left aside here: the tree is one of files and directories.
-/

namespace ShairKindle.Payload

open Crash Crash.Prog FileTree

/-! ## Paths of the payload -/

section Paths

variable {m : Manifest} {dir : Path} {e e' : Entry}

/-- The path of a temporary file. -/
def IsTmp (p : Path) : Prop := ∃ n q, p = n :: q ∧ endsWith n newSuffix = true

theorem staged_isTmp {p : Path} (hp : p ≠ []) : IsTmp (staged p) := by
  obtain ⟨n, q, rfl⟩ := List.exists_cons_of_ne_nil hp
  exact ⟨n ++ newSuffix, q, rfl, by simp [endsWith]⟩

theorem stamp_not_isTmp : ¬ IsTmp (stampName :: dir) := by
  rintro ⟨n, q, h, hn⟩
  rw [← (List.cons.inj h).1] at hn
  revert hn
  decide

theorem target_ne_nil (he : e.Valid) : target dir e ≠ [] := by
  simp [target, components_ne_nil he.relPath]

theorem target_not_isTmp (he : e.Valid) : ¬ IsTmp (target dir e) := by
  rintro ⟨n, q, h, hn⟩
  rcases List.eq_nil_or_concat (components e.relPath) with hc | ⟨cs, c, hc⟩
  · exact components_ne_nil he.relPath hc
  · rw [List.concat_eq_append] at hc
    rw [target, hc, List.reverse_concat, List.cons_append] at h
    rw [← (List.cons.inj h).1, components_last he.relPath hc] at hn
    cases hn

theorem target_ne_stamp (he : e.Valid) : target dir e ≠ stampName :: dir := by
  intro h
  have h' : (components e.relPath).reverse ++ dir = [stampName] ++ dir := h
  rw [List.append_cancel_right_eq, List.reverse_eq_iff] at h'
  exact components_ne_stamp he.relPath h'

theorem target_inj (hm : m.Valid) (he : e ∈ m.entries) (he' : e' ∈ m.entries) (h : target dir e = target dir e') :
    e = e' := by
  simp only [target, List.append_cancel_right_eq, List.reverse_inj] at h
  exact hm.entry_unique he he' (components_inj (hm.entry e he).relPath (hm.entry e' he').relPath h)

/-- No entry lies below another's path. -/
theorem target_not_below (hm : m.Valid) (he : e ∈ m.entries) (he' : e' ∈ m.entries) {q : Path} (hq : q ≠ []) :
    target dir e' ≠ q ++ target dir e := by
  intro h
  rw [target, target, ← List.append_assoc, List.append_cancel_right_eq, List.reverse_eq_iff, List.reverse_append,
    List.reverse_reverse] at h
  exact hm.not_below he he' (by simpa using hq) h

end Paths

/-! ## What is spared -/

/-- The content of the file at a path. -/
def contentAt (fs : Tree) (p : Path) : Option Bytes :=
  match fs.look p with
  | some (.file d) => some d.content
  | _ => none

section Spares

variable (hash : Bytes → Text) (dir : Path) (m : Manifest)

/-- The entry is in place. -/
def InPlace (fs : Tree) (e : Entry) : Prop := ∃ c, contentAt fs (target dir e) = some c ∧ hash c = e.sha256

/-- What the installer may do between two points of an install, changing paths of `X` only. -/
structure Spares (X : Set Path) (fs fs' : Tree) : Prop where
  links : fs.NoLinks → fs'.NoLinks
  inPlace : fs.NoLinks → ∀ e ∈ m.entries, InPlace hash dir fs e → InPlace hash dir fs' e
  stamp : fs.NoLinks → ∀ c, contentAt fs' (stampName :: dir) = some c → contentAt fs (stampName :: dir) = some c
  within : fs.NoLinks → ∀ q, q ∉ X → fs'.look q = fs.look q

instance (X : Set Path) : IsPreorder Tree (Spares hash dir m X) where
  refl _ := ⟨id, fun _ _ _ => id, fun _ _ => id, fun _ _ _ => rfl⟩
  trans _ _ _ h h' :=
    ⟨fun hl => h'.links (h.links hl), fun hl e he hp => h'.inPlace (h.links hl) e he (h.inPlace hl e he hp),
      fun hl c hc => h.stamp hl c (h'.stamp (h.links hl) c hc),
      fun hl q hq => (h'.within (h.links hl) q hq).trans (h.within hl q hq)⟩

variable {hash dir m} {X Y : Set Path} {fs fs' : Tree} {p : Path}

theorem Spares.mono (h : Spares hash dir m X fs fs') (hXY : X ⊆ Y) : Spares hash dir m Y fs fs' :=
  ⟨h.links, h.inPlace, h.stamp, fun hl q hq => h.within hl q fun hx => hq (hXY hx)⟩

theorem contentAt_congr (h : fs'.look p = fs.look p) : contentAt fs' p = contentAt fs p := by
  unfold contentAt
  rw [h]

theorem contentAt_of_file {d : FileData} (h : fs.look p = some (.file d)) : contentAt fs p = some d.content := by
  unfold contentAt
  rw [h]

theorem InPlace.congr {e : Entry} (h : InPlace hash dir fs e) (hlook : fs'.look (target dir e) = fs.look (target dir e)) :
    InPlace hash dir fs' e := by
  obtain ⟨c, hc, hh⟩ := h
  exact ⟨c, (contentAt_congr hlook).trans hc, hh⟩

/-- Changing one node: it is not an entry in place, and it does not become a stamp. -/
theorem Spares.of_update {x : Option (Node Text FileData)} (hl : fs.NoLinks)
    (hlook : ∀ q, fs'.look q = if q = p then x else fs.look q) (hx : ∀ t, x ≠ some (.link t))
    (hplace : ∀ e ∈ m.entries, target dir e = p → ¬ InPlace hash dir fs e)
    (hstamp : p = stampName :: dir → contentAt fs' p = none) : Spares hash dir m {p} fs fs' ∧ fs'.NoLinks := by
  have hl' := hl.update hlook hx
  have hwithin : ∀ q, q ≠ p → fs'.look q = fs.look q := fun q hq => by rw [hlook, if_neg hq]
  refine ⟨⟨fun _ => hl', fun _ e he hp => ?_, fun _ c hc => ?_, fun _ q hq => hwithin q (by simpa using hq)⟩, hl'⟩
  · exact hp.congr (hwithin _ fun h => hplace e he h hp)
  · by_cases hs : stampName :: dir = p
    · rw [hs, hstamp hs.symm] at hc
      cases hc
    · rw [← contentAt_congr (hwithin _ hs)]
      exact hc

/-- What is said about a node outside `X` stays true. -/
theorem Spares.look_stable {q : Path} (hq : q ∉ X) (A : Option (Node Text FileData) → Prop) (s s' : Tree)
    (h : Spares hash dir m X s s') (hs : s.NoLinks ∧ A (s.look q)) : s'.NoLinks ∧ A (s'.look q) := by
  rw [h.within hs.1 q hq]
  exact ⟨h.links hs.1, hs.2⟩

/-- Deleting what is not an entry, or a directory. -/
theorem Spares.of_delete (hl : fs.NoLinks) (h : fs.delete p = some fs')
    (hp : ∀ e ∈ m.entries, target dir e = p → fs.look p = some .dir) :
    (Spares hash dir m {p} fs fs' ∧ fs'.NoLinks) ∧ fs'.look p = none := by
  rw [hl.delete] at h
  obtain ⟨-, hlook⟩ := FS.erase_spec h
  have hgone : fs'.look p = none := by rw [hlook, if_pos rfl]
  refine ⟨Spares.of_update hl hlook (by simp) ?_ fun _ => by rw [contentAt, hgone], hgone⟩
  rintro e he hep ⟨c, hc, -⟩
  rw [hep, contentAt, hp e he hep] at hc
  cases hc

/-- Creating a directory. -/
theorem Spares.of_create (hl : fs.NoLinks) (h : fs.create p = some fs') :
    Spares hash dir m {p} fs fs' ∧ fs'.NoLinks := by
  rw [hl.create] at h
  obtain ⟨hnone, hlook⟩ := FS.mkdir_spec h
  refine Spares.of_update hl hlook (by simp) ?_ fun _ => by rw [contentAt, hlook, if_pos rfl]
  rintro e he hep ⟨c, hc, -⟩
  rw [hep, contentAt, hnone] at hc
  cases hc

/-- Writing a temporary file. -/
theorem Spares.of_write (hm : m.Valid) {f : Option FileData → FileData} (hl : fs.NoLinks) (hp : IsTmp p)
    (h : fs.write f p = some fs') :
    (Spares hash dir m {p} fs fs' ∧ fs'.NoLinks) ∧ ∃ old, fs'.look p = some (.file (f old)) := by
  rw [hl.write] at h
  obtain ⟨old, hold, hlook⟩ := FS.put_spec h
  refine ⟨Spares.of_update hl hlook (by simp) ?_ ?_, old, by rw [hlook, if_pos rfl]⟩
  · rintro e he rfl
    exact absurd hp (target_not_isTmp (hm.entry e he))
  · rintro rfl
    exact absurd hp stamp_not_isTmp

/-- Moving a temporary file: its content arrives, and only it and where it goes change. -/
theorem move_tmp {q : Path} (hl : fs.NoLinks) (hp : IsTmp p) (h : fs.move p q = some fs') :
    fs'.NoLinks ∧ contentAt fs' q = contentAt fs p ∧ ∀ r, r ≠ q → ¬ IsTmp r → fs'.look r = fs.look r := by
  rw [hl.move] at h
  obtain ⟨x, hx, -, -, hlook⟩ := FS.rename_spec h
  refine ⟨fun r t => ?_, ?_, fun r hr ht => ?_⟩
  · rw [hlook]
    split
    · rw [← hx]
      exact hl p t
    · split
      · simp
      · exact hl r t
  · rw [contentAt, hlook, if_pos rfl, ← hx]
    rfl
  · have hrp : r ≠ p := by
      rintro rfl
      exact ht hp
    rw [hlook, if_neg hr, if_neg hrp]

/-- Moving a file of the right content into an entry's place. -/
theorem Spares.of_move (hm : m.Valid) {e : Entry} (he : e ∈ m.entries) (hl : fs.NoLinks) (hp : IsTmp p) {c : Bytes}
    (hc : contentAt fs p = some c) (hh : hash c = e.sha256) (h : fs.move p (target dir e) = some fs') :
    (Spares hash dir m Set.univ fs fs' ∧ fs'.NoLinks) ∧ InPlace hash dir fs' e := by
  obtain ⟨hl', hcontent, hother⟩ := move_tmp hl hp h
  have hplace : InPlace hash dir fs' e := ⟨c, hcontent.trans hc, hh⟩
  refine ⟨⟨⟨fun _ => hl', fun _ a ha hin => ?_, fun _ b hb => ?_, fun _ q hq => absurd trivial hq⟩, hl'⟩, hplace⟩
  · by_cases hae : target dir a = target dir e
    · rw [target_inj hm ha he hae]
      exact hplace
    · exact hin.congr (hother _ hae (target_not_isTmp (hm.entry a ha)))
  · rw [← contentAt_congr (hother _ (target_ne_stamp (hm.entry e he)).symm stamp_not_isTmp)]
    exact hb

end Spares

/-! ## The parts -/

section Parts

variable {R : Tree → Tree → Prop} [IsPreorder Tree R] {P Q : Tree → Prop}

theorem mustDo_keeps {message : String} {p : Path} {f : Tree → Option Tree}
    (h : ∀ s s', P s → f s = some s' → R s s' ∧ Q s') : Keeps R P (mustDo message p f) (fun _ => Q) := by
  unfold mustDo
  refine (Keeps.attempt (Q := fun b s => b = true → Q s) ?_ (by simp)).bind fun b => ?_
  · exact fun s s' hs hf => ⟨(h s s' hs hf).1, fun _ => (h s s' hs hf).2⟩
  · exact Keeps.ite (fun hb => Keeps.pure fun s hs => hs hb) fun _ => Keeps.throw

theorem readFile_keeps {f : Path} :
    Keeps R P (readFile f) (fun c s => P s ∧ ∃ d, s.read f = some d ∧ d.content = c) := by
  unfold readFile
  refine Keeps.query.bind fun data => ?_
  cases data with
  | none => exact Keeps.throw
  | some c =>
    refine Keeps.pure ?_
    rintro s ⟨hs, hread⟩
    obtain ⟨d, hd, hc⟩ := Option.map_eq_some_iff.1 (hread c rfl)
    exact ⟨hs, d, hd, hc⟩

theorem mkdirs_cons_keeps {n : Text} {p : Path}
    (hcreate : Keeps R P (attempt (·.create (n :: p)) : Install Bool) fun _ => P)
    (habove : Keeps R P (mkdirs p) fun _ => P) : Keeps R P (mkdirs (n :: p)) fun _ => P := by
  unfold mkdirs
  refine Keeps.peek.bind fun there => Keeps.ite (fun _ => Keeps.pure fun _ => And.left) fun _ => ?_
  refine (hcreate.weaken (fun _ => And.left) fun _ _ => id).bind fun made => ?_
  refine Keeps.ite (fun _ => Keeps.pure fun _ => id) fun _ => habove.bind fun above => ?_
  refine Keeps.peek.bind fun present => Keeps.ite (fun _ => ?_) fun _ => Keeps.pure fun _ => And.left
  exact hcreate.weaken (fun _ => And.left) fun _ _ => id

/-- Making sure of a directory changes what making its path changes. -/
theorem ensureDir_of_mkdirs (message : String) {p : Path} (h : Keeps R P (mkdirs p) fun _ => P) :
    Keeps R P (ensureDir message p) fun _ => P := by
  unfold ensureDir
  refine Keeps.peek.bind fun there => Keeps.ite (fun _ => Keeps.pure fun _ => And.left) fun _ => ?_
  refine (h.weaken (fun _ => And.left) fun _ _ => id).bind fun made => ?_
  exact Keeps.peek.bind fun now => Keeps.ite (fun _ => Keeps.pure fun _ => And.left) fun _ => Keeps.throw

end Parts

section Programs

variable {hash : Bytes → Text} {dir : Path} {m : Manifest}

theorem mkdirs_keeps : ∀ p : Path,
    Keeps (Spares hash dir m {q | q <:+ p}) (·.NoLinks) (mkdirs p) (fun _ s => s.NoLinks)
  | [] => Keeps.pure fun _ => id
  | n :: p => by
    have hcreate : Keeps (Spares hash dir m {q | q <:+ n :: p}) (·.NoLinks)
        (attempt (·.create (n :: p)) : Install Bool) (fun _ s => s.NoLinks) := by
      refine Keeps.attempt (fun s s' hl h => ?_) fun _ => id
      obtain ⟨hs, hl'⟩ := Spares.of_create hl h
      exact ⟨hs.mono (by simp), hl'⟩
    have habove : Keeps (Spares hash dir m {q | q <:+ n :: p}) (·.NoLinks) (mkdirs p) (fun _ s => s.NoLinks) :=
      (mkdirs_keeps p).mono fun s s' h => h.mono fun q hq => List.IsSuffix.trans hq (List.suffix_cons n p)
    exact mkdirs_cons_keeps hcreate habove

theorem ensureDir_keeps (message : String) (p : Path) :
    Keeps (Spares hash dir m {q | q <:+ p}) (·.NoLinks) (ensureDir message p) (fun _ s => s.NoLinks) := by
  exact ensureDir_of_mkdirs message (mkdirs_keeps p)

/-- Without links a node is a directory where the tree has one. -/
theorem isDirectory_stat {s : Tree} {p : Path} : isDirectory p s = true ↔ s.stat p = some .dir := decide_eq_true_iff

theorem isDirectory_iff {s : Tree} (hl : s.NoLinks) {p : Path} : isDirectory p s = true ↔ s.look p = some .dir := by
  rw [isDirectory_stat, hl.stat]

/-- Deleting a path of `X` that is not an entry's, or is a directory. -/
theorem delete_spares {X : Set Path} {p : Path} (hX : p ∈ X) {P : Tree → Prop} (hl : ∀ s, P s → s.NoLinks)
    (hp : ∀ s, P s → ∀ e ∈ m.entries, target dir e = p → s.look p = some .dir) (s s' : Tree) (hs : P s)
    (h : s.delete p = some s') : Spares hash dir m X s s' ∧ s'.NoLinks ∧ s'.look p = none := by
  obtain ⟨⟨h1, h2⟩, h3⟩ := Spares.of_delete (hl s hs) h (hp s hs)
  exact ⟨h1.mono (by simpa using hX), h2, h3⟩

theorem cleanStaleNewRecursive_keeps (hm : m.Valid) : ∀ (k : Nat) (d : Path),
    Keeps (Spares hash dir m Set.univ) (·.NoLinks) (cleanStaleNewRecursive k d) (fun _ s => s.NoLinks)
  | 0, d => Keeps.throw
  | k + 1, d => by
    unfold cleanStaleNewRecursive
    refine Keeps.query.bind fun files => Keeps.weaken (Keeps.forM_keep fun name _ => ?_) (fun _ => And.left) fun _ _ => id
    refine Keeps.peek.bind fun isDir => Keeps.ite (fun _ => ?_) fun _ => Keeps.ite (fun hnew => ?_) fun _ => ?_
    · exact (cleanStaleNewRecursive_keeps hm k (name :: d)).weaken (fun _ => And.left) fun _ _ => id
    · refine (Keeps.attempt (Q := fun _ (s : Tree) => s.NoLinks) (fun s s' hs h => ?_) fun _ => And.left).bind
        fun _ => Keeps.pure fun _ => id
      obtain ⟨h1, h2, -⟩ := delete_spares (Set.mem_univ _) (fun _ => And.left) (fun _ _ e he ht =>
        absurd ⟨name, d, ht, hnew⟩ (target_not_isTmp (hm.entry e he))) s s' hs h
      exact ⟨h1, h2⟩
    · exact Keeps.pure fun _ => And.left

/-- Deleting a tree with no entry below its root; the root may be an entry's path. -/
theorem deleteTree_keeps : ∀ (k : Nat) (d : Path), (∀ e ∈ m.entries, ∀ q, q ≠ [] → target dir e ≠ q ++ d) →
    Keeps (Spares hash dir m {q | d <:+ q}) (fun s => s.NoLinks ∧ s.look d = some .dir) (deleteTree k d)
      (fun _ s => s.NoLinks ∧ s.look d = none)
  | 0, d, _ => Keeps.throw
  | k + 1, d, hd => by
    unfold deleteTree
    refine Keeps.query.bind fun kids => Keeps.bind (Q := fun _ (s : Tree) => s.NoLinks ∧ s.look d = some .dir)
      (Keeps.weaken (Keeps.forM_keep fun name _ => ?_) (fun _ => And.left) fun _ _ => id) fun _ => ?_
    · have hnot : d ∉ {q | name :: d <:+ q} := fun h => by simpa using List.IsSuffix.length_le h
      have hbelow : ∀ e ∈ m.entries, ∀ q, target dir e ≠ q ++ name :: d := fun e he q => by
        simpa using hd e he (q ++ [name]) (by simp)
      refine Keeps.peek.bind fun isDir => Keeps.peek.bind fun sym => Keeps.ite (fun hdir => ?_) fun _ => ?_
      · have ih := deleteTree_keeps k (name :: d) fun e he q _ => hbelow e he q
        refine ((ih.frame (Spares.look_stable hnot (· = some .dir))).mono fun s s' h => ?_).weaken ?_ fun _ _ => And.right
        · exact h.mono fun q hq => List.IsSuffix.trans (List.suffix_cons name d) hq
        · rintro s ⟨⟨hs, hisDir⟩, -⟩
          simp only [Bool.and_eq_true] at hdir
          exact ⟨⟨hs.1, (isDirectory_iff hs.1).1 (hisDir.trans hdir.1)⟩, hs⟩
      · refine mustDo_keeps fun s s' hs h => ?_
        obtain ⟨⟨h1, h2⟩, -⟩ := Spares.of_delete hs.1.1.1 h fun e he ht => absurd ht (hbelow e he [])
        exact ⟨h1.mono (by simp), Spares.look_stable (by simp) (· = some .dir) s s' h1 hs.1.1⟩
    · exact mustDo_keeps (delete_spares (by simp) (fun _ => And.left) fun s hs _ _ _ => hs.2)

/-- Clearing the way for an entry: afterwards no directory is in its place. -/
theorem clearTypeConflicts_keeps (hm : m.Valid) {e : Entry} (he : e ∈ m.entries) :
    ∀ (pre ts : List Text), ts ≠ [] → components e.relPath = pre ++ ts →
      Keeps (Spares hash dir m Set.univ) (·.NoLinks) (clearTypeConflicts (pre.reverse ++ dir) ts)
        (fun _ s => s.NoLinks ∧ s.look (target dir e) ≠ some .dir)
  | _, [], h, _ => absurd rfl h
  | pre, t :: ts, _, hc => by
    have htarget : target dir e = ts.reverse ++ t :: (pre.reverse ++ dir) := by
      rw [target, hc]
      simp
    have hgone : ∀ s : Tree, s.look (t :: (pre.reverse ++ dir)) = none → s.look (target dir e) ≠ some .dir := by
      intro s hs
      rw [htarget]
      by_cases hts : ts = []
      · simp [hts, hs]
      · rw [FS.look_below (by simp [hs]) ts.reverse (by simpa using hts)]
        simp
    unfold clearTypeConflicts
    refine Keeps.peek.bind fun there => Keeps.ite (fun ht => Keeps.pure ?_) fun _ => ?_
    · rintro s ⟨hl, hthere⟩
      refine ⟨hl, hgone s ?_⟩
      rw [← hl.stat]
      simpa [← hthere, fileExists] using ht
    refine Keeps.peek.bind fun sym => Keeps.peek.bind fun isDir => Keeps.ite (fun hts => ?_) fun hts => ?_
    · -- the last component: a directory goes with everything in it
      subst hts
      rw [List.reverse_nil, List.nil_append] at htarget
      refine Keeps.ite (fun hsym => mustDo_keeps fun s s' hs h => ?_) fun _ => Keeps.ite (fun hdir => ?_) fun hdir => ?_
      · have := hs.1.1.1.isLink (t :: (pre.reverse ++ dir))
        simp [isSymlink, this, hsym] at hs
      · refine Keeps.peek.bind fun k => ?_
        refine ((deleteTree_keeps k _ fun e' he' q hq => ?_).mono fun s s' h => h.mono (Set.subset_univ _)).weaken ?_ ?_
        · rw [← htarget]
          exact target_not_below hm he he' hq
        · rintro s ⟨⟨⟨⟨hl, -⟩, -⟩, hisDir⟩, -⟩
          exact ⟨hl, (isDirectory_iff hl).1 (hisDir.trans hdir)⟩
        · rintro - s ⟨hl, hs⟩
          exact ⟨hl, hgone s hs⟩
      · refine Keeps.pure ?_
        rintro s ⟨⟨⟨hl, -⟩, -⟩, hisDir⟩
        refine ⟨hl, fun hlook => hdir ?_⟩
        rw [htarget] at hlook
        exact hisDir.symm.trans ((isDirectory_iff hl).2 hlook)
    · -- what blocks the way is not an entry: this one lies below it
      have hblock : ∀ e' ∈ m.entries, target dir e' ≠ t :: (pre.reverse ++ dir) := by
        intro e' he' ht
        rw [← ht] at htarget
        exact target_not_below hm he' he (by simpa using hts) htarget
      refine Keeps.ite (fun _ => mustDo_keeps fun s s' hs h => ?_) fun _ => ?_
      · obtain ⟨⟨h1, h2⟩, h3⟩ := Spares.of_delete hs.1.1.1 h fun e' he' ht => absurd ht (hblock e' he')
        exact ⟨h1.mono (Set.subset_univ _), h2, hgone s' h3⟩
      · have ih := clearTypeConflicts_keeps hm he (pre ++ [t]) ts hts (by simp [hc])
        simp only [List.reverse_append, List.reverse_cons, List.reverse_nil, List.nil_append, List.cons_append] at ih
        exact ih.weaken (fun _ hs => hs.1.1.1) fun _ _ => id

/-- The relative path of an entry is what the walk finds for it. -/
theorem foldl_relChild {cs : List Text} (h : ∀ c ∈ cs, c ≠ []) : cs.foldl relChild [] = joinSlash cs := by
  induction cs using List.reverseRecOn with
  | nil => rfl
  | append_singleton cs c ih =>
    have ih' := ih fun x hx => h x (by simp [hx])
    rw [List.foldl_append, List.foldl_cons, List.foldl_nil, ih', relChild]
    cases cs with
    | nil => simp [joinSlash, List.intercalate_singleton]
    | cons x xs =>
      have hx : x ≠ [] := h x (by simp)
      have hne : joinSlash (x :: xs) ≠ [] := by
        cases xs with
        | nil => simpa [joinSlash, List.intercalate_singleton] using hx
        | cons y ys => simp [joinSlash, List.intercalate_cons_cons, hx]
      rw [if_neg hne, joinSlash_append (by simp) (by simp)]
      simp [joinSlash, List.intercalate_singleton]

theorem foldl_relChild_components {e : Entry} (he : e.Valid) : (components e.relPath).foldl relChild [] = e.relPath := by
  rw [foldl_relChild, joinSlash_components he.relPath]
  intro c hc
  rw [components_eq he.relPath] at hc
  exact (validRelPath_splitOn he.relPath c hc).1

/-- Pruning leaves the entries alone: a file in an entry's place has an entry's relative path. -/
theorem pruneOrphans_keeps (hm : m.Valid) : ∀ (k : Nat) (rels : List Text),
    Keeps (Spares hash dir m Set.univ) (·.NoLinks)
      (pruneOrphans (m.entries.map (·.relPath)) k (rels.reverse ++ dir) (rels.foldl relChild []))
      (fun _ s => s.NoLinks)
  | 0, rels => Keeps.throw
  | k + 1, rels => by
    rw [pruneOrphans]
    refine Keeps.query.bind fun files => ?_
    cases files with
    | none => exact Keeps.throw
    | some names =>
      refine Keeps.weaken (Keeps.forM_keep fun name _ => ?_) (fun _ => And.left) fun _ _ => id
      refine Keeps.peek.bind fun isDir => Keeps.peek.bind fun sym => Keeps.ite (fun _ => ?_) fun _ =>
        Keeps.ite (fun horphan => ?_) fun _ => Keeps.pure fun _ hs => hs.1.1
      · have ih := pruneOrphans_keeps hm k (rels ++ [name])
        simp only [List.reverse_append, List.reverse_cons, List.reverse_nil, List.nil_append, List.cons_append,
          List.foldl_append, List.foldl_cons, List.foldl_nil] at ih
        refine (ih.weaken (fun _ hs => hs.1.1) fun _ _ => id).bind fun _ => Keeps.query.bind fun remaining => ?_
        refine Keeps.ite (fun hempty => mustDo_keeps fun s s' hs h => ?_) fun _ => Keeps.pure fun _ => And.left
        have hlist := hs.2 [] hempty
        rw [hs.1.list, Option.ite_none_right_eq_some] at hlist
        obtain ⟨⟨h1, h2⟩, -⟩ := Spares.of_delete hs.1 h fun _ _ _ => hlist.1
        exact ⟨h1.mono (Set.subset_univ _), h2⟩
      · have hentry : ∀ e ∈ m.entries, target dir e ≠ name :: (rels.reverse ++ dir) := by
          intro e he ht
          have hc : components e.relPath = rels ++ [name] := by
            rw [target, ← List.cons_append, List.append_cancel_right_eq, List.reverse_eq_iff] at ht
            simpa using ht
          have hnot : (rels ++ [name]).foldl relChild [] ∉ m.entries.map (·.relPath) := by
            simpa [List.contains_eq_mem] using horphan.2.2
          refine hnot (List.mem_map.2 ⟨e, he, ?_⟩)
          rw [← foldl_relChild_components (hm.entry e he), hc]
        refine mustDo_keeps fun s s' hs h => ?_
        obtain ⟨⟨h1, h2⟩, -⟩ := Spares.of_delete hs.1.1 h fun e he ht => absurd ht (hentry e he)
        exact ⟨h1.mono (Set.subset_univ _), h2⟩

/-! ## Entries -/

theorem currentSha_keeps (e : Entry) :
    Keeps (Spares hash dir m Set.univ) (fun s => s.NoLinks ∧ s.look (target dir e) ≠ some .dir)
      (currentSha hash (target dir e))
      (fun sha s => (s.NoLinks ∧ s.look (target dir e) ≠ some .dir) ∧ (sha = some e.sha256 → InPlace hash dir s e)) := by
  unfold currentSha
  refine Keeps.peek.bind fun there => Keeps.ite (fun _ => readFile_keeps.bind fun c => Keeps.pure ?_) fun _ => ?_
  · rintro s ⟨⟨hs, -⟩, d, hd, hc⟩
    refine ⟨hs, fun hsha => ⟨c, ?_, Option.some.inj hsha⟩⟩
    rw [contentAt_of_file (hs.1.read_eq_some.1 hd), hc]
  · exact Keeps.pure fun s hs => ⟨hs.1, fun h => by cases h⟩

section Entry

variable (hm : m.Valid) {e : Entry} (he : e ∈ m.entries)
include hm he

theorem staged_target_isTmp : IsTmp (staged (target dir e)) := staged_isTmp (target_ne_nil (hm.entry e he))

theorem target_ne_staged : target dir e ≠ staged (target dir e) := by
  intro h
  have htmp : IsTmp (staged (target dir e)) := staged_target_isTmp hm he
  rw [← h] at htmp
  exact target_not_isTmp (hm.entry e he) htmp

/-- A checked temporary file is renamed into place, or nothing happens. -/
theorem renameOrThrow_keeps {p : Path} (hp : IsTmp p) :
    Keeps (Spares hash dir m Set.univ)
      (fun s => s.NoLinks ∧ s.look (target dir e) ≠ some .dir ∧ ∃ c, contentAt s p = some c ∧ hash c = e.sha256)
      (renameOrThrow p (target dir e)) (fun _ s => s.NoLinks ∧ InPlace hash dir s e) := by
  have hmove : ∀ s s' : Tree, (s.NoLinks ∧ s.look (target dir e) ≠ some .dir ∧
      ∃ c, contentAt s p = some c ∧ hash c = e.sha256) → s.move p (target dir e) = some s' →
      Spares hash dir m Set.univ s s' ∧ s'.NoLinks ∧ InPlace hash dir s' e := by
    rintro s s' ⟨hl, -, c, hc, hh⟩ h
    obtain ⟨⟨h1, h2⟩, h3⟩ := Spares.of_move hm he hl hp hc hh h
    exact ⟨h1, h2, h3⟩
  unfold renameOrThrow
  refine (Keeps.attempt (Q := fun b (s : Tree) => if b then s.NoLinks ∧ InPlace hash dir s e else
    s.NoLinks ∧ s.look (target dir e) ≠ some .dir ∧ ∃ c, contentAt s p = some c ∧ hash c = e.sha256) hmove
    fun _ => id).bind fun renamed => ?_
  cases renamed with
  | true => exact Keeps.pure fun _ => id
  | false =>
    refine (Keeps.attempt (Q := fun b (s : Tree) => b = true → s.NoLinks ∧ InPlace hash dir s e) (fun s s' hs h => ?_)
      fun _ _ h => by cases h).bind fun moved => Keeps.peek.bind fun there =>
      Keeps.ite (fun hb => Keeps.pure fun s hs => hs.1 (Bool.and_eq_true_iff.1 hb).1) fun _ => Keeps.throw
    have hnot : isDirectory (target dir e) s = false := by
      rw [← Bool.not_eq_true, isDirectory_iff hs.1]
      exact hs.2.1
    simp only [mvInto, hnot, Bool.false_eq_true, if_false] at h
    obtain ⟨h1, h2⟩ := hmove s s' hs h
    exact ⟨h1, fun _ => h2⟩

theorem extract_keeps (res : Text → Option Bytes) :
    Keeps (Spares hash dir m Set.univ) (fun s => s.NoLinks ∧ s.look (target dir e) ≠ some .dir)
      (extract hash res e (staged (target dir e)) (target dir e)) (fun _ s => s.NoLinks ∧ InPlace hash dir s e) := by
  have htmp : IsTmp (staged (target dir e)) := staged_target_isTmp hm he
  have hne : target dir e ∉ ({staged (target dir e)} : Set Path) := target_ne_staged hm he
  unfold extract
  refine Keeps.peek.bind fun odd => Keeps.ite (fun _ => Keeps.throw) fun _ => Keeps.query.bind fun data => ?_
  cases data with
  | none => exact Keeps.throw
  | some data =>
    refine Keeps.bind (Q := fun _ (s : Tree) => s.NoLinks ∧ s.look (target dir e) ≠ some .dir)
      (mustDo_keeps fun s s' hs h => ?_) fun _ => readFile_keeps.bind fun c => ?_
    · obtain ⟨⟨h1, -⟩, -⟩ := Spares.of_write hm hs.1.1.1 htmp h
      exact ⟨h1.mono (Set.subset_univ _), Spares.look_stable hne (· ≠ some .dir) s s' h1 hs.1.1⟩
    refine Keeps.ite (fun _ => Keeps.throw) fun hsha => Keeps.bind (mustDo_keeps fun s s' hs h => ?_)
      fun _ => renameOrThrow_keeps hm he htmp
    -- the mode changes, the content that was checked stays
    obtain ⟨hs, d, hd, hdc⟩ := hs
    rw [hd, Option.bind_some] at h
    obtain ⟨⟨h1, -⟩, old, hlook⟩ := Spares.of_write hm hs.1 htmp h
    obtain ⟨hl', hdir'⟩ := Spares.look_stable hne (· ≠ some .dir) s s' h1 hs
    refine ⟨h1.mono (Set.subset_univ _), hl', hdir', c, ?_, not_not.1 hsha⟩
    rw [contentAt_of_file hlook, ← hdc]

/-- **One entry.** Whatever happens, what is in place stays in place; on return the entry is. -/
theorem installEntry_keeps (res : Text → Option Bytes) :
    Keeps (Spares hash dir m Set.univ) (·.NoLinks) (installEntry hash dir res e)
      (fun _ s => s.NoLinks ∧ InPlace hash dir s e) := by
  have hclear : Keeps (Spares hash dir m Set.univ) (·.NoLinks) (clearTypeConflicts dir (components e.relPath))
      (fun _ s => s.NoLinks ∧ s.look (target dir e) ≠ some .dir) :=
    clearTypeConflicts_keeps hm he [] _ (components_ne_nil (hm.entry e he).relPath) rfl
  unfold installEntry
  refine hclear.bind fun _ => (currentSha_keeps e).bind fun sha => ?_
  refine Keeps.ite (fun hsha => Keeps.pure fun s hs => ⟨hs.1.1, hs.2 hsha⟩) fun _ => ?_
  have hnot : target dir e ∉ {q | q <:+ (target dir e).tail} := by
    intro h
    have hle : (target dir e).length ≤ (target dir e).length - 1 := by simpa using List.IsSuffix.length_le h
    have hpos : 0 < (target dir e).length := List.length_pos_of_ne_nil (target_ne_nil (hm.entry e he))
    omega
  have hparent : Keeps (Spares hash dir m Set.univ) (fun s => s.NoLinks ∧ s.look (target dir e) ≠ some .dir)
      (ensureDir "cannot create parent dir: " (target dir e).tail)
      (fun _ s => s.NoLinks ∧ s.look (target dir e) ≠ some .dir) :=
    (((ensureDir_keeps _ _).frame (Spares.look_stable hnot (· ≠ some .dir))).mono fun s s' h =>
      h.mono (Set.subset_univ _)).weaken (fun s hs => ⟨hs.1, hs⟩) fun _ _ => And.right
  exact (hparent.weaken (fun _ => And.left) fun _ _ => id).bind fun _ => extract_keeps hm he res

end Entry

/-- **The payload.** Whatever happens, what is in place stays in place; on return every entry is in
place, and the new stamp is staged. -/
theorem installFiles_keeps (hm : m.Valid) (res : Text → Option Bytes) :
    Keeps (Spares hash dir m Set.univ) (·.NoLinks) (installFiles hash dir m res)
      (fun _ s => s.NoLinks ∧ (∀ e ∈ m.entries, InPlace hash dir s e) ∧
        contentAt s (staged (stampName :: dir)) = some (encodeAscii m.version)) := by
  have hstable : ∀ e ∈ m.entries, ∀ s s' : Tree, Spares hash dir m Set.univ s s' →
      s.NoLinks ∧ InPlace hash dir s e → s'.NoLinks ∧ InPlace hash dir s' e :=
    fun e he s s' h hs => ⟨h.links hs.1, h.inPlace hs.1 e he hs.2⟩
  have hentries : Keeps (Spares hash dir m Set.univ) (·.NoLinks) (m.entries.forM (installEntry hash dir res))
      (fun _ s => s.NoLinks ∧ ∀ e ∈ m.entries, InPlace hash dir s e) := by
    refine (Keeps.forM (D := fun e s => e ∈ m.entries → s.NoLinks ∧ InPlace hash dir s e) (fun e he => ?_) ?_).weaken
      (fun _ => id) fun _ s hs => ⟨hs.1, fun e he => (hs.2 e he he).2⟩
    · exact (installEntry_keeps hm he res).weaken (fun _ => id) fun _ s hs => ⟨hs.1, fun _ => hs⟩
    · exact fun e s s' h hs he => hstable e he s s' h (hs he)
  have hprune : ∀ k, Keeps (Spares hash dir m Set.univ) (fun s => s.NoLinks ∧ ∀ e ∈ m.entries, InPlace hash dir s e)
      (pruneOrphans (m.entries.map (·.relPath)) k dir []) (fun _ s => s.NoLinks ∧ ∀ e ∈ m.entries, InPlace hash dir s e) := by
    intro k
    refine ((pruneOrphans_keeps hm k []).frame (A := fun s => s.NoLinks ∧ ∀ e ∈ m.entries, InPlace hash dir s e)
      fun s s' h hs => ?_).weaken (fun s hs => ⟨hs.1, hs⟩) fun _ _ => And.right
    exact ⟨h.links hs.1, fun e he => (hstable e he s s' h ⟨hs.1, hs.2 e he⟩).2⟩
  unfold installFiles
  refine ((ensureDir_keeps _ dir).mono fun s s' h => h.mono (Set.subset_univ _)).bind fun _ => Keeps.peek.bind fun k => ?_
  refine ((cleanStaleNewRecursive_keeps hm k dir).weaken (fun _ => And.left) fun _ _ => id).bind fun _ => ?_
  refine hentries.bind fun _ => Keeps.peek.bind fun k' => ?_
  refine ((hprune k').weaken (fun _ => And.left) fun _ _ => id).bind fun _ => mustDo_keeps fun s s' hs h => ?_
  obtain ⟨⟨h1, h2⟩, old, hlook⟩ := Spares.of_write hm hs.1 (staged_isTmp (by simp)) h
  exact ⟨h1.mono (Set.subset_univ _), h2, fun e he => h1.inPlace hs.1 e he (hs.2 e he), contentAt_of_file hlook⟩

end Programs

end ShairKindle.Payload
