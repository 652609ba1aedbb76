import Mathlib.Data.List.AList
import Mathlib.Tactic

/-!
# File trees

A file system as a map from paths to nodes: directories, files with some data, and symbolic links.
Paths are lists of names, innermost first, so that the parent of `n :: p` is `p`. The map carries its
own well-formedness: the root is a directory, and so is whatever has something below it. The tree
operations (`mkdir`, `put`, `erase`, `rename`) act on real locations and fail where the system call
would. The calls a program makes (`stat`, `write`, `delete`, `move`, …) go through links first, at most
`maxLinks` of them on one path; in a tree without links they are the tree operations (`NoLinks`).
-/

namespace FileTree

variable {ν φ : Type}

/-- What a path can name. -/
inductive Node (ν φ : Type)
  | dir
  | file (data : φ)
  | link (target : List ν)
deriving DecidableEq

/-- A file system. -/
structure FS (ν φ : Type) [DecidableEq ν] where
  nodes : AList fun _ : List ν => Node ν φ
  root : nodes.lookup [] = some .dir
  closed : ∀ n p, nodes.lookup (n :: p) ≠ none → nodes.lookup p = some .dir

namespace FS

variable [DecidableEq ν]

/-- The node at a real location. -/
def look (fs : FS ν φ) (p : List ν) : Option (Node ν φ) := fs.nodes.lookup p

/-- Only the root. -/
def empty : FS ν φ where
  nodes := AList.insert [] .dir ∅
  root := AList.lookup_insert _
  closed n p h := by
    rw [AList.lookup_insert_ne (by simp), AList.lookup_empty] at h
    exact absurd rfl h

theorem look_root (fs : FS ν φ) : fs.look [] = some .dir := fs.root

/-- The parent of a node is a directory. -/
theorem look_parent {fs : FS ν φ} {n : ν} {p : List ν} (h : fs.look (n :: p) ≠ none) : fs.look p = some .dir :=
  fs.closed n p h

/-- Nothing is below what is not a directory. -/
theorem look_below {fs : FS ν φ} {p : List ν} (h : fs.look p ≠ some .dir) : ∀ q, q ≠ [] → fs.look (q ++ p) = none
  | [], hq => absurd rfl hq
  | [n], _ => by
    by_contra hn
    exact h (look_parent hn)
  | n :: m :: q, _ => by
    have ih := look_below h (m :: q) (by simp)
    by_contra hn
    rw [List.cons_append] at hn
    rw [look_parent hn] at ih
    cases ih

theorem mem_keys {fs : FS ν φ} {p : List ν} : p ∈ fs.nodes.keys ↔ fs.look p ≠ none := by
  rw [look, ne_eq, AList.lookup_eq_none, not_not, AList.mem_keys]

theorem length_keys (fs : FS ν φ) : fs.nodes.keys.length = fs.nodes.entries.length := by
  simp [AList.keys, List.keys]

/-- The names in a directory. -/
def children (fs : FS ν φ) (p : List ν) : List ν :=
  fs.nodes.keys.filterMap fun
    | [] => none
    | n :: q => if q = p then some n else none

theorem mem_children {fs : FS ν φ} {p : List ν} {n : ν} : n ∈ fs.children p ↔ fs.look (n :: p) ≠ none := by
  rw [← mem_keys, children, List.mem_filterMap]
  constructor
  · rintro ⟨_ | ⟨m, q⟩, hk, h⟩
    · cases h
    · simp only [Option.ite_none_right_eq_some, Option.some.injEq] at h
      obtain ⟨rfl, rfl⟩ := h
      exact hk
  · intro hk
    exact ⟨n :: p, hk, by simp⟩

theorem nodup_children (fs : FS ν φ) (p : List ν) : (fs.children p).Nodup := by
  refine List.Nodup.filterMap ?_ fs.nodes.keys_nodup
  intro a b n ha hb
  rcases a with _ | ⟨x, a⟩
  · cases ha
  rcases b with _ | ⟨y, b⟩
  · cases hb
  simp only [Option.mem_def, Option.ite_none_right_eq_some, Option.some.injEq] at ha hb
  rw [ha.1, ha.2, hb.1, hb.2]

/-- Above a node there are directories. -/
theorem look_suffix {fs : FS ν φ} {p q : List ν} (hp : fs.look p ≠ none) (hq : q <:+ p) (hne : q ≠ p) :
    fs.look q = some .dir := by
  by_contra hd
  obtain ⟨r, rfl⟩ := hq
  refine hp (look_below hd r ?_)
  rintro rfl
  exact hne rfl

/-- Above a directory there are directories. -/
theorem look_dir_suffix {fs : FS ν φ} {p q : List ν} (hp : fs.look p = some .dir) (hq : q <:+ p) :
    fs.look q = some .dir := by
  by_cases hqp : q = p
  · rwa [hqp]
  · exact look_suffix (by simp [hp]) hq hqp

omit [DecidableEq ν] in
theorem nodup_tails (p : List ν) : p.tails.Nodup := by
  induction p with
  | nil => simp
  | cons n p ih =>
    rw [List.tails_cons, List.nodup_cons]
    refine ⟨fun h => ?_, ih⟩
    have := ((List.mem_tails _ _).1 h).length_le
    simp at this

/-- A path is shorter than there are nodes: everything above it is one. -/
theorem length_lt_of_look {fs : FS ν φ} {p : List ν} (hp : fs.look p ≠ none) : p.length < fs.nodes.entries.length := by
  have hsub : p.tails ⊆ fs.nodes.keys := by
    intro q hq
    rw [mem_keys]
    by_cases hqp : q = p
    · rw [hqp]
      exact hp
    · simp [look_suffix hp ((List.mem_tails q p).1 hq) hqp]
  have hle := (List.subperm_of_subset (nodup_tails p) hsub).length_le
  rw [List.length_tails, length_keys] at hle
  omega

/-! ## Tree operations -/

/-- Put a node below a directory. What has something below it stays a directory. -/
def set (fs : FS ν φ) (n : ν) (p : List ν) (x : Node ν φ) (hp : fs.look p = some .dir)
    (hx : x = .dir ∨ fs.look (n :: p) ≠ some .dir) : FS ν φ where
  nodes := fs.nodes.insert (n :: p) x
  root := by rw [AList.lookup_insert_ne (by simp)]; exact fs.root
  closed m q h := by
    by_cases hq : q = n :: p
    · subst hq
      rw [AList.lookup_insert_ne (by simp)] at h
      have hd : fs.look (n :: p) = some .dir := fs.closed m _ h
      rw [AList.lookup_insert, hx.resolve_right (not_not.2 hd)]
    · rw [AList.lookup_insert_ne hq]
      by_cases hm : m :: q = n :: p
      · rw [(List.cons.inj hm).2]
        exact hp
      · rw [AList.lookup_insert_ne hm] at h
        exact fs.closed m q h

@[simp] theorem look_set (fs : FS ν φ) {n : ν} {p : List ν} {x : Node ν φ} (hp : fs.look p = some .dir)
    (hx : x = .dir ∨ fs.look (n :: p) ≠ some .dir) (q : List ν) :
    (fs.set n p x hp hx).look q = if q = n :: p then some x else fs.look q := by
  unfold look set
  split
  · rename_i h
    rw [h, AList.lookup_insert]
  · rw [AList.lookup_insert_ne ‹_›]

/-- Remove a node with nothing below it. -/
def remove (fs : FS ν φ) (n : ν) (p : List ν) (h : ∀ m, fs.look (m :: n :: p) = none) : FS ν φ where
  nodes := fs.nodes.erase (n :: p)
  root := by rw [AList.lookup_erase_ne (by simp)]; exact fs.root
  closed m q hm := by
    have hne : m :: q ≠ n :: p := by
      rintro he
      rw [he, AList.lookup_erase] at hm
      exact hm rfl
    rw [AList.lookup_erase_ne hne] at hm
    have hq : q ≠ n :: p := by
      rintro rfl
      exact hm (h m)
    rw [AList.lookup_erase_ne hq]
    exact fs.closed m q hm

@[simp] theorem look_remove (fs : FS ν φ) {n : ν} {p : List ν} (h : ∀ m, fs.look (m :: n :: p) = none) (q : List ν) :
    (fs.remove n p h).look q = if q = n :: p then none else fs.look q := by
  unfold look remove
  split
  · rename_i h
    rw [h, AList.lookup_erase]
  · rw [AList.lookup_erase_ne ‹_›]

section Operations

variable [DecidableEq φ]

/-- Create a directory where there is nothing. -/
def mkdir (fs : FS ν φ) : List ν → Option (FS ν φ)
  | [] => none
  | n :: p =>
    if h : fs.look p = some .dir ∧ fs.look (n :: p) = none then some (fs.set n p .dir h.1 (.inl rfl)) else none

/-- Create a file or change one; `f` gets the old data. -/
def put (fs : FS ν φ) (f : Option φ → φ) : List ν → Option (FS ν φ)
  | [] => none
  | n :: p =>
    if h : fs.look p = some .dir then
      match hx : fs.look (n :: p) with
      | none => some (fs.set n p (.file (f none)) h (.inr (by simp [hx])))
      | some (.file d) => some (fs.set n p (.file (f (some d))) h (.inr (by simp [hx])))
      | some .dir | some (.link _) => none
    else none

/-- Remove a file, a link or an empty directory. -/
def erase (fs : FS ν φ) : List ν → Option (FS ν φ)
  | [] => none
  | n :: p =>
    if fs.look (n :: p) = none then none
    else if h : fs.children (n :: p) = [] then
      some (fs.remove n p fun m => by
        by_contra hm
        rw [← ne_eq, ← mem_children, h] at hm
        cases hm)
    else none

/-- Move a file or a link to where no directory is. -/
def rename (fs : FS ν φ) : List ν → List ν → Option (FS ν φ)
  | a :: p, n :: q =>
    if h : fs.look (a :: p) ≠ some .dir ∧ fs.look q = some .dir ∧ fs.look (n :: q) ≠ some .dir then
      match fs.look (a :: p) with
      | none => none
      | some x =>
        some ((fs.remove a p fun m => look_below h.1 [m] (by simp)).set n q x
          (by
            rw [look_remove, if_neg]
            · exact h.2.1
            · rintro rfl
              exact h.1 h.2.1)
          (.inr (by
            rw [look_remove]
            split
            · simp
            · exact h.2.2)))
    else none
  | _, _ => none

theorem mkdir_spec {fs fs' : FS ν φ} {p : List ν} (h : fs.mkdir p = some fs') :
    fs.look p = none ∧ ∀ q, fs'.look q = if q = p then some .dir else fs.look q := by
  cases p with
  | nil => cases h
  | cons n p =>
    simp only [mkdir, Option.dite_none_right_eq_some, Option.some.injEq] at h
    obtain ⟨hp, rfl⟩ := h
    exact ⟨hp.2, fun q => look_set ..⟩

theorem put_spec {fs fs' : FS ν φ} {f : Option φ → φ} {p : List ν} (h : fs.put f p = some fs') :
    ∃ old : Option φ, fs.look p = old.map .file ∧
      ∀ q, fs'.look q = if q = p then some (.file (f old)) else fs.look q := by
  cases p with
  | nil => cases h
  | cons n p =>
    simp only [put, Option.dite_none_right_eq_some] at h
    obtain ⟨hp, h⟩ := h
    split at h
    · obtain rfl := Option.some.inj h
      exact ⟨none, ‹_›, fun q => look_set ..⟩
    · obtain rfl := Option.some.inj h
      exact ⟨some _, ‹_›, fun q => look_set ..⟩
    · cases h
    · cases h

omit [DecidableEq φ] in
theorem erase_spec {fs fs' : FS ν φ} {p : List ν} (h : fs.erase p = some fs') :
    fs.look p ≠ none ∧ ∀ q, fs'.look q = if q = p then none else fs.look q := by
  cases p with
  | nil => cases h
  | cons n p =>
    simp only [erase, Option.ite_none_left_eq_some, Option.dite_none_right_eq_some, Option.some.injEq] at h
    obtain ⟨hp, _, rfl⟩ := h
    exact ⟨hp, fun q => look_remove ..⟩

theorem rename_spec {fs fs' : FS ν φ} {p q : List ν} (h : fs.rename p q = some fs') :
    ∃ x, fs.look p = some x ∧ fs.look p ≠ some .dir ∧ fs.look q ≠ some .dir ∧
      ∀ r, fs'.look r = if r = q then some x else if r = p then none else fs.look r := by
  cases p with
  | nil => cases h
  | cons a p =>
    cases q with
    | nil => cases h
    | cons n q =>
      simp only [rename, Option.dite_none_right_eq_some] at h
      obtain ⟨hp, h⟩ := h
      split at h
      · cases h
      · obtain rfl := Option.some.inj h
        refine ⟨_, ‹_›, hp.1, hp.2.2, fun r => ?_⟩
        rw [look_set, look_remove]

/-! What the operations need to succeed. -/

theorem exists_mkdir {fs : FS ν φ} {n : ν} {p : List ν} (hp : fs.look p = some .dir) (hn : fs.look (n :: p) = none) :
    ∃ fs', fs.mkdir (n :: p) = some fs' := ⟨_, dif_pos ⟨hp, hn⟩⟩

omit [DecidableEq φ] in
theorem exists_erase {fs : FS ν φ} {p : List ν} (hp : fs.look p ≠ none) (hne : p ≠ [])
    (hc : ∀ n, fs.look (n :: p) = none) : ∃ fs', fs.erase p = some fs' := by
  obtain ⟨n, q, rfl⟩ := List.exists_cons_of_ne_nil hne
  have hnil : fs.children (n :: q) = [] := by
    rw [List.eq_nil_iff_forall_not_mem]
    intro m hm
    exact mem_children.1 hm (hc m)
  exact ⟨_, by rw [erase, if_neg hp, dif_pos hnil]⟩

theorem exists_rename {fs : FS ν φ} {a n : ν} {p q : List ν} {d : φ} (ha : fs.look (a :: p) = some (.file d))
    (hq : fs.look q = some .dir) (hn : fs.look (n :: q) ≠ some .dir) : ∃ fs', fs.rename (a :: p) (n :: q) = some fs' := by
  have h : fs.look (a :: p) ≠ some .dir ∧ fs.look q = some .dir ∧ fs.look (n :: q) ≠ some .dir := ⟨by simp [ha], hq, hn⟩
  rw [rename, dif_pos h]
  split
  · rename_i hnone
    rw [ha] at hnone
    cases hnone
  · exact ⟨_, rfl⟩

/-! ## Calls through links -/

/-- The real location a path leads to and the number of links on the way, when `jump` resolves a link's
target. The last name need not exist. -/
def followWith (fs : FS ν φ) (jump : List ν → Option (List ν × Nat)) : List ν → Option (List ν × Nat)
  | [] => some ([], 0)
  | n :: p =>
    match followWith fs jump p with
    | none => none
    | some (q, i) =>
      if fs.look q = some .dir then
        match fs.look (n :: q) with
        | some (.link t) => (jump t).map fun r => (r.1, i + r.2 + 1)
        | _ => some (n :: q, i)
      else none

/-- The same with links nested in the targets of links up to so deep. -/
def follow (fs : FS ν φ) : Nat → List ν → Option (List ν × Nat)
  | 0 => fs.followWith fun _ => none
  | k + 1 => fs.followWith (fs.follow k)

/-- How many links the system follows on one path, those in the targets of links included. -/
def maxLinks : Nat := 40

/-- The real location of a path, its last name followed too. -/
def real (fs : FS ν φ) (p : List ν) : Option (List ν) :=
  (fs.follow maxLinks p).bind fun r => if r.2 ≤ maxLinks then some r.1 else none

/-- Where a path itself is: its last name is not followed. -/
def place (fs : FS ν φ) : List ν → Option (List ν)
  | [] => some []
  | n :: p => (fs.real p).bind fun q => if fs.look q = some .dir then some (n :: q) else none

/-- The node a path leads to. -/
def stat (fs : FS ν φ) (p : List ν) : Option (Node ν φ) := (fs.real p).bind fs.look

/-- The path itself is a link. -/
def isLink (fs : FS ν φ) (p : List ν) : Bool :=
  match (fs.place p).bind fs.look with
  | some (.link _) => true
  | _ => false

/-- The data of the file a path leads to. -/
def read (fs : FS ν φ) (p : List ν) : Option φ :=
  match fs.stat p with
  | some (.file d) => some d
  | _ => none

/-- The names in the directory a path leads to. -/
def list (fs : FS ν φ) (p : List ν) : Option (List ν) :=
  (fs.real p).bind fun q => if fs.look q = some .dir then some (fs.children q) else none

/-- Make a directory. -/
def create (fs : FS ν φ) (p : List ν) : Option (FS ν φ) := (fs.place p).bind fs.mkdir

/-- Write the file a path leads to. -/
def write (fs : FS ν φ) (f : Option φ → φ) (p : List ν) : Option (FS ν φ) := (fs.real p).bind (fs.put f)

/-- Delete what is at a path. -/
def delete (fs : FS ν φ) (p : List ν) : Option (FS ν φ) := (fs.place p).bind fs.erase

/-- Move what is at a path. -/
def move (fs : FS ν φ) (p q : List ν) : Option (FS ν φ) :=
  (fs.place p).bind fun a => (fs.place q).bind (fs.rename a)

/-! ## Trees without links -/

/-- No node is a link. -/
def NoLinks (fs : FS ν φ) : Prop := ∀ p t, fs.look p ≠ some (.link t)

omit [DecidableEq φ] in
theorem empty_noLinks : (empty : FS ν φ).NoLinks := by
  intro p t h
  cases p with
  | nil =>
    rw [look_root] at h
    cases h
  | cons n p =>
    rw [look, empty, AList.lookup_insert_ne (by simp), AList.lookup_empty] at h
    cases h

variable {fs : FS ν φ}

omit [DecidableEq φ] in
/-- Changing one node to what is not a link. -/
theorem NoLinks.update (h : fs.NoLinks) {fs' : FS ν φ} {p : List ν} {x : Option (Node ν φ)}
    (hlook : ∀ q, fs'.look q = if q = p then x else fs.look q) (hx : ∀ t, x ≠ some (.link t)) : fs'.NoLinks := by
  intro q t
  rw [hlook]
  split
  · exact hx t
  · exact h q t

omit [DecidableEq φ] in
theorem NoLinks.last (h : fs.NoLinks) {α : Type} (f : List ν → Option α) (n : ν) (p : List ν) (x : Option α) :
    (match fs.look (n :: p) with
      | some (.link t) => f t
      | _ => x) = x := by
  cases hx : fs.look (n :: p) with
  | none => rfl
  | some y =>
    cases y with
    | dir | file d => rfl
    | link t => exact absurd hx (h _ t)

theorem NoLinks.followWith_cons (h : fs.NoLinks) (jump : List ν → Option (List ν × Nat)) (n : ν) (p : List ν) :
    fs.followWith jump (n :: p) = if fs.look p = some .dir then some (n :: p, 0) else none := by
  induction p generalizing n with
  | nil =>
    simp only [FS.followWith, look_root, if_true]
    exact h.last _ n [] _
  | cons m r ih =>
    rw [FS.followWith, ih m]
    by_cases hr : fs.look r = some .dir
    · simp only [hr, if_true]
      rw [h.last]
    · have hm : fs.look (m :: r) ≠ some .dir := by
        intro hd
        exact hr (look_parent (by rw [hd]; simp))
      simp [hr, hm]

theorem NoLinks.real_cons (h : fs.NoLinks) (n : ν) (p : List ν) :
    fs.real (n :: p) = if fs.look p = some .dir then some (n :: p) else none := by
  have hfollow : fs.follow maxLinks (n :: p) = if fs.look p = some .dir then some (n :: p, 0) else none :=
    h.followWith_cons _ n p
  rw [real, hfollow]
  split <;> rfl

/-- Without links a path leads to the node at it. -/
theorem NoLinks.stat (h : fs.NoLinks) (p : List ν) : fs.stat p = fs.look p := by
  cases p with
  | nil => rfl
  | cons n p =>
    rw [FS.stat, h.real_cons]
    by_cases hp : fs.look p = some .dir
    · simp [hp]
    · simpa [hp] using (look_below hp [n] (by simp)).symm

theorem NoLinks.real_of_dir (h : fs.NoLinks) {p : List ν} (hp : fs.look p = some .dir) : fs.real p = some p := by
  cases p with
  | nil => rfl
  | cons n p => rw [h.real_cons, if_pos (look_parent (by rw [hp]; simp))]

/-- A path is where it says, if it is anywhere. -/
theorem NoLinks.place_bind (h : fs.NoLinks) {α : Type} {f : List ν → Option α} (p : List ν)
    (hf : fs.look p.tail ≠ some .dir → f p = none) : (fs.place p).bind f = f p := by
  cases p with
  | nil => rfl
  | cons n p =>
    by_cases hp : fs.look p = some .dir
    · simp [FS.place, h.real_of_dir hp, hp]
    · rw [hf hp, FS.place]
      have : ∀ q, fs.real p = some q → fs.look q ≠ some .dir := by
        intro q hq hd
        have := h.stat p
        rw [FS.stat, hq, Option.bind_some, hd] at this
        exact hp this.symm
      cases hr : fs.real p with
      | none => rfl
      | some q => simp [this q hr]

theorem NoLinks.create (h : fs.NoLinks) (p : List ν) : fs.create p = fs.mkdir p := by
  refine h.place_bind p fun hp => ?_
  cases p with
  | nil => rfl
  | cons n p => exact dif_neg fun hd => hp hd.1

theorem NoLinks.delete (h : fs.NoLinks) (p : List ν) : fs.delete p = fs.erase p := by
  refine h.place_bind p fun hp => ?_
  cases p with
  | nil => rfl
  | cons n p => exact if_pos (look_below hp [n] (by simp))

theorem NoLinks.write (h : fs.NoLinks) (f : Option φ → φ) (p : List ν) : fs.write f p = fs.put f p := by
  cases p with
  | nil => rfl
  | cons n p =>
    rw [FS.write, h.real_cons]
    by_cases hp : fs.look p = some .dir
    · simp [hp]
    · simp [hp, FS.put]

theorem NoLinks.move (h : fs.NoLinks) (p q : List ν) : fs.move p q = fs.rename p q := by
  unfold FS.move
  rw [h.place_bind p fun hp => ?_]
  · refine h.place_bind q fun hq => ?_
    cases p with
    | nil => rfl
    | cons a p =>
      cases q with
      | nil => rfl
      | cons n q => exact dif_neg fun hd => hq hd.2.1
  · cases p with
    | nil => exact absurd fs.look_root hp
    | cons a p =>
      have hnone : fs.look (a :: p) = none := look_below hp [a] (by simp)
      cases hq : fs.place q with
      | none => rfl
      | some b =>
        cases b with
        | nil => rfl
        | cons n b =>
          simp only [Option.bind_some, FS.rename, hnone]
          split <;> rfl

theorem NoLinks.isLink (h : fs.NoLinks) (p : List ν) : fs.isLink p = false := by
  unfold FS.isLink
  split
  · rename_i t ht
    obtain ⟨q, -, hq⟩ := Option.bind_eq_some_iff.1 ht
    exact absurd hq (h q t)
  · rfl

theorem NoLinks.list (h : fs.NoLinks) (p : List ν) :
    fs.list p = if fs.look p = some .dir then some (fs.children p) else none := by
  by_cases hp : fs.look p = some .dir
  · simp [FS.list, h.real_of_dir hp, hp]
  · rw [if_neg hp, FS.list]
    cases hr : fs.real p with
    | none => rfl
    | some q =>
      have hs := h.stat p
      rw [FS.stat, hr, Option.bind_some] at hs
      simp [hs, hp]

theorem NoLinks.exists_write (h : fs.NoLinks) {f : Option φ → φ} {n : ν} {p : List ν} (hp : fs.look p = some .dir)
    (hn : fs.look (n :: p) ≠ some .dir) : ∃ fs', fs.write f (n :: p) = some fs' := by
  rw [h.write, FS.put, dif_pos hp]
  split
  · exact ⟨_, rfl⟩
  · exact ⟨_, rfl⟩
  · exact absurd ‹_› hn
  · exact absurd ‹_› (h _ _)

/-- Without links, the data read is the data of the file at the path. -/
theorem NoLinks.read_eq_some (h : fs.NoLinks) {p : List ν} {d : φ} : fs.read p = some d ↔ fs.look p = some (.file d) := by
  rw [FS.read, h.stat]
  cases fs.look p with
  | none => simp
  | some x => cases x <;> simp

end Operations

end FS

end FileTree
