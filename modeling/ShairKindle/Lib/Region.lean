import ShairKindle.Lib.Links

/-!
# Changes within a region

A region is a set of real locations that holds everything below what it holds. A tree drifts within a region
when nodes of the region change and no link among them leads out of what changed (`Drifts`). However many
links are involved, a path then leads where it led, or to a changed node, or nowhere (`Changed.leads`). So
what is said about where a path leads stays true: that it leads to no directory outside the region (`Inner`),
and that it can be made nowhere outside (`OnWay`). The calls a program makes drift when their paths are such.

Two more things may be known of a change: nodes were only lost (`Trims`), and no way to a directory among them
(`Sheds`). A path then is no link if it was none (`Unlinked`).
-/

namespace FileTree.FS

variable {ν φ : Type} [DecidableEq ν] {fs fs' fs'' : FS ν φ} {M W : Set (List ν)} {p q r x : List ν} {n : ν} {i : Nat}

/-! ## Regions -/

/-- The set has everything below what it has. -/
def UpClosed (W : Set (List ν)) : Prop := ∀ q ∈ W, ∀ n, n :: q ∈ W

omit [DecidableEq ν] in
theorem UpClosed.append (h : UpClosed W) (hq : q ∈ W) : ∀ r : List ν, r ++ q ∈ W
  | [] => hq
  | n :: r => h _ (h.append hq r) n

omit [DecidableEq ν] in
theorem upClosed_suffix (x : List ν) : UpClosed {q | x <:+ q} := fun q hq n => hq.trans (List.suffix_cons n q)

omit [DecidableEq ν] in
theorem UpClosed.suffix_subset (h : UpClosed W) (hx : x ∈ W) : {q | x <:+ q} ⊆ W := by
  rintro q ⟨r, rfl⟩
  exact h.append hx r

/-- The nodes of `M` may have changed, and no link among them leads out of `M`. -/
structure Changed (M : Set (List ν)) (fs fs' : FS ν φ) : Prop where
  up : UpClosed M
  look : ∀ q, q ∉ M → fs'.look q = fs.look q
  links : ∀ q ∈ M, ∀ t i r, fs'.look q = some (.link t) → fs'.Leads t i r → r ∈ M

/-- A path leads where it led or into `M`, if its changed links do. -/
theorem leads_of_agree (hup : UpClosed M) (hlook : ∀ q, q ∉ M → fs'.look q = fs.look q)
    (hlinks : ∀ q ∈ M, ∀ t i r, fs'.look q = some (.link t) → fs'.Leads t i r → r ∈ M ∨ fs.Leads t i r → r ∈ M)
    (h : fs'.Leads p i r) : r ∈ M ∨ fs.Leads p i r := by
  induction h with
  | root => exact .inr .root
  | @step n p q i _ dir here ih =>
    by_cases hm : n :: q ∈ M
    · exact .inl hm
    have hqm : q ∉ M := fun h => hm (hup q h n)
    rw [hlook q hqm] at dir
    rw [hlook _ hm] at here
    exact .inr (.step (ih.resolve_left hqm) dir here)
  | @link n p q t r i j _ dir target on ih ihon =>
    by_cases hm : n :: q ∈ M
    · exact .inl (hlinks _ hm t j r target on ihon)
    have hqm : q ∉ M := fun h => hm (hup q h n)
    rw [hlook q hqm] at dir
    rw [hlook _ hm] at target
    exact ihon.imp_right (.link (ih.resolve_left hqm) dir target)

theorem Changed.leads (h : Changed M fs fs') (hr : fs'.Leads p i r) : r ∈ M ∨ fs.Leads p i r :=
  leads_of_agree h.up h.look (fun q hq t i r ht hr _ => h.links q hq t i r ht hr) hr

/-- It is enough that the changed links led into `M` before. -/
theorem changed_of_links (hup : UpClosed M) (hlook : ∀ q, q ∉ M → fs'.look q = fs.look q)
    (hlinks : ∀ q ∈ M, ∀ t i r, fs'.look q = some (.link t) → fs.Leads t i r → r ∈ M) : Changed M fs fs' := by
  have hagree : ∀ {p i r}, fs'.Leads p i r → r ∈ M ∨ fs.Leads p i r :=
    leads_of_agree hup hlook fun q hq t i r ht _ h => h.elim id (hlinks q hq t i r ht)
  exact ⟨hup, hlook, fun q hq t i r ht hr => (hagree hr).elim id (hlinks q hq t i r ht)⟩

theorem Changed.trans {M' : Set (List ν)} (h : Changed M fs fs') (h' : Changed M' fs' fs'') :
    Changed (M ∪ M') fs fs'' := by
  refine ⟨fun q hq n => hq.imp (fun hq => h.up q hq n) fun hq => h'.up q hq n, fun q hq => ?_,
    fun q hq t i r ht hr => ?_⟩
  · rw [h'.look q fun hm => hq (.inr hm), h.look q fun hm => hq (.inl hm)]
  · by_cases hq' : q ∈ M'
    · exact .inr (h'.links q hq' t i r ht hr)
    · rw [h'.look q hq'] at ht
      refine (h'.leads hr).symm.imp_left fun hr' => ?_
      exact h.links q (hq.resolve_right hq') t i r ht hr'

/-- Nodes of the region changed, and no changed link leads out of what changed. -/
def Drifts (W : Set (List ν)) (fs fs' : FS ν φ) : Prop := ∃ M, M ⊆ W ∧ Changed M fs fs'

instance : IsPreorder (FS ν φ) (Drifts W) where
  refl _ := ⟨∅, Set.empty_subset W, by simp [UpClosed], fun _ _ => rfl, by simp⟩
  trans _ _ _ := fun ⟨M, hM, h⟩ ⟨M', hM', h'⟩ => ⟨M ∪ M', Set.union_subset hM hM', h.trans h'⟩

theorem Drifts.look (h : Drifts W fs fs') (hq : q ∉ W) : fs'.look q = fs.look q := by
  obtain ⟨M, hM, hch⟩ := h
  exact hch.look q fun hm => hq (hM hm)

/-- One node becomes something that is no link; it is not both a directory before and after. -/
theorem changed_of_update {y : Option (Node ν φ)} (hlook : ∀ q, fs'.look q = if q = x then y else fs.look q)
    (hy : ∀ t, y ≠ some (.link t)) (hdir : fs.look x = some .dir → y ≠ some .dir) :
    Changed {q | x <:+ q} fs fs' := by
  refine changed_of_links (upClosed_suffix x) (fun q hq => ?_) fun q hq t i r ht => ?_
  · rw [hlook, if_neg]
    rintro rfl
    exact hq (List.suffix_refl _)
  · rw [hlook] at ht
    by_cases hqx : q = x
    · rw [if_pos hqx] at ht
      exact absurd ht (hy t)
    -- what is below `x` makes it a directory, in both trees
    · rw [if_neg hqx] at ht
      have hold : fs.look x = some .dir := look_suffix (by rw [ht]; simp) hq (Ne.symm hqx)
      have hnew : fs'.look x = some .dir := by
        refine look_suffix ?_ hq (Ne.symm hqx)
        rw [hlook, if_neg hqx, ht]
        simp
      rw [hlook, if_pos rfl] at hnew
      exact absurd hnew (hdir hold)

theorem Drifts.of_changed (hW : UpClosed W) (hx : x ∈ W) (h : Changed {q | x <:+ q} fs fs') : Drifts W fs fs' :=
  ⟨_, hW.suffix_subset hx, h⟩

section System

variable [DecidableEq φ]

theorem Changed.real (h : Changed M fs fs') (hr : fs'.real p = some r) : r ∈ M ∨ fs.real p = some r := by
  obtain ⟨i, hi, hleads⟩ := real_eq_some.1 hr
  exact (h.leads hleads).imp_right fun hold => real_eq_some.2 ⟨i, hi, hold⟩

/-! ## What stays true of a path -/

/-- The directory a path leads to, if any, is in the region. -/
def Inner (W : Set (List ν)) (p : List ν) (fs : FS ν φ) : Prop :=
  ∀ r, fs.real p = some r → fs.look r = some .dir → r ∈ W

/-- Where a path is missing, it is in the region. -/
def OnWay (W : Set (List ν)) (p : List ν) (fs : FS ν φ) : Prop :=
  ∀ x, fs.place p = some x → fs.look x = none → x ∈ W

theorem Inner.drifts (h : Inner W p fs) (hd : Drifts W fs fs') : Inner W p fs' := by
  obtain ⟨M, hM, hch⟩ := hd
  intro r hr hdir
  by_cases hm : r ∈ M
  · exact hM hm
  · exact h r ((hch.real hr).resolve_left hm) (by rw [← hch.look r hm]; exact hdir)

theorem OnWay.drifts (h : OnWay W p fs) (hd : Drifts W fs fs') : OnWay W p fs' := by
  obtain ⟨M, hM, hch⟩ := hd
  cases p with
  | nil =>
    rintro x hx hnone
    obtain rfl : [] = x := Option.some.inj hx
    rw [look_root] at hnone
    cases hnone
  | cons n p =>
    rintro x hx hnone
    obtain ⟨q, hq, hdir, rfl⟩ := place_eq_some.1 hx
    by_cases hm : n :: q ∈ M
    · exact hM hm
    have hqm : q ∉ M := fun hq' => hm (hch.up q hq' n)
    refine h _ (place_eq_some.2 ⟨q, (hch.real hq).resolve_left hqm, ?_, rfl⟩) ?_
    · rw [← hch.look q hqm]
      exact hdir
    · rw [← hch.look _ hm]
      exact hnone

theorem Inner.place_mem (hW : UpClosed W) (h : Inner W p fs) (hx : fs.place (n :: p) = some x) : x ∈ W := by
  obtain ⟨q, hq, hd, rfl⟩ := place_eq_some.1 hx
  exact hW q (h q hq hd) n

theorem Inner.onWay (hW : UpClosed W) (h : Inner W p fs) : OnWay W (n :: p) fs := fun _ hx _ => h.place_mem hW hx

theorem isLink_iff : fs.isLink p = true ↔ ∃ x t, fs.place p = some x ∧ fs.look x = some (.link t) := by
  unfold isLink
  split
  · next t ht =>
    obtain ⟨x, hx, hlink⟩ := Option.bind_eq_some_iff.1 ht
    exact iff_of_true rfl ⟨x, t, hx, hlink⟩
  · next hno =>
    refine iff_of_false Bool.false_ne_true ?_
    rintro ⟨x, t, hx, hlink⟩
    exact hno t (by rw [hx, Option.bind_some, hlink])

/-- What is no link, in a directory of the region, leads into the region. -/
theorem Inner.cons (hW : UpClosed W) (h : Inner W p fs) (hlink : fs.isLink (n :: p) = false) : Inner W (n :: p) fs := by
  intro r hr _
  obtain ⟨q, hq, hd, ⟨t, j, ht, -⟩ | ⟨-, rfl⟩⟩ := real_cons hr
  · have hyes : fs.isLink (n :: p) = true := isLink_iff.2 ⟨n :: q, t, place_eq_some.2 ⟨q, hq, hd, rfl⟩, ht⟩
    rw [hyes] at hlink
    cases hlink
  · exact hW q (h q hq hd) n

theorem inner_of_stat (h : fs.stat p ≠ some .dir) : Inner W p fs := fun r hr hd =>
  absurd (stat_eq_some.2 ⟨r, hr, hd⟩) h

/-- Nothing below what leads to no directory leads to one. -/
theorem inner_of_blocked (h : fs.stat p ≠ some .dir) (q : List ν) : Inner W (q ++ p) fs :=
  inner_of_stat fun hstat => h (stat_dir_suffix q hstat)

/-! ## Calls that drift -/

theorem grows_of_create (hc : fs.create p = some fs') : Grows fs fs' := by
  obtain ⟨x, -, hmk⟩ := Option.bind_eq_some_iff.1 hc
  obtain ⟨hnone, hlook⟩ := mkdir_spec hmk
  intro q hq
  rw [hlook, if_neg]
  rintro rfl
  exact hq hnone

/-- A new directory is there, and empty. -/
theorem create_spec (hc : fs.create p = some fs') :
    ∃ x, fs'.place p = some x ∧ fs'.real p = some x ∧ fs'.look x = some .dir ∧ ∀ n, fs'.look (n :: x) = none := by
  obtain ⟨x, hx, hmk⟩ := Option.bind_eq_some_iff.1 hc
  obtain ⟨hnone, hlook⟩ := mkdir_spec hmk
  have hplace := place_mono (grows_of_create hc) hx
  have hmade : fs'.look x = some .dir := by rw [hlook, if_pos rfl]
  cases p with
  | nil => cases hc
  | cons m p =>
    refine ⟨x, hplace, real_of_place hplace (by simp [hmade]), hmade, fun n => ?_⟩
    rw [hlook, if_neg (by simp)]
    exact look_below (by simp [hnone]) [n] (by simp)

/-- What is on the way to a new directory was one before. -/
theorem stat_of_create (hc : fs.create q = some fs') (hp : p <:+ q) (hne : p ≠ q) : fs.stat p = some .dir := by
  obtain ⟨x, hx, -⟩ := Option.bind_eq_some_iff.1 hc
  cases q with
  | nil => exact absurd (List.suffix_nil.1 hp) hne
  | cons m q =>
    obtain ⟨rest, rfl⟩ := (List.suffix_cons_iff.1 hp).resolve_left hne
    exact stat_dir_suffix rest (stat_of_place hx)

theorem Drifts.create (hW : UpClosed W) (h : OnWay W p fs) (hc : fs.create p = some fs') : Drifts W fs fs' := by
  obtain ⟨x, hx, hmk⟩ := Option.bind_eq_some_iff.1 hc
  obtain ⟨hnone, hlook⟩ := mkdir_spec hmk
  exact .of_changed hW (h x hx hnone) (changed_of_update hlook (by simp) (by simp [hnone]))

theorem delete_spec (hx : fs.place p = some x) (hd : fs.delete p = some fs') :
    fs.look x ≠ none ∧ ∀ q, fs'.look q = if q = x then none else fs.look q :=
  erase_spec (by simpa [delete, hx] using hd)

theorem grows_of_delete (hd : fs.delete p = some fs') : Grows fs' fs := by
  obtain ⟨x, hx, -⟩ := Option.bind_eq_some_iff.1 hd
  intro q hq
  rw [(delete_spec hx hd).2] at hq ⊢
  split at hq
  · exact absurd rfl hq
  · rw [if_neg ‹_›]

/-- A path that was deleted leads to nothing. -/
theorem stat_of_delete (hd : fs.delete p = some fs') : fs'.stat p = none := by
  obtain ⟨x, hx, -⟩ := Option.bind_eq_some_iff.1 hd
  by_contra hstat
  -- it is where it was
  obtain ⟨y, hy, hthere⟩ := place_of_stat hstat
  obtain rfl := Option.some.inj (hx.symm.trans (place_mono (grows_of_delete hd) hy))
  rw [(delete_spec hx hd).2, if_pos rfl] at hthere
  exact hthere rfl

/-- What is no directory can be deleted, unless it is missing. -/
theorem look_of_delete_none (hx : fs.place p = some x) (hnd : fs.look x ≠ some .dir) (h : fs.delete p = none) :
    fs.look x = none := by
  by_contra hne
  have hroot : x ≠ [] := by
    rintro rfl
    exact hnd fs.look_root
  obtain ⟨fs', hfs'⟩ := exists_erase hne hroot fun n => look_below hnd [n] (by simp)
  rw [delete, hx, Option.bind_some, hfs'] at h
  cases h

/-- The path leads to a file of the region. -/
def Led (W : Set (List ν)) (p : List ν) (fs : FS ν φ) : Prop :=
  ∃ r d, fs.real p = some r ∧ fs.look r = some (.file d) ∧ r ∈ W

omit [DecidableEq φ] in
/-- Neither directory nor link, a node makes no difference to where paths lead. -/
theorem Leads.of_update {y : Option (Node ν φ)} (hlook : ∀ q, fs'.look q = if q = x then y else fs.look q)
    (hx : fs.look x ≠ some .dir ∧ ∀ t, fs.look x ≠ some (.link t)) (hy : ∀ t, y ≠ some (.link t))
    (h : fs.Leads p i r) : fs'.Leads p i r := by
  have hother : ∀ q, fs.look q = some .dir → fs'.look q = some .dir := by
    intro q hq
    rw [hlook, if_neg]
    · exact hq
    · rintro rfl
      exact hx.1 hq
  induction h with
  | root => exact .root
  | @step n p q i _ dir here ih =>
    refine .step ih (hother q dir) fun t => ?_
    rw [hlook]
    split
    · exact hy t
    · exact here t
  | @link n p q t r i j _ dir target _ ih ihon =>
    refine .link ih (hother q dir) ?_ ihon
    rw [hlook, if_neg]
    · exact target
    · rintro rfl
      exact hx.2 t target

/-- Writing changes a file, or makes one, and no way. -/
theorem write_spec {f : Option φ → φ} (hw : fs.write f p = some fs') :
    ∃ x d, fs.real p = some x ∧ fs.look x ≠ some .dir ∧ (∀ q, fs'.look q = if q = x then some (.file d) else fs.look q) ∧
      ∀ p i r, fs'.Leads p i r ↔ fs.Leads p i r := by
  obtain ⟨x, hx, hput⟩ := Option.bind_eq_some_iff.1 hw
  obtain ⟨old, hold, hlook⟩ := put_spec hput
  have hplain : fs.look x ≠ some .dir ∧ ∀ t, fs.look x ≠ some (.link t) := by
    rw [hold]
    cases old <;> simp
  have hback : ∀ q, fs.look q = if q = x then fs.look x else fs'.look q := by
    intro q
    split
    · next h => rw [h]
    · next h => rw [hlook, if_neg h]
  refine ⟨x, f old, hx, hplain.1, hlook, fun p i r => ⟨fun h => ?_, fun h => h.of_update hlook hplain (by simp)⟩⟩
  refine h.of_update hback ?_ hplain.2
  rw [hlook, if_pos rfl]
  simp

/-- Writing where what can be written is in the region. -/
theorem Drifts.write (hW : UpClosed W) {f : Option φ → φ}
    (h : ∀ r, fs.real p = some r → fs.look r ≠ some .dir → r ∈ W) (hw : fs.write f p = some fs') :
    Drifts W fs fs' ∧ Led W p fs' := by
  obtain ⟨x, d, hx, hnd, hlook, hways⟩ := write_spec hw
  have hxW := h x hx hnd
  refine ⟨.of_changed hW hxW (changed_of_update hlook (by simp) fun hd => absurd hd hnd), x, d, ?_, ?_, hxW⟩
  · obtain ⟨i, hi, hleads⟩ := real_eq_some.1 hx
    exact real_eq_some.2 ⟨i, hi, (hways p i x).2 hleads⟩
  · rw [hlook, if_pos rfl]

/-- Moving within the region what leads into it. -/
theorem Drifts.move (hW : UpClosed W) {a : ν} (hp : Inner W p fs) (hq : Inner W q fs) (hl : Led W (a :: p) fs)
    (hm : fs.move (a :: p) (n :: q) = some fs') : Drifts W fs fs' := by
  obtain ⟨x, hx, hm⟩ := Option.bind_eq_some_iff.1 hm
  obtain ⟨y, hy, hren⟩ := Option.bind_eq_some_iff.1 hm
  obtain ⟨node, hnode, hnd, -, hlook⟩ := rename_spec hren
  obtain ⟨e, d, he, hfile, heW⟩ := hl
  have hxW := hp.place_mem hW hx
  have hyW := hq.place_mem hW hy
  have hnew : fs'.look y ≠ some .dir := by
    rw [hlook, if_pos rfl, ← hnode]
    exact hnd
  -- what changes is at both places, and a link takes along where it leads
  refine ⟨{z | x <:+ z ∨ y <:+ z ∨ e <:+ z}, ?_, changed_of_links ?_ ?_ ?_⟩
  · rintro z (hz | hz | hz)
    · exact hW.suffix_subset hxW hz
    · exact hW.suffix_subset hyW hz
    · exact hW.suffix_subset heW hz
  · rintro z hz m
    have hcons := List.suffix_cons m z
    exact hz.imp (·.trans hcons) (Or.imp (·.trans hcons) (·.trans hcons))
  · intro z hz
    rw [hlook, if_neg, if_neg]
    · rintro rfl
      exact hz (.inl (List.suffix_refl _))
    · rintro rfl
      exact hz (.inr (.inl (List.suffix_refl _)))
  · intro z hz t j r ht hr
    rw [hlook] at ht
    by_cases hzy : z = y
    · -- the moved link
      rw [if_pos hzy, ← hnode] at ht
      obtain ⟨q', hq', hd', rfl⟩ := place_eq_some.1 hx
      obtain ⟨i, -, hway⟩ := real_eq_some.1 hq'
      obtain rfl := (Leads.link hway hd' ht hr).real_eq he
      exact .inr (.inr (List.suffix_refl _))
    rw [if_neg hzy] at ht
    by_cases hzx : z = x
    · rw [if_pos hzx] at ht
      cases ht
    rw [if_neg hzx] at ht
    -- nothing else is below the places, or below a file
    rcases hz with hz | hz | hz
    · exact absurd (look_suffix (by rw [ht]; simp) hz (Ne.symm hzx)) hnd
    · refine absurd (look_suffix ?_ hz (Ne.symm hzy)) hnew
      rw [hlook, if_neg hzy, if_neg hzx, ht]
      simp
    · by_cases hze : z = e
      · rw [hze, hfile] at ht
        cases ht
      · rw [look_suffix (by rw [ht]; simp) hz (Ne.symm hze)] at hfile
        cases hfile

/-- A file that cannot be moved to a name has a directory of that name in its way. -/
theorem inner_of_move_none (hW : UpClosed W) {a : ν} (hp : Inner W p fs) (hl : Led W (a :: p) fs)
    (hm : fs.move (a :: p) (n :: p) = none) : Inner W (n :: p) fs := by
  obtain ⟨e, d, he, hfile, -⟩ := hl
  obtain ⟨q, hq, hd, hlast⟩ := real_cons he
  have hplace : ∀ m, fs.place (m :: p) = some (m :: q) := fun m => place_eq_some.2 ⟨q, hq, hd, rfl⟩
  obtain ⟨node, hnode, hnd⟩ : ∃ node, fs.look (a :: q) = some node ∧ node ≠ .dir := by
    rcases hlast with ⟨t, j, ht, -⟩ | ⟨-, rfl⟩
    · exact ⟨_, ht, by simp⟩
    · exact ⟨_, hfile, by simp⟩
  have hdir : fs.look (n :: q) = some .dir := by
    by_contra hno
    have hcan : fs.look (a :: q) ≠ some .dir ∧ fs.look q = some .dir ∧ fs.look (n :: q) ≠ some .dir :=
      ⟨by rw [hnode]; simpa using hnd, hd, hno⟩
    rw [FS.move, hplace, Option.bind_some, hplace, Option.bind_some, rename, dif_pos hcan] at hm
    split at hm
    · next hnone =>
      rw [hnode] at hnone
      cases hnone
    · cases hm
  intro r hr _
  obtain rfl := Option.some.inj (hr.symm.trans (real_of_place (hplace n) (by simp [hdir])))
  exact hp.place_mem hW (hplace n)

/-! ## Trees that lose nodes -/

/-- The tree drifts, and nodes are only lost. -/
def Trims (W : Set (List ν)) (fs fs' : FS ν φ) : Prop := Drifts W fs fs' ∧ Grows fs' fs

omit [DecidableEq φ] in
theorem Grows.trans (h : Grows fs fs') (h' : Grows fs' fs'') : Grows fs fs'' := fun q hq => by
  have hsame := h q hq
  rw [h' q (by rwa [hsame]), hsame]

instance : IsPreorder (FS ν φ) (Trims W) where
  refl fs := ⟨refl fs, fun _ _ => rfl⟩
  trans _ _ _ h h' := ⟨IsTrans.trans _ _ _ h.1 h'.1, h'.2.trans h.2⟩

theorem Trims.delete (hW : UpClosed W) (hx : fs.place p = some x) (hxW : x ∈ W) (hd : fs.delete p = some fs') :
    Trims W fs fs' :=
  ⟨.of_changed hW hxW (changed_of_update (delete_spec hx hd).2 (by simp) (by simp)), grows_of_delete hd⟩

theorem Inner.trims (hW : UpClosed W) (h : Inner W p fs) (hd : fs.delete (n :: p) = some fs') : Trims W fs fs' := by
  obtain ⟨x, hx, -⟩ := Option.bind_eq_some_iff.1 hd
  exact .delete hW hx (h.place_mem hW hx) hd

/-- Nodes are lost, but no way to a directory. -/
structure Sheds (fs fs' : FS ν φ) : Prop where
  lost : Grows fs' fs
  ways : ∀ p i r, fs.Leads p i r → fs.look r = some .dir → fs'.Leads p i r ∧ fs'.look r = some .dir

omit [DecidableEq φ] in
theorem Sheds.refl (fs : FS ν φ) : Sheds fs fs := ⟨fun _ _ => rfl, fun _ _ _ h hd => ⟨h, hd⟩⟩

omit [DecidableEq φ] in
theorem Sheds.trans (h : Sheds fs fs') (h' : Sheds fs' fs'') : Sheds fs fs'' :=
  ⟨h'.lost.trans h.lost, fun p i r hr hd => by
    obtain ⟨hr', hd'⟩ := h.ways p i r hr hd
    exact h'.ways p i r hr' hd'⟩

theorem Sheds.real_iff (h : Sheds fs fs') :
    fs'.real p = some r ∧ fs'.look r = some .dir ↔ fs.real p = some r ∧ fs.look r = some .dir := by
  constructor
  · rintro ⟨hr, hd⟩
    have hthere : fs'.look r ≠ none := by rw [hd]; simp
    exact ⟨real_mono h.lost hr hthere, (h.lost r hthere).trans hd⟩
  · rintro ⟨hr, hd⟩
    obtain ⟨i, hi, hleads⟩ := real_eq_some.1 hr
    obtain ⟨hleads', hd'⟩ := h.ways p i r hleads hd
    exact ⟨real_eq_some.2 ⟨i, hi, hleads'⟩, hd'⟩

theorem Sheds.stat_iff (h : Sheds fs fs') : fs'.stat p = some .dir ↔ fs.stat p = some .dir := by
  simp only [stat_eq_some, h.real_iff]

theorem Sheds.place_iff (h : Sheds fs fs') : fs'.place (n :: p) = some x ↔ fs.place (n :: p) = some x := by
  simp only [place_eq_some, ← and_assoc, h.real_iff]

/-- Deleting a node that leads to no directory. -/
theorem Sheds.of_delete (hx : fs.place p = some x) (hxdir : fs.look x ≠ some .dir)
    (hxlink : ∀ t j z, fs.look x = some (.link t) → fs.Leads t j z → fs.look z ≠ some .dir)
    (hd : fs.delete p = some fs') : Sheds fs fs' := by
  obtain ⟨-, hlook⟩ := delete_spec hx hd
  have hkeep : ∀ {z}, z ≠ x → fs'.look z = fs.look z := fun hz => by rw [hlook, if_neg hz]
  have hdirs : ∀ {z}, fs.look z = some .dir → fs'.look z = some .dir := by
    intro z hz
    rw [hkeep, hz]
    rintro rfl
    exact hxdir hz
  refine ⟨grows_of_delete hd, fun p i r h hr => ⟨?_, hdirs hr⟩⟩
  induction h with
  | root => exact .root
  | @step n p q i _ dir here ih =>
    refine .step (ih dir) (hdirs dir) fun t => ?_
    rw [hdirs hr]
    simp
  | @link n p q t r i j _ dir target on ih ihon =>
    have hne : n :: q ≠ x := by
      rintro rfl
      exact hxlink t j r target on hr
    exact .link (ih dir) (hdirs dir) ((hkeep hne).trans target) (ihon hr)

/-! ## Paths that are no links -/

/-- If the path leads to a directory it is no link. -/
def Unlinked (p : List ν) (fs : FS ν φ) : Prop := fs.stat p = some .dir → fs.isLink p = false

theorem unlinked_of_stat (h : fs.stat p ≠ some .dir) : Unlinked p fs := fun hd => absurd hd h

theorem Unlinked.lose (h : Unlinked p fs) (hg : Grows fs' fs) : Unlinked p fs' := by
  intro hd
  rw [← isLink_of_grows hg (by rw [hd]; simp)]
  exact h (stat_dir_mono hg hd)

theorem Unlinked.write (h : Unlinked p fs) {f : Option φ → φ} (hw : fs.write f q = some fs') : Unlinked p fs' := by
  obtain ⟨x, d, -, hnd, hlook, hways⟩ := write_spec hw
  have hreal : ∀ {p r}, fs'.real p = some r → fs.real p = some r := fun hr => by
    obtain ⟨i, hi, hleads⟩ := real_eq_some.1 hr
    exact real_eq_some.2 ⟨i, hi, (hways _ _ _).1 hleads⟩
  have hother : ∀ {z y}, y ≠ .file d → fs'.look z = some y → fs.look z = some y := by
    intro z y hy hz
    rw [hlook] at hz
    split at hz
    · exact absurd (Option.some.inj hz).symm hy
    · exact hz
  intro hd
  obtain ⟨r, hr, hrd⟩ := stat_eq_some.1 hd
  have hno := h (stat_eq_some.2 ⟨r, hreal hr, hother (by simp) hrd⟩)
  rw [← Bool.not_eq_true] at hno ⊢
  intro hl
  obtain ⟨z, t, hz, hlink⟩ := isLink_iff.1 hl
  refine hno (isLink_iff.2 ⟨z, t, ?_, hother (by simp) hlink⟩)
  cases p with
  | nil => exact hz
  | cons n p =>
    obtain ⟨q', hq', hd', rfl⟩ := place_eq_some.1 hz
    exact place_eq_some.2 ⟨q', hreal hq', hother (by simp) hd', rfl⟩

/-- Making a directory on the way to a path, or beyond it, leaves it unlinked. -/
theorem Unlinked.create (h : Unlinked p fs) (hway : p <:+ q ∨ q <:+ p) (hc : fs.create q = some fs') :
    Unlinked p fs' := by
  obtain ⟨x, hx, hreal, hmade, hempty⟩ := create_spec hc
  have hself : fs'.isLink q = false := by rw [isLink, hx, Option.bind_some, hmade]
  intro hd
  rcases hway with hway | ⟨rest, rfl⟩
  · by_cases heq : p = q
    · rw [heq]
      exact hself
    · -- it led to a directory before, so it was no link
      have hold := stat_of_create hc hway heq
      rw [isLink_of_grows (grows_of_create hc) (by rw [hold]; simp)]
      exact h hold
  · rcases List.eq_nil_or_concat rest with rfl | ⟨rest, c, rfl⟩
    · exact hself
    · -- nothing is in the new directory
      rw [List.concat_eq_append, List.append_assoc] at hd
      have hchild : fs'.stat (c :: q) = some .dir := stat_dir_suffix rest hd
      obtain ⟨y, hy, hthere⟩ := place_of_stat (p := c :: q) (by rw [hchild]; simp)
      obtain ⟨z, hz, -, rfl⟩ := place_eq_some.1 hy
      obtain rfl := Option.some.inj (hreal.symm.trans hz)
      exact absurd (hempty c) hthere

/-- With no links on the way, a path below `p` leads to what is below where `p` leads. -/
theorem real_append_of_unlinked {R : List ν} (hR : fs.real p = some R) : ∀ (d : List ν) {q : List ν},
    (∀ d', d' ≠ [] → d' <:+ d → Unlinked (d' ++ p) fs) → fs.real (d ++ p) = some q → fs.look q = some .dir → q = d ++ R
  | [], q, _, hq, _ => Option.some.inj (hq.symm.trans hR)
  | n :: d, q, h, hq, hd => by
    obtain ⟨w, hw, hwd, hlast⟩ := real_cons hq
    have ih := real_append_of_unlinked hR d (fun d' hne hd' => h d' hne (hd'.trans (List.suffix_cons n d))) hw hwd
    rcases hlast with ⟨t, j, ht, -⟩ | ⟨-, rfl⟩
    · have hno := h (n :: d) (by simp) (List.suffix_refl _) (stat_eq_some.2 ⟨q, hq, hd⟩)
      have hyes : fs.isLink (n :: d ++ p) = true := isLink_iff.2 ⟨n :: w, t, place_eq_some.2 ⟨w, hw, hwd, rfl⟩, ht⟩
      rw [hyes] at hno
      cases hno
    · rw [ih, List.cons_append]

end System

end FileTree.FS
