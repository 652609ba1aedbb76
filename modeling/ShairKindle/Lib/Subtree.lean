import ShairKindle.Lib.Links

/-!
# A directory as a tree of its own

`sub` is what lies below a directory, as a file system with that directory for its root. `Seen dir R s t`
says that `t` shows what `s` has below `R`, without links, and that the path `dir` leads to `R`. Then a call
made in `s` at a path under `dir` does what the same call does in `t` at the rest of the path: it succeeds or
fails with it, and what the two leave is seen again.
-/

namespace FileTree

variable {ν φ : Type} [DecidableEq ν]

/-! ## What lies below a path -/

/-- The rest of a path below `R`. -/
def strip (R p : List ν) : Option (List ν) := if R <:+ p then some (p.take (p.length - R.length)) else none

theorem strip_eq_some {R p q : List ν} : strip R p = some q ↔ p = q ++ R := by
  unfold strip
  constructor
  · intro h
    split at h
    · obtain ⟨r, rfl⟩ := ‹R <:+ p›
      rw [List.length_append, Nat.add_sub_cancel, List.take_left, Option.some.injEq] at h
      rw [h]
    · cases h
  · rintro rfl
    rw [if_pos (List.suffix_append q R), List.length_append, Nat.add_sub_cancel, List.take_left]

/-- The nodes below `R`, in their order. -/
def cut (R : List ν) : List (Sigma fun _ : List ν => Node ν φ) → AList fun _ : List ν => Node ν φ
  | [] => ∅
  | ⟨p, x⟩ :: l =>
    match strip R p with
    | some q => (cut R l).insert q x
    | none => cut R l

theorem lookup_cut (R q : List ν) (l : List (Sigma fun _ : List ν => Node ν φ)) :
    (cut R l).lookup q = l.dlookup (q ++ R) := by
  induction l with
  | nil => rfl
  | cons a l ih =>
    by_cases hp : q ++ R = a.1
    · obtain ⟨p, x⟩ := a
      subst hp
      rw [cut, strip_eq_some.2 rfl]
      simp only [AList.lookup_insert, List.dlookup_cons_eq]
    · rw [List.dlookup_cons_ne _ a hp, ← ih, cut]
      split
      · next r hr =>
        refine AList.lookup_insert_ne ?_
        rintro rfl
        exact hp (strip_eq_some.1 hr).symm
      · rfl

theorem keys_cut (R : List ν) {l : List (Sigma fun _ : List ν => Node ν φ)} (hl : l.NodupKeys) :
    (cut R l).keys = l.keys.filterMap (strip R) := by
  induction l with
  | nil => rfl
  | cons a l ih =>
    obtain ⟨p, x⟩ := a
    obtain ⟨hp, hl⟩ := List.nodupKeys_cons.1 hl
    rw [List.keys_cons, cut, List.filterMap_cons]
    split
    · next r hr =>
      have hnew : r ∉ cut R l := by
        rw [AList.mem_keys, ih hl]
        intro hmem
        obtain ⟨k, hk, hkr⟩ := List.mem_filterMap.1 hmem
        rw [strip_eq_some.1 hkr, ← strip_eq_some.1 hr] at hk
        exact hp hk
      simp only [hr]
      rw [AList.keys, AList.entries_insert_of_notMem hnew, List.keys_cons, ← AList.keys, ih hl]
    · next hr => simp only [hr, ih hl]

namespace FS

/-- The name of a path in the directory `p`. -/
def nameIn (p : List ν) : List ν → Option ν
  | [] => none
  | n :: q => if q = p then some n else none

theorem nameIn_eq_some {p k : List ν} {n : ν} : nameIn p k = some n ↔ k = n :: p := by
  cases k with
  | nil => simp [nameIn]
  | cons m k => simp [nameIn, and_comm]

theorem children_eq (fs : FS ν φ) (p : List ν) : fs.children p = fs.nodes.keys.filterMap (nameIn p) := rfl

/-- The tree below a directory. -/
def sub (fs : FS ν φ) (R : List ν) (hR : fs.look R = some .dir) : FS ν φ where
  nodes := cut R fs.nodes.entries
  root := by
    rw [lookup_cut]
    exact hR
  closed n p h := by
    rw [lookup_cut] at h ⊢
    exact fs.closed n (p ++ R) h

variable {fs : FS ν φ} {R : List ν}

theorem look_sub (hR : fs.look R = some .dir) (q : List ν) : (fs.sub R hR).look q = fs.look (q ++ R) :=
  lookup_cut R q fs.nodes.entries

theorem children_sub (hR : fs.look R = some .dir) (q : List ν) : (fs.sub R hR).children q = fs.children (q ++ R) := by
  have hkeys : (fs.sub R hR).nodes.keys = fs.nodes.keys.filterMap (strip R) := keys_cut R fs.nodes.nodupKeys
  rw [children_eq, children_eq, hkeys, List.filterMap_filterMap]
  refine List.filterMap_congr fun k _ => Option.ext fun n => ?_
  rw [nameIn_eq_some, Option.bind_eq_some_iff]
  constructor
  · rintro ⟨r, hr, hn⟩
    rw [strip_eq_some.1 hr, nameIn_eq_some.1 hn, List.cons_append]
  · rintro rfl
    exact ⟨n :: q, strip_eq_some.2 rfl, nameIn_eq_some.2 rfl⟩

/-! ## The names after a change -/

omit [DecidableEq ν] in
/-- What a partial injection makes of a list that loses an element. -/
theorem filterMap_erase {α β : Type} [DecidableEq α] [DecidableEq β] {f : α → Option β} {l : List α} (hl : l.Nodup)
    (hf : ∀ a a' b, f a = some b → f a' = some b → a = a') (a : α) :
    (l.erase a).filterMap f = (f a).elim (l.filterMap f) (l.filterMap f).erase := by
  rw [hl.erase_eq_filter, List.filterMap_filter]
  cases ha : f a with
  | none =>
    refine List.filterMap_congr fun c _ => ?_
    by_cases hc : c = a
    · simp [hc, ha]
    · simp [hc]
  | some b =>
    have hnodup : (l.filterMap f).Nodup := hl.filterMap fun c c' d hd hd' => hf c c' d hd hd'
    rw [Option.elim_some, hnodup.erase_eq_filter, List.filter_filterMap]
    refine List.filterMap_congr fun c _ => ?_
    by_cases hc : c = a
    · simp [hc, ha, Option.filter]
    · cases hd : f c with
      | none => simp
      | some d =>
        have hdb : d ≠ b := by
          rintro rfl
          exact hc (hf c a d hd ha)
        simp [hc, hdb, Option.filter]

theorem names_erase (fs : FS ν φ) (n : ν) (p q : List ν) :
    (fs.nodes.erase (n :: p)).keys.filterMap (nameIn q) = if q = p then (fs.children p).erase n else fs.children q := by
  have hinj : ∀ a a' b, nameIn q a = some b → nameIn q a' = some b → a = a' := fun a a' b ha ha' =>
    (nameIn_eq_some.1 ha).trans (nameIn_eq_some.1 ha').symm
  rw [AList.keys_erase, filterMap_erase fs.nodes.keys_nodup hinj]
  by_cases hq : q = p
  · rw [hq, nameIn_eq_some.2 rfl, if_pos rfl]
    rfl
  · have hnone : nameIn q (n :: p) = none := if_neg fun h => hq h.symm
    rw [hnone, if_neg hq]
    rfl

theorem children_set {n : ν} {p : List ν} {x : Node ν φ} (hp : fs.look p = some .dir)
    (hx : x = .dir ∨ fs.look (n :: p) ≠ some .dir) (q : List ν) :
    (fs.set n p x hp hx).children q = if q = p then n :: (fs.children p).erase n else fs.children q := by
  show (fs.nodes.insert (n :: p) x).keys.filterMap (nameIn q) = _
  rw [AList.keys_insert, ← AList.keys_erase, List.filterMap_cons, names_erase]
  by_cases hq : q = p
  · rw [hq, nameIn_eq_some.2 rfl, if_pos rfl, if_pos rfl]
  · have hnone : nameIn q (n :: p) = none := if_neg fun h => hq h.symm
    rw [hnone, if_neg hq, if_neg hq]

theorem children_remove {n : ν} {p : List ν} (h : ∀ m, fs.look (m :: n :: p) = none) (q : List ν) :
    (fs.remove n p h).children q = if q = p then (fs.children p).erase n else fs.children q := names_erase fs n p q

end FS

/-! ## Seeing a directory as a tree -/

section Seen

variable [DecidableEq φ]

/-- `dir` leads to `R` in `s`, and what `s` has below `R` is the tree `t`, without links. -/
structure Seen (dir R : List ν) (s t : FS ν φ) : Prop where
  real : s.real dir = some R
  look : ∀ q, s.look (q ++ R) = t.look q
  children : ∀ q, s.children (q ++ R) = t.children q
  links : t.NoLinks

variable {dir R : List ν} {s t : FS ν φ}

theorem seen_sub (hdir : s.real dir = some R) (hR : s.look R = some .dir)
    (hlinks : ∀ q t, s.look (q ++ R) ≠ some (.link t)) : Seen dir R s (s.sub R hR) where
  real := hdir
  look q := (FS.look_sub hR q).symm
  children q := (FS.children_sub hR q).symm
  links q x := by
    rw [FS.look_sub]
    exact hlinks q x

namespace Seen

/-! ### The tree operations -/

section Tree

variable (h : Seen dir R s t)
include h

/-- A change below `R` that is made in both. -/
theorem update {s' t' : FS ν φ} (hlook : ∀ q, ¬ FS.Below R q → s'.look q = s.look q)
    (hlook' : ∀ q, s'.look (q ++ R) = t'.look q) (hchildren : ∀ q, s'.children (q ++ R) = t'.children q)
    (hlinks : t'.NoLinks) : Seen dir R s' t' := by
  refine ⟨FS.real_congr hlook ?_ h.real (fun hR => hR.2 rfl), hlook', hchildren, hlinks⟩
  rintro _ ⟨⟨q, rfl⟩, -⟩ x
  rw [h.look]
  exact h.links q x

theorem set {n : ν} {q : List ν} {x : Node ν φ} (hp : s.look (q ++ R) = some .dir)
    (hx : x = .dir ∨ s.look (n :: (q ++ R)) ≠ some .dir) (hp' : t.look q = some .dir)
    (hx' : x = .dir ∨ t.look (n :: q) ≠ some .dir) (hlink : ∀ l, x ≠ .link l) :
    Seen dir R (s.set n (q ++ R) x hp hx) (t.set n q x hp' hx') := by
  refine h.update (fun r hr => ?_) (fun r => ?_) (fun r => ?_) ?_
  · rw [FS.look_set, if_neg]
    rintro rfl
    exact hr (FS.below_cons R n q)
  · rw [FS.look_set, FS.look_set, h.look, ← List.cons_append]
    simp only [List.append_cancel_right_eq]
  · rw [FS.children_set, FS.children_set, h.children, h.children]
    simp only [List.append_cancel_right_eq]
  · exact h.links.update (fun r => FS.look_set t hp' hx' r) fun l hl => hlink l (Option.some.inj hl)

theorem remove {n : ν} {q : List ν} (hn : ∀ m, s.look (m :: n :: (q ++ R)) = none) (hn' : ∀ m, t.look (m :: n :: q) = none) :
    Seen dir R (s.remove n (q ++ R) hn) (t.remove n q hn') := by
  refine h.update (fun r hr => ?_) (fun r => ?_) (fun r => ?_) ?_
  · rw [FS.look_remove, if_neg]
    rintro rfl
    exact hr (FS.below_cons R n q)
  · rw [FS.look_remove, FS.look_remove, h.look, ← List.cons_append]
    simp only [List.append_cancel_right_eq]
  · rw [FS.children_remove, FS.children_remove, h.children, h.children]
    simp only [List.append_cancel_right_eq]
  · exact h.links.update (fun r => FS.look_remove t hn' r) (by simp)

theorem look_cons (n : ν) (q : List ν) : s.look (n :: (q ++ R)) = t.look (n :: q) := h.look (n :: q)

theorem mkdir (n : ν) (q : List ν) : Option.Rel (Seen dir R) (s.mkdir (n :: (q ++ R))) (t.mkdir (n :: q)) := by
  rw [FS.mkdir, FS.mkdir]
  by_cases hd : t.look q = some .dir ∧ t.look (n :: q) = none
  · have hd' : s.look (q ++ R) = some .dir ∧ s.look (n :: (q ++ R)) = none := by rwa [h.look, h.look_cons]
    rw [dif_pos hd, dif_pos hd']
    exact .some (h.set _ _ _ _ (by simp))
  · have hd' : ¬ (s.look (q ++ R) = some .dir ∧ s.look (n :: (q ++ R)) = none) := by rwa [h.look, h.look_cons]
    rw [dif_neg hd, dif_neg hd']
    exact .none

theorem put (f : Option φ → φ) (n : ν) (q : List ν) :
    Option.Rel (Seen dir R) (s.put f (n :: (q ++ R))) (t.put f (n :: q)) := by
  have hn := h.look_cons n q
  rw [FS.put, FS.put]
  by_cases hd : t.look q = some .dir
  · rw [dif_pos hd, dif_pos ((h.look q).trans hd)]
    split <;> split <;> simp_all
    · exact h.set _ _ _ _ (by simp)
    · exact h.set _ _ _ _ (by simp)
  · rw [dif_neg hd, dif_neg (by rwa [h.look])]
    exact .none

theorem erase (n : ν) (q : List ν) : Option.Rel (Seen dir R) (s.erase (n :: (q ++ R))) (t.erase (n :: q)) := by
  have hkids : s.children (n :: (q ++ R)) = t.children (n :: q) := h.children (n :: q)
  rw [FS.erase, FS.erase]
  by_cases hx : t.look (n :: q) = none
  · rw [if_pos hx, if_pos ((h.look_cons n q).trans hx)]
    exact .none
  · rw [if_neg hx, if_neg (by rwa [h.look_cons])]
    by_cases hc : t.children (n :: q) = []
    · rw [dif_pos hc, dif_pos (hkids.trans hc)]
      exact .some (h.remove _ _)
    · rw [dif_neg hc, dif_neg (by rwa [hkids])]
      exact .none

theorem rename (a n : ν) (p q : List ν) :
    Option.Rel (Seen dir R) (s.rename (a :: (p ++ R)) (n :: (q ++ R))) (t.rename (a :: p) (n :: q)) := by
  have ha := h.look_cons a p
  rw [FS.rename, FS.rename]
  by_cases hd : t.look (a :: p) ≠ some .dir ∧ t.look q = some .dir ∧ t.look (n :: q) ≠ some .dir
  · have hd' : s.look (a :: (p ++ R)) ≠ some .dir ∧ s.look (q ++ R) = some .dir ∧ s.look (n :: (q ++ R)) ≠ some .dir := by
      rwa [ha, h.look, h.look_cons]
    rw [dif_pos hd, dif_pos hd']
    split <;> split
    · exact .none
    · simp_all
    · simp_all
    next _ x hx _ y hy =>
    obtain rfl : x = y := by
      rw [ha, hy] at hx
      exact (Option.some.inj hx).symm
    refine .some ((h.remove _ _).set _ _ _ _ ?_)
    rintro l rfl
    exact h.links _ l hy
  · have hd' : ¬ (s.look (a :: (p ++ R)) ≠ some .dir ∧ s.look (q ++ R) = some .dir ∧
        s.look (n :: (q ++ R)) ≠ some .dir) := by rwa [ha, h.look, h.look_cons]
    rw [dif_neg hd, dif_neg hd']
    exact .none

end Tree

/-! ### The calls -/

section Calls

variable (h : Seen dir R s t)
include h

theorem real_append : ∀ q, s.real (q ++ dir) = (t.real q).map (· ++ R)
  | [] => h.real
  | n :: q => by
    rw [h.links.real_cons]
    by_cases hd : t.look q = some .dir
    · -- below `R` there are no links on the way
      have hdir : s.look (q ++ R) = some .dir := (h.look q).trans hd
      have hreal : s.real (q ++ dir) = some (q ++ R) := by rw [real_append q, h.links.real_of_dir hd, Option.map_some]
      rw [if_pos hd]
      refine FS.real_of_place (FS.place_eq_some.2 ⟨q ++ R, hreal, hdir, rfl⟩) fun l => ?_
      exact (h.look_cons n q).symm ▸ h.links _ l
    · rw [if_neg hd, Option.map_none, Option.eq_none_iff_forall_ne_some]
      intro r hr
      obtain ⟨q', hq', hd', -⟩ := FS.real_cons hr
      obtain ⟨q'', hq'', rfl⟩ := Option.map_eq_some_iff.1 ((real_append q).symm.trans hq')
      have hstat : t.stat q = some .dir := FS.stat_eq_some.2 ⟨q'', hq'', (h.look q'').symm.trans hd'⟩
      rw [h.links.stat] at hstat
      exact hd hstat

theorem stat (q : List ν) : s.stat (q ++ dir) = t.stat q := by
  rw [FS.stat, FS.stat, h.real_append, Option.bind_map]
  exact congrArg _ (funext h.look)

theorem read (q : List ν) : s.read (q ++ dir) = t.read q := by rw [FS.read, FS.read, h.stat]

theorem list (q : List ν) : s.list (q ++ dir) = t.list q := by
  rw [FS.list, FS.list, h.real_append, Option.bind_map]
  refine congrArg _ (funext fun r => ?_)
  simp only [Function.comp_apply, h.look, h.children]

theorem place (n : ν) (q : List ν) : s.place (n :: (q ++ dir)) = (t.place (n :: q)).map (· ++ R) := by
  rw [FS.place, FS.place, h.real_append, Option.bind_map, Option.map_bind]
  refine congrArg _ (funext fun r => ?_)
  simp only [Function.comp_apply, h.look]
  split <;> rfl

theorem isLink (n : ν) (q : List ν) : s.isLink (n :: (q ++ dir)) = t.isLink (n :: q) := by
  have hlook : (s.place (n :: (q ++ dir))).bind s.look = (t.place (n :: q)).bind t.look := by
    rw [h.place, Option.bind_map]
    exact congrArg _ (funext h.look)
  rw [FS.isLink, FS.isLink, hlook]

/-- A call that works at the place of a path. -/
theorem at_place {f g : List ν → Option (FS ν φ)} (n : ν) (q : List ν)
    (hfg : ∀ m r, Option.Rel (Seen dir R) (f (m :: (r ++ R))) (g (m :: r))) :
    Option.Rel (Seen dir R) ((s.place (n :: (q ++ dir))).bind f) ((t.place (n :: q)).bind g) := by
  rw [h.place]
  cases hp : t.place (n :: q) with
  | none => exact .none
  | some p =>
    simp only [FS.place, Option.bind_eq_some_iff, Option.ite_none_right_eq_some, Option.some.injEq] at hp
    obtain ⟨r, -, -, rfl⟩ := hp
    exact hfg n r

theorem create (n : ν) (q : List ν) : Option.Rel (Seen dir R) (s.create (n :: (q ++ dir))) (t.create (n :: q)) :=
  h.at_place n q h.mkdir

theorem delete (n : ν) (q : List ν) : Option.Rel (Seen dir R) (s.delete (n :: (q ++ dir))) (t.delete (n :: q)) :=
  h.at_place n q h.erase

theorem move (a n : ν) (p q : List ν) :
    Option.Rel (Seen dir R) (s.move (a :: (p ++ dir)) (n :: (q ++ dir))) (t.move (a :: p) (n :: q)) :=
  h.at_place a p fun b x => h.at_place n q fun m y => h.rename b m x y

theorem write (f : Option φ → φ) (n : ν) (q : List ν) :
    Option.Rel (Seen dir R) (s.write f (n :: (q ++ dir))) (t.write f (n :: q)) := by
  have hreal : s.real (n :: (q ++ dir)) = (t.real (n :: q)).map (· ++ R) := h.real_append (n :: q)
  rw [FS.write, FS.write, hreal, h.links.real_cons]
  split
  · exact h.put f n q
  · exact .none

end Calls

end Seen

end Seen

end FileTree
