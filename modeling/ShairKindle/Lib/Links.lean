import ShairKindle.Lib.FileTree

/-!
# Where links lead

A path is followed name by name; each name leads on from a directory, to itself or by its link. `Leads` says where to
and over how many links, without a bound; `real` is the part of it that the system resolves (`real_eq_some`). What a
change of the tree does to the paths that are followed comes down to the nodes they pass.
-/

namespace FileTree.FS

variable {ν φ : Type} [DecidableEq ν]

/-- The path leads to the location `r` over `i` links. -/
inductive Leads (fs : FS ν φ) : List ν → Nat → List ν → Prop
  | root : Leads fs [] 0 []
  | step {n : ν} {p q : List ν} {i : Nat} (way : Leads fs p i q) (dir : fs.look q = some .dir)
      (here : ∀ t, fs.look (n :: q) ≠ some (.link t)) : Leads fs (n :: p) i (n :: q)
  | link {n : ν} {p q t r : List ν} {i j : Nat} (way : Leads fs p i q) (dir : fs.look q = some .dir)
      (target : fs.look (n :: q) = some (.link t)) (on : Leads fs t j r) : Leads fs (n :: p) (i + j + 1) r

variable {fs fs' : FS ν φ} {R : List ν} {n : ν} {p q r x : List ν} {i j : Nat}

/-- One name more: it leads on from a directory, by its link or to itself. -/
theorem leads_cons : fs.Leads (n :: p) i r ↔ ∃ q j, fs.Leads p j q ∧ fs.look q = some .dir ∧
    ((∃ t k, fs.look (n :: q) = some (.link t) ∧ fs.Leads t k r ∧ i = j + k + 1) ∨
      (∀ t, fs.look (n :: q) ≠ some (.link t)) ∧ r = n :: q ∧ i = j) := by
  constructor
  · intro h
    cases h with
    | step way dir here => exact ⟨_, _, way, dir, .inr ⟨here, rfl, rfl⟩⟩
    | link way dir target on => exact ⟨_, _, way, dir, .inl ⟨_, _, target, on, rfl⟩⟩
  · rintro ⟨q, j, way, dir, ⟨t, k, target, on, rfl⟩ | ⟨here, rfl, rfl⟩⟩
    · exact .link way dir target on
    · exact .step way dir here

/-- A path is no longer than the links on it allow: between two links it names nodes below each other. -/
theorem Leads.length_le (h : fs.Leads p i r) : p.length ≤ i * fs.nodes.entries.length + r.length := by
  induction h with
  | root => simp
  | step _ _ _ ih =>
    rw [List.length_cons, List.length_cons]
    omega
  | @link n p q t r i j _ dir _ _ ih =>
    have hlen : q.length < fs.nodes.entries.length := length_lt_of_look (by rw [dir]; simp)
    rw [List.length_cons, Nat.add_mul, Nat.add_mul]
    omega

/-- Below a location a path of directories leads on from there. -/
theorem Leads.append (h : fs.Leads p i R) : ∀ q, fs.look (q ++ R) = some .dir → fs.Leads (q ++ p) i (q ++ R)
  | [], _ => h
  | n :: q, hd => by
    have hq : fs.look (q ++ R) = some .dir := look_parent (by rw [List.cons_append] at hd; rw [hd]; simp)
    exact .step (h.append q hq) hq fun t ht => nomatch hd.symm.trans ht

section System

variable [DecidableEq φ]

theorem leads_of_follow : ∀ {k : Nat} {p : List ν} {r : List ν × Nat}, fs.follow k p = some r → fs.Leads p r.2 r.1
  | 0, [], r, h | _ + 1, [], r, h => by
    obtain rfl := Option.some.inj h
    exact .root
  | k, n :: p, r, h => by
    -- both cases of `follow` are `followWith`, which resolves links less deep
    obtain ⟨jump, hjump, hfollow⟩ : ∃ jump, (∀ t y, jump t = some y → fs.Leads t y.2 y.1) ∧
        fs.follow k = fs.followWith jump := by
      cases k with
      | zero => exact ⟨fun _ => none, fun _ _ h => (nomatch h), rfl⟩
      | succ k => exact ⟨fs.follow k, fun _ _ h => leads_of_follow h, rfl⟩
    rw [hfollow, followWith, ← hfollow] at h
    split at h
    · cases h
    · next q i hq =>
      have way := leads_of_follow hq
      split at h
      · next hd =>
        split at h
        · next t ht =>
          obtain ⟨y, hy, rfl⟩ := Option.map_eq_some_iff.1 h
          exact .link way hd ht (hjump t y hy)
        · next hlink =>
          obtain rfl := Option.some.inj h
          exact .step way hd hlink
      · cases h
termination_by k p => (k, p.length)

theorem Leads.follow (h : fs.Leads p i r) : ∀ {k : Nat}, i ≤ k → fs.follow k p = some (r, i) := by
  induction h with
  | root =>
    intro k _
    cases k <;> rfl
  | @step n p q i _ dir here ih =>
    intro k hk
    have hstep : ∀ jump, fs.followWith jump p = some (q, i) → fs.followWith jump (n :: p) = some (n :: q, i) := by
      intro jump hq
      rw [followWith, hq]
      simp only [dir, if_true]
    cases k <;> exact hstep _ (ih hk)
  | link _ dir target _ ih ihon =>
    intro k hk
    obtain ⟨k, rfl⟩ : ∃ l, k = l + 1 := ⟨k - 1, by omega⟩
    rw [FS.follow, followWith, show fs.followWith (fs.follow k) _ = _ from ih (k := k + 1) (by omega)]
    simp only [dir, if_true, target]
    rw [ihon (by omega)]
    rfl

theorem Leads.unique (h : fs.Leads p i r) (h' : fs.Leads p j x) : r = x ∧ i = j := by
  have hsame := (h.follow (Nat.le_max_left i j)).symm.trans (h'.follow (Nat.le_max_right i j))
  exact Prod.mk.inj (Option.some.inj hsame)

/-- The system resolves the paths with few enough links. -/
theorem real_eq_some : fs.real p = some r ↔ ∃ i, i ≤ maxLinks ∧ fs.Leads p i r := by
  rw [real, Option.bind_eq_some_iff]
  constructor
  · rintro ⟨y, hy, h⟩
    simp only [Option.ite_none_right_eq_some, Option.some.injEq] at h
    exact ⟨y.2, h.1, h.2 ▸ leads_of_follow hy⟩
  · rintro ⟨i, hi, h⟩
    exact ⟨(r, i), h.follow hi, if_pos hi⟩

/-- Where a path leads is where its links lead, as far as the system goes. -/
theorem Leads.real_eq (h : fs.Leads p i r) (hx : fs.real p = some x) : x = r := by
  obtain ⟨j, -, hj⟩ := real_eq_some.1 hx
  exact (hj.unique h).1

theorem real_cons (h : fs.real (n :: p) = some r) : ∃ q, fs.real p = some q ∧ fs.look q = some .dir ∧
    ((∃ t j, fs.look (n :: q) = some (.link t) ∧ fs.Leads t j r) ∨
      (∀ t, fs.look (n :: q) ≠ some (.link t)) ∧ r = n :: q) := by
  obtain ⟨i, hi, h⟩ := real_eq_some.1 h
  obtain ⟨q, j, hq, hd, hlast⟩ := leads_cons.1 h
  refine ⟨q, real_eq_some.2 ⟨j, ?_, hq⟩, hd, ?_⟩
  · rcases hlast with ⟨_, k, -, -, rfl⟩ | ⟨-, -, rfl⟩ <;> omega
  · rcases hlast with ⟨t, k, ht, htr, -⟩ | ⟨hlink, rfl, -⟩
    · exact .inl ⟨t, k, ht, htr⟩
    · exact .inr ⟨hlink, rfl⟩

/-- A path is in the directory the rest of it leads to. -/
theorem place_eq_some : fs.place (n :: p) = some r ↔ ∃ q, fs.real p = some q ∧ fs.look q = some .dir ∧ n :: q = r := by
  simp [place, Option.bind_eq_some_iff]

theorem stat_eq_some {y : Node ν φ} : fs.stat p = some y ↔ ∃ r, fs.real p = some r ∧ fs.look r = some y := by
  simp [stat, Option.bind_eq_some_iff]

/-- What is below where a path leads is in the place the longer path names. -/
theorem place_below {d R : List ν} (hR : fs.real p = some R) (h : fs.look (n :: (d ++ R)) ≠ none) :
    fs.place (n :: (d ++ p)) = some (n :: (d ++ R)) := by
  obtain ⟨i, hi, hway⟩ := real_eq_some.1 hR
  have hd : fs.look (d ++ R) = some .dir := look_parent h
  exact place_eq_some.2 ⟨d ++ R, real_eq_some.2 ⟨i, hi, hway.append d hd⟩, hd, rfl⟩

/-- A link below where a path leads is on the longer path. -/
theorem leads_of_link {d t R : List ν} (hR : fs.real p = some R) (ht : fs.look (n :: (d ++ R)) = some (.link t))
    (hr : fs.real (n :: (d ++ p)) = some r) : ∃ j, fs.Leads t j r := by
  obtain ⟨q, hq, -, hlast⟩ := real_cons hr
  obtain ⟨q', hq', -, heq⟩ := place_eq_some.1 (place_below hR (by rw [ht]; simp))
  obtain rfl := Option.some.inj (hq.symm.trans hq')
  rw [heq, ht] at hlast
  rcases hlast with ⟨t', j, ht', hleads⟩ | ⟨hno, -⟩
  · cases ht'
    exact ⟨j, hleads⟩
  · exact absurd rfl (hno t)

/-- A path that is not a link leads to where it is. -/
theorem real_of_place (hx : fs.place (n :: p) = some x) (hlink : ∀ t, fs.look x ≠ some (.link t)) :
    fs.real (n :: p) = some x := by
  obtain ⟨q, hq, hd, rfl⟩ := place_eq_some.1 hx
  obtain ⟨i, hi, h⟩ := real_eq_some.1 hq
  exact real_eq_some.2 ⟨i, hi, .step h hd hlink⟩

theorem stat_of_place (hx : fs.place (n :: p) = some x) : fs.stat p = some .dir := by
  obtain ⟨q, hq, hd, -⟩ := place_eq_some.1 hx
  exact stat_eq_some.2 ⟨q, hq, hd⟩

/-- What leads to a node is one. -/
theorem place_of_stat (h : fs.stat p ≠ none) : ∃ x, fs.place p = some x ∧ fs.look x ≠ none := by
  cases p with
  | nil => exact ⟨[], rfl, by rw [look_root]; simp⟩
  | cons n p =>
    obtain ⟨y, hy⟩ := Option.ne_none_iff_exists'.1 h
    obtain ⟨r, hr, hry⟩ := stat_eq_some.1 hy
    obtain ⟨q, hq, hd, hlast⟩ := real_cons hr
    refine ⟨n :: q, place_eq_some.2 ⟨q, hq, hd, rfl⟩, ?_⟩
    rcases hlast with ⟨t, j, ht, -⟩ | ⟨-, rfl⟩
    · rw [ht]; simp
    · rw [hry]; simp

/-- What leads to a node passes directories. -/
theorem stat_parent (h : fs.stat (n :: p) ≠ none) : fs.stat p = some .dir := by
  obtain ⟨x, hx, -⟩ := place_of_stat h
  exact stat_of_place hx

theorem stat_suffix : ∀ q, q ≠ [] → fs.stat (q ++ p) ≠ none → fs.stat p = some .dir
  | [], h, _ => absurd rfl h
  | [n], _, h => stat_parent h
  | n :: m :: q, _, h => by
    have hm : fs.stat (m :: q ++ p) = some .dir := stat_parent h
    exact stat_suffix (m :: q) (by simp) (by rw [hm]; simp)

/-- What leads to a directory passes directories only. -/
theorem stat_dir_suffix (q : List ν) (h : fs.stat (q ++ p) = some .dir) : fs.stat p = some .dir := by
  by_cases hq : q = []
  · rwa [hq] at h
  · exact stat_suffix q hq (by rw [h]; simp)

/-- The names that lead to a directory are bounded by the nodes there are and the links that are followed. -/
theorem length_of_stat_dir (h : fs.stat p = some .dir) : p.length < fs.nodes.entries.length * (maxLinks + 1) := by
  obtain ⟨r, hr, hd⟩ := stat_eq_some.1 h
  obtain ⟨i, hi, hleads⟩ := real_eq_some.1 hr
  have hlen := hleads.length_le
  have hr' := length_lt_of_look (p := r) (by rw [hd]; simp)
  have hmul : i * fs.nodes.entries.length ≤ maxLinks * fs.nodes.entries.length := Nat.mul_le_mul_right _ hi
  rw [Nat.mul_succ, Nat.mul_comm]
  omega

end System

/-! ## Trees that gain nodes -/

/-- Nodes are added, and the others stay as they are. -/
def Grows (fs fs' : FS ν φ) : Prop := ∀ q, fs.look q ≠ none → fs'.look q = fs.look q

/-- What leads to a node leads there when nodes are added. -/
theorem Leads.mono (hlook : Grows fs fs') (h : fs.Leads p i r) (hr : fs.look r ≠ none) : fs'.Leads p i r := by
  induction h with
  | root => exact .root
  | @step n p q i _ dir here ih =>
    have hthere : fs.look q ≠ none := by rw [dir]; simp
    exact .step (ih hthere) ((hlook _ hthere).trans dir) (by rwa [hlook _ hr])
  | @link n p q t r i j _ dir target _ ih ihon =>
    have hthere : fs.look q ≠ none := by rw [dir]; simp
    exact .link (ih hthere) ((hlook _ hthere).trans dir) ((hlook _ (by rw [target]; simp)).trans target) (ihon hr)

theorem real_mono [DecidableEq φ] (hlook : Grows fs fs') (h : fs.real p = some r) (hr : fs.look r ≠ none) :
    fs'.real p = some r := by
  obtain ⟨i, hi, hleads⟩ := real_eq_some.1 h
  exact real_eq_some.2 ⟨i, hi, hleads.mono hlook hr⟩

theorem place_mono [DecidableEq φ] (hlook : Grows fs fs') (h : fs.place p = some x) : fs'.place p = some x := by
  cases p with
  | nil => exact h
  | cons n p =>
    obtain ⟨q, hq, hd, rfl⟩ := place_eq_some.1 h
    have hthere : fs.look q ≠ none := by rw [hd]; simp
    exact place_eq_some.2 ⟨q, real_mono hlook hq hthere, (hlook q hthere).trans hd, rfl⟩

theorem stat_dir_mono [DecidableEq φ] (hlook : Grows fs fs') (h : fs.stat p = some .dir) : fs'.stat p = some .dir := by
  obtain ⟨r, hr, hd⟩ := stat_eq_some.1 h
  have hthere : fs.look r ≠ none := by rw [hd]; simp
  exact stat_eq_some.2 ⟨r, real_mono hlook hr hthere, (hlook r hthere).trans hd⟩

/-- A path that leads to a node is a link in the larger tree as it is in the smaller. -/
theorem isLink_of_grows [DecidableEq φ] (hlook : Grows fs fs') (h : fs.stat p ≠ none) : fs'.isLink p = fs.isLink p := by
  obtain ⟨x, hx, hthere⟩ := place_of_stat h
  rw [isLink, isLink, hx, place_mono hlook hx, Option.bind_some, Option.bind_some, hlook x hthere]

/-! ## Changes below a directory -/

/-- The path lies properly below `R`. -/
def Below (R q : List ν) : Prop := R <:+ q ∧ R ≠ q

omit [DecidableEq ν] in
theorem Below.cons (h : Below R q) (n : ν) : Below R (n :: q) := by
  refine ⟨h.1.trans (List.suffix_cons n q), ?_⟩
  rintro rfl
  simpa using h.1.length_le

omit [DecidableEq ν] in
theorem below_cons (R : List ν) (n : ν) (q : List ν) : Below R (n :: (q ++ R)) := by
  refine ⟨List.suffix_append (n :: q) R, fun h => ?_⟩
  have := congrArg List.length h
  simp only [List.length_cons, List.length_append] at this
  omega

/-- A path that does not lead below `R` leads where it did when only nodes below `R` change and none of them
was a link. -/
theorem Leads.congr (hlook : ∀ q, ¬ Below R q → fs'.look q = fs.look q)
    (hlinks : ∀ q, Below R q → ∀ t, fs.look q ≠ some (.link t)) (h : fs.Leads p i r) (hr : ¬ Below R r) :
    fs'.Leads p i r := by
  -- from below `R` there is no way out
  induction h with
  | root => exact .root
  | @step n p q i _ dir here ih =>
    have hout : ¬ Below R q := fun hb => hr (hb.cons n)
    exact .step (ih hout) ((hlook _ hout).trans dir) (by rwa [hlook _ hr])
  | @link n p q t r i j _ dir target _ ih ihon =>
    have hout : ¬ Below R (n :: q) := fun hb => hlinks _ hb t target
    have hout' : ¬ Below R q := fun hb => hout (hb.cons n)
    exact .link (ih hout') ((hlook _ hout').trans dir) ((hlook _ hout).trans target) (ihon hr)

theorem real_congr [DecidableEq φ] (hlook : ∀ q, ¬ Below R q → fs'.look q = fs.look q)
    (hlinks : ∀ q, Below R q → ∀ t, fs.look q ≠ some (.link t)) (h : fs.real p = some r) (hr : ¬ Below R r) :
    fs'.real p = some r := by
  obtain ⟨i, hi, hleads⟩ := real_eq_some.1 h
  exact real_eq_some.2 ⟨i, hi, hleads.congr hlook hlinks hr⟩

end FileTree.FS
