import Mathlib.Data.List.Basic
import Mathlib.Data.List.Chain

/-!
# Words and the separators between them

The words of a text are its non-empty pieces between separators. `squeeze` writes them with one separator between any
two and none around them. A text is `Tidy` if it is written so already, and then `squeeze` leaves it as it is. A code
that gives the separator a code word of its own commutes with it (`squeeze_flatMap`).
-/

namespace Words

variable {α β : Type} {sep c d : α}

/-! ## Tidy texts -/

/-- No separator at either end, and no two in a row. -/
structure Tidy (sep : α) (t : List α) : Prop where
  head : t.head? ≠ some sep
  last : t.getLast? ≠ some sep
  single : t.IsChain fun a b => ¬ (a = sep ∧ b = sep)

theorem Tidy.nil : Tidy sep [] := ⟨by simp, by simp, .nil⟩

theorem tidy_singleton (hc : c ≠ sep) : Tidy sep [c] := ⟨by simpa using hc, by simpa using hc, .singleton c⟩

theorem tidy_cons_cons (hc : c ≠ sep) (hd : d ≠ sep) {t : List α} : Tidy sep (c :: d :: t) ↔ Tidy sep (d :: t) := by
  constructor
  · intro h
    exact ⟨by simpa using hd, by simpa using h.last, (List.isChain_cons_cons.1 h.single).2⟩
  · intro h
    exact ⟨by simpa using hc, by simpa using h.last, List.isChain_cons_cons.2 ⟨fun hcd => hc hcd.1, h.single⟩⟩

theorem tidy_cons_sep (hc : c ≠ sep) {t : List α} : Tidy sep (c :: sep :: t) ↔ t ≠ [] ∧ Tidy sep t := by
  constructor
  · intro h
    have hne : t ≠ [] := by
      rintro rfl
      exact h.last (by simp)
    obtain ⟨d, u, rfl⟩ := List.exists_cons_of_ne_nil hne
    have hchain := List.isChain_cons_cons.1 (List.isChain_cons_cons.1 h.single).2
    refine ⟨hne, ?_, by simpa using h.last, hchain.2⟩
    rintro hd
    exact hchain.1 ⟨rfl, by simpa using hd⟩
  · rintro ⟨hne, h⟩
    obtain ⟨d, u, rfl⟩ := List.exists_cons_of_ne_nil hne
    refine ⟨by simpa using hc, by simpa using h.last, List.isChain_cons_cons.2 ⟨fun hcd => hc hcd.1, ?_⟩⟩
    exact List.isChain_cons_cons.2 ⟨fun hd => h.head (by simp [hd.2]), h.single⟩

variable [DecidableEq α] [DecidableEq β]

/-! ## Words -/

def words (sep : α) (s : List α) : List (List α) := (s.splitOn sep).filter (· ≠ [])

def squeeze (sep : α) (s : List α) : List α := [sep].intercalate (words sep s)

/-- What is written for `s` behind a letter: the separator only if a word comes after it. -/
def squeezeRest (sep : α) : List α → List α
  | [] => []
  | c :: s =>
    if c = sep then (if squeeze sep s = [] then [] else sep :: squeeze sep s) else squeeze sep (c :: s)

/-! ## Letter by letter -/

@[simp] theorem words_nil : words sep [] = [] := by simp [words, List.splitOn_nil]

@[simp] theorem squeeze_nil : squeeze sep [] = [] := by simp [squeeze]

theorem words_sep (s : List α) : words sep (sep :: s) = words sep s := by
  rw [words, List.splitOn_cons_eq_if_modifyHead, if_pos (by simp), List.filter_cons_of_neg (by simp), words]

theorem squeeze_sep (s : List α) : squeeze sep (sep :: s) = squeeze sep s := by rw [squeeze, words_sep, squeeze]

theorem words_cons (hc : c ≠ sep) (s : List α) : ∃ p ps, s.splitOn sep = p :: ps ∧
    words sep (c :: s) = (c :: p) :: ps.filter (· ≠ []) ∧ words sep s = (p :: ps).filter (· ≠ []) := by
  obtain ⟨p, ps, hs⟩ := List.exists_cons_of_ne_nil (List.splitOn_ne_nil sep s)
  refine ⟨p, ps, hs, ?_, by rw [words, hs]⟩
  rw [words, List.splitOn_cons_eq_if_modifyHead, if_neg (by simpa using hc), hs, List.modifyHead_cons,
    List.filter_cons_of_pos (by simp)]

theorem ne_nil_of_mem_words {s w : List α} (h : w ∈ words sep s) : w ≠ [] := by
  simpa using (List.mem_filter.1 h).2

theorem squeeze_eq_nil_iff {s : List α} : squeeze sep s = [] ↔ words sep s = [] := by
  refine ⟨fun h => ?_, fun h => by rw [squeeze, h]; rfl⟩
  cases hw : words sep s with
  | nil => rfl
  | cons w ws =>
    have hne : w ≠ [] := ne_nil_of_mem_words (hw ▸ List.mem_cons_self)
    rw [squeeze, hw] at h
    cases ws with
    | nil => simp [hne] at h
    | cons w' ws => simp [List.intercalate_cons_cons, hne] at h

/-- **A letter.** It is written, and then what follows it. -/
theorem squeeze_cons (hc : c ≠ sep) (s : List α) : squeeze sep (c :: s) = c :: squeezeRest sep s := by
  obtain ⟨p, ps, hs, hcs, hws⟩ := words_cons hc s
  cases s with
  | nil =>
    rw [List.splitOn_nil] at hs
    obtain ⟨rfl, rfl⟩ := List.cons.inj hs
    rw [squeeze, hcs]
    simp [squeezeRest]
  | cons d s =>
    rw [squeezeRest]
    by_cases hd : d = sep
    · -- the word ends here
      subst hd
      rw [List.splitOn_cons_eq_if_modifyHead, if_pos (by simp)] at hs
      obtain ⟨rfl, rfl⟩ := List.cons.inj hs
      have hrest : (s.splitOn d).filter (· ≠ []) = words d s := rfl
      rw [if_pos rfl, squeeze, hcs, hrest]
      split
      · next hnil =>
        rw [squeeze_eq_nil_iff.1 hnil]
        rfl
      · next hne =>
        rw [List.intercalate_cons_of_ne_nil (mt squeeze_eq_nil_iff.2 hne)]
        rfl
    · -- it goes on
      obtain ⟨p', ps', hs', hds, -⟩ := words_cons hd s
      rw [List.splitOn_cons_eq_if_modifyHead, if_neg (by simpa using hd), hs', List.modifyHead_cons] at hs
      obtain ⟨rfl, rfl⟩ := List.cons.inj hs
      rw [if_neg hd, squeeze, hcs, squeeze, hds]
      cases ps'.filter (· ≠ []) with
      | nil => simp
      | cons w ws => simp [List.intercalate_cons_cons]

theorem mem_squeeze {x : α} {s : List α} (h : x ∈ squeeze sep s) : x ∈ s := by
  have key : (x ∈ squeeze sep s → x ∈ s) ∧ (x ∈ squeezeRest sep s → x ∈ s) := by
    clear h
    induction s with
    | nil => simp [squeezeRest]
    | cons c s ih =>
      have hfirst : x ∈ squeeze sep (c :: s) → x ∈ c :: s := by
        intro h
        by_cases hc : c = sep
        · rw [hc, squeeze_sep] at h
          exact List.mem_cons_of_mem _ (ih.1 h)
        · rw [squeeze_cons hc] at h
          rcases List.mem_cons.1 h with rfl | h
          · exact List.mem_cons_self
          · exact List.mem_cons_of_mem _ (ih.2 h)
      refine ⟨hfirst, fun h => ?_⟩
      rw [squeezeRest] at h
      split_ifs at h with hc hnil
      · cases h
      · rcases List.mem_cons.1 h with rfl | h
        · exact hc ▸ List.mem_cons_self
        · exact List.mem_cons_of_mem _ (ih.1 h)
      · exact hfirst h
  exact key.1 h

/-! ## What `squeeze` writes -/

/-- **What is written is tidy.** -/
theorem tidy_squeeze (s : List α) : Tidy sep (squeeze sep s) := by
  have key : Tidy sep (squeeze sep s) ∧ ∀ c ≠ sep, Tidy sep (c :: squeezeRest sep s) := by
    induction s with
    | nil => exact ⟨by rw [squeeze_nil]; exact .nil, fun c hc => tidy_singleton hc⟩
    | cons d s ih =>
      by_cases hd : d = sep
      · subst hd
        refine ⟨by rw [squeeze_sep]; exact ih.1, fun c hc => ?_⟩
        rw [squeezeRest, if_pos rfl]
        split
        · exact tidy_singleton hc
        · next hne => exact (tidy_cons_sep hc).2 ⟨hne, ih.1⟩
      · have hfirst : Tidy sep (squeeze sep (d :: s)) := by
          rw [squeeze_cons hd]
          exact ih.2 d hd
        refine ⟨hfirst, fun c hc => ?_⟩
        rw [squeezeRest, if_neg hd]
        rw [squeeze_cons hd] at hfirst ⊢
        exact (tidy_cons_cons hc hd).2 hfirst
  exact key.1

/-- **A tidy text stays as it is.** -/
theorem squeeze_of_tidy {t : List α} (h : Tidy sep t) : squeeze sep t = t := by
  have key : (Tidy sep t → squeeze sep t = t) ∧ ∀ c ≠ sep, Tidy sep (c :: t) → squeezeRest sep t = t := by
    clear h
    induction t with
    | nil => exact ⟨fun _ => squeeze_nil, fun _ _ _ => rfl⟩
    | cons d t ih =>
      by_cases hd : d = sep
      · subst hd
        refine ⟨fun h => absurd rfl h.head, fun c hc h => ?_⟩
        obtain ⟨hne, ht⟩ := (tidy_cons_sep hc).1 h
        rw [squeezeRest, if_pos rfl, ih.1 ht, if_neg hne]
      · have hfirst : Tidy sep (d :: t) → squeeze sep (d :: t) = d :: t := fun h => by
          rw [squeeze_cons hd, ih.2 d hd h]
        refine ⟨hfirst, fun c hc h => ?_⟩
        rw [squeezeRest, if_neg hd]
        exact hfirst ((tidy_cons_cons hc hd).1 h)
  exact key.1 h

/-! ## Codes -/

/-- Letters before `s` are written as they are. -/
theorem squeezeRest_append {w : List α} (hw : sep ∉ w) (s : List α) :
    squeezeRest sep (w ++ s) = w ++ squeezeRest sep s := by
  induction w with
  | nil => rfl
  | cons c w ih =>
    rw [List.mem_cons, not_or] at hw
    rw [List.cons_append, squeezeRest, if_neg (Ne.symm hw.1), squeeze_cons (Ne.symm hw.1), ih hw.2, List.cons_append]

theorem squeeze_append {w : List α} (hw : sep ∉ w) (hne : w ≠ []) (s : List α) :
    squeeze sep (w ++ s) = w ++ squeezeRest sep s := by
  obtain ⟨c, w, rfl⟩ := List.exists_cons_of_ne_nil hne
  rw [List.mem_cons, not_or] at hw
  rw [List.cons_append, squeeze_cons (Ne.symm hw.1), squeezeRest_append hw.2, List.cons_append]

theorem squeeze_flatMap {a : α} {b : β} {f : α → List β} (ha : f a = [b]) (hf : ∀ c, c ≠ a → b ∉ f c ∧ f c ≠ [])
    (s : List α) : squeeze b (s.flatMap f) = (squeeze a s).flatMap f := by
  have hne : ∀ c, f c ≠ [] := fun c => by
    by_cases hc : c = a
    · rw [hc, ha]
      simp
    · exact (hf c hc).2
  have key : squeeze b (s.flatMap f) = (squeeze a s).flatMap f ∧
      squeezeRest b (s.flatMap f) = (squeezeRest a s).flatMap f := by
    induction s with
    | nil => exact ⟨by simp, rfl⟩
    | cons c s ih =>
      by_cases hc : c = a
      · subst hc
        have hnil : squeeze b (s.flatMap f) = [] ↔ squeeze c s = [] := by
          rw [ih.1, List.flatMap_eq_nil_iff]
          refine ⟨fun h => ?_, fun h => by simp [h]⟩
          cases hs : squeeze c s with
          | nil => rfl
          | cons x xs => exact absurd (h x (hs ▸ List.mem_cons_self)) (hne x)
        rw [List.flatMap_cons, ha, List.singleton_append, squeeze_sep, squeeze_sep, squeezeRest, squeezeRest,
          if_pos rfl, if_pos rfl]
        refine ⟨ih.1, ?_⟩
        by_cases hs : squeeze c s = []
        · rw [if_pos (hnil.2 hs), if_pos hs]
          rfl
        · rw [if_neg (mt hnil.1 hs), if_neg hs, ih.1, List.flatMap_cons, ha, List.singleton_append]
      · obtain ⟨hb, hcne⟩ := hf c hc
        rw [List.flatMap_cons, squeeze_append hb hcne, squeezeRest_append hb, squeezeRest, if_neg hc, squeeze_cons hc,
          List.flatMap_cons, ih.2]
        exact ⟨rfl, rfl⟩
  exact key.1

end Words
