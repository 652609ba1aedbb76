import ShairKindle.Dacp.Request
import ShairKindle.Dacp.Resolve

/-!
# The name in the question (src/dacp_resolve.c:17-94)

`encode_name` writes what `read_name` reads. The two disagree about texts only where they must: a trailing dot is
accepted and not read back, and the text comes back in lower case.
-/

namespace ShairKindle

open Bytes Dns

/-- The text names the labels `ls`, with a dot behind them or without. -/
structure OwnerLabels (owner : Bytes) (ls : List Bytes) : Prop where
  ne_nil : ls ≠ []
  label_length : ∀ l ∈ ls, 0 < l.length ∧ l.length ≤ 63
  no_dot : ∀ l ∈ ls, (46 : UInt8) ∉ l
  text : owner = dotted ls ∨ owner = dotted ls ++ [46]

def withoutDot (owner : Bytes) : Bytes := if owner.getLast? = some 46 then owner.dropLast else owner

/-! ## Dots -/

theorem dotted_concat_nil {ls : List Bytes} (h : ls ≠ []) : dotted (ls ++ [[]]) = dotted ls ++ [46] := by
  induction ls with
  | nil => exact absurd rfl h
  | cons l ls ih =>
    by_cases hls : ls = []
    · subst hls
      simp [dotted]
    · rw [List.cons_append, dotted_cons (by simp), dotted_cons hls, ih hls, List.append_assoc, List.cons_append]

theorem getLast?_dotted {ls : List Bytes} (hne : ∀ l ∈ ls, l ≠ []) (hdot : ∀ l ∈ ls, (46 : UInt8) ∉ l) :
    (dotted ls).getLast? ≠ some 46 := by
  induction ls with
  | nil => simp [dotted]
  | cons l ls ih =>
    rw [List.forall_mem_cons] at hne hdot
    by_cases hls : ls = []
    · subst hls
      intro h
      exact hdot.1 (List.mem_of_getLast? (by simpa [dotted] using h))
    · have hrest : dotted ls ≠ [] := fun h => hls (dotted_eq_nil hne.2 h)
      rw [dotted_cons hls, List.getLast?_append_of_ne_nil _ (by simp), List.getLast?_cons_of_ne_nil hrest]
      exact ih hne.2 hdot.2

theorem OwnerLabels.withoutDot_eq {owner : Bytes} {ls : List Bytes} (h : OwnerLabels owner ls) :
    withoutDot owner = dotted ls := by
  rcases h.text with rfl | rfl
  · have hne : ∀ l ∈ ls, l ≠ [] := fun l hl => List.length_pos_iff.1 (h.label_length l hl).1
    exact if_neg (getLast?_dotted hne h.no_dot)
  · rw [withoutDot, if_pos (by simp), List.dropLast_concat]

/-! ## The encoding -/

/-- What the walk over the pieces of the text has written when it comes to its end. -/
theorem encodeLabels_eq_some {cap : Nat} : ∀ {pieces : List Bytes} {o r : Bytes}, encodeLabels cap o pieces = some r →
    ∃ ls, (pieces = ls ∨ pieces = ls ++ [[]]) ∧ (∀ l ∈ ls, 0 < l.length ∧ l.length ≤ 63) ∧ r = o ++ wire ls
  | [], o, r, h => ⟨[], .inl rfl, by simp, by simpa [wire] using (Option.some.inj h).symm⟩
  | l :: pieces, o, r, h => by
    rw [encodeLabels] at h
    split at h
    · next hlast =>
      obtain ⟨rfl, rfl⟩ := hlast
      exact ⟨[], .inr rfl, by simp, by simpa [wire] using (Option.some.inj h).symm⟩
    · obtain ⟨o', hput, hrest⟩ := Option.bind_eq_some_iff.1 h
      rw [putLabel] at hput
      split_ifs at hput with hlen hcap
      obtain rfl := Option.some.inj hput
      obtain ⟨ls, hpieces, hls, rfl⟩ := encodeLabels_eq_some hrest
      refine ⟨l :: ls, ?_, ?_, ?_⟩
      · rcases hpieces with rfl | rfl
        · exact .inl rfl
        · exact .inr rfl
      · rw [List.forall_mem_cons]
        exact ⟨by omega, hls⟩
      · rw [wire_cons, List.append_assoc]
        rfl

/-- An empty piece behind the labels adds nothing. -/
theorem encodeLabels_concat_nil {cap : Nat} {ls : List Bytes} (hne : ∀ l ∈ ls, l ≠ []) (o : Bytes) :
    encodeLabels cap o (ls ++ [[]]) = encodeLabels cap o ls := by
  induction ls generalizing o with
  | nil => rfl
  | cons l ls ih =>
    rw [List.forall_mem_cons] at hne
    rw [List.cons_append, encodeLabels, encodeLabels, if_neg (by simp), if_neg (by simp [hne.1])]
    exact congrArg _ (funext (ih hne.2))

theorem splitOn_owner {owner : Bytes} {ls : List Bytes} (h : OwnerLabels owner ls) :
    owner.splitOn 46 = ls ∨ owner.splitOn 46 = ls ++ [[]] := by
  rcases h.text with rfl | rfl
  · exact .inl (splitOn_dotted h.no_dot h.ne_nil)
  · right
    rw [← dotted_concat_nil h.ne_nil]
    refine splitOn_dotted (fun l hl => ?_) (by simp)
    rcases List.mem_append.1 hl with hl | hl
    · exact h.no_dot l hl
    · rw [List.mem_singleton.1 hl]
      simp

/-- **`encode_name`.** It succeeds exactly on the texts of names that fit the buffer, and writes the name. -/
theorem encodeName_eq_some_iff {cap : Nat} {owner enc : Bytes} (hne : owner ≠ []) :
    encodeName cap owner = some enc ↔
      ∃ ls, OwnerLabels owner ls ∧ (dotted ls).length + 2 ≤ cap ∧ enc = wire ls ++ [0] := by
  constructor
  · intro h
    obtain ⟨r, hr, henc⟩ := Option.bind_eq_some_iff.1 h
    split_ifs at henc with hcap
    obtain rfl := Option.some.inj henc
    obtain ⟨ls, hpieces, hls, rfl⟩ := encodeLabels_eq_some hr
    rw [List.nil_append] at hcap ⊢
    have hdots : ∀ l ∈ owner.splitOn 46, (46 : UInt8) ∉ l := fun l hl h46 => (of_mem_splitOn l hl 46 h46).1 rfl
    have htext := dotted_splitOn owner
    have howner : OwnerLabels owner ls := by
      rcases hpieces with hp | hp
      · rw [hp] at hdots htext
        exact ⟨hp ▸ List.splitOn_ne_nil 46 owner, hls, hdots, .inl htext.symm⟩
      · rw [hp] at hdots htext
        have hls' : ls ≠ [] := by
          rintro rfl
          exact hne htext.symm
        rw [dotted_concat_nil hls'] at htext
        exact ⟨hls', hls, fun l hl => hdots l (List.mem_append_left _ hl), .inr htext.symm⟩
    rw [length_wire howner.ne_nil] at hcap
    exact ⟨ls, howner, by omega, rfl⟩
  · rintro ⟨ls, howner, hcap, rfl⟩
    have hlen := length_wire howner.ne_nil
    have hpieces : encodeLabels cap [] (owner.splitOn 46) = encodeLabels cap [] ls := by
      rcases splitOn_owner howner with hp | hp
      · rw [hp]
      · rw [hp]
        exact encodeLabels_concat_nil (fun l hl => List.length_pos_iff.1 (howner.label_length l hl).1) []
    have hsum : ∀ ks : List Bytes, (ks.map fun l => l.length + 1).sum = (wire ks).length := by
      intro ks
      induction ks with
      | nil => rfl
      | cons l ks ih =>
        rw [wire_cons, List.map_cons, List.sum_cons, ih, List.length_cons, List.length_append]
        omega
    have hfit : ([] : Bytes).length + (ls.map fun l => l.length + 1).sum < cap := by
      rw [hsum, hlen, List.length_nil]
      omega
    have hlabels : encodeLabels cap [] ls = some (wire ls) := by
      rw [encodeLabels_eq howner.label_length hfit, List.nil_append, wire, List.flatMap_def]
    rw [encodeName, hpieces, hlabels, Option.bind_some, if_neg (by omega)]

/-! ## The round trip -/

/-- The name is read back from wherever it stands. -/
theorem readName_wire {owner : Bytes} {ls : List Bytes} (h : OwnerLabels owner ls) (hlen : owner.length ≤ 254)
    (pre post : Bytes) :
    readName (pre ++ (wire ls ++ [0]) ++ post) pre.length =
      some ((withoutDot owner).map toLower, pre.length + (wire ls ++ [0]).length) := by
  have hshort : (dotted ls).length ≤ owner.length := by
    rcases h.text with rfl | rfl
    · exact le_refl _
    · simp
  have hread := @readName_of_nameAt _ _ _ ⟨ls, 0⟩ (nameAt_wire h.label_length pre post)
    ⟨Nat.zero_le _, lt_of_le_of_lt hshort (by rw [dnsMaxName]; omega)⟩
  rw [h.withoutDot_eq, ← dotted_lower]
  simpa [Nat.add_assoc] using hread

/-- **Names survive the round trip.** For every text of 1 to 254 bytes and a buffer that is large enough: `encode_name`
succeeds exactly if the labels between the dots have 1 to 63 bytes each, one dot behind the last of them allowed. The
name it writes is read back wherever it is put, in lower case and without that dot, up to its very end; so is the one
in the query. -/
theorem owner_round_trip {owner : Bytes} (hne : owner ≠ []) (hlen : owner.length ≤ 254) :
    (∀ cap, owner.length + 2 ≤ cap → ((encodeName cap owner).isSome = true ↔ ∃ ls, OwnerLabels owner ls)) ∧
      (∀ cap enc, encodeName cap owner = some enc → ∀ pre post,
        readName (pre ++ enc ++ post) pre.length = some ((withoutDot owner).map toLower, pre.length + enc.length)) ∧
      ∀ cap dnsid q, dacpSrvBuildQuery cap owner dnsid = some q →
        readName q 12 = some ((withoutDot owner).map toLower, q.length - 4) := by
  have hback : ∀ cap enc, encodeName cap owner = some enc → ∀ pre post,
      readName (pre ++ enc ++ post) pre.length = some ((withoutDot owner).map toLower, pre.length + enc.length) := by
    intro cap enc henc pre post
    obtain ⟨ls, howner, -, rfl⟩ := (encodeName_eq_some_iff hne).1 henc
    exact readName_wire howner hlen pre post
  refine ⟨fun cap hcap => ⟨fun h => ?_, ?_⟩, hback, fun cap dnsid q hq => ?_⟩
  · obtain ⟨enc, henc⟩ := Option.isSome_iff_exists.1 h
    obtain ⟨ls, howner, -⟩ := (encodeName_eq_some_iff hne).1 henc
    exact ⟨ls, howner⟩
  · rintro ⟨ls, howner⟩
    have hshort : (dotted ls).length ≤ owner.length := by
      rcases howner.text with h | h
      · rw [h]
      · simp [h]
    have henc := (@encodeName_eq_some_iff cap owner _ hne).2 ⟨ls, howner, by omega, rfl⟩
    rw [henc]
    rfl
  · rw [dacpSrvBuildQuery] at hq
    split_ifs at hq with hroom
    obtain ⟨n, hn, hq⟩ := Option.bind_eq_some_iff.1 hq
    split_ifs at hq with hfull
    obtain rfl := Option.some.inj hq
    have hread := hback _ n hn [(dnsid >>> 8).toUInt8, dnsid.toUInt8, 0, 0, 0, 1, 0, 0, 0, 0, 0, 0] [0, 33, 0x80, 0x01]
    rw [show 12 = [(dnsid >>> 8).toUInt8, dnsid.toUInt8, 0, 0, 0, 1, 0, 0, 0, 0, 0, 0].length from rfl, hread]
    refine congrArg some (Prod.ext rfl ?_)
    simp only [List.length_append, List.length_cons, List.length_nil]
    omega

/-- `Ab.c.` is asked for and read back as `ab.c`. -/
theorem owner_round_trip_trailing_dot :
    readName ([1, 2, 3] ++ [2, 65, 98, 1, 99, 0] ++ [9]) 3 = some ([97, 98, 46, 99], 9) :=
  (owner_round_trip (by decide : ([65, 98, 46, 99, 46] : Bytes) ≠ []) (by decide)).2.1 7 [2, 65, 98, 1, 99, 0]
    (by decide +kernel) [1, 2, 3] [9]

end ShairKindle
