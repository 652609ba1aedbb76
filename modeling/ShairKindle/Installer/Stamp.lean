import ShairKindle.Lib.Run
import ShairKindle.Installer.Completes

/-!
# Trusting the stamp

`isUpToDate` takes the stamp's word for it that the payload is complete. Every point of an install keeps
the entries of its own manifest in place (`Steps.lean`) and the stamp is renamed into place when all of
them are, so the word of a stamp just written is good. What is not kept are the files of another version:
an install that replaces or prunes one of them before it writes its own stamp leaves, if it stops there,
the old stamp over the new files (`interrupted_upgrade_keeps_stamp`). The stamp can be trusted along runs
in which every install that may be stopped ships the files of the version the stamp names
(`stamp_trusted`); one that is not disturbed gets to its own stamp (`Completes.lean`).
-/

namespace ShairKindle.Payload

open Crash Crash.Prog FileTree

variable (hash : Bytes → Text) (dir : Path) (manifestOf : Text → Manifest)

/-- Every entry is a file whose content has the manifest's hash. -/
def Complete (m : Manifest) (fs : Tree) : Prop :=
  ∀ e ∈ m.entries, ∃ d, fs.read (target dir e) = some d ∧ hash d.content = e.sha256

/-- What is up to date is complete. -/
def StampTrusted (fs : Tree) : Prop := ∀ v, isUpToDate dir v fs = true → Complete hash dir (manifestOf v) fs

/-- The files of the version the stamp names are files of the manifest. -/
def ShipsStamped (m : Manifest) (fs : Tree) : Prop :=
  ∀ v ∈ stampVersion dir fs, ∀ e ∈ (manifestOf v).entries, ∃ e' ∈ m.entries, e'.relPath = e.relPath ∧ e'.sha256 = e.sha256

/-- Every character is ASCII. -/
def isAscii (s : Text) : Bool := s.all fun ch => ch.toNat < 128

/-! ## One install -/

section Install

variable {hash dir manifestOf} {m : Manifest} {fs fs' : Tree}

theorem complete_iff (hl : fs.NoLinks) : Complete hash dir m fs ↔ ∀ e ∈ m.entries, InPlace hash dir fs e := by
  refine forall₂_congr fun e _ => ⟨?_, ?_⟩
  · rintro ⟨d, hd, hh⟩
    exact ⟨d.content, contentAt_of_file (hl.read_eq_some.1 hd), hh⟩
  · rintro ⟨c, hc, hh⟩
    unfold contentAt at hc
    split at hc
    · rename_i d hd
      obtain rfl := Option.some.inj hc
      exact ⟨d, hl.read_eq_some.2 hd, hh⟩
    · cases hc

theorem stampVersion_eq (hl : fs.NoLinks) :
    stampVersion dir fs = (contentAt fs (stampName :: dir)).map fun c => trim (decodeAscii c) := by
  rw [stampVersion, FS.read, hl.stat, contentAt]
  cases fs.look (stampName :: dir) with
  | none => rfl
  | some x => cases x <;> rfl

/-- An ASCII version is read back from its stamp. -/
theorem decode_encode {v : Text} (h : isAscii v = true) : decodeAscii (encodeAscii v) = v := by
  simp only [isAscii, List.all_eq_true, decide_eq_true_eq] at h
  unfold decodeAscii encodeAscii
  rw [List.map_map]
  conv_rhs => rw [← List.map_id v]
  refine List.map_congr_left fun c hc => ?_
  have hlt := h c hc
  have hbyte : (UInt8.ofNat c.toNat).toNat = c.toNat := by
    rw [UInt8.toNat_ofNat']
    omega
  simp only [Function.comp, hlt, if_true, hbyte, id, Char.ofNat_toNat]

/-- What the runs keep: the stamp tells the truth, and the manifest ships what it names. -/
structure Sound (hash : Bytes → Text) (dir : Path) (manifestOf : Text → Manifest) (m : Manifest) (fs : Tree) : Prop where
  noLinks : fs.NoLinks
  trusted : StampTrusted hash dir manifestOf fs
  ships : ShipsStamped dir manifestOf m fs

/-- Sparing the entries of a manifest that ships the stamped files spares these. -/
theorem Sound.spares (h : Sound hash dir manifestOf m fs) (hs : Spares hash dir m Set.univ fs fs') :
    Sound hash dir manifestOf m fs' := by
  have hl' := hs.links h.noLinks
  have hstamp : ∀ v, stampVersion dir fs' = some v → stampVersion dir fs = some v := by
    intro v hv
    rw [stampVersion_eq hl', Option.map_eq_some_iff] at hv
    obtain ⟨c, hc, hv⟩ := hv
    rw [stampVersion_eq h.noLinks, hs.stamp h.noLinks c hc, Option.map_some, hv]
  refine ⟨hl', fun v hv => ?_, fun v hv => h.ships v (hstamp v hv)⟩
  have hv' : stampVersion dir fs = some v := hstamp v (by simpa [isUpToDate] using hv)
  have hcomplete := h.trusted v (by simpa [isUpToDate] using hv')
  rw [complete_iff h.noLinks] at hcomplete
  rw [complete_iff hl']
  intro e he
  obtain ⟨e', he', hpath, hsha⟩ := h.ships v hv' e he
  have htarget : target dir e' = target dir e := by rw [target, target, hpath]
  have hin : InPlace hash dir fs e' := by
    rw [InPlace, htarget, hsha]
    exact hcomplete e he
  have hin' := hs.inPlace h.noLinks e' he' hin
  rwa [InPlace, htarget, hsha] at hin'

/-- A stamp over a complete payload tells the truth. -/
theorem Sound.stamped (hm : m.Valid) (hver : manifestOf m.version = m) (hascii : isAscii m.version = true)
    (hl : fs.NoLinks) (hin : ∀ e ∈ m.entries, InPlace hash dir fs e)
    (hc : contentAt fs (stampName :: dir) = some (encodeAscii m.version)) : Sound hash dir manifestOf m fs := by
  have hstamp : stampVersion dir fs = some m.version := by
    rw [stampVersion_eq hl, hc, Option.map_some, decode_encode hascii, hm.version_trim]
  refine ⟨hl, fun v hv => ?_, fun v hv e he => ⟨e, ?_, rfl, rfl⟩⟩
  · have hv' : m.version = v := by simpa [isUpToDate, hstamp] using hv
    rw [← hv', hver, complete_iff hl]
    exact hin
  · have hv' : m.version = v := by simpa [hstamp] using hv
    rwa [← hv', hver] at he

/-- Sound stores stay sound. -/
def StaysSound (hash : Bytes → Text) (dir : Path) (manifestOf : Text → Manifest) (m : Manifest) (fs fs' : Tree) : Prop :=
  Sound hash dir manifestOf m fs → Sound hash dir manifestOf m fs'

instance : IsPreorder Tree (StaysSound hash dir manifestOf m) where
  refl _ := id
  trans _ _ _ h h' := h' ∘ h

/-- Renaming the staged stamp over a complete payload. If a directory is in its place, `mv` drops the
staged file into it and there is no stamp. -/
theorem renameStamp_keeps (hm : m.Valid) (hver : manifestOf m.version = m) (hascii : isAscii m.version = true) :
    Keeps (StaysSound hash dir manifestOf m)
      (fun s => s.NoLinks ∧ (∀ e ∈ m.entries, InPlace hash dir s e) ∧
        contentAt s (staged (stampName :: dir)) = some (encodeAscii m.version))
      (renameOrThrow (staged (stampName :: dir)) (stampName :: dir)) (fun _ _ => True) := by
  have htmp : IsTmp (staged (stampName :: dir)) := staged_isTmp (by simp)
  have hmove : ∀ s s' : Tree, (s.NoLinks ∧ (∀ e ∈ m.entries, InPlace hash dir s e) ∧
      contentAt s (staged (stampName :: dir)) = some (encodeAscii m.version)) →
      s.move (staged (stampName :: dir)) (stampName :: dir) = some s' → StaysSound hash dir manifestOf m s s' := by
    rintro s s' ⟨hl, hin, hc⟩ h -
    obtain ⟨hl', hcontent, hother⟩ := move_tmp hl htmp h
    exact Sound.stamped hm hver hascii hl' (fun e he => (hin e he).congr
      (hother _ (target_ne_stamp (hm.entry e he)) (target_not_isTmp (hm.entry e he)))) (hcontent.trans hc)
  unfold renameOrThrow
  refine (Keeps.attempt (Q := fun b (s : Tree) => b = false → s.NoLinks ∧ (∀ e ∈ m.entries, InPlace hash dir s e) ∧
    contentAt s (staged (stampName :: dir)) = some (encodeAscii m.version)) (fun s s' hs h => ⟨hmove s s' hs h, ?_⟩)
    fun s hs _ => hs).bind fun renamed => Keeps.ite (fun _ => Keeps.pure fun _ _ => trivial) fun hren => ?_
  · intro h
    cases h
  refine (Keeps.attempt (Q := fun _ _ => True) (fun s s' hs h => ⟨?_, trivial⟩) fun _ _ => trivial).bind fun moved =>
    Keeps.peek.bind fun there => Keeps.ite (fun _ => Keeps.pure fun _ _ => trivial) fun _ => Keeps.throw
  have hs' := hs (by simpa using hren)
  unfold mvInto at h
  split at h
  · obtain ⟨hl', -, hother⟩ := move_tmp hs'.1 htmp h
    have hinto : ∀ r, ¬ IsTmp r → s'.look r = s.look r := by
      intro r hr
      refine hother r ?_ hr
      rintro rfl
      exact hr ⟨stampName ++ newSuffix, stampName :: dir, rfl, by simp [endsWith]⟩
    refine fun hsound => hsound.spares ⟨fun _ => hl', fun _ e he hin => ?_, fun _ c hc => ?_, fun _ q hq => absurd trivial hq⟩
    · exact hin.congr (hinto _ (target_not_isTmp (hm.entry e he)))
    · rw [← contentAt_congr (hinto _ stamp_not_isTmp)]
      exact hc
  · exact hmove s s' hs' h

/-- **One install.** Wherever it stops, a sound tree stays sound. -/
theorem install_keeps (hm : m.Valid) (hver : manifestOf m.version = m) (hascii : isAscii m.version = true)
    (res : Text → Option Bytes) :
    Keeps (StaysSound hash dir manifestOf m) (·.NoLinks) (install hash dir m res) (fun _ _ => True) :=
  ((installFiles_keeps hm res).mono fun _ _ h hs => hs.spares h).bind fun _ => renameStamp_keeps hm hver hascii

end Install

/-! ## Runs -/

/-- A call of `install`, with the resources it finds and what fails. -/
structure Call where
  manifest : Manifest
  res : Text → Option Bytes
  faults : Faults

/-- The tree a call leaves, however it ends. -/
def installStep (fs : Tree) (c : Call) : Tree × Unit := ((install hash dir c.manifest c.res).after c.faults fs, ())

/-- Nothing disturbs the call: no operation fails and nobody kills it, every resource is there with its hash,
and nothing is in the way. -/
def Undisturbed (fs : Tree) (c : Call) : Prop :=
  c.faults = .quiet ∧ Matches hash c.manifest c.res ∧ Clear dir c.manifest fs

/-- The call ships the files of the version the stamp names, or nothing disturbs it; and its own version can
be written to a stamp. -/
def CallOk (fs : Tree) (c : Call) : Prop :=
  isAscii c.manifest.version = true ∧ (ShipsStamped dir manifestOf c.manifest fs ∨ Undisturbed hash dir fs c)

/-- One call that meets the condition. -/
theorem installStep_trusted {fs : Tree} {c : Call} (hm : c.manifest.Valid)
    (hver : manifestOf c.manifest.version = c.manifest) (hl : fs.NoLinks) (h0 : StampTrusted hash dir manifestOf fs)
    (hok : CallOk hash dir manifestOf fs c) : (installStep hash dir fs c).1.NoLinks ∧
      StampTrusted hash dir manifestOf (installStep hash dir fs c).1 := by
  obtain ⟨hascii, hships | ⟨hquiet, hres, hclear⟩⟩ := hok
  · have hkeeps : Keeps (StaysSound hash dir manifestOf c.manifest) (·.NoLinks) (install hash dir c.manifest c.res)
        (fun _ _ => True) := install_keeps hm hver hascii c.res
    have hsound := hkeeps.after c.faults hl ⟨hl, h0, hships⟩
    exact ⟨hsound.noLinks, hsound.trusted⟩
  · obtain ⟨fs', hrun, hl', hin, hstamp⟩ := install_runs hm hl hclear hres
    have hsound : Sound hash dir manifestOf c.manifest fs' := Sound.stamped hm hver hascii hl' hin hstamp
    rw [installStep, hquiet, hrun.after]
    exact ⟨hsound.noLinks, hsound.trusted⟩

/-- **When the stamp can be trusted.** Along every run of installs, each of which may fail or be killed at
any operation, if every one of them ships the files of the version the stamp names at its start or is not
disturbed, and has an ASCII version, then in the tree that is left, what is up to date is complete. -/
theorem stamp_trusted {fs : Tree} (hl : fs.NoLinks) (h0 : StampTrusted hash dir manifestOf fs) (calls : List Call)
    (hacc : ∀ c ∈ calls, ∃ text, parseManifest text = .ok c.manifest)
    (hver : ∀ c ∈ calls, manifestOf c.manifest.version = c.manifest)
    (hok : Machine.AllSteps (installStep hash dir) (CallOk hash dir manifestOf) fs calls) :
    StampTrusted hash dir manifestOf (Machine.run (installStep hash dir) fs calls).1 := by
  induction calls generalizing fs with
  | nil => exact h0
  | cons c calls ih =>
    obtain ⟨text, htext⟩ := hacc c List.mem_cons_self
    obtain ⟨hl', h'⟩ := installStep_trusted hash dir manifestOf (parseManifest_valid htext) (hver c List.mem_cons_self)
      hl h0 hok.1
    exact ih hl' h' (fun d hd => hacc d (List.mem_cons_of_mem c hd)) (fun d hd => hver d (List.mem_cons_of_mem c hd)) hok.2

/-! ## Small payloads -/

/-- A hash that tells short contents apart. -/
def demoHash (b : Bytes) : Text := List.replicate 63 '0' ++ [if b = [1] then '1' else if b = [2] then '2' else '0']

/-- A manifest text with one file of the given content. -/
def demoText (version : String) (content : Bytes) : Text :=
  ("version " ++ version ++ "\nbin ").toList ++ demoHash content ++ " 755\n".toList

/-- Its entry. -/
def demoEntry (content : Bytes) : Entry := ⟨"bin".toList, demoHash content, "755".toList⟩

/-- Version 2 has content 2, any other content 1. -/
def demoRelease (v : Text) : Manifest :=
  if v = "2".toList then ⟨"2".toList, [demoEntry [2]]⟩ else ⟨"1".toList, [demoEntry [1]]⟩

/-- The install directory. -/
def demoDir : Path := ["app".toList]

/-- Killed before the operation of that number. -/
def killedAt (k : Nat) : Faults := ⟨some k, fun _ => false⟩

/-- An undisturbed install of version 1. -/
def firstCall : Call := ⟨demoRelease "1".toList, fun _ => some [1], .quiet⟩

/-- An install of version 2. -/
def secondCall (faults : Faults) : Call := ⟨demoRelease "2".toList, fun _ => some [2], faults⟩

abbrev demoRun (calls : List Call) : Tree := (Machine.run (installStep demoHash demoDir) FS.empty calls).1

/-- Nothing is in the way of version 2 where version 1 is installed. -/
theorem clear_secondCall : Clear demoDir (demoRelease "2".toList) (installStep demoHash demoDir FS.empty firstCall).1 := by
  have hall : ∀ q ∈ demoDir.tails, (installStep demoHash demoDir FS.empty firstCall).1.look q = none ∨
      (installStep demoHash demoDir FS.empty firstCall).1.look q = some .dir := by decide +kernel
  exact ⟨fun q hq => hall q ((List.mem_tails q demoDir).2 hq), by decide +kernel, by decide +kernel⟩

/-- An upgrade that replaces the file and is not disturbed, and an interrupted repair after it. -/
theorem stamp_trusted_upgrade :
    isUpToDate demoDir "2".toList (demoRun [firstCall, secondCall .quiet, secondCall (killedAt 3)]) = true ∧
    StampTrusted demoHash demoDir demoRelease (demoRun [firstCall, secondCall .quiet, secondCall (killedAt 3)]) := by
  have hfirst : stampVersion demoDir FS.empty = none := by decide +kernel
  have hlast : stampVersion demoDir (installStep demoHash demoDir (installStep demoHash demoDir FS.empty firstCall).1
      (secondCall .quiet)).1 = some "2".toList := by decide +kernel
  have hships : ∀ e ∈ (demoRelease "2".toList).entries, ∃ e' ∈ (demoRelease "2".toList).entries,
      e'.relPath = e.relPath ∧ e'.sha256 = e.sha256 := fun e he => ⟨e, he, rfl, rfl⟩
  have hmatches : Matches demoHash (demoRelease "2".toList) fun _ => some [2] := by
    intro e he
    obtain rfl : e = demoEntry [2] := by simpa [demoRelease] using he
    exact ⟨[2], rfl, rfl⟩
  refine ⟨by decide +kernel, stamp_trusted demoHash demoDir demoRelease FS.empty_noLinks ?_ _ ?_ ?_ ?_⟩
  · intro v hv
    simp [isUpToDate, hfirst] at hv
  · intro c hc
    simp only [List.mem_cons, List.not_mem_nil, or_false] at hc
    rcases hc with rfl | rfl | rfl
    · exact ⟨demoText "1" [1], by decide +kernel⟩
    · exact ⟨demoText "2" [2], by decide +kernel⟩
    · exact ⟨demoText "2" [2], by decide +kernel⟩
  · decide +kernel
  · refine ⟨⟨by decide +kernel, .inl fun v hv => ?_⟩, ⟨by decide +kernel, .inr ⟨rfl, hmatches, clear_secondCall⟩⟩,
      ⟨by decide +kernel, .inl fun v hv => ?_⟩, trivial⟩
    · simp [hfirst] at hv
    · rw [hlast, Option.mem_some_iff] at hv
      rw [← hv]
      exact hships

/-! ## An interrupted upgrade -/

/-- **The stamp outlives the files it speaks for.** Version 2 has replaced the file and been killed before
it wrote its stamp: the tree counts as up to date for version 1, whose file is gone, and when version 1
is started again it leaves the file as it is. -/
theorem interrupted_upgrade_keeps_stamp :
    (parseManifest (demoText "1" [1])).toOption = some (demoRelease "1".toList) ∧
    (parseManifest (demoText "2" [2])).toOption = some (demoRelease "2".toList) ∧
    isUpToDate demoDir "1".toList (demoRun [firstCall, secondCall (killedAt 7)]) = true ∧
    (¬ Complete demoHash demoDir (demoRelease "1".toList) (demoRun [firstCall, secondCall (killedAt 7)])) ∧
    (((installPayload demoHash demoDir (demoRelease "1".toList) fun _ => some [1]).after .quiet
      (demoRun [firstCall, secondCall (killedAt 7)])).read (target demoDir (demoEntry [1]))).map (·.content) = some [2] := by
  refine ⟨by decide +kernel, by decide +kernel, by decide +kernel, fun h => ?_, by decide +kernel⟩
  obtain ⟨d, hd, hhash⟩ := h (demoEntry [1]) (by decide +kernel)
  have hread : ((demoRun [firstCall, secondCall (killedAt 7)]).read (target demoDir (demoEntry [1]))).map (·.content) =
      some [2] := by
    decide +kernel
  rw [hd, Option.map_some, Option.some.injEq] at hread
  rw [hread] at hhash
  revert hhash
  decide +kernel

end ShairKindle.Payload
