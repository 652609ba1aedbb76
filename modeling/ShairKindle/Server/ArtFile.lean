import Mathlib.Logic.Function.Basic
import ShairKindle.Server.Capture

/-!
# The album art on disk (src/bodycap.c, src/main.c:153)

An art capture streams into `<final>.tmp` and renames it over the old picture when the body is complete.
Here its system calls act on a map from paths to contents, one state after each call, so that what a reader
of the final path sees at any moment can be asked.

| here                  | there                                                       |
|-----------------------|-------------------------------------------------------------|
| `artPath`             | the `snprintf` into `artpath[512]` (main.c:157)             |
| `bodycapBeginFile`    | `bodycap_begin` (bodycap.c:7) with `BODYCAP_FILE`           |
| `writeLoop`           | the `write` loop of `bodycap_feed` (bodycap.c:26-31)        |
| `bodycapFeedFile`     | `bodycap_feed` (bodycap.c:22)                               |
| `bodycapFinishFile`   | `bodycap_finish` (bodycap.c:51)                             |

Both names go through `snprintf` into arrays of 256 bytes (bodycap.h:16). The temporary one is four bytes
longer than the final one, and the prefix of the final one may have 255 bytes. From 244 bytes on the suffix
`.tmp` is cut off altogether, the two names are one, and opening the temporary file truncates the picture.
`art_capture_safe_iff`: the capture is safe for exactly the shorter prefixes.
-/

namespace ShairKindle

open Bytes

/-! ## The code -/

/-- The files that exist, with their contents. -/
abbrev Files := Bytes → Option Bytes

/-- A path written by `snprintf` into an array of 256 bytes. -/
def pathArray (s : Bytes) : Bytes := s.take 255

/-- The path of the art below `AIRPLAY_PREFIX`. -/
def artPath (pfx : Bytes) : Bytes := pfx ++ ascii "/np-art.jpg"

/-- `rename` of an existing file; POSIX leaves a file renamed to itself alone. -/
def renameFile (fs : Files) (src dst : Bytes) : Files :=
  if src = dst then fs else Function.update (Function.update fs dst (fs src)) src none

theorem renameFile_of_ne (fs : Files) {src dst q : Bytes} (hne : src ≠ dst) (hq : dst = q) :
    renameFile fs src dst q = fs src := by
  rw [renameFile, if_neg hne, ← hq, Function.update_of_ne hne.symm, Function.update_self]

/-- The part of `bodycap_t` that a file capture uses. -/
structure FileCap where
  remaining : Nat
  failed : Bool
  tmp : Bytes
  final : Bytes
deriving DecidableEq, Repr

def bodycapBeginFile (declaredLen : Int) (finalPath : Bytes) (openOk : Bool) (fs : Files) : FileCap × Files :=
  let tmp := pathArray (finalPath ++ ascii ".tmp")
  (⟨if declaredLen < 0 then 0 else declaredLen.toNat, !openOk, tmp, pathArray finalPath⟩,
    -- O_CREAT|O_TRUNC
    if openOk then Function.update fs tmp (some []) else fs)

/-- The `write` loop. The `k`-th call takes `w k` bytes, or as many as are left; 0 stands for every result that is not
positive. The result is whether a call failed, the files in the end, and the files after each call. Every call takes
a byte, so the length is enough fuel. -/
def writeLoop (tmp : Bytes) (w : Nat → Nat) : Nat → Nat → Bytes → Files → Bool × Files × List Files
  | 0, _, _, fs => (false, fs, [])
  | fuel + 1, k, data, fs =>
    if data = [] then (false, fs, [])
    else if w k = 0 then (true, fs, [])
    else
      let fs' := Function.update fs tmp ((fs tmp).map (· ++ data.take (w k)))
      let r := writeLoop tmp w fuel (k + 1) (data.drop (w k)) fs'
      (r.1, r.2.1, fs' :: r.2.2)

def bodycapFeedFile (c : FileCap) (data : Bytes) (w : Nat → Nat) (fs : Files) : FileCap × Files × List Files :=
  let taken := data.take c.remaining
  let left := c.remaining - taken.length
  if taken = [] ∨ c.failed = true then ({ c with remaining := left }, fs, [])
  else
    let r := writeLoop c.tmp w taken.length 0 taken fs
    ({ c with remaining := left, failed := r.1 }, r.2)

/-- `fsync` and `close` change no content. The result is the return value and the files. -/
def bodycapFinishFile (c : FileCap) (renameOk unlinkOk : Bool) (fs : Files) : Int × Files :=
  if c.remaining = 0 ∧ c.failed = false ∧ renameOk = true then (0, renameFile fs c.tmp c.final)
  else (-1, if unlinkOk then Function.update fs c.tmp none else fs)

/-! ## A whole capture -/

/-- What is declared, what is fed in which chunks, and how the system answers. -/
structure ArtRun where
  declaredLen : Int
  openOk : Bool
  feeds : List (Bytes × (Nat → Nat))
  renameOk : Bool
  unlinkOk : Bool

/-- The feeds one after another, with the files after each call. -/
def feedAll : FileCap → Files → List (Bytes × (Nat → Nat)) → FileCap × Files × List Files
  | c, fs, [] => (c, fs, [])
  | c, fs, f :: feeds =>
    let r := bodycapFeedFile c f.1 f.2 fs
    let t := feedAll r.1 r.2.1 feeds
    (t.1, t.2.1, r.2.2 ++ t.2.2)

/-- The return value of `bodycap_finish`, the files then, and the files after each call before it. -/
structure ArtOutcome where
  ret : Int
  files : Files
  during : List Files

def ArtRun.capture (r : ArtRun) (pfx : Bytes) (fs : Files) : ArtOutcome :=
  let b := bodycapBeginFile r.declaredLen (artPath pfx) r.openOk fs
  let t := feedAll b.1 b.2 r.feeds
  let e := bodycapFinishFile t.1 r.renameOk r.unlinkOk t.2.1
  ⟨e.1, e.2, b.2 :: t.2.2⟩

/-- The bytes of the declared body among those fed. -/
def ArtRun.body (r : ArtRun) : Bytes := (r.feeds.flatMap Prod.fst).take r.declaredLen.toNat

/-- Until `bodycap_finish` the final path shows what it showed before; after it the whole declared body with return
value 0, or still the old content with return value -1. -/
structure ArtSafe (pfx : Bytes) (fs : Files) (r : ArtRun) : Prop where
  during : ∀ g ∈ (r.capture pfx fs).during, g (artPath pfx) = fs (artPath pfx)
  after : (r.capture pfx fs).ret = 0 ∧ r.body.length = r.declaredLen.toNat ∧
      (r.capture pfx fs).files (artPath pfx) = some r.body ∨
    (r.capture pfx fs).ret = -1 ∧ (r.capture pfx fs).files (artPath pfx) = fs (artPath pfx)

/-! ## Only the temporary file is touched -/

/-- The two maps agree but for one path. -/
def SameBut (tmp : Bytes) (fs g : Files) : Prop := ∀ q, q ≠ tmp → g q = fs q

theorem SameBut.refl (tmp : Bytes) (fs : Files) : SameBut tmp fs fs := fun _ _ => rfl

theorem SameBut.trans {tmp : Bytes} {fs g h : Files} (hg : SameBut tmp fs g) (hh : SameBut tmp g h) : SameBut tmp fs h :=
  fun q hq => (hh q hq).trans (hg q hq)

theorem SameBut.update {tmp : Bytes} {fs : Files} (c : Option Bytes) : SameBut tmp fs (Function.update fs tmp c) :=
  fun _ hq => Function.update_of_ne hq c fs

/-- The loop appends to the temporary file, all of the data unless a call fails. -/
theorem writeLoop_spec (tmp : Bytes) (w : Nat → Nat) (fuel k : Nat) (data c : Bytes) (fs : Files)
    (hfuel : data.length ≤ fuel) (hc : fs tmp = some c) :
    (∀ g ∈ (writeLoop tmp w fuel k data fs).2.2, SameBut tmp fs g) ∧
    SameBut tmp fs (writeLoop tmp w fuel k data fs).2.1 ∧
    ((writeLoop tmp w fuel k data fs).1 = false → (writeLoop tmp w fuel k data fs).2.1 tmp = some (c ++ data)) := by
  induction fuel generalizing k data c fs with
  | zero =>
    obtain rfl := List.length_eq_zero_iff.1 (Nat.le_zero.1 hfuel)
    exact ⟨by simp [writeLoop], .refl tmp fs, fun _ => by rw [List.append_nil]; exact hc⟩
  | succ fuel ih =>
    rw [writeLoop]
    by_cases hnil : data = []
    · rw [if_pos hnil, hnil]
      exact ⟨by simp, .refl tmp fs, fun _ => by rw [List.append_nil]; exact hc⟩
    rw [if_neg hnil]
    by_cases hw : w k = 0
    · rw [if_pos hw]
      exact ⟨by simp, .refl tmp fs, fun h => nomatch h⟩
    rw [if_neg hw]
    have hpos : 0 < data.length := List.length_pos_iff.2 hnil
    have hcontent : Function.update fs tmp ((fs tmp).map (· ++ data.take (w k))) tmp = some (c ++ data.take (w k)) := by
      rw [Function.update_self, hc, Option.map_some]
    obtain ⟨hstates, hend, hall⟩ := ih (k + 1) (data.drop (w k)) _ _ (by rw [List.length_drop]; omega) hcontent
    have hfirst : SameBut tmp fs (Function.update fs tmp ((fs tmp).map (· ++ data.take (w k)))) := .update _
    refine ⟨?_, hfirst.trans hend, ?_⟩
    · intro g hg
      rcases List.mem_cons.1 hg with rfl | hg
      · exact hfirst
      · exact hfirst.trans (hstates g hg)
    · intro h
      rw [hall h, List.append_assoc, List.take_append_drop]

/-! ## The capture as the server sees it -/

/-- The file capture and the server's record of it: they agree on what is missing and on failure, and the record
holds the content of the temporary file. -/
structure Tracks (c : FileCap) (fs : Files) (b : Bodycap) : Prop where
  mode : b.mode = .file
  remaining : b.remaining = c.remaining
  failed : b.failed = c.failed
  content : c.failed = false → fs c.tmp = some b.stored

theorem bodycapFeed_file {b : Bodycap} {data : Bytes} (env : FileEnv) (hm : b.mode = .file)
    (h : ¬ (data.take b.remaining = [] ∨ b.failed = true)) :
    bodycapFeed b data env =
      if env.writeOk then
        { b with remaining := b.remaining - data.length, stored := b.stored ++ data.take b.remaining }
      else { b with remaining := b.remaining - data.length, failed := true } := by
  rw [bodycapFeed, if_neg h, hm]

theorem tracks_begin (declaredLen : Int) (finalPath : Bytes) (openOk : Bool) (memCap : Nat) (fs : Files) (env : FileEnv)
    (henv : env.openOk = openOk) :
    Tracks (bodycapBeginFile declaredLen finalPath openOk fs).1 (bodycapBeginFile declaredLen finalPath openOk fs).2
      (bodycapBegin .file declaredLen.toNat memCap env) := by
  refine ⟨rfl, ?_, ?_, ?_⟩
  · simp only [bodycapBegin, bodycapBeginFile]
    split <;> omega
  · simp only [bodycapBegin, bodycapBeginFile, henv, beq_self_eq_true, Bool.true_and]
  · intro h
    simp only [bodycapBeginFile, Bool.not_eq_false'] at h
    simp only [bodycapBeginFile, h, if_true, Function.update_self, bodycapBegin]

/-- **A feed.** The server's `writeOk` is that no call of the loop failed. -/
theorem Tracks.feed {c : FileCap} {fs : Files} {b : Bodycap} (h : Tracks c fs b) (data : Bytes) (w : Nat → Nat) :
    ∃ env, Tracks (bodycapFeedFile c data w fs).1 (bodycapFeedFile c data w fs).2.1 (bodycapFeed b data env) ∧
      (∀ g ∈ (bodycapFeedFile c data w fs).2.2, SameBut c.tmp fs g) ∧
      SameBut c.tmp fs (bodycapFeedFile c data w fs).2.1 ∧
      (bodycapFeedFile c data w fs).1.tmp = c.tmp ∧ (bodycapFeedFile c data w fs).1.final = c.final := by
  have hleft : c.remaining - (data.take c.remaining).length = b.remaining - data.length := by
    rw [h.remaining, List.length_take]
    omega
  by_cases hskip : data.take c.remaining = [] ∨ c.failed = true
  · have hskip' : data.take b.remaining = [] ∨ b.failed = true := by rwa [h.remaining, h.failed]
    refine ⟨⟨true, true, true⟩, ?_⟩
    rw [bodycapFeed_skip _ hskip', bodycapFeedFile, if_pos hskip]
    exact ⟨⟨h.mode, hleft.symm, h.failed, h.content⟩, by simp, .refl _ _, rfl, rfl⟩
  · have hskip' : ¬ (data.take b.remaining = [] ∨ b.failed = true) := by rwa [h.remaining, h.failed]
    have hok : c.failed = false := eq_false_of_ne_true fun hf => hskip (.inr hf)
    obtain ⟨hstates, hend, hall⟩ := writeLoop_spec c.tmp w (data.take c.remaining).length 0 (data.take c.remaining)
      b.stored fs le_rfl (h.content hok)
    refine ⟨⟨true, !(writeLoop c.tmp w (data.take c.remaining).length 0 (data.take c.remaining) fs).1, true⟩, ?_⟩
    rw [bodycapFeed_file _ h.mode hskip', bodycapFeedFile, if_neg hskip]
    refine ⟨?_, hstates, hend, rfl, rfl⟩
    cases hf : (writeLoop c.tmp w (data.take c.remaining).length 0 (data.take c.remaining) fs).1 with
    | true => exact ⟨h.mode, hleft.symm, hf.symm, fun hc => nomatch hf.symm.trans hc⟩
    | false =>
      refine ⟨h.mode, hleft.symm, (h.failed.trans hok).trans hf.symm, fun _ => ?_⟩
      rw [hall hf, ← h.remaining]
      rfl

/-- The end: both report success alike. -/
theorem Tracks.finish {c : FileCap} {fs : Files} {b : Bodycap} (h : Tracks c fs b) (env : FileEnv) (unlinkOk : Bool) :
    bodycapFinish b env = true ↔ (bodycapFinishFile c env.renameOk unlinkOk fs).1 = 0 := by
  have hleft : bodycapFinish b env = true ↔ c.remaining = 0 ∧ c.failed = false ∧ env.renameOk = true := by
    simp only [bodycapFinish, bodycapDone, h.mode, h.remaining, h.failed, Bool.and_eq_true, beq_iff_eq,
      Bool.not_eq_true', and_assoc]
  rw [hleft, bodycapFinishFile]
  constructor
  · intro hok
    rw [if_pos hok]
  · intro hret
    by_contra hno
    rw [if_neg hno] at hret
    simp at hret

/-- What the server's record has collected: the fed bytes up to the declared length. -/
structure Collected (n : Nat) (fed : Bytes) (b : Bodycap) : Prop where
  mode : b.mode = .file
  remaining : b.remaining = n - fed.length
  stored : b.failed = false → b.stored = fed.take n

theorem Collected.feed {n : Nat} {fed : Bytes} {b : Bodycap} (h : Collected n fed b) (data : Bytes) (env : FileEnv) :
    Collected n (fed ++ data) (bodycapFeed b data env) := by
  have hlen : b.remaining - data.length = n - (fed ++ data).length := by
    rw [h.remaining, List.length_append]
    omega
  have htake : (fed ++ data).take n = fed.take n ++ data.take b.remaining := by rw [List.take_append, h.remaining]
  by_cases hskip : data.take b.remaining = [] ∨ b.failed = true
  · rw [bodycapFeed_skip env hskip]
    refine ⟨h.mode, hlen, fun hf => ?_⟩
    rcases hskip with hnil | hfailed
    · rw [htake, hnil, List.append_nil]
      exact h.stored hf
    · exact nomatch hfailed.symm.trans hf
  · rw [bodycapFeed_file env h.mode hskip]
    split
    · refine ⟨h.mode, hlen, fun hf => ?_⟩
      rw [htake, ← h.stored hf]
    · exact ⟨h.mode, hlen, fun hf => nomatch hf⟩

/-- All feeds. -/
theorem feedAll_spec {n : Nat} {fed : Bytes} {c : FileCap} {fs : Files} {b : Bodycap} (ht : Tracks c fs b)
    (hcol : Collected n fed b) (feeds : List (Bytes × (Nat → Nat))) :
    ∃ b', Tracks (feedAll c fs feeds).1 (feedAll c fs feeds).2.1 b' ∧ Collected n (fed ++ feeds.flatMap Prod.fst) b' ∧
      (∀ g ∈ (feedAll c fs feeds).2.2, SameBut c.tmp fs g) ∧ SameBut c.tmp fs (feedAll c fs feeds).2.1 ∧
      (feedAll c fs feeds).1.tmp = c.tmp ∧ (feedAll c fs feeds).1.final = c.final := by
  induction feeds generalizing fed c fs b with
  | nil => exact ⟨b, ht, by simpa using hcol, by simp [feedAll], .refl _ _, rfl, rfl⟩
  | cons f feeds ih =>
    obtain ⟨env, ht₁, hstates, hend, htmp, hfinal⟩ := ht.feed f.1 f.2
    obtain ⟨b', ht', hcol', hstates', hend', htmp', hfinal'⟩ := ih ht₁ (hcol.feed f.1 env)
    rw [htmp] at hstates' hend'
    refine ⟨b', ht', ?_, ?_, hend.trans hend', htmp'.trans htmp, hfinal'.trans hfinal⟩
    · rw [List.flatMap_cons, ← List.append_assoc]
      exact hcol'
    · intro g hg
      rcases List.mem_append.1 hg with hg | hg
      · exact hstates g hg
      · exact hend.trans (hstates' g hg)

/-! ## The two names -/

theorem length_artPath (pfx : Bytes) : (artPath pfx).length = pfx.length + 11 := by
  rw [artPath, List.length_append]
  rfl

/-- A short prefix: the final name is whole and the temporary one is longer. -/
theorem names_of_short {pfx : Bytes} (h : pfx.length ≤ 243) :
    pathArray (artPath pfx) = artPath pfx ∧ artPath pfx ≠ pathArray (artPath pfx ++ ascii ".tmp") := by
  have hlen := length_artPath pfx
  refine ⟨List.take_of_length_le (by omega), fun he => ?_⟩
  have := congrArg List.length he
  rw [pathArray, List.length_take, List.length_append, show (ascii ".tmp").length = 4 from rfl] at this
  omega

/-- A long prefix: nothing of the suffix is left. -/
theorem names_of_long {pfx : Bytes} (h : 244 ≤ pfx.length) :
    pathArray (artPath pfx ++ ascii ".tmp") = pathArray (artPath pfx) := by
  have hlen := length_artPath pfx
  exact List.take_append_of_le_length (by omega)

/-- **Short prefixes are safe**, whatever is declared and fed and however the system answers. -/
theorem art_capture_safe {pfx : Bytes} (h : pfx.length ≤ 243) (fs : Files) (r : ArtRun) : ArtSafe pfx fs r := by
  obtain ⟨hfinal, hne⟩ := names_of_short h
  have ht := tracks_begin r.declaredLen (artPath pfx) r.openOk 0 fs ⟨r.openOk, true, true⟩ rfl
  have hcol : Collected r.declaredLen.toNat [] (bodycapBegin .file r.declaredLen.toNat 0 ⟨r.openOk, true, true⟩) :=
    ⟨rfl, by simp [bodycapBegin], fun _ => by simp [bodycapBegin]⟩
  have hbegin : SameBut (pathArray (artPath pfx ++ ascii ".tmp")) fs
      (bodycapBeginFile r.declaredLen (artPath pfx) r.openOk fs).2 := by
    simp only [bodycapBeginFile]
    split
    · exact .update _
    · exact .refl _ _
  obtain ⟨b, htb, hcolb, hstates, hend, htmp, hfin⟩ := feedAll_spec ht hcol r.feeds
  rw [List.nil_append] at hcolb
  have hold := (hbegin.trans hend) (artPath pfx) hne
  constructor
  · intro g hg
    rcases List.mem_cons.1 hg with rfl | hg
    · exact hbegin _ hne
    · exact (hbegin.trans (hstates g hg)) _ hne
  · simp only [ArtRun.capture, bodycapFinishFile]
    split
    · next hok =>
      -- the whole body was written to the temporary file, which now takes the final name
      left
      obtain ⟨hrem, hfailed, -⟩ := hok
      have hcontent := htb.content hfailed
      rw [hcolb.stored (htb.failed.trans hfailed)] at hcontent
      have hlen := hcolb.remaining
      rw [htb.remaining, hrem] at hlen
      refine ⟨rfl, ?_, ?_⟩
      · rw [ArtRun.body, List.length_take]
        omega
      · have hne' : pathArray (artPath pfx ++ ascii ".tmp") ≠ pathArray (artPath pfx) := by
          rw [hfinal]
          exact hne.symm
        rw [htmp] at hcontent
        rw [htmp, hfin]
        exact (renameFile_of_ne _ hne' hfinal).trans hcontent
    · right
      refine ⟨rfl, ?_⟩
      dsimp only
      split
      · rw [htmp]
        exact (Function.update_of_ne hne none _).trans hold
      · exact hold

/-! ## Long prefixes -/

/-- One byte, captured without any failure. -/
def oneByte : ArtRun := ⟨1, true, [([7], fun _ => 1)], true, true⟩

/-- With one name for both files, the rename does nothing and the first call already hits the final name. -/
theorem oneByte_capture {pfx : Bytes} (fs : Files) (h : 244 ≤ pfx.length) :
    (oneByte.capture pfx fs).ret = 0 ∧
    (oneByte.capture pfx fs).files = Function.update (Function.update fs (pathArray (artPath pfx)) (some []))
      (pathArray (artPath pfx)) (some [7]) ∧
    Function.update fs (pathArray (artPath pfx)) (some []) ∈ (oneByte.capture pfx fs).during := by
  simp only [ArtRun.capture, oneByte, bodycapBeginFile, feedAll, bodycapFeedFile, bodycapFinishFile,
    names_of_long h]
  simp [renameFile, writeLoop]

/-- **Long prefixes are not safe**: a picture of one byte over another. -/
theorem not_artSafe_of_long {pfx : Bytes} (h : 244 ≤ pfx.length) : ¬ ArtSafe pfx (fun _ => some [1]) oneByte := by
  intro hsafe
  have hlen := length_artPath pfx
  obtain ⟨hret, hfiles, hduring⟩ := oneByte_capture (fun _ => some [1]) h
  by_cases heq : pathArray (artPath pfx) = artPath pfx
  · -- the old picture is gone as soon as the temporary file is opened
    have hd := hsafe.during _ hduring
    rw [heq, Function.update_self] at hd
    exact absurd hd (by decide)
  · -- the cut-off name is another file, and the final path never gets the new picture
    rcases hsafe.after with ⟨-, -, hnew⟩ | ⟨hfail, -⟩
    · rw [hfiles, Function.update_of_ne (Ne.symm heq), Function.update_of_ne (Ne.symm heq)] at hnew
      exact absurd hnew (by decide)
    · rw [hret] at hfail
      exact absurd hfail (by decide)

/-- **The art capture is safe exactly below prefixes of up to 243 bytes.** Safe: for every state of the files, every
declared length, every sequence of chunks and every answer of the system, the final path shows the old content until
the end and then either all of the declared body, with return value 0, or still the old content, with -1. -/
theorem art_capture_safe_iff (pfx : Bytes) :
    (∀ (fs : Files) (r : ArtRun), ArtSafe pfx fs r) ↔ pfx.length ≤ 243 := by
  constructor
  · intro hall
    by_contra hlong
    exact not_artSafe_of_long (by omega) (hall _ _)
  · intro h fs r
    exact art_capture_safe h fs r

/-- A prefix of 244 bytes, an old picture, and a capture that is cut short: `bodycap_finish` returns -1 and the old
picture is gone. -/
theorem art_lost_at_244 :
    let pfx : Bytes := List.replicate 244 97
    let r : ArtRun := ⟨10, true, [([1, 2, 3], fun _ => 3)], true, true⟩
    (r.capture pfx fun _ => some [9, 9]).ret = -1 ∧ (r.capture pfx fun _ => some [9, 9]).files (artPath pfx) = none ∧
      ¬ ArtSafe pfx (fun _ => some [9, 9]) r := by
  intro pfx r
  have hpfx : pfx.length = 244 := List.length_replicate
  have hlong : 244 ≤ pfx.length := hpfx.ge
  have hwhole : pathArray (artPath pfx) = artPath pfx := List.take_of_length_le (by rw [length_artPath, hpfx])
  clear_value pfx
  have hret : (r.capture pfx fun _ => some [9, 9]).ret = -1 := by
    simp only [r, ArtRun.capture, bodycapBeginFile, feedAll, bodycapFeedFile, bodycapFinishFile]
    simp
  have hgone : (r.capture pfx fun _ => some [9, 9]).files (artPath pfx) = none := by
    simp only [r, ArtRun.capture, bodycapBeginFile, feedAll, bodycapFeedFile, bodycapFinishFile, names_of_long hlong,
      hwhole]
    simp
  refine ⟨hret, hgone, fun hsafe => ?_⟩
  rcases hsafe.after with ⟨h0, -, -⟩ | ⟨-, hold⟩
  · rw [hret] at h0
    exact absurd h0 (by decide)
  · rw [hgone] at hold
    exact absurd hold (by decide)

end ShairKindle
