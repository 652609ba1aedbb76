import ShairKindle.Lib.Run
import ShairKindle.Rtsp.Msg

/-!
# Body capture and now-playing state (src/bodycap.c, src/npstate.c)

A capture takes the body of a request out of the stream while the RTSP loop goes on. It stores the
bytes in a file (album art), in memory (metadata) or nowhere, and always counts them off
`remaining`, so that the stream stays framed. What it collects ends up in the now-playing record.

The file is its content here; whether a system call on it succeeds is given from outside (`FileEnv`).
-/

namespace ShairKindle

open Bytes

/-! ## The capture -/

/-- `bodycap_mode_t` (bodycap.h:13). -/
inductive BodycapMode
  | discard | file | mem
deriving DecidableEq, Repr

/-- Which system calls on the art file succeed. -/
structure FileEnv where
  openOk : Bool
  writeOk : Bool
  renameOk : Bool
deriving DecidableEq, Repr

/-- `bodycap_t` (bodycap.h:14). `stored` is what was written to the temporary file, or `mem[0..mem_len)`. -/
structure Bodycap where
  mode : BodycapMode
  remaining : Nat
  failed : Bool
  stored : Bytes
  memCap : Nat
deriving DecidableEq, Repr

/-- `bodycap_begin` (bodycap.c:7). -/
def bodycapBegin (mode : BodycapMode) (declaredLen memCap : Nat) (env : FileEnv) : Bodycap where
  mode := mode
  remaining := declaredLen
  failed := mode == .file && !env.openOk
  stored := []
  memCap := memCap

/-- `bodycap_feed` (bodycap.c:22); it consumes the first `min remaining data.length` bytes. After a
failed write the temporary file is never used. -/
def bodycapFeed (b : Bodycap) (data : Bytes) (env : FileEnv) : Bodycap :=
  let taken := data.take b.remaining
  let b' := { b with remaining := b.remaining - data.length }
  if taken = [] ∨ b.failed then b'
  else
    match b.mode with
    | .discard => b'
    | .file => if env.writeOk then { b' with stored := b.stored ++ taken } else { b' with failed := true }
    | .mem =>
      if b.memCap < b.stored.length + taken.length then
        { b' with stored := (b.stored ++ taken).take b.memCap, failed := true }
      else { b' with stored := b.stored ++ taken }

/-- `bodycap_done` (bodycap.c:49). -/
def bodycapDone (b : Bodycap) : Bool := b.remaining == 0

/-- `bodycap_finish` (bodycap.c:51): whether it returned 0, which for a file means the rename. -/
def bodycapFinish (b : Bodycap) (env : FileEnv) : Bool :=
  let ok := bodycapDone b && !b.failed
  match b.mode with
  | .file => ok && env.renameOk
  | _ => ok

@[simp] theorem bodycapFeed_remaining (b : Bodycap) (data : Bytes) (env : FileEnv) :
    (bodycapFeed b data env).remaining = b.remaining - data.length := by
  simp only [bodycapFeed]
  split
  · rfl
  · split
    · rfl
    · split <;> rfl
    · split <;> rfl

theorem bodycapFeed_skip {b : Bodycap} {data : Bytes} (env : FileEnv) (h : data.take b.remaining = [] ∨ b.failed = true) :
    bodycapFeed b data env = { b with remaining := b.remaining - data.length } := by
  rw [bodycapFeed, if_pos h]

/-! ## Accounting -/

/-- What `bodycap_feed` returns: how many bytes of the chunk it consumed. -/
def bodycapTake (b : Bodycap) (data : Bytes) : Nat := min b.remaining data.length

/-- The chunks of a body, each with what the file system answers; the return values in order. -/
def bodycapFeeds (b : Bodycap) (feeds : List (Bytes × FileEnv)) : Bodycap × List Nat :=
  Machine.run (fun b f => (bodycapFeed b f.1 f.2, bodycapTake b f.1)) b feeds

/-- The bytes each call consumed. -/
def consumedBytes (feeds : List (Bytes × FileEnv)) (taken : List Nat) : Bytes :=
  (List.zipWith (fun f n => f.1.take n) feeds taken).flatten

theorem bodycapFeeds_cons (b : Bodycap) (f : Bytes × FileEnv) (feeds : List (Bytes × FileEnv)) :
    bodycapFeeds b (f :: feeds) = ((bodycapFeeds (bodycapFeed b f.1 f.2) feeds).1,
      bodycapTake b f.1 :: (bodycapFeeds (bodycapFeed b f.1 f.2) feeds).2) := rfl

/-- Whatever is stored and whatever fails, the declared bytes are counted off. -/
theorem bodycapFeeds_taken (feeds : List (Bytes × FileEnv)) (b : Bodycap) :
    (bodycapFeeds b feeds).2.sum = min b.remaining (feeds.flatMap Prod.fst).length ∧
      consumedBytes feeds (bodycapFeeds b feeds).2 = (feeds.flatMap Prod.fst).take b.remaining ∧
      (bodycapFeeds b feeds).1.remaining = b.remaining - (feeds.flatMap Prod.fst).length := by
  induction feeds generalizing b with
  | nil => exact ⟨by simp [bodycapFeeds], by simp [consumedBytes], rfl⟩
  | cons f feeds ih =>
    obtain ⟨hsum, hbytes, hleft⟩ := ih (bodycapFeed b f.1 f.2)
    rw [bodycapFeed_remaining] at hsum hbytes hleft
    rw [bodycapFeeds_cons, List.flatMap_cons]
    refine ⟨?_, ?_, ?_⟩
    · rw [List.sum_cons, hsum, bodycapTake, List.length_append]
      omega
    · have hfirst : f.1.take (min b.remaining f.1.length) = f.1.take b.remaining := by
        rw [Nat.min_comm, ← List.take_take, List.take_of_length_le (by simp)]
      rw [List.take_append, ← hbytes, ← hfirst]
      rfl
    · rw [hleft, List.length_append]
      omega

/-- A capture in memory after the chunks `fed`: of the declared bytes among them, what the memory holds. -/
structure InMemory (declared cap : Nat) (fed : Bytes) (b : Bodycap) : Prop where
  mode : b.mode = .mem
  memCap : b.memCap = cap
  remaining : b.remaining = declared - fed.length
  stored : b.stored = (fed.take declared).take cap
  failed : b.failed = true ↔ cap < (fed.take declared).length

theorem InMemory.begin (declared cap : Nat) (env : FileEnv) :
    InMemory declared cap [] (bodycapBegin .mem declared cap env) :=
  ⟨rfl, rfl, rfl, by simp [bodycapBegin], by simp [bodycapBegin]⟩

/-- **One chunk.** The chunk that exceeds the memory fills it up and fails; after it nothing is stored. -/
theorem InMemory.feed {declared cap : Nat} {fed : Bytes} {b : Bodycap} (h : InMemory declared cap fed b) (data : Bytes)
    (env : FileEnv) : InMemory declared cap (fed ++ data) (bodycapFeed b data env) := by
  have hleft : b.remaining - data.length = declared - (fed ++ data).length := by
    rw [h.remaining, List.length_append]
    omega
  have htaken : (fed ++ data).take declared = fed.take declared ++ data.take b.remaining := by
    rw [List.take_append, h.remaining]
  by_cases hskip : data.take b.remaining = [] ∨ b.failed = true
  · rw [bodycapFeed_skip env hskip]
    refine ⟨h.mode, h.memCap, hleft, ?_, ?_⟩
    · rw [h.stored, htaken]
      rcases hskip with hnil | hfull
      · rw [hnil, List.append_nil]
      · exact (List.take_append_of_le_length (h.failed.1 hfull).le).symm
    · rw [h.failed, htaken, List.length_append]
      rcases hskip with hnil | hfull
      · rw [hnil, List.length_nil, Nat.add_zero]
      · have := h.failed.1 hfull
        exact iff_of_true this (by omega)
  · -- nothing has failed, so all of it so far is stored
    have hfits : (fed.take declared).length ≤ cap := not_lt.1 fun hlt => hskip (.inr (h.failed.2 hlt))
    have hall : b.stored = fed.take declared := by rw [h.stored, List.take_of_length_le hfits]
    rw [bodycapFeed, if_neg hskip, h.mode]
    dsimp only
    rw [h.memCap, hall, ← List.length_append, ← htaken]
    split
    · next hover => exact ⟨rfl, rfl, hleft, rfl, iff_of_true rfl hover⟩
    · next hover =>
      have hfalse : b.failed = false := eq_false_of_ne_true fun hf => hskip (.inr hf)
      exact ⟨rfl, rfl, hleft, (List.take_of_length_le (not_lt.1 hover)).symm,
        iff_of_false (by simp [hfalse]) hover⟩

theorem InMemory.feeds {declared cap : Nat} {fed : Bytes} {b : Bodycap} (h : InMemory declared cap fed b)
    (feeds : List (Bytes × FileEnv)) :
    InMemory declared cap (fed ++ feeds.flatMap Prod.fst) (bodycapFeeds b feeds).1 := by
  induction feeds generalizing fed b with
  | nil => simpa [bodycapFeeds] using h
  | cons f feeds ih =>
    rw [List.flatMap_cons, ← List.append_assoc]
    exact ih (h.feed f.1 f.2)

theorem InMemory.finish {declared cap : Nat} {fed : Bytes} {b : Bodycap} (h : InMemory declared cap fed b)
    (env : FileEnv) : bodycapFinish b env = true ↔ min declared fed.length = declared ∧ declared ≤ cap := by
  have hok : bodycapFinish b env = true ↔ b.remaining = 0 ∧ ¬ b.failed = true := by
    simp [bodycapFinish, bodycapDone, h.mode]
  rw [hok, h.remaining, h.failed, List.length_take]
  omega

/-- **Captures count and store alike however the body is cut into chunks.** For every mode, declared length, memory
and sequence of chunks, and whether or not storing fails: the calls consume the declared bytes of what is offered and
leave the rest. In memory the first bytes consumed are kept, as many as fit, and the capture succeeds exactly if all
the declared bytes came and fit. -/
theorem bodycap_accounting (mode : BodycapMode) (declared cap : Nat) (env : FileEnv) (feeds : List (Bytes × FileEnv)) :
    let r := bodycapFeeds (bodycapBegin mode declared cap env) feeds
    let offered := feeds.flatMap Prod.fst
    (r.2.sum = min declared offered.length ∧ consumedBytes feeds r.2 = offered.take declared) ∧
      (mode = .mem → r.1.stored = offered.take (min r.2.sum cap) ∧ r.1.stored.length ≤ cap ∧
        ∀ env', bodycapFinish r.1 env' = true ↔ r.2.sum = declared ∧ declared ≤ cap) := by
  intro r offered
  obtain ⟨hsum, hbytes, -⟩ := bodycapFeeds_taken feeds (bodycapBegin mode declared cap env)
  refine ⟨⟨hsum, hbytes⟩, ?_⟩
  rintro rfl
  have hmem : InMemory declared cap offered r.1 := (InMemory.begin declared cap env).feeds feeds
  have hstored : r.1.stored = offered.take (min r.2.sum cap) := by
    rw [hmem.stored, List.take_take, show r.2.sum = min declared offered.length from hsum,
      List.take_eq_take_iff]
    omega
  refine ⟨hstored, ?_, fun env' => ?_⟩
  · rw [hstored, List.length_take]
    omega
  · rw [hmem.finish env', show r.2.sum = min declared offered.length from hsum]

/-! ## Now playing -/

/-- The three strings of a `daap_meta_t` (daap.h:5), or of the record it is copied to. -/
structure DaapMeta where
  title : Bytes
  artist : Bytes
  album : Bytes
deriving DecidableEq, Repr

/-- `np_snapshot_t` (npstate.h:4). The counters are `unsigned long`; they are not bounded here. -/
structure NpState where
  gen : Nat
  artSerial : Nat
  songMeta : DaapMeta
  haveArt : Bool
  playing : Bool
deriving DecidableEq, Repr

/-- The zero-initialised record. -/
def NpState.init : NpState := ⟨0, 0, ⟨[], [], []⟩, false, false⟩

/-- `np_publish_meta` (npstate.c:26). Both sides hold strings of at most 255 bytes, so `take` copies
them whole. -/
def npPublishMeta (np : NpState) (m : DaapMeta) : NpState :=
  if np.songMeta = m then np else { np with gen := np.gen + 1, songMeta := m }

/-- `np_publish_art` (npstate.c:40). -/
def npPublishArt (np : NpState) : NpState := { np with haveArt := true, artSerial := np.artSerial + 1 }

/-- `np_set_playing` (npstate.c:47). -/
def npSetPlaying (np : NpState) (on : Bool) : NpState := { np with playing := on }

/-- `np_reset` (npstate.c:63): leaves `playing` alone. -/
def npReset (np : NpState) : NpState := { np with gen := np.gen + 1, songMeta := ⟨[], [], []⟩, haveArt := false }

@[simp] theorem npPublishMeta_playing (np : NpState) (m : DaapMeta) : (npPublishMeta np m).playing = np.playing := by
  unfold npPublishMeta
  split <;> rfl

@[simp] theorem npPublishArt_playing (np : NpState) : (npPublishArt np).playing = np.playing := rfl

end ShairKindle
