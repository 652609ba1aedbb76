import Mathlib.Algebra.Group.Nat.Even
import ShairKindle.Lib.Bytes
import ShairKindle.Lib.Checked

/-!
# Samples to the pipe (src/session.c:410, src/sink.cpp:33-234)

The player hands a packet to `session_sink_write_all`, which calls `sink_write` until it is all accepted; `sink_write`
scales the samples in chunks of 2048 and writes each chunk to the pipe of a child process, which may be full, die or
have to be spawned again. Three offsets count along: samples of the packet, samples of the call, bytes of the chunk.
A chunk is no larger than what a pipe takes in one piece, and that is what keeps the three together.

| here | there |
| --- | --- |
| `Env`                 | what `waitpid`, `posix_spawn` and `write` answer and the player reads of other threads |
| `State`               | `g_pid`, `g_spawn_attempts`, `g_respawns` (sink.cpp), and all bytes any child's pipe has taken |
| `applyGain`           | `apply_gain` (sink.cpp:33) |
| `childAlive`, `spawnChild` | sink.cpp:153, :123; with no child there is nothing to reap before a spawn |
| `writeLoop`, `chunkLoop` | the two loops of `sink_write` (sink.cpp:206, :212) |
| `sinkWrite`           | `sink_write` (sink.cpp:185) |
| `sessionSinkWriteAll` | `session_sink_write_all` (session.c:410) |

Each call into the system and each read of a shared field takes the next answer, so every schedule is some `Env`. The
loops run on fuel, and `running` means that it was not enough.
-/

namespace ShairKindle.Sink

open Bytes Checked

/-! ## The model -/

inductive WriteResult
  | took (n : Nat)
  | again
  | failed
  deriving DecidableEq, Repr

/-- The answers, by the time they are asked for. `write` is told how many bytes are offered. -/
structure Env where
  exited : Nat → Bool
  spawned : Nat → Bool
  write : Nat → Nat → WriteResult
  gen : Nat → UInt32
  /-- `threads_up && !running` -/
  tornDown : Nat → Bool

structure State where
  /-- `g_pid > 0`; `g_wfd` is open then. -/
  child : Bool
  spawnAttempts : Nat
  respawns : Nat
  now : Nat
  piped : Bytes
  deriving DecidableEq, Repr

def State.tick (s : State) : State := { s with now := s.now + 1 }

/-- `(int16_t)(((int32_t)src * g) >> 8)`; the gain is 0 to 256 there, 256 leaving a sample as it is. -/
def applyGain (gain : Int) (src : Int16) : Int16 := Int16.ofInt ((src.toInt * gain).shiftRight 8)

/-- A sample in the memory of a little-endian machine. -/
def sampleBytes (x : Int16) : Bytes := [x.toUInt16.toUInt8, (x.toUInt16 >>> 8).toUInt8]

/-- Samples as they are to reach the child. -/
def pcmBytes (gain : Int) (pcm : List Int16) : Bytes := pcm.flatMap fun x => sampleBytes (applyGain gain x)

def childAlive (env : Env) (s : State) : Bool × State :=
  if !s.child then (false, s)
  else if env.exited s.now then (false, { s.tick with child := false })
  else (true, s.tick)

def spawnChild (env : Env) (s : State) : Bool × State :=
  if env.spawned s.now then (true, { s.tick with child := true }) else (false, s.tick)

def writeWaitMs : Nat := 200

def gainBufN : Nat := 2048

structure ChunkResult where
  off : Nat
  waited : Nat
  stop : Bool
  sink : State
  deriving DecidableEq, Repr

/-- `while (off < total)` over the bytes of one chunk. -/
def writeLoop (env : Env) (data : Bytes) : Nat → Nat → Nat → State → Checked ChunkResult
  | 0, _, _, _ => .running
  | fuel + 1, off, waited, s =>
    if data.length ≤ off then .done ⟨off, waited, false, s⟩
    else
      match env.write s.now (data.length - off) with
      | .took (n + 1) =>
        writeLoop env data fuel (off + (n + 1)) waited { s.tick with piped := s.piped ++ (data.drop off).take (n + 1) }
      | .took 0 => .done ⟨off, waited, true, s.tick⟩
      | .again =>
        if writeWaitMs ≤ waited then .done ⟨off, waited, true, s.tick⟩
        else
          let alive := childAlive env s.tick
          if alive.1 then writeLoop env data fuel off (waited + 20) alive.2
          else .done ⟨off, waited + 20, true, alive.2⟩
      | .failed => .done ⟨off, waited, true, s.tick⟩

/-- `while (total_accepted < n_samples)` -/
def chunkLoop (env : Env) (gain : Int) (pcm : List Int16) : Nat → Nat → Nat → State → Checked (Nat × State)
  | 0, _, _, _ => .running
  | fuel + 1, accepted, waited, s =>
    if pcm.length ≤ accepted then .done (accepted, s)
    else
      let chunk := min (pcm.length - accepted) gainBufN
      let data := pcmBytes gain ((pcm.drop accepted).take chunk)
      (writeLoop env data (writeWaitMs + data.length + 2) 0 waited s).bind fun r =>
        if r.stop then .done (accepted + r.off / 2, r.sink)
        else chunkLoop env gain pcm fuel (accepted + r.off / 2) r.waited r.sink

/-- The result is an `int`, and a sample count. -/
def sinkWrite (env : Env) (gain : Int) (pcm : List Int16) (s : State) : Checked (Int × State) :=
  let write := fun s => (chunkLoop env gain pcm (pcm.length + 1) 0 0 s).bind fun r => .done ((r.1 : Int), r.2)
  if pcm.length ≤ 0 then .done (0, s)
  else
    let alive := childAlive env s
    if alive.1 then write alive.2
    else if 1000 ≤ alive.2.spawnAttempts then .done (0, alive.2)
    else
      let spawn := spawnChild env { alive.2 with spawnAttempts := alive.2.spawnAttempts + 1 }
      if spawn.1 then write { spawn.2 with respawns := spawn.2.respawns + 1 } else .done (0, spawn.2)

def maxBackoffRetries : Nat := 200

/-- `while (off < n)` -/
def writeAllLoop (env : Env) (gain : Int) (pcm : List Int16) (abortGen : UInt32) :
    Nat → Nat → Nat → State → Checked (Nat × State)
  | 0, _, _, _ => .running
  | fuel + 1, off, backoff, s =>
    if pcm.length ≤ off then .done (off, s)
    else if env.gen s.now ≠ abortGen then .done (off, s.tick)
    else if env.tornDown s.tick.now then .done (off, s.tick.tick)
    else (sinkWrite env gain (pcm.drop off) s.tick.tick).bind fun r =>
      if r.1 < 0 then .done (off, r.2)
      else if r.1 = 0 then
        if maxBackoffRetries < backoff + 1 then .done (off, r.2)
        else writeAllLoop env gain pcm abortGen fuel off (backoff + 1) r.2
      else writeAllLoop env gain pcm abortGen fuel (off + r.1.toNat) 0 r.2

def sessionSinkWriteAll (env : Env) (gain : Int) (pcm : List Int16) (abortGen : UInt32) (s : State) :
    Checked (Nat × State) :=
  if pcm.length ≤ 0 then .done (0, s)
  else writeAllLoop env gain pcm abortGen ((pcm.length + 1) * (maxBackoffRetries + 2)) 0 0 s

/-! ## Samples and bytes -/

theorem length_pcmBytes (gain : Int) (pcm : List Int16) : (pcmBytes gain pcm).length = pcm.length * 2 := by
  induction pcm with
  | nil => rfl
  | cons x pcm ih =>
    rw [pcmBytes, List.flatMap_cons, List.length_append, List.length_cons]
    rw [pcmBytes] at ih
    rw [ih, sampleBytes]
    simp only [List.length_cons, List.length_nil]
    omega

theorem pcmBytes_take_add (gain : Int) (pcm : List Int16) (a b : Nat) :
    pcmBytes gain (pcm.take (a + b)) = pcmBytes gain (pcm.take a) ++ pcmBytes gain ((pcm.drop a).take b) := by
  rw [List.take_add, pcmBytes, List.flatMap_append]
  rfl

@[simp] theorem piped_tick (s : State) : s.tick.piped = s.piped := rfl

/-- Looking after the child writes nothing. -/
@[simp] theorem piped_childAlive (env : Env) (s : State) : (childAlive env s).2.piped = s.piped := by
  rw [childAlive]
  split_ifs <;> rfl

@[simp] theorem piped_spawnChild (env : Env) (s : State) : (spawnChild env s).2.piped = s.piped := by
  rw [spawnChild]
  split_ifs <;> rfl

@[simp] theorem now_tick (s : State) : s.tick.now = s.now + 1 := rfl

theorem now_le_childAlive (env : Env) (s : State) : s.now ≤ (childAlive env s).2.now := by
  rw [childAlive]
  split_ifs
  · exact Nat.le_refl _
  · exact Nat.le_succ _
  · exact Nat.le_succ _

theorem child_of_not_alive {env : Env} {s : State} (h : ¬ (childAlive env s).1 = true) :
    (childAlive env s).2.child = false := by
  rw [childAlive] at h ⊢
  split_ifs at h ⊢ with hchild
  · simpa using hchild
  · rfl
  · exact absurd rfl h

@[simp] theorem now_spawnChild (env : Env) (s : State) : (spawnChild env s).2.now = s.now + 1 := by
  rw [spawnChild]
  split_ifs <;> rfl

/-! ## One chunk -/

/-- What the system guarantees for a pipe: at most 4096 bytes are taken all at once or not at all. -/
def Atomic (env : Env) : Prop :=
  ∀ t n, 0 < n → n ≤ 4096 → env.write t n = .took n ∨ env.write t n = .again ∨ env.write t n = .failed

/-- A `write` of `n` bytes was turned away after `s` and before `s'`. -/
def Blocked (env : Env) (n : Nat) (s s' : State) : Prop :=
  ∃ t, s.now ≤ t ∧ t < s'.now ∧ (env.write t n = .again ∨ env.write t n = .failed)

theorem Blocked.of_le {env : Env} {n : Nat} {s₁ s₂ s' : State} (h : Blocked env n s₂ s') (hle : s₁.now ≤ s₂.now) :
    Blocked env n s₁ s' := by
  obtain ⟨t, ht, hlt, hw⟩ := h
  exact ⟨t, hle.trans ht, hlt, hw⟩

section Runs

variable {env : Env} (hatomic : Atomic env) (gain : Int)
include hatomic

/-- **One chunk.** It goes out as a whole, or none of it does, because the pipe turned it away, and the call stops. -/
theorem writeLoop_ensures {data : Bytes} (hpos : 0 < data.length) (hmax : data.length ≤ 4096) :
    ∀ {fuel waited : Nat} {s : State}, writeWaitMs - waited + 2 ≤ fuel →
    Ensures (writeLoop env data fuel 0 waited s) fun r => s.now ≤ r.sink.now ∧
      ((r.off = data.length ∧ r.stop = false ∧ r.sink.piped = s.piped ++ data) ∨
        (r.off = 0 ∧ r.stop = true ∧ r.sink.piped = s.piped ∧ Blocked env data.length s r.sink)) := by
  intro fuel
  induction fuel with
  | zero =>
    intro waited s hfuel
    omega
  | succ fuel ih =>
    intro waited s hfuel
    obtain ⟨fuel, rfl⟩ : ∃ f, fuel = f + 1 := ⟨fuel - 1, by omega⟩
    rw [writeLoop, if_neg (by omega), Nat.sub_zero]
    rcases hatomic s.now data.length hpos hmax with hw | hw | hw
    · -- the next turn finds nothing left
      obtain ⟨n, hn⟩ : ∃ n, data.length = n + 1 := ⟨data.length - 1, by omega⟩
      rw [hn] at hw
      simp only [hn, hw]
      rw [writeLoop, if_pos (by omega)]
      refine ensures_done ⟨Nat.le_succ _, .inl ⟨Nat.zero_add _, rfl, ?_⟩⟩
      simp [← hn]
    · have hblocked : ∀ {s' : State}, s.now < s'.now → Blocked env data.length s s' := fun h =>
        ⟨s.now, Nat.le_refl _, h, .inl hw⟩
      have halive := now_le_childAlive env s.tick
      rw [now_tick] at halive
      simp only [hw]
      split
      · exact ensures_done ⟨Nat.le_succ _, .inr ⟨rfl, rfl, rfl, hblocked (Nat.lt_succ_self _)⟩⟩
      · next hwait =>
        split
        · refine (ih (by omega)).mono fun r hr => ⟨by omega, ?_⟩
          rw [piped_childAlive, piped_tick] at hr
          exact hr.2.imp_right fun h => ⟨h.1, h.2.1, h.2.2.1, hblocked (by omega)⟩
        · exact ensures_done ⟨(Nat.le_succ _).trans halive, .inr ⟨rfl, rfl, by simp, hblocked halive⟩⟩
    · simp only [hw]
      exact ensures_done ⟨Nat.le_succ _, .inr ⟨rfl, rfl, rfl, s.now, Nat.le_refl _, Nat.lt_succ_self _, .inr hw⟩⟩

/-! ## One call -/

/-- The samples up to `k` have gone out behind `base`, in whole frames. -/
structure Sent (gain : Int) (pcm : List Int16) (base : Bytes) (k : Nat) (s : State) : Prop where
  le : k ≤ pcm.length
  even : Even k
  piped : s.piped = base ++ pcmBytes gain (pcm.take k)

omit hatomic in
theorem Sent.nothing (pcm : List Int16) {base : Bytes} {s : State} (h : s.piped = base) : Sent gain pcm base 0 s :=
  ⟨Nat.zero_le _, Even.zero, h.trans (List.append_nil _).symm⟩

/-- The samples go out chunk by chunk, and the first one does unless the pipe turns it away. -/
theorem chunkLoop_ensures {pcm : List Int16} (heven : Even pcm.length) {base : Bytes} :
    ∀ {fuel accepted waited : Nat} {s : State}, pcm.length - accepted + 1 ≤ fuel → Sent gain pcm base accepted s →
    Ensures (chunkLoop env gain pcm fuel accepted waited s) fun r => Sent gain pcm base r.1 r.2 ∧ s.now ≤ r.2.now ∧
      accepted ≤ r.1 ∧ (r.1 = accepted → accepted < pcm.length →
        Blocked env (min (pcm.length - accepted) gainBufN * 2) s r.2) := by
  intro fuel
  induction fuel with
  | zero =>
    intro accepted waited s hfuel
    omega
  | succ fuel ih =>
    intro accepted waited s hfuel hsent
    rw [chunkLoop]
    split
    · exact ensures_done ⟨hsent, Nat.le_refl _, Nat.le_refl _, fun _ hlt => absurd hlt (by omega)⟩
    · next hmore =>
      dsimp only
      have hle := hsent.le
      have hbuf : gainBufN = 2048 := rfl
      generalize hchunk : min (pcm.length - accepted) gainBufN = chunk
      -- the buffer holds an even number of samples, so every chunk does
      have hchunk_even : Even chunk := by
        rw [← hchunk]
        rcases Nat.le_total (pcm.length - accepted) gainBufN with h | h
        · rw [Nat.min_eq_left h]
          exact (Nat.even_sub hle).2 (iff_of_true heven hsent.even)
        · rw [Nat.min_eq_right h]
          decide
      have hslice : ((pcm.drop accepted).take chunk).length = chunk := by
        rw [List.length_take, List.length_drop]
        omega
      have hdata := length_pcmBytes gain ((pcm.drop accepted).take chunk)
      rw [hslice] at hdata
      refine (writeLoop_ensures hatomic (by omega) (by omega) (by omega)).bind fun r hr => ?_
      obtain ⟨hnow, ⟨hoff, hstop, hpiped⟩ | ⟨hoff, hstop, hpiped, hblocked⟩⟩ := hr
      · have hnext : accepted + r.off / 2 = accepted + chunk := by omega
        have hsent' : Sent gain pcm base (accepted + chunk) r.sink := by
          refine ⟨by omega, hsent.even.add hchunk_even, ?_⟩
          rw [hpiped, hsent.piped, List.append_assoc, pcmBytes_take_add]
        rw [hstop, if_neg (by decide), hnext]
        exact (ih (by omega) hsent').mono fun r' hr' =>
          ⟨hr'.1, by omega, by omega, fun hsame => absurd hsame (by omega)⟩
      · have hsame : accepted + r.off / 2 = accepted := by omega
        rw [hstop, if_pos rfl, hsame]
        rw [hdata] at hblocked
        exact ensures_done
          ⟨⟨hle, hsent.even, hpiped.trans hsent.piped⟩, hnow, Nat.le_refl _, fun _ _ => hblocked⟩

/-- What keeps a call of `sink_write` from `s` to `s'` from sending anything of `pcm`: the pipe turned the first chunk
away, a child could not be spawned, or there is none and the attempts to spawn one are used up. -/
def Hindered (env : Env) (pcm : List Int16) (s s' : State) : Prop :=
  Blocked env (min pcm.length gainBufN * 2) s s' ∨ (∃ t, s.now ≤ t ∧ t < s'.now ∧ env.spawned t = false) ∨
    s'.child = false ∧ 1000 ≤ s'.spawnAttempts

/-- **One call of `sink_write`.** It ends, has sent as many samples from the front as it says, and does not say 0 for
nothing. -/
theorem sinkWrite_ensures {pcm : List Int16} (heven : Even pcm.length) (s : State) :
    Ensures (sinkWrite env gain pcm s) fun r => ∃ k : Nat, r.1 = k ∧ Sent gain pcm s.piped k r.2 ∧ s.now ≤ r.2.now ∧
      (k = 0 → 0 < pcm.length → Hindered env pcm s r.2) := by
  have hwrite : ∀ {s' : State}, s'.piped = s.piped → s.now ≤ s'.now →
      Ensures ((chunkLoop env gain pcm (pcm.length + 1) 0 0 s').bind fun r => .done ((r.1 : Int), r.2))
        fun r => ∃ k : Nat, r.1 = k ∧ Sent gain pcm s.piped k r.2 ∧ s.now ≤ r.2.now ∧
          (k = 0 → 0 < pcm.length → Hindered env pcm s r.2) := fun hpiped hle =>
    (chunkLoop_ensures hatomic gain heven (by omega) (.nothing gain pcm hpiped)).bind fun r hr =>
      ensures_done ⟨r.1, rfl, hr.1, hle.trans hr.2.1, fun hzero hpos => .inl ((hr.2.2.2 hzero hpos).of_le hle)⟩
  have halive := now_le_childAlive env s
  rw [sinkWrite]
  dsimp only
  split_ifs with hnone hgone hspent hspawn
  · exact ensures_done ⟨0, rfl, .nothing gain pcm rfl, Nat.le_refl _, fun _ hpos => absurd hpos (by omega)⟩
  · exact hwrite (piped_childAlive env s) halive
  · exact ensures_done ⟨0, rfl, .nothing gain pcm (piped_childAlive env s), halive,
      fun _ _ => .inr (.inr ⟨child_of_not_alive hgone, hspent⟩)⟩
  · refine hwrite (by simp) ?_
    rw [now_spawnChild]
    exact halive.trans (Nat.le_succ _)
  · -- `spawned` is asked at the time the child was found gone
    refine ensures_done ⟨0, rfl, .nothing gain pcm (by simp), ?_, fun _ _ => .inr (.inl ?_)⟩
    · rw [now_spawnChild]
      exact halive.trans (Nat.le_succ _)
    · refine ⟨(childAlive env s).2.now, halive, ?_, ?_⟩
      · rw [now_spawnChild]
        exact Nat.lt_succ_self _
      · rw [spawnChild] at hspawn
        split_ifs at hspawn with hs
        · exact absurd rfl hspawn
        · exact Bool.eq_false_of_not_eq_true hs

/-! ## The packet -/

/-- `k` calls of `sink_write` in a row, each hindered, that sent nothing of `rest`. Before each the player reads the
generation and whether the session is torn down. -/
inductive Refused (env : Env) (gain : Int) (rest : List Int16) : Nat → State → State → Prop
  | none (s : State) : Refused env gain rest 0 s s
  | again {k : Nat} {s₀ s s' : State} (before : Refused env gain rest k s₀ s)
      (call : sinkWrite env gain rest s.tick.tick = .done (0, s')) (hindered : Hindered env rest s.tick.tick s') :
      Refused env gain rest (k + 1) s₀ s'

/-- Why the player leaves a packet after `r` samples: it is through, it just read a flush or the teardown, or the sink
took nothing for longer than it retries. -/
def Left (env : Env) (gain : Int) (pcm : List Int16) (abortGen : UInt32) (start r : Nat) (s' : State) : Prop :=
  r = pcm.length ∨ (∃ t, start ≤ t ∧ s'.now = t + 1 ∧ (env.gen t ≠ abortGen ∨ env.tornDown t = true)) ∨
    ∃ s₀ : State, start ≤ s₀.now ∧ Refused env gain (pcm.drop r) (maxBackoffRetries + 1) s₀ s'

theorem writeAllLoop_ensures {pcm : List Int16} (heven : Even pcm.length) (abortGen : UInt32) {base : Bytes}
    {start : Nat} :
    ∀ {fuel off backoff : Nat} {s₀ s : State},
    (pcm.length - off) * (maxBackoffRetries + 2) + (maxBackoffRetries + 1 - backoff) + 1 ≤ fuel →
    backoff ≤ maxBackoffRetries → Sent gain pcm base off s → start ≤ s₀.now → start ≤ s.now →
    Refused env gain (pcm.drop off) backoff s₀ s →
    Ensures (writeAllLoop env gain pcm abortGen fuel off backoff s) fun r =>
      Sent gain pcm base r.1 r.2 ∧ Left env gain pcm abortGen start r.1 r.2 := by
  intro fuel
  induction fuel with
  | zero =>
    intro off backoff s₀ s hfuel
    omega
  | succ fuel ih =>
    intro off backoff s₀ s hfuel hback hsent hstart₀ hstart hrefused
    have hle := hsent.le
    rw [writeAllLoop]
    by_cases hall : pcm.length ≤ off
    · rw [if_pos hall]
      exact ensures_done ⟨hsent, .inl (Nat.le_antisymm hle hall)⟩
    rw [if_neg hall]
    by_cases hgen : env.gen s.now ≠ abortGen
    · rw [if_pos hgen]
      exact ensures_done ⟨⟨hle, hsent.even, hsent.piped⟩, .inr (.inl ⟨s.now, hstart, rfl, .inl hgen⟩)⟩
    rw [if_neg hgen]
    by_cases hdown : env.tornDown s.tick.now = true
    · rw [if_pos hdown]
      exact ensures_done
        ⟨⟨hle, hsent.even, hsent.piped⟩, .inr (.inl ⟨s.tick.now, Nat.le_succ_of_le hstart, rfl, .inr hdown⟩)⟩
    rw [if_neg hdown]
    have hrest : Even (pcm.drop off).length := by
      rw [List.length_drop]
      exact (Nat.even_sub hle).2 (iff_of_true heven hsent.even)
    obtain ⟨r, hcall, k, hk, hmore, hnow, hzero⟩ := sinkWrite_ensures hatomic gain hrest s.tick.tick
    rw [hcall]
    change Ensures (if r.1 < 0 then _ else _) _
    have hkle := hmore.le
    rw [List.length_drop] at hkle hzero
    rw [now_tick, now_tick] at hnow
    have hnext : Sent gain pcm base (off + k) r.2 := by
      refine ⟨by omega, hsent.even.add hmore.even, ?_⟩
      rw [hmore.piped, piped_tick, piped_tick, hsent.piped, List.append_assoc, pcmBytes_take_add]
    rw [hk, if_neg (by omega)]
    rcases Nat.eq_zero_or_pos k with rfl | hpos
    · have hrefused' : Refused env gain (pcm.drop off) (backoff + 1) s₀ r.2 :=
        hrefused.again (hcall.trans (congrArg Checked.done (Prod.ext hk rfl))) (hzero rfl (by omega))
      rw [if_pos (by omega)]
      rw [Nat.add_zero] at hnext
      split
      · next hspent =>
        obtain rfl : backoff = maxBackoffRetries := by omega
        exact ensures_done ⟨hnext, .inr (.inr ⟨s₀, hstart₀, hrefused'⟩)⟩
      · exact ih (by omega) (by omega) hnext hstart₀ (by omega) hrefused'
    · rw [if_neg (by omega), Int.toNat_natCast]
      -- a sample accepted pays for all the retries that may follow
      have hprogress : (pcm.length - (off + k)) * (maxBackoffRetries + 2) + (maxBackoffRetries + 2) ≤
          (pcm.length - off) * (maxBackoffRetries + 2) := by
        rw [← Nat.succ_mul]
        exact Nat.mul_le_mul_right _ (by omega)
      exact ih (by omega) (Nat.zero_le _) hnext (by omega) (by omega) (.none r.2)

end Runs

/-- **A packet reaches the pipe in order, whole and once.** For every packet of an even number of samples, every gain,
and every schedule of full pipes, errors, deaths and spawns of the child, flushes and teardowns: the call ends, and what
has been written during it are the scaled samples up to the count it returns, which is even. The count is that of the
packet unless the player read a flush or the teardown at the end, or the last 201 calls of `sink_write` sent nothing,
each for a `write` or `posix_spawn` that failed or because the attempts to spawn are used up. -/
theorem sinkWriteAll_in_order {env : Env} (hatomic : Atomic env) (gain : Int) {pcm : List Int16} (heven : Even pcm.length)
    (abortGen : UInt32) (s : State) :
    ∃ r s', sessionSinkWriteAll env gain pcm abortGen s = .done (r, s') ∧ r ≤ pcm.length ∧ Even r ∧
      s'.piped = s.piped ++ pcmBytes gain (pcm.take r) ∧ Left env gain pcm abortGen s.now r s' := by
  have hrun : Ensures (sessionSinkWriteAll env gain pcm abortGen s) fun r =>
      Sent gain pcm s.piped r.1 r.2 ∧ Left env gain pcm abortGen s.now r.1 r.2 := by
    rw [sessionSinkWriteAll]
    split
    · next hempty => exact ensures_done ⟨.nothing gain pcm rfl, .inl (Nat.le_zero.1 hempty).symm⟩
    · refine writeAllLoop_ensures hatomic gain heven abortGen ?_ (Nat.zero_le _) (.nothing gain pcm rfl)
        (Nat.le_refl _) (Nat.le_refl _) (.none s)
      rw [Nat.sub_zero, Nat.add_mul]
      omega
  obtain ⟨r, hr, hsent, hleft⟩ := hrun
  exact ⟨r.1, r.2, hr, hsent.le, hsent.even, hsent.piped, hleft⟩

/-- A pipe that is full every third time, and a child that dies once. -/
def flakyEnv : Env where
  exited t := t == 4
  spawned _ := true
  write t n := if t % 3 = 0 then .again else if t = 7 then .failed else .took n
  gen _ := 5
  tornDown _ := false

/-- The first call finds the pipe full and then the child dead; the second spawns another and sends the packet. -/
theorem sinkWriteAll_flaky :
    Atomic flakyEnv ∧ sessionSinkWriteAll flakyEnv 128 [100, -100, 7, 8] 5 ⟨true, 0, 0, 0, []⟩ =
      .done (4, ⟨true, 1, 1, 9, [50, 0, 206, 255, 3, 0, 4, 0]⟩) ∧
    pcmBytes 128 ([100, -100, 7, 8].take 4) = [50, 0, 206, 255, 3, 0, 4, 0] ∧
    Left flakyEnv 128 [100, -100, 7, 8] 5 0 4 ⟨true, 1, 1, 9, [50, 0, 206, 255, 3, 0, 4, 0]⟩ := by
  have hatomic : Atomic flakyEnv := by
    intro t n _ _
    simp only [flakyEnv]
    split_ifs <;> simp
  have hcall : sessionSinkWriteAll flakyEnv 128 [100, -100, 7, 8] 5 ⟨true, 0, 0, 0, []⟩ =
      .done (4, ⟨true, 1, 1, 9, [50, 0, 206, 255, 3, 0, 4, 0]⟩) := by
    decide +kernel
  obtain ⟨r, s', hrun, -, -, hpiped, hleft⟩ := sinkWriteAll_in_order hatomic 128
    (by decide : Even [100, -100, 7, (8 : Int16)].length) 5 ⟨true, 0, 0, 0, []⟩
  obtain ⟨rfl, rfl⟩ := Prod.mk.inj (Checked.done.inj (hrun.symm.trans hcall))
  exact ⟨hatomic, hcall, hpiped.symm, hleft⟩

end ShairKindle.Sink
