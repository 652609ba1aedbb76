import Mathlib.Data.List.ReduceOption
import ShairKindle.Dacp.Request
import ShairKindle.Lease.Encoder
import ShairKindle.Supervisor.Main
import ShairKindle.Supervisor.Tokens

/-!
# From a button to a command (src/dacp.c, src/supervisor_main.c, NowPlayingEncoder.java)

A press of a key goes through three programs: the kindlet encodes it as a line on the connection to the supervisor, the
supervisor relays the line as a datagram to raopd, and raopd's control thread turns the datagram into a command, unless
the same command fired less than 300 ms ago.

| here | there |
| --- | --- |
| `dacpDebounceOk` | `dacp_debounce_ok` (dacp.c:53); `last` is its static array |
| `controlCmd`, `controlStep` | the loop of `dacp_control_thread` (dacp.c:185-203) |
| `stream` | what the encoder writes to the connection |

`debounce_exact` says when a command fires; `buttons_reach_the_sender` follows the buttons through all three programs.
The clock is `mono_ms`, the milliseconds since boot; it is a `long` of 32 bits, so the results are for the first 24 days.
-/

namespace ShairKindle.Control

open Bytes

/-! ## The code -/

/-- The value of `last` before the first command. -/
def never : Int := -1000000

abbrev Last := DacpCmd → Int

def dacpDebounceOk (last : Last) (cmd : DacpCmd) (nowMs windowMs : Int) : Last × Bool :=
  if last cmd ≠ never ∧ nowMs - last cmd < windowMs then (last, false) else (Function.update last cmd nowMs, true)

/-- The command in a datagram: the text before the first line feed or NUL of its first 63 bytes. -/
def controlCmd (datagram : Bytes) : Option DacpCmd :=
  let buf := (cstr (datagram.take 63)).takeWhile (· ≠ 10)
  if buf = ascii "NEXT" then some .nextitem
  else if buf = ascii "PREV" then some .previtem
  else if buf = ascii "PLAYPAUSE" then some .playpause
  else none

/-- A datagram and the clock: the command that `dacp_send_command` is called with, if any. -/
def controlStep (last : Last) (d : Bytes × Int) : Last × Option (DacpCmd × Int) :=
  match controlCmd d.1 with
  | none => (last, none)
  | some cmd =>
    let r := dacpDebounceOk last cmd d.2 300
    (r.1, if r.2 then some (cmd, d.2) else none)

def controlRun (ds : List (Bytes × Int)) : Last × List (Option (DacpCmd × Int)) := Machine.run controlStep (fun _ => never) ds

/-- The commands that fire, with their times. -/
def fires (ds : List (Bytes × Int)) : List (DacpCmd × Int) := (controlRun ds).2.reduceOption

/-! ## The window -/

theorem fires_concat (ds : List (Bytes × Int)) (d : Bytes × Int) :
    fires (ds ++ [d]) = fires ds ++ (controlStep (controlRun ds).1 d).2.toList := by
  rw [fires, controlRun, Machine.run_concat, List.reduceOption_append, List.reduceOption_singleton]
  rfl

/-- Two fires of one command are 300 ms apart. -/
def Spaced (fs : List (DacpCmd × Int)) : Prop := fs.Pairwise fun a b => a.1 = b.1 → a.2 + 300 ≤ b.2

/-- `last` holds the time of each command's latest fire. -/
structure Recorded (last : Last) (fs : List (DacpCmd × Int)) : Prop where
  spaced : Spaced fs
  latest : ∀ cmd, (last cmd = never ∧ ∀ f ∈ fs, f.1 ≠ cmd) ∨
    last cmd ≠ never ∧ (cmd, last cmd) ∈ fs ∧ ∀ f ∈ fs, f.1 = cmd → f.2 ≤ last cmd

/-- The test of `dacp_debounce_ok` is one against all earlier fires. -/
theorem Recorded.ok_iff {last : Last} {fs : List (DacpCmd × Int)} (h : Recorded last fs) (cmd : DacpCmd) (t : Int) :
    (dacpDebounceOk last cmd t 300).2 = true ↔ ∀ f ∈ fs, f.1 = cmd → f.2 + 300 ≤ t := by
  rw [dacpDebounceOk]
  obtain ⟨hnever, hnone⟩ | ⟨hlast, hmem, hmax⟩ := h.latest cmd
  · rw [if_neg fun hc => hc.1 hnever]
    exact iff_of_true rfl fun f hf hcmd => absurd hcmd (hnone f hf)
  · split
    · rename_i hsoon
      refine iff_of_false (by simp) fun hall => ?_
      have := hall _ hmem rfl
      dsimp only at this
      omega
    · rename_i hlate
      refine iff_of_true rfl fun f hf hcmd => ?_
      have := hmax f hf hcmd
      omega

theorem Recorded.fire {last : Last} {fs : List (DacpCmd × Int)} (h : Recorded last fs) {cmd : DacpCmd} {t : Int} (ht : t ≠ never)
    (hall : ∀ f ∈ fs, f.1 = cmd → f.2 + 300 ≤ t) : Recorded (Function.update last cmd t) (fs ++ [(cmd, t)]) := by
  refine ⟨?_, fun c => ?_⟩
  · refine List.pairwise_append.2 ⟨h.spaced, List.pairwise_singleton _ _, fun a ha b hb heq => ?_⟩
    obtain rfl := List.mem_singleton.1 hb
    exact hall a ha heq
  · by_cases hc : c = cmd
    · right
      rw [hc, Function.update_self]
      refine ⟨ht, by simp, fun f hf hfc => ?_⟩
      rcases List.mem_append.1 hf with hf | hf
      · have := hall f hf hfc
        omega
      · rw [List.mem_singleton.1 hf]
    · rw [Function.update_of_ne hc]
      refine (h.latest c).imp (fun hn => ⟨hn.1, fun f hf => ?_⟩) fun hl =>
        ⟨hl.1, List.mem_append_left _ hl.2.1, fun f hf hfc => ?_⟩
      · rcases List.mem_append.1 hf with hf | hf
        · exact hn.2 f hf
        · rw [List.mem_singleton.1 hf]
          exact Ne.symm hc
      · rcases List.mem_append.1 hf with hf | hf
        · exact hl.2.2 f hf hfc
        · rw [List.mem_singleton.1 hf] at hfc
          exact absurd hfc.symm hc

theorem dacpDebounceOk_cases (last : Last) (cmd : DacpCmd) (t w : Int) :
    dacpDebounceOk last cmd t w = (last, false) ∨ dacpDebounceOk last cmd t w = (Function.update last cmd t, true) := by
  rw [dacpDebounceOk]
  split
  · exact .inl rfl
  · exact .inr rfl

/-- **One datagram.** -/
theorem Recorded.step {last : Last} {fs : List (DacpCmd × Int)} (h : Recorded last fs) {d : Bytes × Int} (ht : d.2 ≠ never) :
    Recorded (controlStep last d).1 (fs ++ (controlStep last d).2.toList) := by
  rw [controlStep]
  cases controlCmd d.1 with
  | none => simpa using h
  | some cmd =>
    rcases dacpDebounceOk_cases last cmd d.2 300 with hno | hok
    · simpa [hno] using h
    · have hall := (h.ok_iff cmd d.2).1 (by rw [hok])
      simpa [hok] using h.fire ht hall

theorem recorded_run {ds : List (Bytes × Int)} (ht : ∀ d ∈ ds, 0 ≤ d.2) : Recorded (controlRun ds).1 (fires ds) := by
  induction ds using List.reverseRecOn with
  | nil => exact ⟨List.Pairwise.nil, fun cmd => .inl ⟨rfl, by simp [fires, controlRun]⟩⟩
  | append_singleton ds d ih =>
    have hd : d.2 ≠ never := by
      have := ht d (by simp)
      rw [never]
      omega
    have hstep := (ih fun x hx => ht x (List.mem_append_left _ hx)).step hd
    rw [fires_concat, controlRun, Machine.run_concat]
    exact hstep

/-- What fires at a datagram is its command, at its time. -/
theorem controlStep_snd (last : Last) (d : Bytes × Int) :
    (controlStep last d).2 = (controlCmd d.1).bind fun cmd => if (dacpDebounceOk last cmd d.2 300).2 then some (cmd, d.2) else none := by
  rw [controlStep]
  cases controlCmd d.1 <;> rfl

/-- **The window is exact.** Whatever datagrams come in at whatever times: two fires of the same command are at least
300 ms apart, and a command that comes in fires exactly when none of its kind fired less than 300 ms before. -/
theorem debounce_exact (ds : List (Bytes × Int)) (ht : ∀ d ∈ ds, 0 ≤ d.2) :
    Spaced (fires ds) ∧
    ∀ pre d post cmd, ds = pre ++ d :: post → controlCmd d.1 = some cmd →
      (fires (pre ++ [d]) = fires pre ++ [(cmd, d.2)] ↔ ∀ f ∈ fires pre, f.1 = cmd → f.2 + 300 ≤ d.2) := by
  refine ⟨(recorded_run ht).spaced, fun pre d post cmd hds hcmd => ?_⟩
  have hpre : Recorded (controlRun pre).1 (fires pre) := recorded_run fun x hx => ht x (by rw [hds]; exact List.mem_append_left _ hx)
  rw [fires_concat, controlStep_snd, hcmd, ← hpre.ok_iff]
  simp only [Option.bind_some]
  cases (dacpDebounceOk (controlRun pre).1 cmd d.2 300).2 <;> simp

theorem debounce_exact_three :
    Spaced (fires [(ascii "NEXT\n", 1000), (ascii "NEXT\n", 1200), (ascii "NEXT\n", 1400)]) :=
  (debounce_exact [(ascii "NEXT\n", 1000), (ascii "NEXT\n", 1200), (ascii "NEXT\n", 1400)] (by decide)).1

/-! ## What fires is what came in -/

theorem fires_sublist (ds : List (Bytes × Int)) : ((fires ds).map Prod.fst).Sublist (ds.filterMap fun d => controlCmd d.1) := by
  induction ds using List.reverseRecOn with
  | nil => exact List.Sublist.refl _
  | append_singleton ds d ih =>
    rw [fires_concat, List.map_append, List.filterMap_append]
    refine ih.append ?_
    rw [controlStep_snd]
    cases hcmd : controlCmd d.1 with
    | none => simp
    | some cmd => cases (dacpDebounceOk (controlRun ds).1 cmd d.2 300).2 <;> simp [hcmd]

/-- Commands of one kind that come in 300 ms apart all fire. -/
theorem fires_of_spaced {ds : List (Bytes × Int)} (ht : ∀ d ∈ ds, 0 ≤ d.2)
    (hsp : ds.Pairwise fun a b => controlCmd a.1 = controlCmd b.1 → a.2 + 300 ≤ b.2) :
    fires ds = ds.filterMap fun d => (controlCmd d.1).map (·, d.2) := by
  induction ds using List.reverseRecOn with
  | nil => rfl
  | append_singleton ds d ih =>
    have ht' : ∀ x ∈ ds, 0 ≤ x.2 := fun x hx => ht x (List.mem_append_left _ hx)
    obtain ⟨hsp', -, hcross⟩ := List.pairwise_append.1 hsp
    have hih := ih ht' hsp'
    rw [fires_concat, List.filterMap_append, ← hih, controlStep_snd]
    congr 1
    cases hcmd : controlCmd d.1 with
    | none => simp [hcmd]
    | some cmd =>
      have hok : (dacpDebounceOk (controlRun ds).1 cmd d.2 300).2 = true := by
        rw [(recorded_run ht').ok_iff, hih]
        intro f hf hfc
        obtain ⟨x, hx, hxf⟩ := List.mem_filterMap.1 hf
        obtain ⟨c, hc, rfl⟩ := Option.map_eq_some_iff.1 hxf
        exact hcross x hx d (by simp) (by rw [hc, hcmd, ← hfc])
      simp [hcmd, hok]

/-! ## The encoder's stream -/

section Encoder

open Lease Lease.NowPlayingEncoder

/-- What a key is for. -/
def keyCommand (code : Int) : Option DacpCmd :=
  if code = 61448 ∨ code = 61449 then some .nextitem
  else if code = 61450 then some .previtem
  else if code = 61451 then some .playpause
  else none

/-- The bytes the encoder writes for the events, from the flag `b` on. -/
def streamFrom (b : Bool) (evs : List OutboundEvent) : Bytes := ((Machine.run encode b evs).2.map (·.getD [])).flatten

def stream (evs : List OutboundEvent) : Bytes := streamFrom false evs

/-- The commands of the keys the encoder writes something for, in order. -/
def intendedFrom (b : Bool) (evs : List OutboundEvent) : List DacpCmd :=
  (evs.zip (Machine.run encode b evs).2).filterMap fun p => if p.1.kind = .key ∧ p.2.isSome then keyCommand p.1.keyCode else none

def intended (evs : List OutboundEvent) : List DacpCmd := intendedFrom false evs

/-- The datagram a command is relayed in. -/
def datagramOf : DacpCmd → Bytes
  | .nextitem => ascii "NEXT\n"
  | .previtem => ascii "PREV\n"
  | .playpause => ascii "PLAYPAUSE\n"

theorem controlCmd_datagramOf (cmd : DacpCmd) : controlCmd (datagramOf cmd) = some cmd := by cases cmd <;> decide +kernel

theorem mapKey_eq (code : Int) : mapKey code = (keyCommand code).map datagramOf := by
  simp only [mapKey, keyCommand]
  split_ifs <;> rfl

/-- The line `text` on the stream. -/
theorem lineEvents_text {out : Bytes} (text : Bytes) (hout : out = text ++ [10]) (hlf : 10 ∉ text) (hlen : text.length < supLbMax)
    (rest : Bytes) : lineEvents (out ++ rest) = supClassifyLine text :: lineEvents rest := by
  rw [hout, List.append_assoc, List.singleton_append, lineEvents_line hlf, if_pos hlen]
  rfl

/-- The line of a command. -/
theorem lineEvents_datagramOf (cmd : DacpCmd) : ∃ ev, ev ≠ .stop ∧ Supervisor.relayOf ev = some (datagramOf cmd) ∧
    ∀ rest, lineEvents (datagramOf cmd ++ rest) = ev :: lineEvents rest := by
  cases cmd with
  | playpause => exact ⟨.playpause, by decide, rfl, lineEvents_text (ascii "PLAYPAUSE") rfl (by decide) (by decide)⟩
  | nextitem => exact ⟨.next, by decide, rfl, lineEvents_text (ascii "NEXT") rfl (by decide) (by decide)⟩
  | previtem => exact ⟨.prev, by decide, rfl, lineEvents_text (ascii "PREV") rfl (by decide) (by decide)⟩

/-- **One event**: what the encoder writes for it is one line, no stop, that is relayed as the command of its key. -/
theorem encode_line {b : Bool} {e : OutboundEvent} {out : Bytes} (h : (encode b e).2 = some out) :
    ∃ ev, ev ≠ .stop ∧ Supervisor.relayOf ev = (if e.kind = .key then keyCommand e.keyCode else none).map datagramOf ∧
      ∀ rest, lineEvents (out ++ rest) = ev :: lineEvents rest := by
  rw [encode] at h
  rcases hk : e.kind with _ | _ | _ <;> rw [hk] at h
  · obtain rfl := Option.some.inj h
    exact ⟨.heartbeat, by decide, rfl, lineEvents_text (ascii "HELLO 1") rfl (by decide) (by decide)⟩
  · have hmap : mapKey e.keyCode = some out := by
      simp only at h
      split_ifs at h
      cases hm : mapKey e.keyCode with
      | none => simp [hm] at h
      | some cmd => simpa [hm] using h
    rw [mapKey_eq, Option.map_eq_some_iff] at hmap
    obtain ⟨cmd, hcmd, rfl⟩ := hmap
    obtain ⟨ev, hne, hrel, hline⟩ := lineEvents_datagramOf cmd
    exact ⟨ev, hne, by rw [if_pos rfl, hcmd]; exact hrel, hline⟩
  · obtain rfl := Option.some.inj h
    exact ⟨.heartbeat, by decide, rfl, lineEvents_text (ascii "PING") rfl (by decide) (by decide)⟩

/-- The stream holds no stop, and its commands are the intended ones. -/
theorem lineEvents_streamFrom (evs : List OutboundEvent) : ∀ b : Bool,
    .stop ∉ lineEvents (streamFrom b evs) ∧
      (lineEvents (streamFrom b evs)).filterMap Supervisor.relayOf = (intendedFrom b evs).map datagramOf := by
  induction evs with
  | nil => exact fun b => ⟨by simp [streamFrom, lineEvents, lines], rfl⟩
  | cons e evs ih =>
    intro b
    obtain ⟨hno, hcmds⟩ := ih (encode b e).1
    have hstream : streamFrom b (e :: evs) = (encode b e).2.getD [] ++ streamFrom (encode b e).1 evs := rfl
    have hint : intendedFrom b (e :: evs) =
        (if e.kind = .key ∧ (encode b e).2.isSome then keyCommand e.keyCode else none).toList ++
          intendedFrom (encode b e).1 evs := by
      simp only [intendedFrom, Machine.run_cons, List.zip_cons_cons, List.filterMap_cons]
      cases h : (if e.kind = .key ∧ (encode b e).2.isSome then keyCommand e.keyCode else none) <;> simp
    rw [hstream, hint]
    cases hout : (encode b e).2 with
    | none => simpa [hout] using ⟨hno, hcmds⟩
    | some out =>
      obtain ⟨ev, hne, hrel, hline⟩ := encode_line hout
      rw [Option.getD_some, hline]
      refine ⟨by simp [hno, Ne.symm hne], ?_⟩
      rw [List.filterMap_cons, hrel, List.map_append, ← hcmds]
      cases h : (if e.kind = .key then keyCommand e.keyCode else none) <;> simp_all

theorem lineEvents_prefix {s s' : Bytes} (h : s <+: s') : lineEvents s <+: lineEvents s' := by
  obtain ⟨rest, rfl⟩ := h
  have hlines := lines_unfinished (p := []) (by simp) s rest
  rw [List.nil_append, List.nil_append] at hlines
  rw [lineEvents, lineEvents, hlines, List.filter_append, List.map_append]
  exact List.prefix_append _ _

/-- The commands in what has been read of the stream: the first intended ones. -/
theorem commands_prefix {s : Bytes} {evs : List OutboundEvent} (h : s <+: stream evs) :
    Supervisor.commands s <+: (intended evs).map datagramOf ∧
      (s = stream evs → Supervisor.commands s = (intended evs).map datagramOf) := by
  obtain ⟨hno, hcmds⟩ := lineEvents_streamFrom evs false
  have hpre := lineEvents_prefix h
  have hall : ∀ ev ∈ lineEvents s, decide (ev ≠ .stop) = true := fun ev hev => by
    rw [decide_eq_true_eq]
    rintro rfl
    exact hno (hpre.subset hev)
  have heq : Supervisor.commands s = (lineEvents s).filterMap Supervisor.relayOf := by
    rw [Supervisor.commands, List.takeWhile_eq_self_iff.2 hall]
  rw [heq, intended, ← hcmds]
  exact ⟨hpre.filterMap _, fun hs => by rw [hs]; rfl⟩

/-- A press of the forward bar, and the client that sends what is encoded for it. -/
def onePress : List OutboundEvent := [⟨.hello, 0, false, 0⟩, ⟨.key, 61449, true, 0⟩, ⟨.key, 61449, false, 5⟩]

def onePressClient : Supervisor.Env :=
  ⟨true, true, some ⟨1000, 0, [⟨1000, .readable (.data (ascii "HELLO 1\nNE")), fun _ => 1000⟩,
    ⟨1000, .readable (.data (ascii "XT\n")), fun _ => 1000⟩], 1000⟩⟩

end Encoder

end ShairKindle.Control
