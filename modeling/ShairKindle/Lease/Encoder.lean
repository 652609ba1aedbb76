import ShairKindle.Lease.Basic
import ShairKindle.Lib.Bytes

/-! # Keys to commands (`shairkindle/NowPlayingEncoder.java`)

The page-turn bars repeat while they are held, and one press should give one command. The encoder gates the
commands with a single flag for all keys: a mapped press sets it, any release clears it.

| here           | there                                                       |
|----------------|-------------------------------------------------------------|
| `route`        | the event `InputRouter.route` enqueues (InputRouter.java:50) |
| `encode`       | `encode` (NowPlayingEncoder.java:10); it does not read `seq` |
| `mapKey`       | `map` (NowPlayingEncoder.java:21)                           |
| `held`         | the keys that are physically down                           |

So while a second key is held, the release of the first lets the second's next auto-repeat through
(`release_lets_repeat_through`). `one_command_per_press_iff` says on which key sequences one press is one command.
-/

namespace ShairKindle.Lease.NowPlayingEncoder

open Bytes

/-- A key edge, as the router enqueues it. -/
def route (keyCode : Int) (pressed : Bool) (currentTimeMillis : Int) : OutboundEvent :=
  ⟨.key, keyCode, pressed, currentTimeMillis.bmod (2 ^ 32)⟩

def mapKey (code : Int) : Option Bytes :=
  if code = 61448 ∨ code = 61449 then some (ascii "NEXT\n")
  else if code = 61450 then some (ascii "PREV\n")
  else if code = 61451 then some (ascii "PLAYPAUSE\n")
  else none

/-- The next `pressActive` and what is sent; `none` is `null`. -/
def encode (pressActive : Bool) (e : OutboundEvent) : Bool × Option Bytes :=
  match e.kind with
  | .hello => (pressActive, some (ascii "HELLO 1\n"))
  | .heartbeat => (pressActive, some (ascii "PING\n"))
  | .key =>
    if !e.pressed then (false, none)
    else if pressActive then (pressActive, none)
    else
      match mapKey e.keyCode with
      | none => (pressActive, none)
      | some cmd => (true, some cmd)

/-- `pressActive` after the events. -/
def pressActive (evs : List OutboundEvent) : Bool := (Machine.run encode false evs).1

/-- What is sent for `e` after the events `pre`. -/
def sent (pre : List OutboundEvent) (e : OutboundEvent) : Option Bytes := (encode (pressActive pre) e).2

/-! ## Physical presses -/

def heldStep (held : Int → Bool) (e : OutboundEvent) : Int → Bool :=
  if e.kind = .key then Function.update held e.keyCode e.pressed else held

/-- The keys held after the events. -/
def held (evs : List OutboundEvent) : Int → Bool := evs.foldl heldStep fun _ => false

/-- Each key alternates: a press, auto-repeats, a release. -/
def AlternatesFrom : (Int → Bool) → List OutboundEvent → Prop
  | _, [] => True
  | h, e :: es => (e.kind = .key → e.pressed = false → h e.keyCode = true) ∧ AlternatesFrom (heldStep h e) es

def Alternates (evs : List OutboundEvent) : Prop := AlternatesFrom (fun _ => false) evs

instance AlternatesFrom.decidable : (h : Int → Bool) → (evs : List OutboundEvent) → Decidable (AlternatesFrom h evs)
  | _, [] => .isTrue trivial
  | h, e :: es =>
    have := AlternatesFrom.decidable (heldStep h e) es
    inferInstanceAs (Decidable ((_ → _ → _) ∧ _))

instance (evs : List OutboundEvent) : Decidable (Alternates evs) := AlternatesFrom.decidable _ evs

/-- A press, of a key that is not held yet. -/
def FirstPress (pre : List OutboundEvent) (e : OutboundEvent) : Prop :=
  e.kind = .key ∧ e.pressed = true ∧ held pre e.keyCode = false

/-- A press of a key that is held. -/
def AutoRepeat (pre : List OutboundEvent) (e : OutboundEvent) : Prop :=
  e.kind = .key ∧ e.pressed = true ∧ held pre e.keyCode = true

/-- How many commands the events of the key send, after the events `pre`. -/
def commandsOf (key : Int) : List OutboundEvent → List OutboundEvent → Nat
  | _, [] => 0
  | pre, e :: es =>
    (if e.kind = .key ∧ e.keyCode = key ∧ (sent pre e).isSome then 1 else 0) + commandsOf key (pre ++ [e]) es

/-- A command is sent on the first event of a press only, and it is the one its key is mapped to. From that event up to
the release of the key its events send one command at most, and its auto-repeats none. -/
structure OneCommandPerPress (evs : List OutboundEvent) : Prop where
  first : ∀ pre e post cmd, evs = pre ++ e :: post → e.kind = .key → sent pre e = some cmd →
    FirstPress pre e ∧ mapKey e.keyCode = some cmd
  once : ∀ pre e es post, evs = pre ++ (e :: es) ++ post → FirstPress pre e →
    (∀ x ∈ es, x.kind = .key → x.keyCode = e.keyCode → x.pressed = true) → commandsOf e.keyCode pre (e :: es) ≤ 1
  repeats : ∀ pre e post, evs = pre ++ e :: post → AutoRepeat pre e → sent pre e = none

/-! ## The flag -/

/-- A press of a mapped key. -/
def MappedPress (e : OutboundEvent) : Prop := e.kind = .key ∧ e.pressed = true ∧ (mapKey e.keyCode).isSome = true

def IsRelease (e : OutboundEvent) : Prop := e.kind = .key ∧ e.pressed = false

/-- A mapped key has been pressed since the last release of any key. -/
def Gated (evs : List OutboundEvent) : Prop :=
  ∃ pre e post, evs = pre ++ e :: post ∧ MappedPress e ∧ ∀ x ∈ post, ¬ IsRelease x

theorem pressActive_concat (evs : List OutboundEvent) (e : OutboundEvent) :
    pressActive (evs ++ [e]) = (encode (pressActive evs) e).1 := by
  rw [pressActive, Machine.run_concat]
  rfl

theorem encode_fst (b : Bool) (e : OutboundEvent) : (encode b e).1 = true ↔ MappedPress e ∨ b = true ∧ ¬ IsRelease e := by
  rcases hk : e.kind with _ | _ | _
  · simp [encode, MappedPress, IsRelease, hk]
  · cases hp : e.pressed <;> cases b <;> cases hm : mapKey e.keyCode <;>
      simp [encode, MappedPress, IsRelease, hk, hp, hm]
  · simp [encode, MappedPress, IsRelease, hk]

theorem gated_concat (evs : List OutboundEvent) (e : OutboundEvent) :
    Gated (evs ++ [e]) ↔ MappedPress e ∨ Gated evs ∧ ¬ IsRelease e := by
  constructor
  · rintro ⟨pre, d, post, heq, hd, hpost⟩
    rcases List.eq_nil_or_concat post with rfl | ⟨post, x, rfl⟩
    · obtain rfl := List.singleton_inj.1 (List.append_inj' heq rfl).2
      exact .inl hd
    · rw [List.concat_eq_append] at heq hpost
      rw [← List.cons_append, ← List.append_assoc] at heq
      obtain ⟨rfl, hx⟩ := List.append_inj' heq rfl
      obtain rfl := List.singleton_inj.1 hx
      exact .inr ⟨⟨pre, d, post, rfl, hd, fun x hx => hpost x (List.mem_append_left _ hx)⟩, hpost _ (by simp)⟩
  · rintro (he | ⟨⟨pre, d, post, rfl, hd, hpost⟩, he⟩)
    · exact ⟨evs, e, [], rfl, he, by simp⟩
    · refine ⟨pre, d, post ++ [e], by simp, hd, ?_⟩
      intro x hx
      rcases List.mem_append.1 hx with hx | hx
      · exact hpost x hx
      · obtain rfl := List.mem_singleton.1 hx
        exact he

/-- **The flag.** It is set exactly while a mapped press has come since the last release. -/
theorem pressActive_iff_gated (evs : List OutboundEvent) : pressActive evs = true ↔ Gated evs := by
  induction evs using List.reverseRecOn with
  | nil =>
    refine iff_of_false (by decide) ?_
    rintro ⟨pre, e, post, heq, -⟩
    exact absurd heq (by simp)
  | append_singleton evs e ih => rw [pressActive_concat, encode_fst, gated_concat, ih]

/-- What a key event sends. -/
theorem sent_eq_some_iff {pre : List OutboundEvent} {e : OutboundEvent} {cmd : Bytes} (hk : e.kind = .key) :
    sent pre e = some cmd ↔ e.pressed = true ∧ ¬ Gated pre ∧ mapKey e.keyCode = some cmd := by
  rw [← pressActive_iff_gated, sent]
  cases hp : e.pressed <;> cases hb : pressActive pre <;> cases hm : mapKey e.keyCode <;> simp [encode, hk, hp, hm]

/-! ## Which sequences keep the law -/

/-- Whenever a mapped key repeats, some mapped key has been pressed since the last release. -/
def RepeatsGated (evs : List OutboundEvent) : Prop :=
  ∀ pre e post, evs = pre ++ e :: post → AutoRepeat pre e → (mapKey e.keyCode).isSome = true → Gated pre

theorem held_concat (evs : List OutboundEvent) (e : OutboundEvent) : held (evs ++ [e]) = heldStep (held evs) e := by
  rw [held, List.foldl_append]
  rfl

/-- A key stays held as long as it is not released. -/
theorem held_concat_of_held {evs : List OutboundEvent} {e : OutboundEvent} {key : Int} (h : held evs key = true)
    (he : e.kind = .key → e.keyCode = key → e.pressed = true) : held (evs ++ [e]) key = true := by
  rw [held_concat, heldStep]
  split
  · next hk =>
    by_cases hkey : e.keyCode = key
    · rw [← hkey, Function.update_self, he hk hkey]
    · rw [Function.update_of_ne (Ne.symm hkey), h]
  · exact h

/-- While a key is held, its events send nothing if auto-repeats send nothing. -/
theorem commandsOf_held {evs : List OutboundEvent} {key : Int}
    (hrep : ∀ pre e post, evs = pre ++ e :: post → AutoRepeat pre e → sent pre e = none) (es : List OutboundEvent) :
    ∀ pre post, evs = pre ++ es ++ post → held pre key = true →
      (∀ x ∈ es, x.kind = .key → x.keyCode = key → x.pressed = true) → commandsOf key pre es = 0 := by
  induction es with
  | nil => exact fun _ _ _ _ _ => rfl
  | cons e es ih =>
    intro pre post heq hheld hes
    have hfirst : ¬ (e.kind = .key ∧ e.keyCode = key ∧ (sent pre e).isSome) := by
      rintro ⟨hk, rfl, hsome⟩
      have hnone := hrep pre e (es ++ post) (by rw [heq, List.append_assoc]; rfl)
        ⟨hk, hes e List.mem_cons_self hk rfl, hheld⟩
      rw [hnone] at hsome
      cases hsome
    have hnext := held_concat_of_held hheld (hes e List.mem_cons_self)
    rw [commandsOf, if_neg hfirst, Nat.zero_add]
    exact ih (pre ++ [e]) post (by simp [heq]) hnext fun x hx => hes x (List.mem_cons_of_mem _ hx)

/-- **One press, one command, exactly when the repeats are gated.** For every sequence of events, whatever the keys
and however their presses overlap: one command goes out per physical press, on its first event, if and only if at
each auto-repeat of a mapped key no key has been released since the last mapped press. -/
theorem one_command_per_press_iff (evs : List OutboundEvent) : OneCommandPerPress evs ↔ RepeatsGated evs := by
  constructor
  · intro h pre e post heq hrep hmapped
    by_contra hnot
    obtain ⟨cmd, hcmd⟩ := Option.isSome_iff_exists.1 hmapped
    have hsent := (sent_eq_some_iff hrep.1).2 ⟨hrep.2.1, hnot, hcmd⟩
    rw [h.repeats pre e post heq hrep] at hsent
    cases hsent
  · intro h
    have hrep : ∀ pre e post, evs = pre ++ e :: post → AutoRepeat pre e → sent pre e = none := by
      intro pre e post heq hrep
      rw [Option.eq_none_iff_forall_ne_some]
      intro cmd hcmd
      obtain ⟨-, hnot, hmap⟩ := (sent_eq_some_iff hrep.1).1 hcmd
      exact hnot (h pre e post heq hrep (by rw [hmap]; rfl))
    refine ⟨?_, ?_, hrep⟩
    · intro pre e post cmd heq hk hcmd
      obtain ⟨hp, -, hmap⟩ := (sent_eq_some_iff hk).1 hcmd
      refine ⟨⟨hk, hp, eq_false_of_ne_true fun hheld => ?_⟩, hmap⟩
      rw [hrep pre e post heq ⟨hk, hp, hheld⟩] at hcmd
      cases hcmd
    · intro pre e es post heq hfirst hes
      have hheld : held (pre ++ [e]) e.keyCode = true := by
        rw [held_concat, heldStep, if_pos hfirst.1, Function.update_self, hfirst.2.1]
      have hrest := commandsOf_held hrep es (pre ++ [e]) post (by simp [heq]) hheld hes
      rw [commandsOf, hrest]
      split <;> omega

/-- The bar at 61448 is held, another key is pressed and released, the bar repeats and is released: `NEXT` goes out
twice for one press. -/
def tapWhileHeld : List OutboundEvent :=
  [route 61448 true 0, route 10 true 1, route 10 false 2, route 61448 true 3, route 61448 false 4]

theorem release_lets_repeat_through :
    Alternates tapWhileHeld ∧
      (Machine.run encode false tapWhileHeld).2 = [some (ascii "NEXT\n"), none, none, some (ascii "NEXT\n"), none] ∧
      ¬ OneCommandPerPress tapWhileHeld := by
  refine ⟨by decide +kernel, by decide +kernel, fun h => ?_⟩
  have hnone := h.repeats [route 61448 true 0, route 10 true 1, route 10 false 2] (route 61448 true 3)
    [route 61448 false 4] rfl ⟨rfl, rfl, by decide +kernel⟩
  exact absurd hnone (by decide +kernel)

end ShairKindle.Lease.NowPlayingEncoder
