import ShairKindle.Lib.Chunks
import ShairKindle.Rtsp.Machine
import ShairKindle.Server.Basic

/-!
# The framer

What the server does with a client's byte stream, without sockets, sessions and now-playing: the
read buffer, the bytes a capture still expects, and the protocol state, which decides whether a
TEARDOWN ends the connection. `framerSplits` says that a chunk may be cut anywhere; `Framing.lean`
shows that the server computes this framer whatever the system answers it.
-/

namespace ShairKindle

open Bytes

/-! ## The protocol state alone -/

/-- The state after a request, as `rtsp_handle` moves it. -/
def protoNext (longMax : Nat) (st : RtspState) (m : RtspMsg) : RtspState :=
  if mth m "ANNOUNCE" then
    match st, m.body with
    | .idle, some b => match sdpParse longMax b with
      | .ok _ => .announced
      | .error _ => .idle
    | st, _ => st
  else if mth m "SETUP" then
    if st = .announced ∧ (rtspHdrCopy m (ascii "Transport") 256).isSome then .setup else st
  else if mth m "RECORD" then if st = .setup then .playing else st
  else if mth m "TEARDOWN" then .idle
  else st

/-- `rtsp_handle` moves the state independently of the rest of the session. -/
theorem rtspDispatch_state (P : Platform) (s : RtspSession) (m : RtspMsg) :
    (rtspDispatch P s m).sess.state = protoNext P.longMax s.state m := by
  unfold rtspDispatch protoNext
  by_cases h : mth m "OPTIONS" = true
  · simp [h, mth_unique h (b := "ANNOUNCE") (by decide), mth_unique h (b := "SETUP") (by decide),
      mth_unique h (b := "RECORD") (by decide), mth_unique h (b := "TEARDOWN") (by decide)]
  rw [if_neg h]; clear h
  by_cases h : mth m "ANNOUNCE" = true
  · rw [if_pos h, if_pos h]
    cases hst : s.state with
    | idle =>
      cases hb : m.body with
      | none => simp [refuse, hst]
      | some b =>
        simp only [ne_eq, not_true_eq_false, if_false]
        cases sdpParse P.longMax b with
        | ok o | error e => rfl
    | announced | setup | playing => simp [refuse, hst]
  rw [if_neg h, if_neg h]; clear h
  by_cases h : mth m "SETUP" = true
  · rw [if_pos h, if_pos h]
    cases rtspHdrCopy m (ascii "Transport") 256 with
    | none => simp [refuse]
    | some tr => by_cases hst : s.state = .announced <;> simp [refuse, hst]
  rw [if_neg h, if_neg h]; clear h
  by_cases h : mth m "RECORD" = true
  · rw [if_pos h, if_pos h]
    by_cases hst : s.state = .setup <;> simp [refuse, hst]
  rw [if_neg h, if_neg h]; clear h
  by_cases h : mth m "FLUSH" = true
  · rw [if_pos h, mth_unique h (b := "TEARDOWN") (by decide)]
    by_cases hst : s.state = .playing <;> simp [refuse, hst, (takeRtpInfo_fields P s m).1]
  rw [if_neg h]; clear h
  by_cases h : mth m "SET_PARAMETER" = true
  · rw [if_pos h, mth_unique h (b := "TEARDOWN") (by decide)]
    cases (volumeText m).bind volumePct <;> rfl
  rw [if_neg h]; clear h
  by_cases h : mth m "GET_PARAMETER" = true
  · rw [if_pos h, mth_unique h (b := "TEARDOWN") (by decide)]
    by_cases hst : s.state ≠ .setup ∧ s.state ≠ .playing <;> simp [refuse, hst]
  rw [if_neg h]; clear h
  by_cases h : mth m "TEARDOWN" = true
  · rw [if_pos h, if_pos h]
  · rw [if_neg h, if_neg h]
    rfl

/-- The request ends the connection: TEARDOWN outside idle. -/
def endsConn (st : RtspState) (m : RtspMsg) : Bool := mth m "TEARDOWN" && st != .idle

/-! ## The framer -/

/-- The framing part of `server_t`. -/
structure Framer where
  isOpen : Bool
  rbuf : Bytes
  remaining : Option Nat
  state : RtspState
deriving DecidableEq

/-- After a teardown. -/
def Framer.closed : Framer := ⟨false, [], none, .idle⟩

/-- What handling a buffered request shows. -/
def inlineObs (m : RtspMsg) : List ServerObs :=
  match inlineBody m with
  | none => []
  | some b => .capture (bodyMode m) m.bodyLen :: b.map .stored ++ [.captureEnd]

/-- Frame `buf`; no capture is under way. -/
def Framer.drain (longMax : Nat) : Nat → RtspState → Bytes → Framer × List ServerObs
  | 0, st, buf => (⟨true, buf, none, st⟩, [])
  | fuel + 1, st, buf =>
    match rtspMsgParse longMax buf with
    | .needHead | .needBody _ _ => (⟨true, buf, none, st⟩, [])
    | .malformed => (.closed, [.malformed])
    | .complete m k =>
      if endsConn st m then (.closed, .request m k :: inlineObs m)
      else
        let t := Framer.drain longMax fuel (protoNext longMax st m) (buf.drop k)
        (t.1, .request m k :: inlineObs m ++ t.2)

/-- Frame all of `buf`: every message takes bytes out of it, so its length is enough fuel. -/
def Framer.drainAll (longMax : Nat) (st : RtspState) (buf : Bytes) : Framer × List ServerObs :=
  Framer.drain longMax buf.length st buf

/-- A full buffer: answer its request from the headers and start to stream the body. -/
def Framer.oversized (longMax : Nat) (F : Framer) : Framer × List ServerObs :=
  match rtspMsgParse longMax F.rbuf with
  | .needBody m k =>
    let obs := .capture (bodyMode m) m.bodyLen :: (F.rbuf.drop k).map .fed ++ [.request m k]
    if endsConn F.state m then (.closed, obs ++ [.captureEnd])
    else (⟨true, [], some (m.bodyLen - (F.rbuf.drop k).length), protoNext longMax F.state m⟩, obs)
  | .needHead | .malformed | .complete _ _ => (.closed, [.malformed])

/-- A chunk is received. -/
def Framer.recv (longMax : Nat) (F : Framer) (chunk : Bytes) : Framer × List ServerObs :=
  let buf := F.rbuf ++ chunk
  match F.remaining with
  | none => Framer.drainAll longMax F.state buf
  | some r =>
    if buf.length < r then ({ F with rbuf := [], remaining := some (r - buf.length) }, buf.map .fed)
    else
      let t := Framer.drainAll longMax F.state (buf.drop r)
      (t.1, (buf.take r).map .fed ++ .captureEnd :: t.2)

/-- Two steps: the second is taken if the first left the connection open. -/
def Framer.andThen (t : Framer × List ServerObs) (f : Framer → Framer × List ServerObs) : Framer × List ServerObs :=
  if t.1.isOpen then ((f t.1).1, t.2 ++ (f t.1).2) else t

/-- A full buffer is dealt with before anything is received. -/
def Framer.ready (longMax : Nat) (F : Framer) : Framer × List ServerObs :=
  if F.rbuf.length = rbufCap ∧ F.remaining = none then F.oversized longMax else (F, [])

/-- A chunk arrives at the socket. -/
def Framer.deliver (longMax : Nat) (F : Framer) (chunk : Bytes) : Framer × List ServerObs :=
  if F.isOpen then Framer.andThen (F.ready longMax) fun G => G.recv longMax chunk else (F, [])

/-- Between two readable events a capture has an empty buffer behind it and bytes to come. -/
def Framer.Ok (F : Framer) : Prop :=
  F.rbuf.length ≤ rbufCap ∧ ∀ r ∈ F.remaining, F.rbuf = [] ∧ 0 < r

/-- The room `recv` is called with. -/
def Framer.room (F : Framer) : Nat :=
  if F.rbuf.length = rbufCap ∧ F.remaining = none then rbufCap else rbufCap - F.rbuf.length

/-- `recv` returned at least one byte and no more than there was room for. -/
def Framer.Fits (F : Framer) (chunk : Bytes) : Prop :=
  chunk ≠ [] ∧ (F.isOpen = true → chunk.length ≤ F.room)

instance (F : Framer) (chunk : Bytes) : Decidable (F.Fits chunk) :=
  inferInstanceAs (Decidable (chunk ≠ [] ∧ (F.isOpen = true → chunk.length ≤ F.room)))

/-! ## Framing a buffer -/

theorem Framer.drain_fuel (longMax : Nat) : ∀ (f g : Nat) (st : RtspState) (buf : Bytes),
    buf.length ≤ f → buf.length ≤ g → Framer.drain longMax f st buf = Framer.drain longMax g st buf
  | 0, 0, st, buf, _, _ => rfl
  | 0, g + 1, st, buf, hf, _ => by
    obtain rfl := List.length_eq_zero_iff.1 (Nat.le_zero.1 hf)
    rfl
  | f + 1, 0, st, buf, _, hg => by
    obtain rfl := List.length_eq_zero_iff.1 (Nat.le_zero.1 hg)
    rfl
  | f + 1, g + 1, st, buf, hf, hg => by
    simp only [Framer.drain]
    cases h : rtspMsgParse longMax buf with
    | needHead => rfl
    | needBody m k => rfl
    | malformed => rfl
    | complete m k =>
      have hk := (rtspMsgParse_complete_bounds h).1
      have hlen : (buf.drop k).length = buf.length - k := List.length_drop
      simp only [Framer.drain_fuel longMax f g (protoNext longMax st m) (buf.drop k) (by omega) (by omega)]

/-- The loop without its fuel. -/
theorem Framer.drainAll_eq (longMax : Nat) (st : RtspState) (buf : Bytes) :
    Framer.drainAll longMax st buf =
      match rtspMsgParse longMax buf with
      | .needHead | .needBody _ _ => (⟨true, buf, none, st⟩, [])
      | .malformed => (.closed, [.malformed])
      | .complete m k =>
        if endsConn st m then (.closed, .request m k :: inlineObs m)
        else
          let t := Framer.drainAll longMax (protoNext longMax st m) (buf.drop k)
          (t.1, .request m k :: inlineObs m ++ t.2) := by
  rw [Framer.drainAll, Framer.drain_fuel longMax buf.length (buf.length + 1) st buf (Nat.le_refl _) (Nat.le_succ _)]
  simp only [Framer.drain]
  cases h : rtspMsgParse longMax buf with
  | needHead => rfl
  | needBody m k => rfl
  | malformed => rfl
  | complete m k =>
    have hlen : (buf.drop k).length ≤ buf.length := by simp
    simp only [Framer.drainAll,
      Framer.drain_fuel longMax buf.length (buf.drop k).length (protoNext longMax st m) (buf.drop k) hlen (Nat.le_refl _)]

/-- What framing leaves: nothing, or a suffix of the buffer with no capture under way. -/
theorem Framer.drainAll_left (longMax : Nat) (st : RtspState) (buf : Bytes) :
    (Framer.drainAll longMax st buf).1.rbuf.length ≤ buf.length ∧
      (Framer.drainAll longMax st buf).1.remaining = none := by
  induction hn : buf.length using Nat.strong_induction_on generalizing st buf with
  | _ n ih =>
    rw [Framer.drainAll_eq]
    cases h : rtspMsgParse longMax buf with
    | needHead | needBody m k => exact ⟨by simp [hn], rfl⟩
    | malformed => exact ⟨Nat.zero_le _, rfl⟩
    | complete m k =>
      obtain ⟨h4, hle⟩ := rtspMsgParse_complete_bounds h
      dsimp only
      split
      · exact ⟨Nat.zero_le _, rfl⟩
      · have hlen : (buf.drop k).length = buf.length - k := List.length_drop
        obtain ⟨i1, i2⟩ := ih (buf.drop k).length (by omega) (protoNext longMax st m) (buf.drop k) rfl
        exact ⟨i1.trans (by omega), i2⟩

/-- **Bytes that come later are framed later.** -/
theorem Framer.drainAll_append (longMax : Nat) (st : RtspState) (buf b : Bytes) :
    Framer.drainAll longMax st (buf ++ b) =
      Framer.andThen (Framer.drainAll longMax st buf) fun F => Framer.drainAll longMax F.state (F.rbuf ++ b) := by
  induction hn : buf.length using Nat.strong_induction_on generalizing st buf with
  | _ n ih =>
    rw [Framer.drainAll_eq longMax st buf]
    cases h : rtspMsgParse longMax buf with
    | needHead | needBody m k => simp [Framer.andThen]
    | malformed =>
      rw [Framer.drainAll_eq, (rtspMsgParse_append b).2 h]
      rfl
    | complete m k =>
      obtain ⟨h4, hle⟩ := rtspMsgParse_complete_bounds h
      rw [Framer.drainAll_eq, (rtspMsgParse_append b).1 m k h]
      dsimp only
      split
      · rfl
      · have hlen : (buf.drop k).length = buf.length - k := List.length_drop
        rw [List.drop_append_of_le_length hle,
          ih (buf.drop k).length (by omega) (protoNext longMax st m) (buf.drop k) rfl]
        unfold Framer.andThen
        split <;> simp

/-! ## Receiving and delivering -/

/-- Two chunks received one after the other are one chunk received. -/
theorem Framer.recv_append {longMax : Nat} {F : Framer} (a b : Bytes) (ho : F.isOpen = true) (hok : F.Ok) :
    F.recv longMax (a ++ b) = Framer.andThen (F.recv longMax a) fun G => G.recv longMax b := by
  unfold Framer.recv
  cases hr : F.remaining with
  | none =>
    dsimp only
    rw [← List.append_assoc, Framer.drainAll_append]
    unfold Framer.andThen
    simp only [(Framer.drainAll_left longMax F.state (F.rbuf ++ a)).2]
  | some r =>
    obtain ⟨hnil, hpos⟩ := hok.2 r hr
    simp only [hnil, List.nil_append]
    by_cases h1 : a.length < r
    · -- the first chunk is all body
      rw [if_pos h1]
      simp only [Framer.andThen, ho, if_true, List.nil_append]
      by_cases h2 : (a ++ b).length < r
      · rw [if_pos h2, if_pos (by rw [List.length_append] at h2; omega)]
        simp [Nat.sub_sub]
      · rw [if_neg h2, if_neg (by rw [List.length_append] at h2; omega)]
        have htake : (a ++ b).take r = a ++ b.take (r - a.length) := by
          rw [List.take_append, List.take_of_length_le (by omega)]
        have hdrop : (a ++ b).drop r = b.drop (r - a.length) := by
          rw [List.drop_append, List.drop_of_length_le (by omega), List.nil_append]
        rw [htake, hdrop]
        simp
    · have h2 : ¬ (a ++ b).length < r := by rw [List.length_append]; omega
      rw [if_neg h1, if_neg h2, List.take_append_of_le_length (by omega), List.drop_append_of_le_length (by omega),
        Framer.drainAll_append]
      unfold Framer.andThen
      simp only [(Framer.drainAll_left longMax F.state (a.drop r)).2]
      split <;> simp

theorem Framer.recv_ok (longMax : Nat) {F : Framer} (chunk : Bytes)
    (hfit : F.rbuf.length + chunk.length ≤ rbufCap) :
    (F.recv longMax chunk).1.Ok ∧ (F.recv longMax chunk).1.rbuf.length ≤ F.rbuf.length + chunk.length := by
  have hdrain : ∀ buf : Bytes, buf.length ≤ F.rbuf.length + chunk.length →
      (Framer.drainAll longMax F.state buf).1.Ok ∧
        (Framer.drainAll longMax F.state buf).1.rbuf.length ≤ F.rbuf.length + chunk.length := by
    intro buf hlen
    obtain ⟨h1, h2⟩ := Framer.drainAll_left longMax F.state buf
    exact ⟨⟨by omega, by simp [h2]⟩, by omega⟩
  unfold Framer.recv
  cases hr : F.remaining with
  | none => exact hdrain (F.rbuf ++ chunk) (by simp)
  | some r =>
    dsimp only
    split
    · refine ⟨⟨Nat.zero_le _, ?_⟩, Nat.zero_le _⟩
      intro q hq
      simp only [Option.mem_def, Option.some.injEq] at hq
      exact ⟨rfl, by omega⟩
    · exact hdrain ((F.rbuf ++ chunk).drop r) (by simp)

/-- A full buffer is emptied into a capture that still expects bytes, or the connection ends. -/
theorem Framer.oversized_ok (longMax : Nat) (F : Framer) :
    (F.oversized longMax).1.Ok ∧ (F.oversized longMax).1.rbuf = [] := by
  have hclosed : Framer.closed.Ok := ⟨Nat.zero_le _, by simp [Framer.closed]⟩
  unfold Framer.oversized
  cases he : rtspMsgParse longMax F.rbuf with
  | needHead => exact ⟨hclosed, rfl⟩
  | malformed => exact ⟨hclosed, rfl⟩
  | complete m k => exact ⟨hclosed, rfl⟩
  | needBody m n =>
    obtain ⟨hn, -, hlt⟩ := rtspMsgParse_eq_needBody he
    dsimp only
    split
    · exact ⟨hclosed, rfl⟩
    · refine ⟨⟨Nat.zero_le _, ?_⟩, rfl⟩
      intro r hr
      have hlen : (F.rbuf.drop n).length = F.rbuf.length - n := List.length_drop
      have hle := (hdrsEnd_eq_some hn).2.1
      simp only [Option.mem_def, Option.some.injEq] at hr
      exact ⟨rfl, by omega⟩

/-- Once ready, a framer has room for a chunk that fits. -/
theorem Framer.ready_ok (longMax : Nat) {F : Framer} {chunk : Bytes} (ho : F.isOpen = true) (hok : F.Ok)
    (hfit : F.Fits chunk) :
    (F.ready longMax).1.Ok ∧ (F.ready longMax).1.rbuf.length + chunk.length ≤ rbufCap := by
  have hroom := hfit.2 ho
  unfold Framer.ready Framer.room at *
  by_cases hfull : F.rbuf.length = rbufCap ∧ F.remaining = none
  · rw [if_pos hfull] at hroom ⊢
    obtain ⟨h1, h2⟩ := Framer.oversized_ok longMax F
    exact ⟨h1, by rw [h2]; simpa using hroom⟩
  · rw [if_neg hfull] at hroom ⊢
    have := hok.1
    exact ⟨hok, by dsimp only; omega⟩

/-- A framer with room left is ready. -/
theorem Framer.ready_of_lt (longMax : Nat) {F : Framer} (h : F.rbuf.length < rbufCap) : F.ready longMax = (F, []) :=
  if_neg (fun hf => by omega)

theorem Framer.deliver_ok {longMax : Nat} {F : Framer} {chunk : Bytes} (hok : F.Ok) (hfit : F.Fits chunk) :
    (F.deliver longMax chunk).1.Ok := by
  unfold Framer.deliver
  split
  · rename_i ho
    obtain ⟨h1, h2⟩ := Framer.ready_ok longMax ho hok hfit
    unfold Framer.andThen
    split
    · exact (Framer.recv_ok longMax chunk h2).1
    · exact h1
  · exact hok

/-- **A chunk may be cut anywhere.** -/
theorem framerSplits (longMax : Nat) : Machine.Splits (Framer.deliver longMax) Framer.Ok Framer.Fits := by
  refine ⟨fun F c hok hfit => Framer.deliver_ok hok hfit, fun F a b hok ha hb hfit => ?_⟩
  have hblen : 0 < b.length := List.length_pos_of_ne_nil hb
  have hfa : F.Fits a := ⟨ha, fun ho => by
    have := hfit.2 ho
    rw [List.length_append] at this
    omega⟩
  cases ho : F.isOpen with
  | false =>
    have hd : ∀ c, Framer.deliver longMax F c = (F, []) := fun c => by simp [Framer.deliver, ho]
    refine ⟨hfa, ?_, by simp [hd]⟩
    rw [hd]
    exact ⟨hb, fun h => by simp [ho] at h⟩
  | true =>
    obtain ⟨h1, h2⟩ := Framer.ready_ok longMax ho hok hfit
    rw [List.length_append] at h2
    have hd : ∀ c, Framer.deliver longMax F c = Framer.andThen (F.ready longMax) fun G => G.recv longMax c :=
      fun c => by simp [Framer.deliver, ho]
    cases hG : (F.ready longMax).1.isOpen with
    | false =>
      -- the full buffer could not be framed: nothing is received any more
      have hd' : ∀ c, Framer.deliver longMax F c = F.ready longMax := fun c => by
        rw [hd]; simp [Framer.andThen, hG]
      refine ⟨hfa, ?_, ?_⟩
      · rw [hd']
        exact ⟨hb, fun h => by simp [hG] at h⟩
      · rw [hd', hd']
        simp [Framer.deliver, hG]
    | true =>
      obtain ⟨h3, h4⟩ := Framer.recv_ok longMax a (F := (F.ready longMax).1) (by omega)
      have hda : Framer.deliver longMax F a =
          (((F.ready longMax).1.recv longMax a).1, (F.ready longMax).2 ++ ((F.ready longMax).1.recv longMax a).2) := by
        rw [hd]; simp [Framer.andThen, hG]
      have hdab : Framer.deliver longMax F (a ++ b) =
          (((F.ready longMax).1.recv longMax (a ++ b)).1,
            (F.ready longMax).2 ++ ((F.ready longMax).1.recv longMax (a ++ b)).2) := by
        rw [hd]; simp [Framer.andThen, hG]
      rw [hdab, hda, Framer.recv_append a b hG h1]
      dsimp only
      generalize (F.ready longMax).1.recv longMax a = t at h3 h4 ⊢
      have hready : t.1.ready longMax = (t.1, []) := Framer.ready_of_lt longMax (by omega)
      refine ⟨hfa, ⟨hb, fun _ => ?_⟩, ?_⟩
      · unfold Framer.room
        rw [if_neg (fun hf => by omega)]
        omega
      · unfold Framer.deliver Framer.andThen
        cases ht : t.1.isOpen with
        | false => simp
        | true => simp [hready, ht]

/-! ## The position in the stream -/

/-- How far into the stream a trace is: the bytes its requests took and those fed to captures. -/
def streamPos : List ServerObs → Nat
  | [] => 0
  | .request _ k :: tr => k + streamPos tr
  | .fed _ :: tr => streamPos tr + 1
  | _ :: tr => streamPos tr

@[simp] theorem streamPos_append (a b : List ServerObs) : streamPos (a ++ b) = streamPos a + streamPos b := by
  induction a with
  | nil => simp [streamPos]
  | cons o a ih => cases o <;> simp [streamPos, ih] <;> omega

@[simp] theorem streamPos_map_fed (bs : Bytes) : streamPos (bs.map .fed) = bs.length := by
  induction bs with
  | nil => rfl
  | cons b bs ih => simp [streamPos, ih]

@[simp] theorem streamPos_map_stored (bs : Bytes) : streamPos (bs.map .stored) = 0 := by
  induction bs with
  | nil => rfl
  | cons b bs ih => simp [streamPos, ih]

/-- A buffered body belongs to a request already counted. -/
@[simp] theorem streamPos_inlineObs (m : RtspMsg) : streamPos (inlineObs m) = 0 := by
  unfold inlineObs
  split <;> simp [streamPos]

theorem Framer.drainAll_pos {longMax : Nat} {st : RtspState} {buf : Bytes}
    (ho : (Framer.drainAll longMax st buf).1.isOpen = true) :
    streamPos (Framer.drainAll longMax st buf).2 + (Framer.drainAll longMax st buf).1.rbuf.length = buf.length := by
  induction hn : buf.length using Nat.strong_induction_on generalizing st buf with
  | _ n ih =>
    rw [Framer.drainAll_eq] at ho ⊢
    cases h : rtspMsgParse longMax buf with
    | needHead | needBody m k => simpa [streamPos] using hn
    | malformed => simp [h, Framer.closed] at ho
    | complete m k =>
      obtain ⟨h4, hle⟩ := rtspMsgParse_complete_bounds h
      rw [h] at ho
      dsimp only at ho ⊢
      split at ho
      · cases ho
      · have hlen : (buf.drop k).length = buf.length - k := List.length_drop
        have := ih (buf.drop k).length (by omega) ho rfl
        rw [if_neg ‹_›]
        simp only [List.cons_append, streamPos, streamPos_append, streamPos_inlineObs]
        omega

theorem Framer.recv_pos {longMax : Nat} {F : Framer} {chunk : Bytes} (ho : (F.recv longMax chunk).1.isOpen = true) :
    streamPos (F.recv longMax chunk).2 + (F.recv longMax chunk).1.rbuf.length = F.rbuf.length + chunk.length := by
  unfold Framer.recv at ho ⊢
  rw [← List.length_append]
  cases hr : F.remaining with
  | none =>
    rw [hr] at ho
    exact Framer.drainAll_pos ho
  | some r =>
    rw [hr] at ho
    dsimp only at ho ⊢
    by_cases hlt : (F.rbuf ++ chunk).length < r
    · rw [if_pos hlt]
      simp only [streamPos_map_fed, List.length_nil, Nat.add_zero]
    · rw [if_neg hlt] at ho ⊢
      have hpos := Framer.drainAll_pos ho
      simp only [streamPos_append, streamPos_map_fed, streamPos, List.length_take, List.length_drop] at hpos ⊢
      omega

theorem Framer.oversized_pos {longMax : Nat} {F : Framer} (ho : (F.oversized longMax).1.isOpen = true) :
    streamPos (F.oversized longMax).2 + (F.oversized longMax).1.rbuf.length = F.rbuf.length := by
  unfold Framer.oversized at ho ⊢
  cases he : rtspMsgParse longMax F.rbuf with
  | needHead => simp [he, Framer.closed] at ho
  | malformed => simp [he, Framer.closed] at ho
  | complete m k => simp [he, Framer.closed] at ho
  | needBody m n =>
    have hle := (hdrsEnd_eq_some (rtspMsgParse_eq_needBody he).1).2.1
    rw [he] at ho
    dsimp only at ho ⊢
    split at ho
    · cases ho
    · rw [if_neg ‹_›]
      simp only [List.cons_append, streamPos, streamPos_append, streamPos_map_fed, List.length_drop, List.length_nil]
      omega

/-- While the connection is open, every byte received is accounted for or still in the buffer. -/
theorem Framer.deliver_pos {longMax : Nat} {F : Framer} {chunk : Bytes}
    (ho : (F.deliver longMax chunk).1.isOpen = true) :
    F.isOpen = true ∧
      streamPos (F.deliver longMax chunk).2 + (F.deliver longMax chunk).1.rbuf.length =
        F.rbuf.length + chunk.length := by
  unfold Framer.deliver Framer.andThen at ho ⊢
  cases hF : F.isOpen with
  | false => simp [hF] at ho
  | true =>
    simp only [hF, if_true] at ho ⊢
    cases hG : (F.ready longMax).1.isOpen with
    | false => simp [hG] at ho
    | true =>
      simp only [hG, if_true, streamPos_append, true_and] at ho ⊢
      have hrecv := Framer.recv_pos ho
      have hready : streamPos (F.ready longMax).2 + (F.ready longMax).1.rbuf.length = F.rbuf.length := by
        unfold Framer.ready at hG ⊢
        split
        · rw [if_pos ‹_›] at hG
          exact Framer.oversized_pos hG
        · simp [streamPos]
      omega

theorem Framer.run_pos (longMax : Nat) (F : Framer) (cs : List Bytes)
    (ho : (Machine.run (Framer.deliver longMax) F cs).1.isOpen = true) :
    F.isOpen = true ∧
      streamPos (Machine.run (Framer.deliver longMax) F cs).2.flatten +
        (Machine.run (Framer.deliver longMax) F cs).1.rbuf.length = F.rbuf.length + cs.flatten.length := by
  induction cs generalizing F with
  | nil => exact ⟨ho, by simp [streamPos]⟩
  | cons c cs ih =>
    rw [Machine.run_cons] at ho ⊢
    obtain ⟨i1, i2⟩ := ih _ ho
    obtain ⟨d1, d2⟩ := Framer.deliver_pos i1
    refine ⟨d1, ?_⟩
    simp only [List.flatten_cons, streamPos_append, List.length_append] at i2 ⊢
    omega

end ShairKindle
