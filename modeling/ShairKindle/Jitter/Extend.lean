import ShairKindle.Jitter.Seqext
import ShairKindle.Lib.Run

/-!
# Whole streams through the extension (src/seqext.c)

`seqext_seq` is fed the low sixteen bits of the sender's packet positions, `seqext_ts` the low 32
bits of its timestamps, and both keep a reference that is meant to move forward only. Here the two
functions run over whole streams:

* `seqext_tracks`: as long as each position is within 32767 of the largest one so far, every position
  is read back exactly and the reference is that largest one. The candidate is an `int64_t`, so this
  holds up to `2 ^ 63`; `seqextSeq64` is the function in the source's own widths, and it agrees with
  the `Nat` version (`seqextSeq64_eq`), so that the buffer may use that one (`Play.lean`).
* `seqextTs_forward_iff`: the timestamp reference moves forward only, exactly while no timestamp lies
  before zero on the extended line. `seqext_seq` rejects such a candidate, `seqext_ts` casts it to
  `uint64_t`.
-/

namespace ShairKindle

/-! ## Sequence numbers -/

/-- `seqext_seq` (seqext.c:9) with the 64-bit conversions written out: the reference read as `int64_t`,
and the sum taken in `int64_t` (a signed overflow, which wraps on the target). -/
def seqextSeq64 (s : Seqext) (wire : UInt16) : Option (Nat × Seqext) :=
  let d := Int.bmod ((wire.toNat : Int) - s.seqRef) (2 ^ 16)
  if d = -32768 then none
  else
    let candidate := Int.bmod (Int.bmod s.seqRef (2 ^ 64) + d) (2 ^ 64)
    if candidate < 0 then none
    else
      let v := candidate.toNat
      some (v, if s.seqRef < v then { s with seqRef := v } else s)

/-- One packet through `seqext_seq`; a rejected one leaves no extended number and no trace. -/
def seqStep (s : Seqext) (wire : UInt16) : Seqext × Option Nat :=
  match seqextSeq64 s wire with
  | some (v, s') => (s', some v)
  | none => (s, none)

/-- `t` is a position the wire value can stand for: at most 32767 away from the reference. -/
def InReach (ref t : Nat) : Prop := ref ≤ t + 32767 ∧ t ≤ ref + 32767

instance (ref t : Nat) : Decidable (InReach ref t) := inferInstanceAs (Decidable (_ ∧ _))

/-- A stream of true positions, each in reach of the largest one before it. -/
def Trackable : Nat → List Nat → Prop
  | _, [] => True
  | ref, t :: ts => InReach ref t ∧ Trackable (max ref t) ts

instance Trackable.decidable : (ref : Nat) → (ts : List Nat) → Decidable (Trackable ref ts)
  | _, [] => .isTrue trivial
  | ref, t :: ts =>
    have := Trackable.decidable (max ref t) ts
    inferInstanceAs (Decidable (InReach ref t ∧ Trackable (max ref t) ts))

/-- The sign-folded wire distance of a position in reach is its true distance. -/
theorem bmod_of_inReach {ref t : Nat} (h : InReach ref t) :
    Int.bmod (((UInt16.ofNat t).toNat : Int) - ref) (2 ^ 16) = (t : Int) - ref := by
  obtain ⟨hlo, hhi⟩ := h
  rw [UInt16.toNat_ofNat', Int.bmod_def]
  split <;> omega

theorem bmod64_of_lt {n : Int} (h0 : -(2 ^ 63) ≤ n) (h1 : n < 2 ^ 63) : Int.bmod n (2 ^ 64) = n := by
  rw [Int.bmod_def]
  split <;> omega

/-- The `int64_t` candidate next to a reference below `2 ^ 63`: the exact sum, unless it passes `2 ^ 63`. -/
theorem candidate64 {ref : Nat} {d : Int} (href : ref < 2 ^ 63) (hlo : -32768 ≤ d) (hhi : d ≤ 32767) :
    Int.bmod (Int.bmod ref (2 ^ 64) + d) (2 ^ 64) = if (ref : Int) + d < 2 ^ 63 then ref + d else ref + d - 2 ^ 64 := by
  have hself : Int.bmod (ref : Int) (2 ^ 64) = ref := bmod64_of_lt (by omega) (by omega)
  rw [hself, Int.bmod_def]
  split_ifs <;> omega

theorem wireDistance_bounds (ref : Nat) (wire : UInt16) :
    -32768 ≤ Int.bmod ((wire.toNat : Int) - ref) (2 ^ 16) ∧ Int.bmod ((wire.toNat : Int) - ref) (2 ^ 16) ≤ 32767 := by
  rw [Int.bmod_def]
  split <;> omega

/-- The 64-bit function is the one the model uses, as long as the reference stays a packet's reach
below `2 ^ 63`. -/
theorem seqextSeq64_eq {s : Seqext} (wire : UInt16) (h : s.seqRef + 32767 < 2 ^ 63) :
    seqextSeq64 s wire = seqextSeq s wire := by
  obtain ⟨hlo, hhi⟩ := wireDistance_bounds s.seqRef wire
  simp only [seqextSeq64, seqextSeq]
  have hsum : (s.seqRef : Int) + Int.bmod ((wire.toNat : Int) - s.seqRef) (2 ^ 16) < 2 ^ 63 := by omega
  simp only [candidate64 (show s.seqRef < 2 ^ 63 by omega) hlo hhi, hsum, if_true]

/-- A packet moves the reference by at most its reach. -/
theorem seqextSeq_seqRef_le {s s' : Seqext} {w : UInt16} {v : Nat} (h : seqextSeq s w = some (v, s')) :
    s'.seqRef ≤ s.seqRef + 32767 := by
  obtain ⟨-, hhi⟩ := wireDistance_bounds s.seqRef w
  simp only [seqextSeq] at h
  split_ifs at h
  · obtain ⟨-, rfl⟩ := Prod.mk.inj (Option.some.inj h)
    dsimp only
    omega
  · obtain ⟨-, rfl⟩ := Prod.mk.inj (Option.some.inj h)
    exact Nat.le_add_right _ _

/-- **One packet.** A position in reach of the reference, both below `2 ^ 63`, is read back. -/
theorem seqStep_of_inReach {s : Seqext} {t : Nat} (h : InReach s.seqRef t) (hs : s.seqRef < 2 ^ 63)
    (ht : t < 2 ^ 63) : seqStep s (UInt16.ofNat t) = ({ s with seqRef := max s.seqRef t }, some t) := by
  obtain ⟨hlo, hhi⟩ := h
  have hd := bmod_of_inReach ⟨hlo, hhi⟩
  have hc : Int.bmod (Int.bmod s.seqRef (2 ^ 64) + ((t : Int) - s.seqRef)) (2 ^ 64) = t := by
    rw [candidate64 hs (by omega) (by omega), if_pos (by omega)]
    omega
  simp only [seqStep, seqextSeq64, hd, hc]
  rw [if_neg (by omega), if_neg (by omega), Int.toNat_natCast]
  by_cases hlt : s.seqRef < t
  · simp only [hlt, if_true, max_eq_right hlt.le]
  · simp only [hlt, if_false, max_eq_left (not_lt.1 hlt)]

/-- A wire value that no natural number in reach has is turned away. -/
theorem seqStep_out_of_reach {s : Seqext} {wire : UInt16} (hs : s.seqRef < 2 ^ 63)
    (h : ∀ t, InReach s.seqRef t → UInt16.ofNat t ≠ wire) : seqStep s wire = (s, none) := by
  have hw : wire.toNat < 2 ^ 16 := wire.toNat_lt
  obtain ⟨hlo, hhi⟩ := wireDistance_bounds s.seqRef wire
  have hnone : seqextSeq64 s wire = none := by
    simp only [seqextSeq64, candidate64 hs hlo hhi]
    by_cases hd : Int.bmod ((wire.toNat : Int) - s.seqRef) (2 ^ 16) = -32768
    · rw [if_pos hd]
    rw [if_neg hd]
    -- a sum that is not negative would be a position in reach with this wire value
    have hneg : (s.seqRef : Int) + Int.bmod ((wire.toNat : Int) - s.seqRef) (2 ^ 16) < 0 := by
      by_contra hpos
      refine h ((s.seqRef : Int) + Int.bmod ((wire.toNat : Int) - s.seqRef) (2 ^ 16)).toNat
        ⟨by omega, by omega⟩ (UInt16.toNat_inj.1 ?_)
      rw [UInt16.toNat_ofNat']
      rw [Int.bmod_def] at hpos ⊢
      split_ifs at * <;> omega
    have hsum : (s.seqRef : Int) + Int.bmod ((wire.toNat : Int) - s.seqRef) (2 ^ 16) < 2 ^ 63 := by omega
    rw [if_pos hsum, if_pos hneg]
  simp only [seqStep, hnone]

/-- **A whole stream.** The run reads every position back and ends with the largest one as reference. -/
theorem run_seqStep {s : Seqext} {ts : List Nat} (h : Trackable s.seqRef ts) (hs : s.seqRef < 2 ^ 63)
    (hts : ∀ t ∈ ts, t < 2 ^ 63) :
    Machine.run seqStep s (ts.map UInt16.ofNat) = ({ s with seqRef := ts.foldl max s.seqRef }, ts.map some) := by
  induction ts generalizing s with
  | nil => rfl
  | cons t ts ih =>
    obtain ⟨hreach, hrest⟩ := h
    have ht := hts t (by simp)
    have hstep := seqStep_of_inReach hreach hs ht
    have hih := ih (s := { s with seqRef := max s.seqRef t }) hrest (max_lt hs ht) fun u hu => hts u (by simp [hu])
    simp only [List.map_cons, Machine.run_cons, hstep, hih, List.foldl_cons]

theorem foldl_max_lt {b r : Nat} {ts : List Nat} (hr : r < b) (h : ∀ t ∈ ts, t < b) : ts.foldl max r < b := by
  induction ts generalizing r with
  | nil => exact hr
  | cons t ts ih => exact ih (max_lt hr (h t (by simp))) fun u hu => h u (by simp [hu])

/-- **Sequence extension tracks the true stream.** From `seqext_init` or `seqext_rebase`, positions below
`2 ^ 63`, each within 32767 of the largest one so far, come back exactly, wrapped, reordered, repeated or
with losses; the reference ends as the largest of them. A wire value that stands for no natural number in
reach is then rejected and leaves the reference alone. -/
theorem seqext_tracks (r : UInt16) (rts : UInt32) (s : Seqext) (ts : List Nat)
    (hs : s = seqextInit r rts ∨ s = seqextRebase r rts) (h : Trackable r.toNat ts) (hts : ∀ t ∈ ts, t < 2 ^ 63) :
    let s' : Seqext := ⟨ts.foldl max r.toNat, rts.toNat⟩
    Machine.run seqStep s (ts.map UInt16.ofNat) = (s', ts.map some) ∧
      ∀ wire, (∀ t, InReach s'.seqRef t → UInt16.ofNat t ≠ wire) → seqStep s' wire = (s', none) := by
  have hr : r.toNat < 2 ^ 63 := by
    have := r.toNat_lt
    omega
  obtain rfl : s = ⟨r.toNat, rts.toNat⟩ := by
    rcases hs with rfl | rfl <;> rfl
  refine ⟨run_seqStep h hr hts, fun wire hw => ?_⟩
  exact seqStep_out_of_reach (foldl_max_lt hr hts) hw

/-- Across a wrap, with a repeat and one packet from before the wrap. -/
theorem seqext_tracks_wrap :
    Trackable 65530 [65534, 65540, 65540, 65531, 98000] ∧
    (Machine.run seqStep (seqextInit 65530 7) ([65534, 65540, 65540, 65531, 98000].map UInt16.ofNat)).2 =
      [some 65534, some 65540, some 65540, some 65531, some 98000] :=
  ⟨by decide, congrArg Prod.snd
    (seqext_tracks 65530 7 _ [65534, 65540, 65540, 65531, 98000] (.inl rfl) (by decide) (by decide)).1⟩

/-! ### The end of the 64-bit line -/

/-- Positions `32767, 65534, …`, each as far ahead as a packet may be. -/
def stair : Nat → List Nat
  | 0 => []
  | n + 1 => stair n ++ [32767 * (n + 1)]

theorem foldl_max_stair (n : Nat) : (stair n).foldl max 0 = 32767 * n := by
  induction n with
  | zero => rfl
  | succ n ih =>
    rw [stair, List.foldl_append, ih]
    exact max_eq_right (by omega)

theorem trackable_append (ref : Nat) (ts us : List Nat) :
    Trackable ref (ts ++ us) ↔ Trackable ref ts ∧ Trackable (ts.foldl max ref) us := by
  induction ts generalizing ref with
  | nil => simp [Trackable]
  | cons t ts ih => simp only [List.cons_append, Trackable, ih, List.foldl_cons, and_assoc]

theorem trackable_stair (n : Nat) : Trackable 0 (stair n) := by
  induction n with
  | zero => trivial
  | succ n ih =>
    rw [stair, trackable_append, foldl_max_stair]
    exact ⟨ih, ⟨by omega, by omega⟩, trivial⟩

theorem stair_le {n t : Nat} (h : t ∈ stair n) : t ≤ 32767 * n := by
  induction n with
  | zero => simp [stair] at h
  | succ n ih =>
    rcases List.mem_append.1 h with h | h
    · have := ih h
      omega
    · have := List.mem_singleton.1 h
      omega

/-- The packet that would carry the reference over `2 ^ 63` is rejected. -/
theorem seqStep_end {s : Seqext} {t : Nat} (h : InReach s.seqRef t) (hs : s.seqRef < 2 ^ 63) (ht : 2 ^ 63 ≤ t) :
    (seqStep s (UInt16.ofNat t)).2 = none := by
  obtain ⟨hlo, hhi⟩ := h
  have hd := bmod_of_inReach ⟨hlo, hhi⟩
  have hc : Int.bmod (Int.bmod s.seqRef (2 ^ 64) + ((t : Int) - s.seqRef)) (2 ^ 64) = t - 2 ^ 64 := by
    rw [candidate64 hs (by omega) (by omega), if_neg (by omega)]
    omega
  simp only [seqStep, seqextSeq64, hd, hc]
  rw [if_neg (by omega), if_pos (by omega)]

theorem run_stair_end {n : Nat} (hn : 32767 * n < 2 ^ 63) (hend : 2 ^ 63 ≤ 32767 * (n + 1)) :
    (Machine.run seqStep (seqextInit 0 0) ((stair (n + 1)).map UInt16.ofNat)).2 = (stair n).map some ++ [none] := by
  have hrun := run_seqStep (s := seqextInit 0 0) (trackable_stair n) (by decide) fun t ht =>
    lt_of_le_of_lt (stair_le ht) hn
  have hlast : (seqStep ⟨(stair n).foldl max 0, 0⟩ (UInt16.ofNat (32767 * (n + 1)))).2 = none := by
    refine seqStep_end ?_ ?_ hend <;> simp only [foldl_max_stair]
    · exact ⟨by omega, by omega⟩
    · exact hn
  rw [stair, List.map_append, List.map_singleton, Machine.run_concat, hrun]
  exact congrArg _ (congrArg (fun o => [o]) hlast)

/-- A stream that climbs past `2 ^ 63` in steps of 32767 is in reach at every packet, and its last packet
is rejected. -/
theorem seqext_loses_track : ∃ ts : List Nat, Trackable 0 ts ∧
    (Machine.run seqStep (seqextInit 0 0) (ts.map UInt16.ofNat)).2 ≠ ts.map some := by
  obtain ⟨n, hn, hend⟩ : ∃ n : Nat, 32767 * n < 2 ^ 63 ∧ 2 ^ 63 ≤ 32767 * (n + 1) :=
    ⟨2 ^ 63 / 32767, by norm_num, by norm_num⟩
  refine ⟨stair (n + 1), trackable_stair _, ?_⟩
  rw [run_stair_end hn hend, stair, List.map_append]
  simp

/-! ## Timestamps -/

/-- One timestamp through `seqext_ts`. -/
def tsStep (s : Seqext) (wire : UInt32) : Seqext × Nat := ((seqextTs s wire).2, (seqextTs s wire).1)

/-- The wrapped signed distance of a wire timestamp from the reference (`d`, seqext.c:22). -/
def tsAhead (s : Seqext) (wire : UInt32) : Int := Int.bmod ((wire.toNat : Int) - s.tsRef) (2 ^ 32)

/-- What one timestamp is meant to do: the value has the wire's low bits, a timestamp that is not ahead
leaves the reference, and the reference moves, if at all, by `1 .. 2 ^ 31 - 1`. -/
def MovesForward (s : Seqext) (wire : UInt32) : Prop :=
  (tsStep s wire).2 % 2 ^ 32 = wire.toNat ∧
  (tsAhead s wire ≤ 0 → (tsStep s wire).1.tsRef = s.tsRef) ∧
  ((tsStep s wire).1.tsRef = s.tsRef ∨
    s.tsRef + 1 ≤ (tsStep s wire).1.tsRef ∧ (tsStep s wire).1.tsRef ≤ s.tsRef + (2 ^ 31 - 1))

instance (s : Seqext) (wire : UInt32) : Decidable (MovesForward s wire) := inferInstanceAs (Decidable (_ ∧ _))

/-- The timestamp does not lie before zero on the extended line. -/
def NotBeforeZero (s : Seqext) (wire : UInt32) : Prop := 0 ≤ (s.tsRef : Int) + tsAhead s wire

instance (s : Seqext) (wire : UInt32) : Decidable (NotBeforeZero s wire) := inferInstanceAs (Decidable (_ ≤ _))

theorem tsAhead_bounds (s : Seqext) (wire : UInt32) : -2 ^ 31 ≤ tsAhead s wire ∧ tsAhead s wire < 2 ^ 31 := by
  rw [tsAhead, Int.bmod_def]
  split <;> omega

/-- The reference after one timestamp, from the value it was extended to. -/
theorem tsStep_tsRef (s : Seqext) (wire : UInt32) : (tsStep s wire).1.tsRef = max s.tsRef (tsStep s wire).2 := by
  simp only [tsStep, seqextTs]
  split
  · next h => exact (max_eq_right h.le).symm
  · next h => exact (max_eq_left (not_lt.1 h)).symm

theorem tsStep_value (s : Seqext) (wire : UInt32) :
    (tsStep s wire).2 = (((s.tsRef : Int) + tsAhead s wire) % 2 ^ 64).toNat := rfl

/-- **One timestamp.** It moves the reference as meant exactly if it does not lie before zero. -/
theorem movesForward_iff (s : Seqext) (wire : UInt32) : MovesForward s wire ↔ NotBeforeZero s wire := by
  obtain ⟨hlo, hhi⟩ := tsAhead_bounds s wire
  have hlow : (tsStep s wire).2 % 2 ^ 32 = wire.toNat := by
    have h := congrArg UInt32.toNat (seqextTs_low s wire)
    rwa [UInt32.toNat_ofNat'] at h
  rw [MovesForward, and_iff_right hlow]
  simp only [NotBeforeZero, tsStep_tsRef, tsStep_value]
  constructor
  · -- a negative candidate wraps to just below `2 ^ 64`, ahead of every small reference
    rintro ⟨hlate, -⟩
    by_contra hneg
    have := hlate (by omega)
    omega
  · intro hz
    constructor
    · omega
    · omega

/-- **The timestamp reference.** Over any sequence of timestamps from any anchor, every step keeps the wire's
low 32 bits, leaves the reference alone unless the timestamp is ahead and then moves it by less than
`2 ^ 31`, if and only if no timestamp of the sequence lies before zero when it arrives. -/
theorem seqextTs_forward_iff (rseq : UInt16) (anchor : UInt32) (wires : List UInt32) :
    Machine.AllSteps tsStep MovesForward (seqextInit rseq anchor) wires ↔
      Machine.AllSteps tsStep NotBeforeZero (seqextInit rseq anchor) wires := by
  simp only [Machine.allSteps_iff_split, movesForward_iff]

/-- A timestamp one before an anchor at zero, a late packet, becomes `2 ^ 64 - 1` and drags the reference
there. -/
theorem seqextTs_late_jump :
    tsAhead (seqextInit 0 0) 0xFFFFFFFF = -1 ∧
    (tsStep (seqextInit 0 0) 0xFFFFFFFF).1.tsRef = 2 ^ 64 - 1 ∧
    ¬ Machine.AllSteps tsStep MovesForward (seqextInit 0 0) [0xFFFFFFFF] := by decide

end ShairKindle
