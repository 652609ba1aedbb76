import Mathlib.Tactic

/-!
# Sequence and timestamp extension (src/seqext.c)

The wire carries 16-bit sequence numbers and 32-bit RTP timestamps. `seqext.c` extends both to
64 bits relative to a reference that moves with the stream. Extended sequence numbers are `Nat`
(a 64-bit counter of packets does not wrap); the timestamp reference is kept modulo `2 ^ 64`,
because a timestamp before the anchor does wrap there (the `uint64_t` cast of a negative
candidate, seqext.c:24).
-/

namespace ShairKindle

/-- `seqext_t` (seqext.h:4). `inited` is written and never read. -/
structure Seqext where
  seqRef : Nat
  tsRef : Nat
deriving DecidableEq, Repr

/-- `seqext_init` and `seqext_rebase` (seqext.c:3-8): the two have one body. -/
def seqextInit (refSeq : UInt16) (refTs : UInt32) : Seqext := ⟨refSeq.toNat, refTs.toNat⟩

def seqextRebase (newSeq : UInt16) (newTs : UInt32) : Seqext := ⟨newSeq.toNat, newTs.toNat⟩

/-- `seqext_seq` (seqext.c:9): `none` is the return value -1, which leaves the reference alone.
The `int16_t` cast of the wire distance is the balanced remainder modulo `2 ^ 16`. -/
def seqextSeq (s : Seqext) (wire : UInt16) : Option (Nat × Seqext) :=
  let d := Int.bmod ((wire.toNat : Int) - s.seqRef) (2 ^ 16)
  if d = -32768 then none
  else
    let candidate := (s.seqRef : Int) + d
    if candidate < 0 then none
    else
      let v := candidate.toNat
      some (v, if s.seqRef < v then { s with seqRef := v } else s)

/-- `seqext_ts` (seqext.c:21): the extended timestamp and the moved reference. -/
def seqextTs (s : Seqext) (wire : UInt32) : Nat × Seqext :=
  let d := Int.bmod ((wire.toNat : Int) - s.tsRef) (2 ^ 32)
  let v := (((s.tsRef : Int) + d) % 2 ^ 64).toNat
  (v, if s.tsRef < v then { s with tsRef := v } else s)

/-- The low 32 bits of an extended timestamp are the wire timestamp, whatever the reference. -/
theorem seqextTs_low (s : Seqext) (wire : UInt32) : UInt32.ofNat (seqextTs s wire).1 = wire := by
  have hw : wire.toNat < 2 ^ 32 := wire.toNat_lt
  apply UInt32.toNat_inj.1
  rw [UInt32.toNat_ofNat']
  simp only [seqextTs, Int.bmod_def]
  split <;> omega

end ShairKindle
