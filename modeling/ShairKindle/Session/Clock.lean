import Mathlib.Order.Bounds.Basic
import Mathlib.Tactic

/-!
# The sender's clock (src/raop_clock.c)

The session asks the sender for its time and gets it back as a 64-bit NTP value: seconds in the
upper half, 2^-32 seconds in the lower. `clock_timing_reply` keeps the offset of the reply that was
under way for the shortest time.

| here               | there                                              |
|--------------------|----------------------------------------------------|
| `ntpFromNs`        | `ntp_from_ns` (raop_clock.c:3)                     |
| `nsFromNtp`        | `ns_from_ntp` (raop_clock.c:11)                    |
| `RaopClock`        | `raop_clock_t` (raop_clock.h:5), without `started` |
| `clockInit`        | `clock_init` (raop_clock.c:15)                     |
| `clockTimingReply` | `clock_timing_reply` (raop_clock.c:17)             |

All arithmetic is that of the source: `uint64_t` results are reduced modulo `2 ^ 64`, `int64_t` ones
folded into `[-2 ^ 63, 2 ^ 63)`. `clock_offset_error` says how far the kept offset can be from the true
one; it needs that none of these reductions ever bites (`FitsIn64`) and that the way to NTP and back
loses at most one nanosecond (`nsFromNtp_ntpFromNs`).
-/

namespace ShairKindle

/-! ## The code -/

/-- A conversion to `int64_t`. -/
def toI64 (n : Int) : Int := Int.bmod n (2 ^ 64)

def nsPerSec : Nat := 1000000000

def ntpFromNs (monoNs : Nat) (offsetNs : Int) : Nat :=
  let t := toI64 (toI64 monoNs + offsetNs)
  let t := if t < 0 then 0 else t.toNat
  let sec := t / nsPerSec
  let frac := t % nsPerSec
  let fixed := (frac <<< 32) % 2 ^ 64 / nsPerSec
  (sec <<< 32) % 2 ^ 64 ||| fixed

def nsFromNtp (ntp : Nat) : Int :=
  let sec := ntp >>> 32
  let frac := ntp &&& 0xFFFFFFFF
  toI64 ((sec * nsPerSec % 2 ^ 64 + (frac * nsPerSec % 2 ^ 64) >>> 32) % 2 ^ 64 : Nat)

structure RaopClock where
  offsetNs : Int
  bestRttNs : Nat
  haveOffset : Bool
deriving DecidableEq, Repr

def clockInit : RaopClock := ⟨0, 2 ^ 64 - 1, false⟩

/-- The arguments of one `clock_timing_reply`: when the request left, what the sender answered, when the
answer came. -/
structure TimingReply where
  t1 : Nat
  remoteNtp : Nat
  t4 : Nat
deriving DecidableEq, Repr

def clockTimingReply (c : RaopClock) (r : TimingReply) : RaopClock :=
  if r.t4 < r.t1 then c
  else
    let rtt := r.t4 - r.t1
    if c.haveOffset ∧ c.bestRttNs ≤ rtt then c
    else
      let mid := toI64 ((r.t1 + r.t4) % 2 ^ 64 / 2 : Nat)
      let remoteNs := nsFromNtp r.remoteNtp
      ⟨toI64 (remoteNs - mid), rtt, true⟩

/-! ## The conversions -/

/-- The end of the 32-bit seconds, in nanoseconds. -/
def ntpEra : Nat := 2 ^ 32 * nsPerSec

theorem toI64_of_lt {n : Int} (h0 : -(2 ^ 63) ≤ n) (h1 : n < 2 ^ 63) : toI64 n = n := by
  rw [toI64, Int.bmod_def]
  split <;> omega

/-- Every intermediate value of the way to NTP and back, in exact arithmetic, fits the type the source
computes it in. -/
def FitsIn64 (t : Nat) : Prop :=
  let sec := t / nsPerSec
  let fixed := t % nsPerSec * 2 ^ 32 / nsPerSec
  t < 2 ^ 63 ∧ t % nsPerSec * 2 ^ 32 < 2 ^ 64 ∧ sec * 2 ^ 32 < 2 ^ 64 ∧ sec * 2 ^ 32 + fixed < 2 ^ 64 ∧
    fixed * nsPerSec < 2 ^ 64 ∧ sec * nsPerSec + fixed * nsPerSec / 2 ^ 32 < 2 ^ 63

theorem fitsIn64 {t : Nat} (h : t < ntpEra) : FitsIn64 t := by
  simp only [FitsIn64, ntpEra, nsPerSec] at *
  omega

/-- `ntp_from_ns` without an offset, in exact arithmetic. -/
theorem ntpFromNs_eq {t : Nat} (h : t < ntpEra) :
    ntpFromNs t 0 = t / nsPerSec * 2 ^ 32 + t % nsPerSec * 2 ^ 32 / nsPerSec := by
  obtain ⟨ht, hfrac, hsec, -, -, -⟩ := fitsIn64 h
  have hfix : t % nsPerSec * 2 ^ 32 / nsPerSec < 2 ^ 32 := by
    simp only [nsPerSec]
    omega
  have hself : toI64 (t : Int) = t := toI64_of_lt (by omega) (by omega)
  have hneg : ¬ (t : Int) < 0 := by omega
  simp only [ntpFromNs, hself, Int.add_zero, hneg, if_false, Int.toNat_natCast, Nat.shiftLeft_eq]
  rw [Nat.mod_eq_of_lt hfrac, Nat.mod_eq_of_lt hsec, Nat.mul_comm (t / nsPerSec),
    Nat.two_pow_add_eq_or_of_lt hfix]

/-- `ns_from_ntp`, in exact arithmetic, on a value whose nanoseconds fit. -/
theorem nsFromNtp_eq {sec frac : Nat} (hfrac : frac < 2 ^ 32) (hns : sec * nsPerSec + frac * nsPerSec / 2 ^ 32 < 2 ^ 63) :
    nsFromNtp (sec * 2 ^ 32 + frac) = (sec * nsPerSec + frac * nsPerSec / 2 ^ 32 : Nat) := by
  have hsec : sec * nsPerSec < 2 ^ 64 := by omega
  have hmul : frac * nsPerSec < 2 ^ 64 := by
    simp only [nsPerSec]
    omega
  have hhi : (sec * 2 ^ 32 + frac) >>> 32 = sec := by
    rw [Nat.shiftRight_eq_div_pow]
    omega
  have hlo : (sec * 2 ^ 32 + frac) &&& (2 ^ 32 - 1) = frac := by
    rw [Nat.and_two_pow_sub_one_eq_mod]
    omega
  have hsum : toI64 ((sec * nsPerSec + frac * nsPerSec / 2 ^ 32 : Nat) : Int) =
      (sec * nsPerSec + frac * nsPerSec / 2 ^ 32 : Nat) := toI64_of_lt (by omega) (by omega)
  unfold nsFromNtp
  rw [show 0xFFFFFFFF = 2 ^ 32 - 1 by norm_num, hhi, hlo]
  simp only [Nat.shiftRight_eq_div_pow]
  rw [Nat.mod_eq_of_lt hsec, Nat.mod_eq_of_lt hmul, Nat.mod_eq_of_lt (hns.trans (by norm_num)), hsum]

/-- **There and back.** A time before the end of the NTP era comes back exact or one nanosecond short. -/
theorem nsFromNtp_ntpFromNs {t : Nat} (h : t < ntpEra) :
    nsFromNtp (ntpFromNs t 0) = t ∨ nsFromNtp (ntpFromNs t 0) = t - 1 := by
  obtain ⟨-, -, -, -, -, hback⟩ := fitsIn64 h
  rw [ntpFromNs_eq h, nsFromNtp_eq (by simp only [nsPerSec]; omega) hback]
  simp only [nsPerSec]
  omega

/-! ## The offset -/

/-- The sender, whose clock is `D` ahead, stamped the reply at some instant between `t1` and `t4`. -/
def Stamped (D : Int) (r : TimingReply) : Prop :=
  ∃ s : Nat, r.t1 ≤ s ∧ s ≤ r.t4 ∧ r.t4 < ntpEra ∧
    ∃ remote : Nat, (remote : Int) = s + D ∧ remote < ntpEra ∧ r.remoteNtp = ntpFromNs remote 0

/-- The round-trip times of the replies that did not arrive before they were asked for. -/
def rtts (rs : List TimingReply) : Set Nat := {n | ∃ r ∈ rs, r.t1 ≤ r.t4 ∧ n = r.t4 - r.t1}

theorem rtts_concat (rs : List TimingReply) (r : TimingReply) :
    rtts (rs ++ [r]) = rtts rs ∪ {n | r.t1 ≤ r.t4 ∧ n = r.t4 - r.t1} := by
  ext n
  simp only [rtts, List.mem_append, List.mem_singleton, Set.mem_ofPred_eq, Set.mem_union, or_and_right,
    exists_or, exists_eq_left]

/-- How far the kept offset may be from the true one. -/
def WithinHalf (D : Int) (c : RaopClock) : Prop := |c.offsetNs - D| ≤ (c.bestRttNs / 2 + 1 : Nat)

/-- What `clock_timing_reply` stores when it takes a reply (raop_clock.c:21-24). -/
def sample (r : TimingReply) : RaopClock :=
  ⟨toI64 (nsFromNtp r.remoteNtp - toI64 ((r.t1 + r.t4) % 2 ^ 64 / 2 : Nat)), r.t4 - r.t1, true⟩

theorem clockTimingReply_eq (c : RaopClock) (r : TimingReply) :
    clockTimingReply c r =
      if r.t4 < r.t1 then c else if c.haveOffset ∧ c.bestRttNs ≤ r.t4 - r.t1 then c else sample r := rfl

/-- The truncated midpoint of an interval is at most half its length away from a point of it. -/
theorem midpoint_error {t1 t4 s : Nat} {D back : Int} (h1 : t1 ≤ s) (h4 : s ≤ t4)
    (hback : back = s + D ∨ back = s + D - 1) :
    |back - ((t1 + t4) / 2 : Nat) - D| ≤ ((t4 - t1) / 2 + 1 : Nat) := by
  rw [abs_le]
  constructor <;> omega

/-- **One sample.** The offset taken from a stamped reply is off by at most half its round trip and one. -/
theorem sample_error {D : Int} {r : TimingReply} (h : Stamped D r) : WithinHalf D (sample r) := by
  obtain ⟨s, h1, h4, hera, remote, hremote, hrera, hntp⟩ := h
  have hera' : r.t4 < 2 ^ 62 := hera.trans (by decide)
  have hrera' : remote < 2 ^ 62 := hrera.trans (by decide)
  have hback := nsFromNtp_ntpFromNs hrera
  rw [← hntp] at hback
  clear hera hrera hntp
  simp only [WithinHalf, sample]
  generalize nsFromNtp r.remoteNtp = back at hback ⊢
  have hmod : (r.t1 + r.t4) % 2 ^ 64 = r.t1 + r.t4 := Nat.mod_eq_of_lt (by omega)
  have hmid : toI64 ((r.t1 + r.t4) / 2 : Nat) = ((r.t1 + r.t4) / 2 : Nat) := toI64_of_lt (by omega) (by omega)
  have hdiff : toI64 (back - ((r.t1 + r.t4) / 2 : Nat)) = back - ((r.t1 + r.t4) / 2 : Nat) :=
    toI64_of_lt (by omega) (by omega)
  rw [hmod, hmid, hdiff]
  exact midpoint_error h1 h4 (by rwa [hremote] at hback)

/-- The clock after the replies `rs`: untouched while none was valid; then the sample of the shortest
round trip. -/
def ClockInv (D : Int) (rs : List TimingReply) (c : RaopClock) : Prop :=
  rtts rs = ∅ ∧ c.haveOffset = false ∨
  IsLeast (rtts rs) c.bestRttNs ∧ c.haveOffset = true ∧ WithinHalf D c

/-- One reply. -/
theorem clockTimingReply_inv {D : Int} {rs : List TimingReply} {c : RaopClock} {r : TimingReply}
    (h : ClockInv D rs c) (hr : r.t1 ≤ r.t4 → Stamped D r) : ClockInv D (rs ++ [r]) (clockTimingReply c r) := by
  unfold ClockInv
  rw [rtts_concat]
  by_cases hlt : r.t4 < r.t1
  · have hnone : {n | r.t1 ≤ r.t4 ∧ n = r.t4 - r.t1} = (∅ : Set Nat) := by
      ext n
      simp only [Set.mem_ofPred_eq, Set.mem_empty_iff_false, iff_false]
      omega
    rw [hnone, Set.union_empty, clockTimingReply_eq, if_pos hlt]
    exact h
  have hle : r.t1 ≤ r.t4 := by omega
  have hone : {n | r.t1 ≤ r.t4 ∧ n = r.t4 - r.t1} = {r.t4 - r.t1} := by
    ext n
    simp only [Set.mem_ofPred_eq, Set.mem_singleton_iff, hle, true_and]
  have herr := sample_error (hr hle)
  right
  rw [hone, clockTimingReply_eq, if_neg hlt]
  rcases h with ⟨hempty, hno⟩ | ⟨hleast, hhave, hwithin⟩
  · -- the first valid reply is taken whatever its round trip
    rw [if_neg (by simp [hno]), hempty, Set.empty_union]
    exact ⟨isLeast_singleton, rfl, herr⟩
  · by_cases hbest : c.bestRttNs ≤ r.t4 - r.t1
    · rw [if_pos ⟨hhave, hbest⟩]
      refine ⟨⟨.inl hleast.1, ?_⟩, hhave, hwithin⟩
      rintro n (hn | rfl)
      · exact hleast.2 hn
      · exact hbest
    · rw [if_neg fun hc => hbest hc.2]
      refine ⟨⟨.inr rfl, ?_⟩, rfl, herr⟩
      rintro n (hn | rfl)
      · exact (not_le.1 hbest).le.trans (hleast.2 hn)
      · exact le_rfl

/-- All replies so far. -/
theorem clockInv_foldl {D : Int} {rs : List TimingReply} (h : ∀ r ∈ rs, r.t1 ≤ r.t4 → Stamped D r) :
    ClockInv D rs (rs.foldl clockTimingReply clockInit) := by
  induction rs using List.reverseRecOn with
  | nil => exact .inl ⟨by simp [rtts], rfl⟩
  | append_singleton rs r ih =>
    rw [List.foldl_append]
    exact clockTimingReply_inv (ih fun q hq => h q (by simp [hq])) (h r (by simp))

/-- **The clock offset.** Whatever replies came in whatever order, as long as the valid ones were stamped by
the sender between `t1` and `t4` and at least one was valid, the clock keeps the shortest round trip of the
valid ones and an offset that is at most half of it and a nanosecond off. The conversions behind it are
exact or one nanosecond short and stay within 64 bits. -/
theorem clock_offset_error (D : Int) (rs : List TimingReply) (hstamped : ∀ r ∈ rs, r.t1 ≤ r.t4 → Stamped D r)
    (hvalid : ∃ r ∈ rs, r.t1 ≤ r.t4) :
    let c := rs.foldl clockTimingReply clockInit
    IsLeast (rtts rs) c.bestRttNs ∧ |c.offsetNs - D| ≤ (c.bestRttNs / 2 + 1 : Nat) ∧
    ∀ t < ntpEra, FitsIn64 t ∧ (nsFromNtp (ntpFromNs t 0) = t ∨ nsFromNtp (ntpFromNs t 0) = t - 1) := by
  obtain ⟨r, hr, hle⟩ := hvalid
  rcases clockInv_foldl hstamped with ⟨hempty, -⟩ | ⟨hleast, -, hwithin⟩
  · have hmem : r.t4 - r.t1 ∈ rtts rs := ⟨r, hr, hle, rfl⟩
    rw [hempty] at hmem
    exact absurd hmem (Set.notMem_empty _)
  · exact ⟨hleast, hwithin, fun t ht => ⟨fitsIn64 ht, nsFromNtp_ntpFromNs ht⟩⟩

/-- A sender 1000 ns ahead, answering at 150 and 420; a reply from before its request is ignored. -/
theorem clock_offset_error_two :
    |(([⟨100, ntpFromNs 1150 0, 200⟩, ⟨9, 77, 5⟩, ⟨400, ntpFromNs 1420 0, 430⟩] : List TimingReply).foldl
      clockTimingReply clockInit).offsetNs - 1000| ≤ 16 := by
  have h := (clock_offset_error 1000 [⟨100, ntpFromNs 1150 0, 200⟩, ⟨9, 77, 5⟩, ⟨400, ntpFromNs 1420 0, 430⟩]
    (by
      intro r hr hle
      simp only [List.mem_cons, List.not_mem_nil, or_false] at hr
      rcases hr with rfl | rfl | rfl
      · exact ⟨150, by decide, by decide, by decide, 1150, by decide, by decide, rfl⟩
      · exact absurd hle (by decide)
      · exact ⟨420, by decide, by decide, by decide, 1420, by decide, by decide, rfl⟩)
    ⟨_, List.mem_cons_self, by decide⟩).2.1
  exact h.trans (by decide)

end ShairKindle
