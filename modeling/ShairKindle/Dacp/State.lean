import ShairKindle.Lib.Bytes

/-!
# The DACP session record (src/dacp_state.c)

Credentials of the current controller and the port cached for it, shared between the RTSP thread,
which captures them, and the threads that send commands. Every function here runs under `g_lock`, so
each is one atomic update of the record.
-/

namespace ShairKindle

open Bytes

/-- `hexval` (dacp_state.c:7): the digit in upper case. -/
def hexval (c : UInt8) : Option UInt8 :=
  if 48 ≤ c ∧ c ≤ 57 then some c
  else if 97 ≤ c ∧ c ≤ 102 then some (c - 97 + 65)
  else if 65 ≤ c ∧ c ≤ 70 then some c
  else none

/-- `dacp_normalize_id` (dacp_state.c:14). -/
def dacpNormalizeId (input : Bytes) : Option Bytes :=
  if input = [] ∨ 16 < input.length then none else input.mapM hexval

/-- `dacp_sanitize_token` (dacp_state.c:25). -/
def dacpSanitizeToken (outcap : Nat) (input : Bytes) : Option Bytes :=
  let digits := input.takeWhile isDigit
  if outcap < digits.length + 1 ∨ digits = [] then none else some digits

/-- `dacp_snapshot_t` (dacp_state.h:23). `generation` and `resolvedGen` are 32-bit `unsigned`. -/
structure DacpState where
  generation : Nat
  haveCreds : Bool
  dacpId : Bytes
  activeRemote : Bytes
  resolvedPort : Nat
  resolvedGen : Nat
  peerIpBe : Nat
deriving DecidableEq, Repr

/-- `dacp_state_init` (dacp_state.c:41). -/
def dacpStateInit : DacpState := ⟨0, false, [], [], 0, 0, 0⟩

/-- `dacp_state_new_session` (dacp_state.c:47). -/
def dacpStateNewSession (st : DacpState) : DacpState :=
  { dacpStateInit with generation := (st.generation + 1) % 2 ^ 32 }

/-- `dacp_state_capture` (dacp_state.c:55): the peer is always taken over; valid credentials are
too, and clear the cached port if they are new. -/
def dacpStateCapture (st : DacpState) (id token : Bytes) (peerIpBe : Nat) : DacpState :=
  let st := { st with peerIpBe := peerIpBe }
  match dacpNormalizeId id, dacpSanitizeToken 32 token with
  | some nid, some ntok =>
    let changed := !st.haveCreds || st.dacpId != nid || st.activeRemote != ntok
    let st := if changed then { st with resolvedPort := 0, resolvedGen := 0 } else st
    { st with dacpId := nid, activeRemote := ntok, haveCreds := true }
  | _, _ => st

/-- `dacp_state_publish_port` (dacp_state.c:88). -/
def dacpStatePublishPort (st : DacpState) (gen port : Nat) : DacpState :=
  if gen = st.generation then { st with resolvedPort := port, resolvedGen := gen } else st

/-! ## What each update leaves -/

/-- A capture keeps the generation, and keeps a cached port only together with its owner. -/
theorem dacpStateCapture_spec (st : DacpState) (id token : Bytes) (peer : Nat) :
    (dacpStateCapture st id token peer).generation = st.generation ∧
    ((dacpStateCapture st id token peer).resolvedPort = 0 ∨
      (dacpStateCapture st id token peer).resolvedPort = st.resolvedPort ∧
        (dacpStateCapture st id token peer).dacpId = st.dacpId) := by
  unfold dacpStateCapture
  split
  · rename_i nid ntok _ _
    by_cases hc : (!st.haveCreds || st.dacpId != nid || st.activeRemote != ntok) = true
    · simp only [hc, if_true]
      exact ⟨trivial, .inl trivial⟩
    · simp only [hc, Bool.false_eq_true, if_false]
      simp only [Bool.or_eq_true, bne_iff_ne, not_or, not_not] at hc
      exact ⟨trivial, .inr ⟨trivial, hc.1.2.symm⟩⟩
  · exact ⟨rfl, .inr ⟨rfl, rfl⟩⟩

end ShairKindle
