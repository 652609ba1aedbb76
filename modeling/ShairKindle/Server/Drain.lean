import ShairKindle.Rtsp.Slices
import ShairKindle.Server.Basic

/-!
# Draining the read buffer (src/main.c:322)

`drain` parses message after message from the front of the buffer. The model runs the loop on fuel; here it is
shown that the buffer's length is always enough of it (`drainLoop_fuel`), because a complete message takes at
least its separator. `rtspMsgParse_stable_inside` puts this together with what the parser promises about one
message.
-/

namespace ShairKindle

open Bytes

/-- **The loop ends.** Fuel beyond the length of the buffer is never used. -/
theorem drainLoop_fuel (P : Platform) (env : Nat → MsgEnv) (f g i : Nat) (S : Server) (buf : Bytes) (hf : buf.length ≤ f)
    (hg : buf.length ≤ g) : drainLoop P env f i S buf = drainLoop P env g i S buf := by
  induction f generalizing g i S buf with
  | zero =>
    obtain rfl := List.length_eq_zero_iff.1 (Nat.le_zero.1 hf)
    cases g <;> rfl
  | succ f ih =>
    cases g with
    | zero =>
      obtain rfl := List.length_eq_zero_iff.1 (Nat.le_zero.1 hg)
      rfl
    | succ g =>
      simp only [drainLoop]
      cases h : rtspMsgParse P.longMax buf with
      | needHead | needBody m k | malformed => rfl
      | complete m k =>
        have hk := (rtspMsgParse_complete_bounds h).1
        have hlen : (buf.drop k).length = buf.length - k := List.length_drop
        simp only [ih g (i + 1) (handleMsg P (env i) S m).1 (buf.drop k) (by omega) (by omega)]

/-- **The parser, whole.** More input never changes a complete message or a malformed one. A complete message has its
method, its URI and at most 24 headers inside the header block, its body is the bytes after the block that its
Content-Length header counts, and it takes between four bytes and the whole buffer, so that the drain loop ends
within as many rounds as there are bytes. No number overflows a `long` of 32 or of 64 bits. -/
theorem rtspMsgParse_stable_inside (longMax : Nat) (b : Bytes) :
    (∀ x m k, rtspMsgParse longMax b = .complete m k → rtspMsgParse longMax (b ++ x) = .complete m k) ∧
    (∀ x, rtspMsgParse longMax b = .malformed → rtspMsgParse longMax (b ++ x) = .malformed) ∧
    (∀ m k, rtspMsgParse longMax b = .complete m k →
      ∃ n, hdrsEnd b = some n ∧ m.Inside (b.take n) ∧ m.hdr.length ≤ 24 ∧ hdrLength m.hdr = some m.bodyLen ∧
        m.body = (if 0 < m.bodyLen then some ((b.drop n).take m.bodyLen) else none) ∧
        ((b.drop n).take m.bodyLen).length = m.bodyLen ∧ k = n + m.bodyLen ∧ 4 ≤ k ∧ k ≤ b.length ∧
        (9 ≤ longMax → m.bodyLen ≤ longMax)) ∧
    (∀ (P : Platform) (env : Nat → MsgEnv) (i fuel : Nat) (S : Server), b.length ≤ fuel →
      drainLoop P env fuel i S b = drainLoop P env b.length i S b) ∧
    (∀ (w : Nat) (s : Bytes), w = 32 ∨ w = 64 →
      parseNonnegLongW w s = some ((parseNonnegLong (2 ^ (w - 1) - 1) s).map Int.ofNat)) := by
  refine ⟨fun x m k => (rtspMsgParse_append x).1 m k, fun x => (rtspMsgParse_append x).2, ?_, ?_, ?_⟩
  · intro m k h
    obtain ⟨n, hn, hin, hinv, hbody, hlen, hk⟩ := rtspMsgParse_complete h
    obtain ⟨h4, hle⟩ := rtspMsgParse_complete_bounds h
    exact ⟨n, hn, hin, hinv.hdr_le, hinv.length, hbody, hlen, hk, h4, hle, hinv.bodyLen_le⟩
  · intro P env i fuel S hfuel
    exact drainLoop_fuel P env fuel b.length i S b hfuel le_rfl
  · intro w s hw
    exact parseNonnegLongW_eq hw s

end ShairKindle
