import Mathlib.Data.List.DropRight
import ShairKindle.Lib.Bytes
import ShairKindle.Lib.Run

/-!
# Control lines of the supervisor

The kindlet talks to `airplay-supervisor` in newline-terminated lines over a stream socket, so a read
may end anywhere in a line. `sup_lb_push` reassembles the lines in a 512-byte buffer and classifies
each one; a line that does not fit is dropped as a whole.

| here | there |
| --- | --- |
| `SupEvent`        | `sup_event_t` (supervisor.h:17) |
| `supClassifyLine` | `sup_classify_line` (supervisor.c:66) |
| `SupLb`           | `sup_lb_t` (supervisor.h:39); `buf` is the first `used` bytes of the array |
| `supLbByte`       | the body of the loop in `sup_lb_push` (supervisor.c:85) |
| `supLbPush`       | `sup_lb_push` (supervisor.c:80) |

`lineEvents` is what the reassembly is for, as a function of the whole stream: the events of the
terminated lines that fit, in order.
-/

namespace ShairKindle

open Bytes

/-- What the lease machine is told. -/
inductive SupEvent
  | accept | heartbeat | stop | eof | tick | next | prev | playpause | none
  deriving Repr, DecidableEq

/-- The event of one line. The line is read as a C string, and line ends are stripped. -/
def supClassifyLine (line : Bytes) : SupEvent :=
  let s := (cstr line).rdropWhile fun c => c = 10 || c = 13
  if s = ascii "STOP" then .stop
  else if s = ascii "PING" then .heartbeat
  else if (ascii "HELLO").isPrefixOf s then .heartbeat
  else if s = ascii "NEXT" then .next
  else if s = ascii "PREV" then .prev
  else if s = ascii "PLAYPAUSE" then .playpause
  else .none

def supLbMax : Nat := 512

structure SupLb where
  buf : Bytes
  discarding : Bool
  deriving Repr, DecidableEq

def SupLb.used (lb : SupLb) : Nat := lb.buf.length

def supLbInit : SupLb := ⟨[], false⟩

/-- One byte, with the events the push has returned so far. -/
def supLbByte (max : Nat) : SupLb × List SupEvent → UInt8 → SupLb × List SupEvent
  | (lb, evs), c =>
    if lb.discarding then (if c = 10 then { lb with discarding := false } else lb, evs)
    else if c = 10 then
      ({ lb with buf := [] }, if evs.length < max then evs ++ [supClassifyLine lb.buf] else evs)
    else if lb.used < supLbMax - 1 then ({ lb with buf := lb.buf ++ [c] }, evs)
    else (⟨[], true⟩, evs)

/-- Push the bytes of one read; at most `max` events come back. -/
def supLbPush (lb : SupLb) (data : Bytes) (max : Nat) : SupLb × List SupEvent :=
  data.foldl (supLbByte max) (lb, [])

/-- The reads of a connection: each is a chunk and the room there is for its events. -/
def supLbReads (lb : SupLb) (reads : List (Bytes × Nat)) : SupLb × List (List SupEvent) :=
  Machine.run (fun lb r => supLbPush lb r.1 r.2) lb reads

/-! ## The stream as lines -/

/-- The events of a stream: of its terminated lines shorter than the buffer, in order. -/
def lineEvents (s : Bytes) : List SupEvent :=
  ((lines s).filter fun l => l.length < supLbMax).map supClassifyLine

theorem lines_no_lf {p : Bytes} (hp : 10 ∉ p) : lines p = [] := by
  induction p with
  | nil => rfl
  | cons x p ih =>
    simp only [List.mem_cons, not_or] at hp
    simp [lines, Ne.symm hp.1, ih hp.2]

theorem lines_line {p : Bytes} (hp : 10 ∉ p) (s : Bytes) : lines (p ++ 10 :: s) = p :: lines s := by
  induction p with
  | nil => simp [lines]
  | cons x p ih =>
    simp only [List.mem_cons, not_or] at hp
    simp [lines, Ne.symm hp.1, ih hp.2]

theorem lineEvents_line {p : Bytes} (hp : 10 ∉ p) (s : Bytes) :
    lineEvents (p ++ 10 :: s) =
      (if p.length < supLbMax then [supClassifyLine p] else []) ++ lineEvents s := by
  simp only [lineEvents, lines_line hp, List.filter_cons, decide_eq_true_eq]
  split <;> simp

/-- Text that ends in a line feed contributes its events in front of what follows. -/
theorem lineEvents_append (a b : Bytes) :
    lineEvents (a ++ 10 :: b) = lineEvents (a ++ [10]) ++ lineEvents b := by
  simp only [lineEvents, lines_append a b, List.filter_append, List.map_append]

/-! ## What the buffer stands for -/

/-- The buffer stands for the unfinished line `p`: it holds it, or it is dropping it because it is
too long. -/
structure Pending (lb : SupLb) (p : Bytes) : Prop where
  no_lf : 10 ∉ p
  held : lb.discarding = false → lb.buf = p
  fits : lb.used < supLbMax
  overlong : lb.discarding = true → supLbMax ≤ p.length ∧ lb.buf = []

theorem Pending.init : Pending supLbInit [] := ⟨by simp, fun _ => rfl, by decide, by simp [supLbInit]⟩

/-- Reading `data` takes the buffer from `lb` to `lb'` with the events `es`: whatever comes after it,
the stream's events are `es` and those of the unfinished line continued. -/
def Consumes (lb : SupLb) (data : Bytes) (lb' : SupLb) (es : List SupEvent) : Prop :=
  ∀ p, Pending lb p → ∃ q, Pending lb' q ∧
    ∀ rest, lineEvents (p ++ (data ++ rest)) = es ++ lineEvents (q ++ rest)

theorem Consumes.nil (lb : SupLb) : Consumes lb [] lb [] := fun p hp => ⟨p, hp, fun _ => rfl⟩

theorem Consumes.append {lb lb' lb'' : SupLb} {a b : Bytes} {es fs : List SupEvent}
    (h1 : Consumes lb a lb' es) (h2 : Consumes lb' b lb'' fs) :
    Consumes lb (a ++ b) lb'' (es ++ fs) := by
  intro p hp
  obtain ⟨q, hq, he⟩ := h1 p hp
  obtain ⟨r, hr, hf⟩ := h2 q hq
  refine ⟨r, hr, fun rest => ?_⟩
  rw [List.append_assoc, he, hf, List.append_assoc]

/-- One byte: a line feed ends the line, kept or dropped, and any other byte belongs to it. -/
theorem Pending.byte {lb : SupLb} {p : Bytes} (hp : Pending lb p) (max : Nat) (evs : List SupEvent) (c : UInt8) :
    Pending (supLbByte max (lb, evs) c).1 (if c = 10 then [] else p ++ [c]) := by
  by_cases hc : c = 10
  · have hnew : (supLbByte max (lb, evs) c).1 = supLbInit := by
      cases hd : lb.discarding with
      | true => simp [supLbByte, hd, hc, supLbInit, (hp.overlong hd).2]
      | false => simp [supLbByte, hd, hc, supLbInit]
    rw [hnew, if_pos hc]
    exact Pending.init
  · have hno : 10 ∉ p ++ [c] := by simp [hp.no_lf, Ne.symm hc]
    rw [if_neg hc]
    cases hd : lb.discarding with
    | true =>
      obtain ⟨hlong, hbuf⟩ := hp.overlong hd
      have hsame : (supLbByte max (lb, evs) c).1 = lb := by simp [supLbByte, hd, hc]
      rw [hsame]
      refine ⟨hno, by simp [hd], hp.fits, fun _ => ⟨?_, hbuf⟩⟩
      exact hlong.trans (by simp)
    | false =>
      obtain rfl := hp.held hd
      -- the 512th byte of a line finds the buffer full: from here on the line is dropped
      by_cases hu : lb.used < supLbMax - 1
      · have he : (supLbByte max (lb, evs) c).1 = ⟨lb.buf ++ [c], false⟩ := by simp [supLbByte, hd, hc, hu]
        rw [he]
        refine ⟨hno, fun _ => rfl, ?_, by simp⟩
        simp only [SupLb.used, List.length_append, List.length_singleton] at hu ⊢
        omega
      · have he : (supLbByte max (lb, evs) c).1 = ⟨[], true⟩ := by simp [supLbByte, hd, hc, hu]
        rw [he]
        refine ⟨hno, by simp, by decide, fun _ => ⟨?_, rfl⟩⟩
        simp only [SupLb.used] at hu
        simp only [List.length_append, List.length_singleton]
        omega

/-- One byte, as long as there is room for its event. -/
theorem consumes_byte (max : Nat) (lb : SupLb) (evs : List SupEvent) (c : UInt8) (hmax : evs.length < max) :
    ∃ es, es.length ≤ 1 ∧ (supLbByte max (lb, evs) c).2 = evs ++ es ∧
      Consumes lb [c] (supLbByte max (lb, evs) c).1 es := by
  by_cases hc : c = 10
  · subst hc
    cases hd : lb.discarding with
    | true =>
      refine ⟨[], by simp, by simp [supLbByte, hd], fun p hp => ⟨[], hp.byte max evs 10, fun rest => ?_⟩⟩
      simp [lineEvents_line hp.no_lf, Nat.not_lt.2 (hp.overlong hd).1]
    | false =>
      refine ⟨[supClassifyLine lb.buf], by simp, by simp [supLbByte, hd, hmax], fun p hp =>
        ⟨[], hp.byte max evs 10, fun rest => ?_⟩⟩
      obtain rfl := hp.held hd
      have hfits : lb.buf.length < supLbMax := hp.fits
      simp [lineEvents_line hp.no_lf, hfits]
  · refine ⟨[], by simp, ?_, fun p hp => ⟨p ++ [c], ?_, fun rest => by simp⟩⟩
    · simp only [supLbByte, if_neg hc, List.append_nil]
      split_ifs <;> rfl
    · have hnext := hp.byte max evs c
      rwa [if_neg hc] at hnext

/-- The bytes of one read, as long as there is room for an event per byte. -/
theorem consumes_bytes (max : Nat) (data : Bytes) : ∀ (lb : SupLb) (evs : List SupEvent),
    evs.length + data.length ≤ max →
    ∃ es, (data.foldl (supLbByte max) (lb, evs)).2 = evs ++ es ∧
      Consumes lb data (data.foldl (supLbByte max) (lb, evs)).1 es := by
  induction data with
  | nil => exact fun lb evs _ => ⟨[], by simp, Consumes.nil lb⟩
  | cons c data ih =>
    intro lb evs hmax
    rw [List.length_cons] at hmax
    obtain ⟨es, hes, hevs, hc⟩ := consumes_byte max lb evs c (by omega)
    obtain ⟨fs, hfs, hd⟩ := ih (supLbByte max (lb, evs) c).1 (evs ++ es) (by simp; omega)
    rw [← hevs] at hfs hd
    refine ⟨es ++ fs, ?_, ?_⟩
    · rw [List.foldl_cons, hfs, hevs, List.append_assoc]
    · rw [List.foldl_cons]
      exact hc.append hd

/-- The reads of a connection. -/
theorem consumes_reads (reads : List (Bytes × Nat)) (hmax : ∀ r ∈ reads, r.1.length ≤ r.2) (lb : SupLb) :
    Consumes lb (reads.map Prod.fst).flatten (supLbReads lb reads).1 (supLbReads lb reads).2.flatten := by
  induction reads generalizing lb with
  | nil => exact Consumes.nil lb
  | cons r reads ih =>
    simp only [List.forall_mem_cons] at hmax
    obtain ⟨es, hes, hr⟩ := consumes_bytes r.2 r.1 lb [] (by simpa using hmax.1)
    rw [List.nil_append] at hes
    subst hes
    exact hr.append (ih hmax.2 (supLbPush lb r.1 r.2).1)

/-! ## The buffer never overflows -/

theorem used_byte (max : Nat) (st : SupLb × List SupEvent) (c : UInt8) (h : st.1.used < supLbMax) :
    (supLbByte max st c).1.used < supLbMax := by
  obtain ⟨lb, evs⟩ := st
  simp only [SupLb.used, supLbMax] at h
  simp only [supLbByte]
  split_ifs <;> simp [SupLb.used, supLbMax] at * <;> omega

theorem used_push (lb : SupLb) (data : Bytes) (max : Nat) (h : lb.used < supLbMax) :
    (supLbPush lb data max).1.used < supLbMax := by
  refine List.foldlRecOn data (supLbByte max) (motive := fun st : SupLb × List SupEvent => st.1.used < supLbMax) h ?_
  exact fun st hst c _ => used_byte max st c hst

theorem used_reads (reads : List (Bytes × Nat)) : (supLbReads supLbInit reads).1.used < supLbMax :=
  Machine.run_inv (fun lb => lb.used < supLbMax) (fun lb r h => used_push lb r.1 r.2 h) (by decide) reads

/-! ## Reassembly -/

/-- **Where the reads end does not matter.** However a stream is cut into reads, each with room for an
event per byte: the events returned are those of the stream's terminated lines that fit the buffer, in
order; a line that follows an overlong one is classified as if it came first; and at every byte of every
further read (`part` is what of it has been taken) fewer than 512 bytes of the buffer are used. -/
theorem events_of_any_cutting (reads : List (Bytes × Nat)) (hmax : ∀ r ∈ reads, r.1.length ≤ r.2) :
    (supLbReads supLbInit reads).2.flatten = lineEvents (reads.map Prod.fst).flatten ∧
    (∀ pre long line post, (reads.map Prod.fst).flatten = pre ++ long ++ 10 :: (line ++ 10 :: post) →
      (pre = [] ∨ ∃ pre', pre = pre' ++ [10]) → 10 ∉ long → supLbMax ≤ long.length → 10 ∉ line →
      line.length < supLbMax →
      (supLbReads supLbInit reads).2.flatten = lineEvents pre ++ supClassifyLine line :: lineEvents post) ∧
    ∀ (part : Bytes) (max : Nat), (supLbPush (supLbReads supLbInit reads).1 part max).1.used < supLbMax := by
  have hev : (supLbReads supLbInit reads).2.flatten = lineEvents (reads.map Prod.fst).flatten := by
    obtain ⟨q, hq, he⟩ := consumes_reads reads hmax supLbInit [] Pending.init
    have hend := he []
    have hnone : lineEvents q = [] := by simp [lineEvents, lines_no_lf hq.no_lf]
    simpa [hnone] using hend.symm
  refine ⟨hev, ?_, fun part max => used_push _ part max (used_reads reads)⟩
  intro pre long line post hs hpre hlong hlen hline hfit
  have hnext : lineEvents (long ++ 10 :: (line ++ 10 :: post)) = supClassifyLine line :: lineEvents post := by
    simp [lineEvents_line hlong, lineEvents_line hline, Nat.not_lt.2 hlen, hfit]
  rw [hev, hs, List.append_assoc]
  obtain rfl | ⟨pre', rfl⟩ := hpre
  · rw [List.nil_append, hnext]
    rfl
  · rw [List.append_assoc, List.singleton_append, lineEvents_append, hnext]

/-- `NEXT` cut in the middle, between two heartbeats. -/
theorem events_of_any_cutting_split_command :
    (supLbReads supLbInit
      [(ascii "HELLO 1" ++ [13, 10] ++ ascii "NE", 256), (ascii "XT" ++ [10] ++ ascii "PING", 256),
        ([10], 256)]).2.flatten =
      lineEvents (ascii "HELLO 1" ++ [13, 10] ++ ascii "NEXT" ++ [10] ++ ascii "PING" ++ [10]) :=
  (events_of_any_cutting
    [(ascii "HELLO 1" ++ [13, 10] ++ ascii "NE", 256), (ascii "XT" ++ [10] ++ ascii "PING", 256),
      ([10], 256)] (by decide)).1

example : lineEvents (ascii "HELLO 1" ++ [13, 10] ++ ascii "NEXT" ++ [10] ++ ascii "PING" ++ [10]) =
    [.heartbeat, .next, .heartbeat] := by decide +kernel

end ShairKindle
