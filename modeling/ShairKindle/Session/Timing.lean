import ShairKindle.Session.Receiver

/-!
# The timing exchange (src/session.c, src/rtp.c, src/raop_clock.c)

The receiver asks the sender for its time and takes the answer for a sample of the clock offset. Nothing on the wire
can be trusted to come once, in order or at all, so a request carries a token that the answer echoes, at most one
request is outstanding, and one that is not answered within three seconds is given up.

* `reply_answers_latest_request`: every reply the clock is given echoes the token of the last request sent, which no
  other reply has answered.
* `exchange_never_wedges`: after every turn of the thread that comes to its periodic part and whose send works,
  however many datagrams the turn drained first, a request is outstanding that is new or at most three seconds old.
* `exchange_offset_error`: with a sender that answers truthfully, over a network that may lose, repeat, delay and
  reorder, the clock is within half the shortest round trip of the sender's, as long as no two requests carry the same
  token. The token is the receiver's own time at its current idea of the offset (session.c:150), and 0 whenever that
  lies before zero (`ntp_from_ns`), so this has to be asked for.
-/

namespace ShairKindle.Receiver

open Bytes

/-! ## Reading a trace -/

def Obs.request : Obs → Option TimingRequest
  | .periodic _ request => request
  | _ => none

def Obs.reply : Obs → Option TimingReply
  | .applied reply => some reply
  | _ => none

def requests (tr : List Obs) : List TimingRequest := tr.filterMap Obs.request

def replies (tr : List Obs) : List TimingReply := tr.filterMap Obs.reply

/-- The last request of the trace is `q`, and no reply came after it. -/
def Unanswered (tr : List Obs) (q : TimingRequest) : Prop :=
  ∃ pre o mid, tr = pre ++ o :: mid ∧ o.request = some q ∧ ∀ o' ∈ mid, o'.request = none ∧ o'.reply = none

theorem Unanswered.concat {tr : List Obs} {q : TimingRequest} (h : Unanswered tr q) {o : Obs}
    (ho : o.request = none ∧ o.reply = none) : Unanswered (tr ++ [o]) q := by
  obtain ⟨pre, p, mid, rfl, hp, hmid⟩ := h
  refine ⟨pre, p, mid ++ [o], by simp, hp, fun o' ho' => ?_⟩
  rcases List.mem_append.1 ho' with ho' | ho'
  · exact hmid o' ho'
  · rw [List.mem_singleton.1 ho']
    exact ho

theorem Unanswered.mem {tr : List Obs} {q : TimingRequest} (h : Unanswered tr q) : q ∈ requests tr := by
  obtain ⟨pre, o, mid, rfl, ho, -⟩ := h
  simp [requests, ho]

theorem Unanswered.getLast? {tr : List Obs} {q : TimingRequest} (h : Unanswered tr q) : (requests tr).getLast? = some q := by
  obtain ⟨pre, o, mid, rfl, ho, hmid⟩ := h
  have hnone : mid.filterMap Obs.request = [] := by
    rw [List.filterMap_eq_nil_iff]
    exact fun o' ho' => (hmid o' ho').1
  rw [requests, List.filterMap_append, List.filterMap_cons_some ho, hnone, List.getLast?_concat]

/-! ## What a step does to the exchange -/

/-- Everything a step can do to the exchange: nothing or give up, send a request, or take a reply. -/
inductive Moves (peer : UInt32) (x x' : Exchange) (ev : Event) (o : Obs) : Prop
  | idle (hreq : o.request = none) (hrep : o.reply = none)
      (hx : x' = x ∨ x' = { x with timingOutstanding := false })
  | sent (q : TimingRequest) (hreq : o.request = some q) (hrep : o.reply = none)
      (htok : q.token = ntpFromNs q.t1 x.clk.offsetNs) (hbytes : rtpBuildTimingRequest q.token 32 = some q.bytes)
      (hx : x' = ⟨x.clk, q.t1, q.token, true⟩)
  | applied (r : TimingReply) (buf : Bytes) (hev : ev = .datagram .timing peer buf r.t4) (ho : o = .applied r)
      (hout : x.timingOutstanding = true) (ht1 : r.t1 = x.timingT1Ns)
      (hparse : rtpParseTimingReply (buf.take rxBufLen) = some (r.remoteNtp, x.timingTokenNtp))
      (hx : x' = ⟨clockTimingReply x.clk r, x.timingT1Ns, x.timingTokenNtp, false⟩)

theorem sendTimingRequest_cases (x : Exchange) (t1 : Nat) (sendOk : Bool) :
    sendOk = false ∧ sendTimingRequest x t1 sendOk = (x, none) ∨
    ∃ q : TimingRequest, sendOk = true ∧ q.t1 = t1 ∧ q.token = ntpFromNs t1 x.clk.offsetNs ∧
      rtpBuildTimingRequest q.token 32 = some q.bytes ∧ sendTimingRequest x t1 sendOk = (⟨x.clk, q.t1, q.token, true⟩, some q) := by
  cases sendOk with
  | false => exact .inl ⟨rfl, rfl⟩
  | true => exact .inr ⟨⟨t1, ntpFromNs t1 x.clk.offsetNs, _⟩, rfl, rfl, rfl, rfl, rfl⟩

theorem expireRequest_cases (x : Exchange) (now : Nat) :
    expireRequest x now = x ∧ (x.timingOutstanding = true → subU64 now x.timingT1Ns ≤ timingTimeoutNs) ∨
    expireRequest x now = { x with timingOutstanding := false } := by
  by_cases h : x.timingOutstanding ∧ timingTimeoutNs < subU64 now x.timingT1Ns
  · exact .inr (by rw [expireRequest, if_pos h])
  · exact .inl ⟨by rw [expireRequest, if_neg h], fun ho => not_lt.1 fun hlt => h ⟨ho, hlt⟩⟩

theorem timingDatagram_moves (peer : UInt32) (x : Exchange) (buf : Bytes) (t4 : Nat) :
    (timingDatagram x (buf.take rxBufLen) t4 = (x, none)) ∨
    ∃ r, (timingDatagram x (buf.take rxBufLen) t4).2 = some r ∧
      Moves peer x (timingDatagram x (buf.take rxBufLen) t4).1 (.datagram .timing peer buf t4) (.applied r) := by
  simp only [timingDatagram]
  cases hout : x.timingOutstanding with
  | false => exact .inl rfl
  | true =>
    cases hparse : rtpParseTimingReply (buf.take rxBufLen) with
    | none => exact .inl rfl
    | some p =>
      obtain ⟨remoteNtp, originEcho⟩ := p
      by_cases hecho : originEcho = x.timingTokenNtp
      · subst hecho
        simp only [Bool.not_true, Bool.false_eq_true, if_false, ne_eq, not_true_eq_false]
        exact .inr ⟨_, rfl, .applied ⟨x.timingT1Ns, remoteNtp, t4⟩ buf rfl rfl hout rfl hparse rfl⟩
      · simp only [Bool.not_true, Bool.false_eq_true, if_false, ne_eq, hecho, not_false_eq_true, if_true]
        exact .inl trivial

/-- **What one step does to the exchange.** -/
theorem step_moves (peer : UInt32) (s : Rx) (ev : Event) :
    Moves peer s.exchange (step peer s ev).1.exchange ev (step peer s ev).2 := by
  cases ev with
  | datagram port source buf t4 =>
    simp only [step]
    split
    · exact .idle rfl rfl (.inl rfl)
    · rename_i hkeep
      obtain rfl : source = peer := by
        by_contra hne
        exact hkeep (.inr hne)
      cases port with
      | audio =>
        simp only [rxDispatch]
        split <;> exact .idle rfl rfl (.inl rfl)
      | control =>
        simp only [rxDispatch]
        split
        · split <;> exact .idle rfl rfl (.inl rfl)
        · split <;> exact .idle rfl rfl (.inl rfl)
        · exact .idle rfl rfl (.inl rfl)
      | timing =>
        simp only [rxDispatch]
        rcases timingDatagram_moves source s.exchange buf t4 with he | ⟨r, hr, hm⟩
        · rw [he]
          exact .idle rfl rfl (.inl rfl)
        · rcases hd : timingDatagram s.exchange (buf.take rxBufLen) t4 with ⟨x, out⟩
          rw [hd] at hr hm
          obtain rfl : out = some r := hr
          exact hm
  | periodic now t1 sendOk =>
    simp only [step, rxPeriodic]
    split
    · exact .idle rfl rfl (.inl rfl)
    · split
      · refine .idle rfl rfl ?_
        rcases expireRequest_cases s.exchange now with ⟨he, -⟩ | he
        · exact .inl he
        · exact .inr he
      · rcases sendTimingRequest_cases (expireRequest s.exchange now) t1 sendOk with ⟨-, he⟩ | ⟨q, -, ht1, htok, hb, he⟩
        · rw [he]
          refine .idle rfl rfl ?_
          rcases expireRequest_cases s.exchange now with ⟨he, -⟩ | he
          · exact .inl he
          · exact .inr he
        · rw [he]
          have hclk : (expireRequest s.exchange now).clk = s.exchange.clk := by
            rcases expireRequest_cases s.exchange now with ⟨he, -⟩ | he <;> rw [he]
          rw [hclk] at htok ⊢
          exact .sent q rfl rfl (by rw [htok, ht1]) hb rfl
  | player => exact .idle rfl rfl (.inl rfl)
  | flush seq ts => exact .idle rfl rfl (.inl rfl)

/-! ## Whole runs -/

/-- `session_start` sends the first request; then the threads run. -/
def trace (peer : UInt32) (started : Rx × Option TimingRequest) (evs : List Event) : List Obs :=
  .periodic none started.2 :: (run peer started.1 evs).2

theorem ntpFromNs_lt (t : Nat) (off : Int) : ntpFromNs t off < 2 ^ 64 := by
  refine Nat.or_lt_two_pow (Nat.mod_lt _ (by norm_num)) ?_
  exact (Nat.div_le_self _ _).trans_lt (Nat.mod_lt _ (by norm_num))

/-- The token of a request is where the sender looks for it. -/
theorem be64At_timingRequest {token : Nat} (ht : token < 2 ^ 64) {bytes : Bytes}
    (h : rtpBuildTimingRequest token 32 = some bytes) : bytes.length = 32 ∧ be64At bytes 24 = token := by
  obtain rfl := Option.some.inj h
  refine ⟨rfl, ?_⟩
  have hread := be64At_putBe64 ([0x80, 0xD2] ++ putBe16 0x0007 ++ List.replicate 20 0) [] ht
  rw [List.append_nil] at hread
  exact hread

/-- How the exchange stands after a trace: the clock has had the replies, and what is outstanding is the last request,
not answered since. -/
structure Matched (x : Exchange) (tr : List Obs) : Prop where
  clk : x.clk = (replies tr).foldl clockTimingReply clockInit
  outstanding : x.timingOutstanding = true →
    ∃ q, Unanswered tr q ∧ x.timingT1Ns = q.t1 ∧ x.timingTokenNtp = q.token
  built : ∀ q ∈ requests tr, q.bytes.length = 32 ∧ be64At q.bytes 24 = q.token

theorem Matched.nil (x : Exchange) (hclk : x.clk = clockInit) (hout : x.timingOutstanding = false) : Matched x [] where
  clk := hclk
  outstanding h := by rw [hout] at h; cases h
  built q h := by simp [requests] at h

/-- **One step.** -/
theorem Matched.step {peer : UInt32} {x x' : Exchange} {tr : List Obs} {ev : Event} {o : Obs} (h : Matched x tr)
    (hm : Moves peer x x' ev o) : Matched x' (tr ++ [o]) := by
  cases hm with
  | idle hreq hrep hx =>
    have hreqs : requests (tr ++ [o]) = requests tr := by simp [requests, hreq]
    have hreps : replies (tr ++ [o]) = replies tr := by simp [replies, hrep]
    have hclk : x'.clk = x.clk := by rcases hx with rfl | rfl <;> rfl
    have ht1 : x'.timingT1Ns = x.timingT1Ns := by rcases hx with rfl | rfl <;> rfl
    have htok : x'.timingTokenNtp = x.timingTokenNtp := by rcases hx with rfl | rfl <;> rfl
    refine ⟨by rw [hclk, hreps, h.clk], fun hout => ?_, by rw [hreqs]; exact h.built⟩
    have hout' : x.timingOutstanding = true := by
      rcases hx with rfl | rfl
      · exact hout
      · cases hout
    obtain ⟨q, hun, hq⟩ := h.outstanding hout'
    rw [ht1, htok]
    exact ⟨q, hun.concat ⟨hreq, hrep⟩, hq⟩
  | sent q hreq hrep htok hbytes hx =>
    subst hx
    have hreqs : requests (tr ++ [o]) = requests tr ++ [q] := by simp [requests, hreq]
    have hreps : replies (tr ++ [o]) = replies tr := by simp [replies, hrep]
    refine ⟨by rw [hreps, h.clk], fun _ => ⟨q, ⟨tr, o, [], rfl, hreq, by simp⟩, rfl, rfl⟩, fun q' hq' => ?_⟩
    rw [hreqs] at hq'
    rcases List.mem_append.1 hq' with hq' | hq'
    · exact h.built q' hq'
    · rw [List.mem_singleton.1 hq']
      exact be64At_timingRequest (htok ▸ ntpFromNs_lt _ _) hbytes
  | applied r buf hev ho hout ht1 hparse hx =>
    subst ho hx
    have hreqs : requests (tr ++ [.applied r]) = requests tr := by simp [requests, Obs.request]
    have hreps : replies (tr ++ [.applied r]) = replies tr ++ [r] := by simp [replies, Obs.reply]
    refine ⟨?_, fun hc => (nomatch hc), by rw [hreqs]; exact h.built⟩
    rw [hreps, List.foldl_append, ← h.clk]
    rfl

theorem matched_start (frameLength : Int) (seq : UInt16) (ts : UInt32) (t1 : Nat) (sendOk : Bool) (last : Nat) :
    Matched (start frameLength seq ts t1 sendOk last).1.exchange [.periodic none (start frameLength seq ts t1 sendOk last).2] := by
  -- `session_start` sends its request from the cleared fields
  have h0 := Matched.nil ⟨clockInit, 0, 0, false⟩ rfl rfl
  have hm : Moves 0 ⟨clockInit, 0, 0, false⟩ (sendTimingRequest ⟨clockInit, 0, 0, false⟩ t1 sendOk).1 .player
      (.periodic none (sendTimingRequest ⟨clockInit, 0, 0, false⟩ t1 sendOk).2) := by
    rcases sendTimingRequest_cases ⟨clockInit, 0, 0, false⟩ t1 sendOk with ⟨-, he⟩ | ⟨q, -, ht1, htok, hb, he⟩
    · rw [he]
      exact .idle rfl rfl (.inl rfl)
    · rw [he]
      exact .sent q rfl rfl (by rw [htok, ht1]) hb rfl
  exact h0.step hm

theorem matched_run (peer : UInt32) (frameLength : Int) (seq : UInt16) (ts : UInt32) (t1 : Nat) (sendOk : Bool)
    (last : Nat) (evs : List Event) :
    Matched (run peer (start frameLength seq ts t1 sendOk last).1 evs).1.exchange
      (trace peer (start frameLength seq ts t1 sendOk last) evs) :=
  Machine.run_hist_of_allSteps (P := fun _ _ => True) (fun s tr => Matched s.exchange tr)
    (fun s _ ev hs _ => hs.step (step_moves peer s ev)) (matched_start frameLength seq ts t1 sendOk last) evs
    (.of_forall _ evs fun _ _ _ => trivial)

/-- Where a reply stands in a trace, there is the datagram that brought it and the exchange as it was. -/
theorem applied_split {peer : UInt32} {started : Rx × Option TimingRequest} {evs : List Event} {pre post : List Obs}
    {r : TimingReply} (htr : trace peer started evs = pre ++ .applied r :: post) :
    ∃ evs₁ buf evs₂, evs = evs₁ ++ .datagram .timing peer buf r.t4 :: evs₂ ∧ pre = trace peer started evs₁ ∧
      (run peer started.1 evs₁).1.exchange.timingOutstanding = true ∧
      r.t1 = (run peer started.1 evs₁).1.exchange.timingT1Ns ∧
      rtpParseTimingReply (buf.take rxBufLen) =
        some (r.remoteNtp, (run peer started.1 evs₁).1.exchange.timingTokenNtp) := by
  cases pre with
  | nil => simp [trace] at htr
  | cons o pre =>
    simp only [trace, List.cons_append, List.cons.injEq] at htr
    obtain ⟨rfl, htr⟩ := htr
    obtain ⟨evs₁, ev, evs₂, rfl, hpre, hobs, -⟩ := Machine.run_split htr
    have hm := step_moves peer (run peer started.1 evs₁).1 ev
    rw [hobs] at hm
    cases hm with
    | idle hreq hrep hx => cases hrep
    | sent q hreq hrep htok hbytes hx => cases hrep
    | applied r' buf hev ho hout ht1 hparse hx =>
      obtain rfl := Obs.applied.inj ho
      subst hev
      exact ⟨evs₁, buf, evs₂, rfl, by rw [trace, hpre], hout, ht1, hparse⟩

/-- **A reply answers the latest request.** Whatever comes in on the timing socket, and in whatever order with the
rest of the session: a reply that the clock is given came in a datagram from the sender that echoes the token of the
last request sent before it; that request carried the token to the sender, no reply was taken since it went out, and
the clock is told when it went out. -/
theorem reply_answers_latest_request (peer : UInt32) (frameLength : Int) (seq : UInt16) (ts : UInt32) (t1 : Nat)
    (sendOk : Bool) (last : Nat) (evs : List Event) (pre post : List Obs) (r : TimingReply)
    (htr : trace peer (start frameLength seq ts t1 sendOk last) evs = pre ++ .applied r :: post) :
    ∃ pre₁ resend q mid, pre = pre₁ ++ .periodic resend (some q) :: mid ∧
      (∀ o ∈ mid, o.request = none ∧ o.reply = none) ∧ r.t1 = q.t1 ∧ q.bytes.length = 32 ∧ be64At q.bytes 24 = q.token ∧
      ∃ evs₁ buf evs₂, evs = evs₁ ++ .datagram .timing peer buf r.t4 :: evs₂ ∧ evs₁.length + 1 = pre.length ∧
        rtpParseTimingReply (buf.take rxBufLen) = some (r.remoteNtp, q.token) := by
  obtain ⟨evs₁, buf, evs₂, rfl, rfl, hout, ht1, hparse⟩ := applied_split htr
  have hm := matched_run peer frameLength seq ts t1 sendOk last evs₁
  obtain ⟨q, hun, hq1, hq2⟩ := hm.outstanding hout
  have hbuilt := hm.built q hun.mem
  obtain ⟨pre₁, o, mid, hpre, hreq, hmid⟩ := hun
  rw [hq1] at ht1
  rw [hq2] at hparse
  obtain ⟨resend, ho⟩ : ∃ resend, o = .periodic resend (some q) := by
    cases o with
    | periodic resend request => exact ⟨resend, by rw [show request = some q from hreq]⟩
    | quiet | applied | player => cases hreq
  subst ho
  refine ⟨pre₁, resend, q, mid, hpre, hmid, ht1, hbuilt.1, hbuilt.2, evs₁, buf, evs₂, rfl, ?_, hparse⟩
  rw [trace, List.length_cons, Machine.length_run]

/-- The request of a session that starts at 100 ns. -/
def firstRequest : TimingRequest := ⟨100, 429, [0x80, 0xD2, 0, 7] ++ List.replicate 26 0 ++ [1, 173]⟩

/-- The answer comes at 200, from a sender 1000 ns ahead that stamped it at 150. -/
def answered : List Event :=
  [.datagram .timing 1 (timingReply 0x80 true (List.replicate 6 0) (List.replicate 8 0) 429 (ntpFromNs 1150 0) []) 200]

theorem answered_trace : trace 1 (start 352 0 0 100 true 0) answered =
    [Obs.periodic none (some firstRequest)] ++ [.applied ⟨100, ntpFromNs 1150 0, 200⟩] := by decide +kernel

theorem reply_answers_latest_request_first :
    ∃ pre₁ resend q mid, [Obs.periodic none (some firstRequest)] = pre₁ ++ .periodic resend (some q) :: mid ∧
      (∀ o ∈ mid, o.request = none ∧ o.reply = none) ∧ 100 = q.t1 ∧ q.bytes.length = 32 ∧ be64At q.bytes 24 = q.token ∧
      ∃ evs₁ buf evs₂, answered = evs₁ ++ .datagram .timing 1 buf 200 :: evs₂ ∧ evs₁.length + 1 = 1 ∧
        rtpParseTimingReply (buf.take rxBufLen) = some (ntpFromNs 1150 0, q.token) :=
  reply_answers_latest_request 1 352 0 0 100 true 0 answered [.periodic none (some firstRequest)] []
    ⟨100, ntpFromNs 1150 0, 200⟩ answered_trace

/-! ## The exchange goes on -/

/-- A periodic turn that has come round keeps an outstanding request that is not too old, and else sends one. -/
theorem rxPeriodic_sends (s : Rx) {now : Nat} (t1 : Nat) (hdue : periodicNs ≤ subU64 now s.lastPeriodic) :
    ∃ s' resend request, rxPeriodic s now t1 true = (s', .periodic resend request) ∧ s'.exchange.timingOutstanding = true ∧
      (request = none ∧ s.exchange.timingOutstanding = true ∧ subU64 now s.exchange.timingT1Ns ≤ timingTimeoutNs ∨
        ∃ q, request = some q ∧ q.t1 = t1) := by
  rw [rxPeriodic, if_neg (not_lt.2 hdue)]
  refine ⟨_, _, _, rfl, ?_⟩
  dsimp only
  by_cases hout : (expireRequest s.exchange now).timingOutstanding = true
  · -- still waiting: it has not expired
    rw [if_pos hout]
    rcases expireRequest_cases s.exchange now with ⟨he, hage⟩ | he
    · rw [he] at hout
      exact ⟨by rw [he]; exact hout, .inl ⟨rfl, hout, hage hout⟩⟩
    · rw [he] at hout
      cases hout
  · rw [if_neg hout]
    rcases sendTimingRequest_cases (expireRequest s.exchange now) t1 true with ⟨hno, -⟩ | ⟨q, -, ht1, -, -, he⟩
    · cases hno
    · rw [he]
      exact ⟨rfl, .inr ⟨q, rfl, ht1⟩⟩

/-- Datagrams send nothing and leave the periodic part's time alone. -/
theorem datagrams_run (peer : UInt32) (evs : List Event) : ∀ s : Rx,
    (∀ ev ∈ evs, ∃ port source buf t4, ev = .datagram port source buf t4) →
    (run peer s evs).1.lastPeriodic = s.lastPeriodic ∧ requests (run peer s evs).2 = [] := by
  induction evs with
  | nil => exact fun _ _ => ⟨rfl, rfl⟩
  | cons ev evs ih =>
    intro s h
    obtain ⟨hlast, hreq⟩ := ih (step peer s ev).1 fun ev' hev' => h ev' (List.mem_cons_of_mem ev hev')
    obtain ⟨port, source, buf, t4, rfl⟩ := h ev List.mem_cons_self
    have hstep : (step peer s (.datagram port source buf t4)).1.lastPeriodic = s.lastPeriodic ∧
        (step peer s (.datagram port source buf t4)).2.request = none := by
      simp only [step]
      split
      · exact ⟨rfl, rfl⟩
      · cases port <;> simp only [rxDispatch] <;> repeat' split
        all_goals exact ⟨rfl, rfl⟩
    rw [run, Machine.run_cons]
    exact ⟨hlast.trans hstep.1, by rw [requests, List.filterMap_cons_none hstep.2]; exact hreq⟩

theorem trace_append (peer : UInt32) (started : Rx × Option TimingRequest) (evs evs' : List Event) :
    trace peer started (evs ++ evs') = trace peer started evs ++ (run peer (run peer started.1 evs).1 evs').2 := by
  rw [trace, run, Machine.run_append]
  rfl

/-- **The exchange never wedges.** After any run, lost, late, repeated and made-up replies and failed sends included,
take a turn of the thread, with any datagrams waiting at the three sockets, that comes 200 ms after the last periodic
part or later and whose send works. It leaves a request outstanding: one it sent, or else the last one sent before it,
which is at most three seconds old. -/
theorem exchange_never_wedges (peer : UInt32) (frameLength : Int) (seq : UInt16) (ts : UInt32) (t1 : Nat) (sendOk : Bool)
    (last : Nat) (evs : List Event) (e : Turns) (hsend : e.sendOk = true)
    (hdue : periodicNs ≤ subU64 e.now (run peer (start frameLength seq ts t1 sendOk last).1 evs).1.lastPeriodic) :
    let turn := rxIteration peer (run peer (start frameLength seq ts t1 sendOk last).1 evs).1 e
    turn.1.exchange.timingOutstanding = true ∧
    ∃ resend request, turn.2 = .periodic resend request ∧
      ((∃ q, request = some q ∧ q.t1 = e.t1) ∨
        request = none ∧ ∃ q, (requests (trace peer (start frameLength seq ts t1 sendOk last) evs)).getLast? = some q ∧
          subU64 e.now q.t1 ≤ timingTimeoutNs) := by
  intro turn
  obtain ⟨drained, -, hdatagrams, hturn⟩ := rxIteration_run peer (run peer (start frameLength seq ts t1 sendOk last).1 evs).1 e
  have hm := matched_run peer frameLength seq ts t1 sendOk last (evs ++ drained)
  have hturn' : turn = rxPeriodic (run peer (start frameLength seq ts t1 sendOk last).1 (evs ++ drained)).1 e.now e.t1 true := by
    rw [run, Machine.run_append_fst, ← hsend]
    exact hturn
  rw [hturn']
  generalize start frameLength seq ts t1 sendOk last = started at hm hdue ⊢
  obtain ⟨hlast, hnone⟩ := datagrams_run peer drained (run peer started.1 evs).1 hdatagrams
  -- the last request before the drain is the last one before the periodic part
  have hrequests : requests (trace peer started (evs ++ drained)) = requests (trace peer started evs) := by
    rw [trace_append, requests, List.filterMap_append]
    exact (congrArg _ hnone).trans (List.append_nil _)
  have hdue' : periodicNs ≤ subU64 e.now (run peer started.1 (evs ++ drained)).1.lastPeriodic := by
    rw [run, Machine.run_append_fst, hlast]
    exact hdue
  obtain ⟨s', resend, request, hper, hout, hcase⟩ := rxPeriodic_sends _ e.t1 hdue'
  rw [hper]
  refine ⟨hout, resend, request, rfl, ?_⟩
  rcases hcase with ⟨rfl, hwait, hage⟩ | hsent
  · obtain ⟨q, hun, hq1, -⟩ := hm.outstanding hwait
    rw [hq1] at hage
    refine .inr ⟨rfl, q, ?_, hage⟩
    rw [← hrequests]
    exact hun.getLast?
  · exact .inl hsent

/-- A turn after four seconds, with more datagrams waiting than are drained. -/
def floodedTurn : Turns :=
  ⟨fun _ => true, fun _ => List.replicate 100 ⟨true, some (1, [0x80]), 200⟩, 4000000000, 4000000001, true⟩

/-- No answer comes; the request is given up and another goes out. -/
theorem exchange_never_wedges_lost :
    (rxIteration 1 (run 1 (start 352 0 0 100 true 0).1 []).1 floodedTurn).1.exchange.timingOutstanding = true := by
  have hdue : periodicNs ≤ subU64 floodedTurn.now (run 1 (start 352 0 0 100 true 0).1 []).1.lastPeriodic := by
    decide +kernel
  exact (exchange_never_wedges 1 352 0 0 100 true 0 [] floodedTurn rfl hdue).1

/-! ## How good the clock is -/

/-- Every timing reply from the sender answers some request sent before it, echoing its token: the sender, whose clock
is `D` ahead, stamped it at some instant after that request went out and before the reply came in. Replies may be lost,
repeated, delayed and reordered. -/
def AnswersTruthfully (D : Int) (peer : UInt32) (started : Rx × Option TimingRequest) (evs : List Event) : Prop :=
  ∀ evs₁ buf t4 evs₂, evs = evs₁ ++ .datagram .timing peer buf t4 :: evs₂ → ∀ remote echo,
    rtpParseTimingReply (buf.take rxBufLen) = some (remote, echo) →
    ∃ q ∈ requests (trace peer started evs₁), q.token = echo ∧ Stamped D ⟨q.t1, remote, t4⟩

/-- Requests with the same token went out at the same time. -/
def TokensTell (tr : List Obs) : Prop :=
  ∀ q ∈ requests tr, ∀ q' ∈ requests tr, q.token = q'.token → q.t1 = q'.t1

/-- **The sender's clock over a bad network.** If the sender answers truthfully and tokens tell requests apart, then
after any run the clock has no offset exactly while no reply was taken; from then on it keeps the shortest round trip
of the replies taken, and its offset is at most half of that and a nanosecond off. -/
theorem exchange_offset_error (D : Int) (peer : UInt32) (frameLength : Int) (seq : UInt16) (ts : UInt32) (t1 : Nat)
    (sendOk : Bool) (last : Nat) (evs : List Event)
    (htrue : AnswersTruthfully D peer (start frameLength seq ts t1 sendOk last) evs)
    (htell : TokensTell (trace peer (start frameLength seq ts t1 sendOk last) evs)) :
    let c := (run peer (start frameLength seq ts t1 sendOk last).1 evs).1.exchange.clk
    let rs := replies (trace peer (start frameLength seq ts t1 sendOk last) evs)
    (c.haveOffset = true ↔ rs ≠ []) ∧
    (rs ≠ [] → IsLeast (rtts rs) c.bestRttNs ∧ |c.offsetNs - D| ≤ (c.bestRttNs / 2 + 1 : Nat)) := by
  dsimp only
  have hm := matched_run peer frameLength seq ts t1 sendOk last evs
  have hstamped : ∀ r ∈ replies (trace peer (start frameLength seq ts t1 sendOk last) evs), Stamped D r := by
    intro r hr
    obtain ⟨o, ho, hor⟩ := List.mem_filterMap.1 hr
    obtain rfl : o = .applied r := by
      cases o with
      | applied r' => rw [show r' = r from Option.some.inj hor]
      | quiet | periodic | player => cases hor
    obtain ⟨pre, post, htr⟩ := List.append_of_mem ho
    obtain ⟨evs₁, buf, evs₂, rfl, rfl, hout, ht1, hparse⟩ := applied_split htr
    have hm₁ := matched_run peer frameLength seq ts t1 sendOk last evs₁
    obtain ⟨q, hun, hq1, hq2⟩ := hm₁.outstanding hout
    obtain ⟨q', hq', htok, hst⟩ := htrue evs₁ buf r.t4 evs₂ rfl _ _ hparse
    -- the request it answers truthfully is the one the exchange takes it for
    have hmem : ∀ p ∈ requests (trace peer (start frameLength seq ts t1 sendOk last) evs₁),
        p ∈ requests (trace peer (start frameLength seq ts t1 sendOk last)
          (evs₁ ++ .datagram .timing peer buf r.t4 :: evs₂)) := by
      intro p hp
      rw [htr, requests, List.filterMap_append]
      exact List.mem_append_left _ hp
    have hsame := htell q' (hmem q' hq') q (hmem q hun.mem) (by rw [htok, hq2])
    rw [hsame, ← hq1, ← ht1] at hst
    exact hst
  have hinv := clockInv_foldl (D := D) fun r hr _ => hstamped r hr
  rw [← hm.clk] at hinv
  generalize replies (trace peer (start frameLength seq ts t1 sendOk last) evs) = rs at hstamped hinv ⊢
  rcases hinv with ⟨hempty, hno⟩ | ⟨hleast, hyes, hwithin⟩
  · -- a stamped reply has a round trip, so there is none
    have hnil : rs = [] := by
      cases rs with
      | nil => rfl
      | cons r rs =>
        obtain ⟨s, h1, h4, -⟩ := hstamped r List.mem_cons_self
        have hmem : r.t4 - r.t1 ∈ rtts (r :: rs) := ⟨r, List.mem_cons_self, h1.trans h4, rfl⟩
        rw [hempty] at hmem
        exact absurd hmem (Set.notMem_empty _)
    exact ⟨by rw [hno, hnil]; simp, fun hne => absurd hnil hne⟩
  · have hne : rs ≠ [] := by
      rintro rfl
      obtain ⟨r, hr, -⟩ := hleast.1
      cases hr
    exact ⟨by rw [hyes]; simp [hne], fun _ => ⟨hleast, hwithin⟩⟩

theorem answered_truthfully : AnswersTruthfully 1000 1 (start 352 0 0 100 true 0) answered := by
  intro evs₁ buf t4 evs₂ heq remote echo hparse
  have hnil : evs₁ = [] := by
    cases evs₁ with
    | nil => rfl
    | cons ev evs₁ =>
      have hlen := congrArg List.length heq
      simp [answered] at hlen
  subst hnil
  simp only [answered, List.nil_append, List.cons.injEq, Event.datagram.injEq, true_and] at heq
  obtain ⟨⟨rfl, rfl⟩, -⟩ := heq
  have hval : rtpParseTimingReply ((timingReply 0x80 true (List.replicate 6 0) (List.replicate 8 0) 429
      (ntpFromNs 1150 0) []).take rxBufLen) = some (ntpFromNs 1150 0, 429) := by decide +kernel
  rw [hval, Option.some.injEq, Prod.mk.injEq] at hparse
  obtain ⟨rfl, rfl⟩ := hparse
  have htr : trace 1 (start 352 0 0 100 true 0) [] = [.periodic none (some firstRequest)] := by decide +kernel
  rw [htr]
  exact ⟨firstRequest, List.mem_singleton_self _, rfl, 150, by decide, by decide, by decide, 1150, by decide, by decide, rfl⟩

theorem exchange_offset_error_first :
    |(run 1 (start 352 0 0 100 true 0).1 answered).1.exchange.clk.offsetNs - 1000| ≤ 51 := by
  have htell : TokensTell (trace 1 (start 352 0 0 100 true 0) answered) := by
    intro q hq q' hq' _
    rw [answered_trace] at hq hq'
    rw [List.mem_singleton.1 hq, List.mem_singleton.1 hq']
  have h := (exchange_offset_error 1000 1 352 0 0 100 true 0 answered answered_truthfully htell).2
    (by rw [answered_trace]; decide)
  have hrtt : (run 1 (start 352 0 0 100 true 0).1 answered).1.exchange.clk.bestRttNs = 100 := by decide +kernel
  rw [hrtt] at h
  exact h.2

end ShairKindle.Receiver
