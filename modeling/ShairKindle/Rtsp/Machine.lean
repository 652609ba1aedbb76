import ShairKindle.Rtsp.Session

/-!
# Runs of the RTSP session

`Transition` says once what `rtsp_handle` can do to a session; the facts about whole request
sequences are read off it. The run invariant `Handshake` is the part of the trace since the session
was last idle, with the requests in it that brought the session where it is.
-/

namespace ShairKindle

open Bytes

/-! ## One request -/

/-- What the method switch can do, entered with `action = ACT_NONE`. -/
inductive Transition (P : Platform) (s : RtspSession) (req : RtspMsg) : Outcome → Prop
  | refused {o : Outcome} (hs : o.sess = s) (hst : o.status ≠ .ok) (hrc : o.rc = -1)
      (ht : mth req "TEARDOWN" = false) : Transition P s req o
  | badSdp {o : Outcome} (left : RaopSdp) (hi : s.state = .idle) (hs : o.sess = { s with sdp := left })
      (hst : o.status ≠ .ok) (hrc : o.rc = -1) (ht : mth req "TEARDOWN" = false) : Transition P s req o
  | kept {o : Outcome} (hs : o.sess = s) (hst : o.status = .ok) (hrc : o.rc = 0)
      (ht : mth req "TEARDOWN" = false) : Transition P s req o
  | announced {o : Outcome} (b : Bytes) (sdp : RaopSdp) (hm : mth req "ANNOUNCE" = true)
      (hi : s.state = .idle) (hp : sdpParse P.longMax b = .ok sdp)
      (hs : o.sess = { s with sdp := sdp, haveSdp := true, state := .announced })
      (hst : o.status = .ok) (hrc : o.rc = 0) : Transition P s req o
  | setUp {o : Outcome} (ctl tim : Int) (hm : mth req "SETUP" = true) (hi : s.state = .announced)
      (hs : o.sess =
        { s with senderControlPort := ctl, senderTimingPort := tim, state := .setup, action := .bindRtp })
      (hst : o.status = .ok) (hrc : o.rc = 0) : Transition P s req o
  | recorded {o : Outcome} (hm : mth req "RECORD" = true) (hi : s.state = .setup)
      (hs : o.sess = { takeRtpInfo P s req with state := .playing, action := .startPlay })
      (hst : o.status = .ok) (hrc : o.rc = 0) : Transition P s req o
  | flushed {o : Outcome} (hm : mth req "FLUSH" = true) (hi : s.state = .playing)
      (hs : o.sess = { takeRtpInfo P s req with action := .flush })
      (hst : o.status = .ok) (hrc : o.rc = 0) : Transition P s req o
  | volume {o : Outcome} (pct : Int) (hm : mth req "SET_PARAMETER" = true)
      (hs : o.sess = { s with pendingVolumePct := pct, action := .setVolume })
      (hst : o.status = .ok) (hrc : o.rc = 0) : Transition P s req o
  | tornDown {o : Outcome} (hm : mth req "TEARDOWN" = true)
      (hs : o.sess =
        { s with
          action := if s.state ≠ .idle then .teardown else s.action
          state := .idle
          haveSdp := false
          pendingVolumePct := -1
          senderControlPort := 0
          senderTimingPort := 0
          rtpSeq := 0
          rtpTs := 0 })
      (hst : o.status = .ok) (hrc : o.rc = 0) : Transition P s req o

/-- A method is one name. -/
theorem mth_unique {m : RtspMsg} {a b : String} (ha : mth m a = true) (hne : ascii a ≠ ascii b) : mth m b = false := by
  simp only [mth, beq_iff_eq] at ha
  simpa [mth, ha] using hne

theorem rtspDispatch_transition (P : Platform) (s : RtspSession) (req : RtspMsg) :
    Transition P s req (rtspDispatch P s req) := by
  have hbad : ∀ st : Status, st ≠ .ok → mth req "TEARDOWN" = false → Transition P s req (refuse s st) :=
    fun st hst ht => .refused rfl hst rfl ht
  unfold rtspDispatch
  by_cases h : mth req "OPTIONS" = true
  · rw [if_pos h]
    exact .kept rfl rfl rfl (mth_unique h (by decide))
  rw [if_neg h]; clear h
  by_cases h : mth req "ANNOUNCE" = true
  · have ht := mth_unique h (b := "TEARDOWN") (by decide)
    rw [if_pos h]
    by_cases hi : s.state = .idle
    · rw [if_neg (not_not.2 hi)]
      split
      · exact hbad _ (by decide) ht
      · rename_i b _
        split
        · exact .badSdp _ hi rfl (by simp [refuse]) rfl ht
        · rename_i sdp hp
          exact .announced b sdp h hi hp rfl rfl rfl
    · rw [if_pos hi]
      exact hbad _ (by decide) ht
  rw [if_neg h]; clear h
  by_cases h : mth req "SETUP" = true
  · have ht := mth_unique h (b := "TEARDOWN") (by decide)
    rw [if_pos h]
    split
    · exact hbad _ (by decide) ht
    · split
      · exact hbad _ (by decide) ht
      · rename_i hi
        exact .setUp _ _ h (not_not.1 hi) rfl rfl rfl
  rw [if_neg h]; clear h
  by_cases h : mth req "RECORD" = true
  · have ht := mth_unique h (b := "TEARDOWN") (by decide)
    rw [if_pos h]
    split
    · exact hbad _ (by decide) ht
    · rename_i hi
      exact .recorded h (not_not.1 hi) rfl rfl rfl
  rw [if_neg h]; clear h
  by_cases h : mth req "FLUSH" = true
  · have ht := mth_unique h (b := "TEARDOWN") (by decide)
    rw [if_pos h]
    split
    · exact hbad _ (by decide) ht
    · rename_i hi
      exact .flushed h (not_not.1 hi) rfl rfl rfl
  rw [if_neg h]; clear h
  by_cases h : mth req "SET_PARAMETER" = true
  · have ht := mth_unique h (b := "TEARDOWN") (by decide)
    rw [if_pos h]
    split
    · exact .kept rfl rfl rfl ht
    · exact .volume _ h rfl rfl rfl
  rw [if_neg h]; clear h
  by_cases h : mth req "GET_PARAMETER" = true
  · have ht := mth_unique h (b := "TEARDOWN") (by decide)
    rw [if_pos h]
    split
    · exact hbad _ (by decide) ht
    · exact .kept rfl rfl rfl ht
  rw [if_neg h]; clear h
  by_cases h : mth req "TEARDOWN" = true
  · rw [if_pos h]
    exact .tornDown h rfl rfl rfl
  · rw [if_neg h]
    exact hbad _ (by decide) (by simpa using h)

/-! ## The reply's status line -/

/-- The reply is a 200. -/
def answers200 (reply : Bytes) : Bool := (ascii "RTSP/1.0 200 OK\r\n").isPrefixOf reply

theorem prefix_respAppend {pre resp : Bytes} {cap : Nat} (s : Bytes) (h : pre <+: resp) (hc : pre.length ≤ cap) :
    pre <+: respAppend cap resp s :=
  List.prefix_take_iff.2 ⟨h.trans (List.prefix_append resp s), hc⟩

theorem prefix_respVprintf {pre resp : Bytes} {cap : Nat} (s : Bytes) (h : pre <+: resp) (hc : pre.length < cap) :
    pre <+: respVprintf cap resp s := by
  unfold respVprintf
  split
  · exact h.trans (List.prefix_append resp s)
  · split
    · exact (List.prefix_take_iff.2 ⟨h.trans (List.prefix_append resp s), by omega⟩).trans (List.prefix_append _ _)
    · exact h

/-- The line the reply opens with. -/
def statusLine (st : Status) : Bytes := ascii ("RTSP/1.0 " ++ st.text ++ "\r\n")

theorem statusLine_length (st : Status) : (statusLine st).length < respCap := by
  cases st <;> decide

/-- Nothing written later reaches the status line. -/
theorem statusLine_prefix (P : Platform) (s : RtspSession) (req : RtspMsg) :
    statusLine (rtspDispatch P { s with action := .none } req).status <+: (rtspHandle P s req respCap).2.2 := by
  simp only [rtspHandle]
  generalize rtspDispatch P { s with action := .none } req = o
  have hlen := statusLine_length o.status
  have h0 : statusLine o.status <+: respVprintf respCap [] (statusLine o.status) := by
    simp [respVprintf, hlen]
  have h1 := prefix_respVprintf (ascii ("CSeq: " ++ toString req.cseq ++ "\r\nServer: raopd/1.0\r\n")) h0 hlen
  have h2 := prefix_respAppend (appleHeader P s req ++ o.extra) h1 hlen.le
  have h3 := prefix_respVprintf (ascii ("Content-Length: " ++ toString o.body.length ++ "\r\n\r\n")) h2 hlen
  exact prefix_respAppend o.body h3 hlen.le

theorem answers200_iff (P : Platform) (s : RtspSession) (req : RtspMsg) :
    answers200 (rtspHandle P s req respCap).2.2 = true ↔
      (rtspDispatch P { s with action := .none } req).status = .ok := by
  have hpre := statusLine_prefix P s req
  generalize (rtspDispatch P { s with action := .none } req).status = st at hpre
  generalize (rtspHandle P s req respCap).2.2 = reply at hpre
  rw [answers200, List.isPrefixOf_iff_prefix]
  constructor
  · intro h
    -- two prefixes of one reply: the shorter is a prefix of the longer
    obtain h' | h' := List.prefix_or_prefix_of_prefix h hpre
    · cases st <;> first | rfl | exact absurd h' (by decide)
    · cases st <;> first | rfl | exact absurd h' (by decide)
  · rintro rfl
    exact hpre

/-! ## Runs -/

/-- What an observer sees of one request. -/
structure RtspObs where
  req : RtspMsg
  rc : Int
  reply : Bytes
  action : RtspAction
  after : RtspState

/-- One request and its reply in the daemon's buffer. -/
def rtspStep (P : Platform) (s : RtspSession) (req : RtspMsg) : RtspSession × RtspObs :=
  let r := rtspHandle P s req respCap
  (r.1, ⟨req, r.2.1, r.2.2, r.1.action, r.1.state⟩)

/-- A run of requests. -/
abbrev runRtsp (P : Platform) (s : RtspSession) (reqs : List RtspMsg) : RtspSession × List RtspObs :=
  Machine.run (rtspStep P) s reqs

/-- A request of that method, answered 200. -/
def AnswersOk (o : RtspObs) (name : String) : Prop := mth o.req name = true ∧ answers200 o.reply = true

/-- The requests that lead from idle to a state. -/
def handshakeOf : RtspState → List String
  | .idle => []
  | .announced => ["ANNOUNCE"]
  | .setup => ["ANNOUNCE", "SETUP"]
  | .playing => ["ANNOUNCE", "SETUP", "RECORD"]

/-- Since the session was last idle, the requests that lead to `st` were answered 200 in order. -/
def Handshake (st : RtspState) (tr : List RtspObs) : Prop :=
  ∃ pre post os, tr = pre ++ post ∧ (∀ o ∈ pre.getLast?, o.after = .idle) ∧ (∀ o ∈ post, o.after ≠ .idle) ∧
    os.Sublist post ∧ List.Forall₂ AnswersOk os (handshakeOf st)

/-- A step that does not move the session. -/
theorem Handshake.stay {st : RtspState} {tr : List RtspObs} {o : RtspObs} (h : Handshake st tr) (ho : o.after = st) :
    Handshake st (tr ++ [o]) := by
  obtain ⟨pre, post, os, rfl, hpre, hpost, hsub, hall⟩ := h
  by_cases hi : st = .idle
  · refine ⟨pre ++ post ++ [o], [], [], by simp, by simp [ho, hi], by simp, List.Sublist.slnil, ?_⟩
    rw [hi]
    exact .nil
  · refine ⟨pre, post ++ [o], os, by simp, hpre, ?_, hsub.trans (List.sublist_append_left _ _), hall⟩
    intro x hx
    obtain hx | hx := List.mem_append.1 hx
    · exact hpost x hx
    · rw [List.mem_singleton.1 hx, ho]
      exact hi

/-- A step that takes the next request of the handshake. -/
theorem Handshake.advance {st st' : RtspState} {tr : List RtspObs} {o : RtspObs} {name : String}
    (h : Handshake st tr) (ho : o.after = st') (hne : st' ≠ .idle)
    (hnext : handshakeOf st' = handshakeOf st ++ [name]) (hok : AnswersOk o name) : Handshake st' (tr ++ [o]) := by
  obtain ⟨pre, post, os, rfl, hpre, hpost, hsub, hall⟩ := h
  refine ⟨pre, post ++ [o], os ++ [o], by simp, hpre, ?_, hsub.append_right [o], ?_⟩
  · intro x hx
    obtain hx | hx := List.mem_append.1 hx
    · exact hpost x hx
    · rw [List.mem_singleton.1 hx, ho]
      exact hne
  · rw [hnext]
    exact List.rel_append hall (.cons hok .nil)

/-- A step back to idle. -/
theorem Handshake.reset {tr : List RtspObs} {o : RtspObs} (ho : o.after = .idle) : Handshake .idle (tr ++ [o]) :=
  ⟨tr ++ [o], [], [], by simp, by simp [ho], by simp, List.Sublist.slnil, .nil⟩

theorem takeRtpInfo_fields (P : Platform) (s : RtspSession) (req : RtspMsg) :
    (takeRtpInfo P s req).state = s.state ∧ (takeRtpInfo P s req).haveSdp = s.haveSdp ∧
      (takeRtpInfo P s req).sdp = s.sdp := by
  unfold takeRtpInfo
  split <;> exact ⟨rfl, rfl, rfl⟩

/-- Any outcome of the method switch extends the handshake, keeps it or starts it over. -/
theorem Transition.handshake {P : Platform} {s : RtspSession} {req : RtspMsg} {out : Outcome} {o : RtspObs}
    {tr : List RtspObs} (ht : Transition P s req out) (hreq : o.req = req) (ha : o.after = out.sess.state)
    (h200 : answers200 o.reply = true ↔ out.status = .ok) (h : Handshake s.state tr) :
    Handshake out.sess.state (tr ++ [o]) := by
  subst hreq
  cases ht with
  | refused hs | kept hs | badSdp _ _ hs | volume _ _ hs =>
    rw [hs] at ha ⊢
    exact h.stay ha
  | announced b sdp hm hi hp hs hst =>
    rw [hs] at ha ⊢
    exact h.advance ha (by simp) (by rw [hi]; rfl) ⟨hm, h200.2 hst⟩
  | setUp ctl tim hm hi hs hst =>
    rw [hs] at ha ⊢
    exact h.advance ha (by simp) (by rw [hi]; rfl) ⟨hm, h200.2 hst⟩
  | recorded hm hi hs hst =>
    rw [hs] at ha ⊢
    exact h.advance ha (by simp) (by rw [hi]; rfl) ⟨hm, h200.2 hst⟩
  | flushed hm hi hs =>
    have hk := (takeRtpInfo_fields P s o.req).1
    rw [hs] at ha ⊢
    simp only [hk] at ha ⊢
    exact h.stay ha
  | tornDown hm hs =>
    rw [hs] at ha ⊢
    exact Handshake.reset ha

/-- In every state but idle the session holds a successfully parsed format. -/
def HasFormat (P : Platform) (s : RtspSession) : Prop :=
  s.state ≠ .idle → s.haveSdp = true ∧ ∃ body, sdpParse P.longMax body = .ok s.sdp

theorem Transition.hasFormat {P : Platform} {s : RtspSession} {req : RtspMsg} {out : Outcome}
    (ht : Transition P s req out) (h : HasFormat P s) : HasFormat P out.sess := by
  cases ht with
  | refused hs | kept hs | volume _ _ hs => rw [hs]; exact h
  | badSdp left hi hs => rw [hs]; exact fun hne => absurd hi hne
  | announced b sdp hm hi hp hs => rw [hs]; exact fun _ => ⟨rfl, b, hp⟩
  | setUp ctl tim hm hi hs => rw [hs]; exact fun _ => h (by rw [hi]; decide)
  | recorded hm hi hs =>
    obtain ⟨_, h2, h3⟩ := takeRtpInfo_fields P s req
    rw [hs]
    simp only [HasFormat, h2, h3]
    exact fun _ => h (by rw [hi]; decide)
  | flushed hm hi hs =>
    obtain ⟨h1, h2, h3⟩ := takeRtpInfo_fields P s req
    rw [hs]
    simp only [HasFormat, h1, h2, h3]
    exact h
  | tornDown hm hs => rw [hs]; exact fun hne => absurd rfl hne

/-- A refused request leaves the session alone: `s'` may differ from `s` in the action, which is
`ACT_NONE`, and while idle in the half-parsed SDP. -/
structure Refused (s s' : RtspSession) : Prop where
  state : s'.state = s.state
  haveSdp : s'.haveSdp = s.haveSdp
  senderPorts : s'.senderControlPort = s.senderControlPort ∧ s'.senderTimingPort = s.senderTimingPort
  localPorts : s'.serverPort = s.serverPort ∧ s'.controlPort = s.controlPort ∧ s'.timingPort = s.timingPort
  rtpSeq : s'.rtpSeq = s.rtpSeq
  rtpTs : s'.rtpTs = s.rtpTs
  pendingVolumePct : s'.pendingVolumePct = s.pendingVolumePct
  sdp : s.state ≠ .idle → s'.sdp = s.sdp
  action : s'.action = .none

theorem Transition.refused_unchanged {P : Platform} {s : RtspSession} {req : RtspMsg} {out : Outcome}
    (ht : Transition P { s with action := .none } req out) (hrc : out.rc = -1) : Refused s out.sess := by
  cases ht with
  | refused hs => rw [hs]; exact ⟨rfl, rfl, ⟨rfl, rfl⟩, ⟨rfl, rfl, rfl⟩, rfl, rfl, rfl, fun _ => rfl, rfl⟩
  | badSdp left hi hs =>
    rw [hs]
    exact ⟨rfl, rfl, ⟨rfl, rfl⟩, ⟨rfl, rfl, rfl⟩, rfl, rfl, rfl, fun hne => absurd hi hne, rfl⟩
  | kept _ _ h | announced _ _ _ _ _ _ _ h | setUp _ _ _ _ _ _ h | recorded _ _ _ _ h | flushed _ _ _ _ h
  | volume _ _ _ _ h | tornDown _ _ _ h => rw [h] at hrc; cases hrc

theorem Transition.teardown_iff {P : Platform} {s : RtspSession} {req : RtspMsg} {out : Outcome}
    (ht : Transition P { s with action := .none } req out) :
    out.sess.action = .teardown ↔ mth req "TEARDOWN" = true ∧ s.state ≠ .idle := by
  cases ht with
  | refused hs _ _ hm | kept hs _ _ hm | badSdp _ _ hs _ _ hm => rw [hs]; simp [hm]
  | announced b sdp hm hi hp hs => rw [hs]; simp [mth_unique hm (b := "TEARDOWN") (by decide)]
  | setUp ctl tim hm hi hs => rw [hs]; simp [mth_unique hm (b := "TEARDOWN") (by decide)]
  | recorded hm hi hs => rw [hs]; simp [mth_unique hm (b := "TEARDOWN") (by decide)]
  | flushed hm hi hs => rw [hs]; simp [mth_unique hm (b := "TEARDOWN") (by decide)]
  | volume pct hm hs => rw [hs]; simp [mth_unique hm (b := "TEARDOWN") (by decide)]
  | tornDown hm hs => rw [hs]; by_cases hi : s.state = .idle <;> simp [hm, hi]

theorem rtspStep_sess (P : Platform) (s : RtspSession) (req : RtspMsg) :
    (rtspStep P s req).1 = (rtspDispatch P { s with action := .none } req).sess := rfl

theorem rtspStep_rc (P : Platform) (s : RtspSession) (req : RtspMsg) :
    (rtspStep P s req).2.rc = (rtspDispatch P { s with action := .none } req).rc := rfl

theorem rtspStep_action (P : Platform) (s : RtspSession) (req : RtspMsg) :
    (rtspStep P s req).2.action = (rtspDispatch P { s with action := .none } req).sess.action := rfl

theorem rtspStep_after (P : Platform) (s : RtspSession) (req : RtspMsg) :
    (rtspStep P s req).2.after = (rtspDispatch P { s with action := .none } req).sess.state := rfl

theorem rtspStep_reply (P : Platform) (s : RtspSession) (req : RtspMsg) :
    (rtspStep P s req).2.reply = (rtspHandle P s req respCap).2.2 := by
  simp only [rtspStep]

theorem rtspStep_answers (P : Platform) (s : RtspSession) (req : RtspMsg) :
    answers200 (rtspStep P s req).2.reply = true ↔
      (rtspDispatch P { s with action := .none } req).status = .ok := by
  rw [rtspStep_reply, answers200_iff]

/-- What holds after every run of requests. -/
theorem runRtsp_inv (P : Platform) (ip4 mac : Bytes) (latency : Int) (reqs : List RtspMsg) :
    Handshake (runRtsp P (rtspSessionInit ip4 mac latency) reqs).1.state
        (runRtsp P (rtspSessionInit ip4 mac latency) reqs).2 ∧
      HasFormat P (runRtsp P (rtspSessionInit ip4 mac latency) reqs).1 := by
  refine Machine.run_hist (fun s tr => Handshake s.state tr ∧ HasFormat P s) (fun _ => True)
    (fun _ _ _ => trivial) ?_ ?_ reqs trivial
  · exact ⟨⟨[], [], [], rfl, by simp, by simp, List.Sublist.slnil, .nil⟩, fun hne => absurd rfl hne⟩
  · rintro s tr req ⟨hh, hf⟩ _
    have ht := rtspDispatch_transition P { s with action := .none } req
    rw [rtspStep_sess]
    exact ⟨ht.handshake rfl (rtspStep_after P s req) (rtspStep_answers P s req) hh, ht.hasFormat hf⟩

/-- **The session machine.** After every sequence of requests: the session plays only if since it was
last idle an ANNOUNCE, then a SETUP, then a RECORD were answered 200; outside idle it holds a
successfully parsed format; and whatever request comes next, if it is refused the session keeps its
state, and it calls for a teardown exactly if it is a TEARDOWN outside idle. -/
theorem rtsp_session_machine (P : Platform) (ip4 mac : Bytes) (latency : Int) (reqs : List RtspMsg)
    (s : RtspSession) (tr : List RtspObs) (h : runRtsp P (rtspSessionInit ip4 mac latency) reqs = (s, tr)) :
    (s.state = .playing → ∃ pre post a b c, tr = pre ++ post ∧ (∀ o ∈ pre.getLast?, o.after = .idle) ∧
      (∀ o ∈ post, o.after ≠ .idle) ∧ [a, b, c].Sublist post ∧
      AnswersOk a "ANNOUNCE" ∧ AnswersOk b "SETUP" ∧ AnswersOk c "RECORD") ∧
    (s.state ≠ .idle → s.haveSdp = true ∧ (∃ body, sdpParse P.longMax body = .ok s.sdp) ∧ SdpOk s.sdp) ∧
    (∀ req, (rtspStep P s req).2.rc = -1 → Refused s (rtspStep P s req).1) ∧
    (∀ req, (rtspStep P s req).2.action = .teardown ↔ mth req "TEARDOWN" = true ∧ s.state ≠ .idle) := by
  obtain ⟨hh, hf⟩ := runRtsp_inv P ip4 mac latency reqs
  rw [h] at hh hf
  refine ⟨fun hp => ?_, fun hne => ?_, fun req hrc => ?_, fun req => ?_⟩
  · obtain ⟨pre, post, os, htr, hpre, hpost, hsub, hall⟩ := hh
    simp only [hp, handshakeOf] at hall
    obtain ⟨a, _, ha, h₁, rfl⟩ := List.forall₂_cons_right_iff.1 hall
    obtain ⟨b, _, hb, h₂, rfl⟩ := List.forall₂_cons_right_iff.1 h₁
    obtain ⟨c, _, hc, h₃, rfl⟩ := List.forall₂_cons_right_iff.1 h₂
    obtain rfl := List.forall₂_nil_right_iff.1 h₃
    exact ⟨pre, post, a, b, c, htr, hpre, hpost, hsub, ha, hb, hc⟩
  · obtain ⟨h1, body, hb⟩ := hf hne
    exact ⟨h1, ⟨body, hb⟩, sdpParse_ok hb⟩
  · rw [rtspStep_rc] at hrc
    rw [rtspStep_sess]
    exact (rtspDispatch_transition P { s with action := .none } req).refused_unchanged hrc
  · rw [rtspStep_action]
    exact (rtspDispatch_transition P { s with action := .none } req).teardown_iff

/-- ANNOUNCE with a 1024-bit key, SETUP and RECORD, as an AirPlay sender opens a stream. -/
def openingRequests : List RtspMsg :=
  [⟨ascii "ANNOUNCE", ascii "*", [], some (ascii "m=audio 0 RTP/AVP 96\r\na=fmtp:96 352 0 16 40 10 14 2 255 0 0 44100\r\n" ++
      ascii "a=rsaaeskey:" ++ List.replicate 171 65 ++ ascii "\r\na=aesiv:" ++ List.replicate 22 65), 300, 1⟩,
    ⟨ascii "SETUP", ascii "*", [⟨ascii "Transport", ascii "control_port=6001;timing_port=6002"⟩], none, 0, 2⟩,
    ⟨ascii "RECORD", ascii "*", [⟨ascii "RTP-Info", ascii "seq=7;rtptime=4000000000"⟩], none, 0, 3⟩]

/-- A 32-bit device that answers no challenge. -/
def barePlatform : Platform := ⟨2 ^ 31 - 1, fun _ _ _ => none⟩

theorem openingRequests_play :
    (runRtsp barePlatform (rtspSessionInit [] [] 88200) openingRequests).1.state = .playing := by
  decide +kernel

/-- The opening requests do reach PLAYING, with a usable format. -/
theorem rtsp_session_machine_plays :
    (runRtsp barePlatform (rtspSessionInit [] [] 88200) openingRequests).1.state = .playing ∧
    SdpOk (runRtsp barePlatform (rtspSessionInit [] [] 88200) openingRequests).1.sdp := by
  have hplay := openingRequests_play
  refine ⟨hplay, ?_⟩
  have hmach := rtsp_session_machine barePlatform [] [] 88200 openingRequests _ _ Prod.mk.eta.symm
  have hne : (runRtsp barePlatform (rtspSessionInit [] [] 88200) openingRequests).1.state ≠ .idle := by
    rw [hplay]
    decide
  exact (hmach.2.1 hne).2.2

/-! ## The volume -/

theorem rtspDispatch_setParameter (P : Platform) (s : RtspSession) {m : RtspMsg} (h : mth m "SET_PARAMETER" = true) :
    rtspDispatch P s m = match (volumeText m).bind volumePct with
      | none => ⟨s, .ok, 0, [], []⟩
      | some pct => ⟨{ s with pendingVolumePct := pct, action := .setVolume }, .ok, 0, [], []⟩ := by
  have hno : ∀ name : String, ascii "SET_PARAMETER" ≠ ascii name → mth m name = false :=
    fun name hne => mth_unique h hne
  cases hv : (volumeText m).bind volumePct <;>
    simp only [rtspDispatch, hno "OPTIONS" (by decide), hno "ANNOUNCE" (by decide), hno "SETUP" (by decide),
      hno "RECORD" (by decide), hno "FLUSH" (by decide), h, hv, Bool.false_eq_true, if_false, if_true]

/-- The volume after one more request, as the sender means it. -/
def nameVolume (pct : Int) (req : RtspMsg) : Int :=
  if mth req "TEARDOWN" then -1
  else if mth req "SET_PARAMETER" then ((volumeText req).bind volumePct).getD pct else pct

/-- Only a TEARDOWN and a SET_PARAMETER with a volume touch the pending one, and only the latter has it set. -/
theorem rtspStep_volume (P : Platform) (s : RtspSession) (req : RtspMsg) :
    (rtspStep P s req).1.pendingVolumePct = nameVolume s.pendingVolumePct req ∧
      ((rtspStep P s req).1.action = .setVolume ↔
        mth req "SET_PARAMETER" = true ∧ ∃ text, volumeText req = some text ∧ ¬ ReadsNan text) := by
  rw [rtspStep_sess]
  by_cases hset : mth req "SET_PARAMETER" = true
  · rw [rtspDispatch_setParameter P _ hset, nameVolume, mth_unique hset (b := "TEARDOWN") (by decide), hset]
    cases hv : volumeText req with
    | none => exact ⟨rfl, iff_of_false nofun fun h => nomatch h.2.choose_spec.1⟩
    | some text =>
      rw [Option.bind_some]
      cases hpct : volumePct text with
      | none =>
        have hnan := (volumePct_eq_none_iff text).1 hpct
        refine ⟨rfl, iff_of_false nofun ?_⟩
        rintro ⟨-, text', heq, hnot⟩
        exact hnot (Option.some.inj heq ▸ hnan)
      | some pct =>
        refine ⟨rfl, iff_of_true rfl ⟨rfl, text, rfl, fun hnan => ?_⟩⟩
        rw [(volumePct_eq_none_iff text).2 hnan] at hpct
        cases hpct
  · have hname : mth req "TEARDOWN" = false → nameVolume s.pendingVolumePct req = s.pendingVolumePct := fun ht => by
      rw [nameVolume, ht, Bool.eq_false_of_not_eq_true hset]
      rfl
    have hinfo : (takeRtpInfo P { s with action := .none } req).pendingVolumePct = s.pendingVolumePct := by
      unfold takeRtpInfo
      split <;> rfl
    cases rtspDispatch_transition P { s with action := .none } req with
    | refused hs _ _ ht | kept hs _ _ ht | badSdp _ _ hs _ _ ht =>
      rw [hs, hname ht]
      exact ⟨rfl, iff_of_false nofun fun h => hset h.1⟩
    | announced _ _ hm _ _ hs | setUp _ _ hm _ hs =>
      rw [hs, hname (mth_unique hm (by decide))]
      exact ⟨rfl, iff_of_false nofun fun h => hset h.1⟩
    | recorded hm _ hs | flushed hm _ hs =>
      rw [hs, hname (mth_unique hm (by decide))]
      exact ⟨hinfo, iff_of_false nofun fun h => hset h.1⟩
    | volume _ hm => exact absurd hm hset
    | tornDown hm hs =>
      rw [hs, nameVolume, if_pos hm]
      refine ⟨rfl, iff_of_false (fun hact => ?_) fun h => hset h.1⟩
      by_cases hi : s.state = .idle <;> simp [hi] at hact

/-- A volume is -1, for none, or a percentage. -/
theorem nameVolume_range {pct : Int} (req : RtspMsg) (h : pct = -1 ∨ 0 ≤ pct ∧ pct ≤ 100) :
    nameVolume pct req = -1 ∨ 0 ≤ nameVolume pct req ∧ nameVolume pct req ≤ 100 := by
  unfold nameVolume
  split_ifs
  · exact .inl rfl
  · cases hv : (volumeText req).bind volumePct with
    | none => exact h
    | some v =>
      obtain ⟨text, -, htext⟩ := Option.bind_eq_some_iff.1 hv
      exact .inr (volumePct_percent htext)
  · exact h

end ShairKindle
