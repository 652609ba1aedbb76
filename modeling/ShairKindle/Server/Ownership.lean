import ShairKindle.Server.Framing

/-!
# Who owns the RTP sockets

An RTP socket set is opened by SETUP, held by `rtp_bound`, handed to a session by RECORD and closed by
whoever holds it last (main.c:117-120). `Holdings` is the part of `server_t` that takes part in this,
`Move` the ways it can change, and `Ledger` the account that every move keeps. The server's functions
are sequences of moves (`serverStep_moves`); that RECORD never finds a session is where the RTSP state
machine comes in: a session means PLAYING (`SessionPlays`), and RECORD acts in SETUP only.
-/

namespace ShairKindle

open Bytes

/-! ## Holdings and their account -/

/-- What the server holds. -/
structure Holdings where
  rtpBound : Bool
  socks : Nat
  sess : Option Nat
  rtpOpens : Nat
  wakelock : Bool
  playing : Bool

/-- The set a teardown closes: the session's, or the one that is bound. -/
def Holdings.owned (H : Holdings) : Option Nat :=
  match H.sess with
  | some set => some set
  | none => if H.rtpBound then some H.socks else none

/-- After a teardown. -/
def Holdings.released (H : Holdings) : Holdings :=
  { H with rtpBound := false, sess := none, wakelock := if H.sess.isSome then false else H.wakelock, playing := false }

/-- What a step may do to the holdings, and what it shows. -/
inductive Move : Holdings → List ServerObs → Holdings → Prop
  | quiet {H : Holdings} {obs : List ServerObs} (h : ∀ o ∈ obs, o.isFraming = true) : Move H obs H
  | opened {H : Holdings} (hb : H.rtpBound = false) (hs : H.sess = none) :
      Move H [.rtpOpened H.rtpOpens] { H with socks := H.rtpOpens, rtpOpens := H.rtpOpens + 1, rtpBound := true }
  | unbound {H : Holdings} (hs : H.sess = none) : Move H [.startPlay false] H
  | started {H : Holdings} (hb : H.rtpBound = true) (hs : H.sess = none) :
      Move H [.startPlay false] { H with rtpBound := false, sess := some H.socks, wakelock := true, playing := true }
  | startFailed {H : Holdings} (hb : H.rtpBound = true) (hs : H.sess = none) :
      Move H [.startPlay false, .rtpClosed H.socks] { H with rtpBound := false }
  | released {H : Holdings} : Move H (H.owned.toList.map .rtpClosed) H.released

/-- A sequence of moves. -/
inductive Moves : Holdings → List ServerObs → Holdings → Prop
  | refl (H : Holdings) : Moves H [] H
  | step {H H' H'' : Holdings} {obs obs' : List ServerObs} (h : Moves H obs H') (m : Move H' obs' H'') :
      Moves H (obs ++ obs') H''

theorem Move.moves {H H' : Holdings} {obs : List ServerObs} (m : Move H obs H') : Moves H obs H' :=
  .step (.refl H) m

theorem Moves.trans {H H' H'' : Holdings} {obs obs' : List ServerObs} (h : Moves H obs H') (h' : Moves H' obs' H'') :
    Moves H (obs ++ obs') H'' := by
  induction h' with
  | refl => simpa using h
  | step _ m ih =>
    rw [← List.append_assoc]
    exact .step ih m

/-- The account of a trace: every set handed out was opened once, is closed at most once, and is open
exactly while it is owned. -/
structure Ledger (H : Holdings) (tr : List ServerObs) : Prop where
  single : H.rtpBound = true → H.sess = none
  opened : ∀ set, tr.count (.rtpOpened set) = if set < H.rtpOpens then 1 else 0
  balance : ∀ set, tr.count (.rtpClosed set) + (if H.owned = some set then 1 else 0) = tr.count (.rtpOpened set)
  start : ServerObs.startPlay true ∉ tr
  wakelock : H.wakelock = H.sess.isSome
  playing : H.playing = H.sess.isSome

/-- The set a teardown closes is the one held, by either owner. -/
theorem Ledger.owned_iff {H : Holdings} {tr : List ServerObs} (h : Ledger H tr) (set : Nat) :
    H.owned = some set ↔ (H.rtpBound = true ∧ H.socks = set) ∨ H.sess = some set := by
  have hsingle := h.single
  unfold Holdings.owned
  cases hs : H.sess with
  | none => by_cases hb : H.rtpBound = true <;> simp [hb]
  | some q =>
    have hb : H.rtpBound = false := by
      rw [← Bool.not_eq_true]
      intro hb
      rw [hsingle hb] at hs
      cases hs
    simp [hb]

theorem Ledger.quiet {H : Holdings} {tr obs : List ServerObs} (h : Ledger H tr) (hq : ∀ o ∈ obs, o.isFraming = true) :
    Ledger H (tr ++ obs) := by
  have hno : ∀ o : ServerObs, o.isFraming = false → o ∉ obs := fun o ho hm => by
    rw [hq o hm] at ho
    cases ho
  have hcount : ∀ o : ServerObs, o.isFraming = false → (tr ++ obs).count o = tr.count o := fun o ho => by
    rw [List.count_append, List.count_eq_zero.2 (hno o ho), Nat.add_zero]
  refine ⟨h.single, fun set => ?_, fun set => ?_, ?_, h.wakelock, h.playing⟩
  · rw [hcount _ rfl]
    exact h.opened set
  · rw [hcount _ rfl, hcount _ rfl]
    exact h.balance set
  · rintro hm
    rcases List.mem_append.1 hm with hm | hm
    · exact h.start hm
    · exact hno _ rfl hm

/-- **Every move keeps the account.** -/
theorem Ledger.move {H H' : Holdings} {tr obs : List ServerObs} (h : Ledger H tr) (m : Move H obs H') :
    Ledger H' (tr ++ obs) := by
  have hopened := h.opened
  have hbal := h.balance
  cases m with
  | quiet hq => exact h.quiet hq
  | unbound hs =>
    exact ⟨h.single, by simpa using hopened, by simpa using hbal, by simpa using h.start, h.wakelock, h.playing⟩
  | opened hb hs =>
    have howned : H.owned = none := by simp [Holdings.owned, hb, hs]
    refine ⟨fun _ => hs, fun set => ?_, fun set => ?_, by simpa using h.start, h.wakelock, h.playing⟩
    · simp only [List.count_append, List.count_singleton, beq_iff_eq, ServerObs.rtpOpened.injEq, hopened set]
      grind
    · have := hbal set
      rw [howned] at this
      simp only [Holdings.owned, hs, if_true, List.count_append, List.count_singleton, beq_iff_eq,
        ServerObs.rtpOpened.injEq, Option.some.injEq, reduceCtorEq, if_false, Nat.add_zero] at this ⊢
      omega
  | started hb hs =>
    have howned : H.owned = some H.socks := by simp [Holdings.owned, hb, hs]
    rw [howned] at hbal
    exact ⟨by simp, by simpa using hopened, by simpa [Holdings.owned] using hbal, by simpa using h.start, rfl, rfl⟩
  | startFailed hb hs =>
    have howned : H.owned = some H.socks := by simp [Holdings.owned, hb, hs]
    refine ⟨by simp, by simpa using hopened, fun set => ?_, by simpa using h.start, h.wakelock, h.playing⟩
    have := hbal set
    rw [howned] at this
    simp only [Holdings.owned, hs, List.count_append, List.count_cons, List.count_nil]
    grind
  | released =>
    refine ⟨by simp [Holdings.released], fun set => ?_, fun set => ?_, by simpa using h.start, ?_, rfl⟩
    · have := hopened set
      cases H.owned <;> simpa [Holdings.released] using this
    · have := hbal set
      cases ho : H.owned <;> simp only [Holdings.owned, Holdings.released, List.count_append] at this ⊢ <;> grind
    · simp only [Holdings.released, h.wakelock]
      cases H.sess <;> rfl

theorem Ledger.moves {H H' : Holdings} {tr obs : List ServerObs} (h : Ledger H tr) (ms : Moves H obs H') :
    Ledger H' (tr ++ obs) := by
  induction ms with
  | refl => simpa using h
  | step _ m ih =>
    rw [← List.append_assoc]
    exact ih.move m

/-! ## The server's functions are moves -/

/-- The server's holdings. -/
def Server.holdings (S : Server) : Holdings := ⟨S.rtpBound, S.socks, S.sess, S.rtpOpens, S.wakelock, S.np.playing⟩

/-- A session means an open connection in PLAYING. -/
def SessionPlays (S : Server) : Prop := S.sess.isSome = true → S.clientOpen = true ∧ S.rtsp.state = .playing

theorem teardownClient_moves (S : Server) : Moves S.holdings (teardownClient S).2 (teardownClient S).1.holdings := by
  have hobs : (teardownClient S).2 =
      S.holdings.owned.toList.map .rtpClosed ++ if S.bcap.isSome then [.captureEnd] else [] := by
    simp only [teardownClient, Holdings.owned, Server.holdings]
    cases hs : S.sess with
    | some set => rfl
    | none => by_cases hb : S.rtpBound = true <;> simp [hb]
  rw [hobs]
  refine Moves.trans Move.released.moves (Move.quiet ?_).moves
  split <;> simp [ServerObs.isFraming]

theorem finishBodyCapture_holdings (env : FileEnv) (S : Server) (b : Bodycap) :
    (finishBodyCapture env S b).holdings = S.holdings := by
  have hplaying : (finishBodyCapture env S b).np.playing = S.np.playing := by
    simp only [finishBodyCapture]
    split
    · cases b.mode <;> simp
    · rfl
  simp only [Server.holdings, hplaying]
  rfl

theorem captureInline_holdings (env : FileEnv) (S : Server) (m : RtspMsg) :
    (captureInline env S m).1.holdings = S.holdings ∧ ∀ o ∈ (captureInline env S m).2, o.isFraming = true := by
  unfold captureInline
  cases S.bcap with
  | some cap => exact ⟨rfl, by simp⟩
  | none =>
    cases inlineBody m with
    | none => exact ⟨rfl, by simp⟩
    | some b =>
      refine ⟨finishBodyCapture_holdings env _ _, ?_⟩
      simp only [List.cons_append, List.mem_cons, List.mem_append, List.mem_map, List.not_mem_nil, or_false]
      rintro o (rfl | ⟨_, _, rfl⟩ | rfl) <;> rfl

/-- RTP is opened only when nothing is held. -/
theorem bindRtp_moves (env : MsgEnv) (S : Server) (m : RtspMsg) :
    Moves S.holdings (bindRtp env S m).2 (bindRtp env S m).1.holdings := by
  unfold bindRtp
  split
  · rename_i h
    simp only [Bool.and_eq_true, Bool.not_eq_true', Option.isNone_iff_eq_none] at h
    cases env.rtpOpen with
    | none => exact .refl _
    | some ports => exact (Move.opened h.1.2 h.2).moves
  · exact .refl _

/-- Up to the reply: RTP may be opened, the session keeps its owner. -/
theorem prepareReply_moves (P : Platform) (env : MsgEnv) (S : Server) (m : RtspMsg) :
    Moves S.holdings (prepareReply P env S m).2 (prepareReply P env S m).1.holdings := by
  have hcreds : (captureCreds S m).holdings = S.holdings := by
    rw [captureCreds_eq]
    rfl
  obtain ⟨c1, c2⟩ := captureInline_holdings env.file (bindRtp env (captureCreds S m) m).1 m
  have hb := bindRtp_moves env (captureCreds S m) m
  rw [hcreds, ← c1] at hb
  exact hb.trans (Move.quiet c2).moves

theorem startPlay_moves (env : MsgEnv) {S : Server} (hs : S.sess = none) :
    Moves S.holdings (startPlay env S).2 (startPlay env S).1.holdings := by
  have hlive : S.sess.isSome = false := by simp [hs]
  unfold startPlay
  rw [hlive]
  cases hb : S.rtpBound with
  | false => exact (Move.unbound hs).moves
  | true =>
    simp only [Bool.not_true, Bool.false_eq_true, if_false]
    split
    · exact (Move.started hb hs).moves
    · exact (Move.startFailed hb hs).moves

/-- What `rtsp_handle` asks for and where it leaves the state: a play start comes from SETUP, and PLAYING
is left only with a teardown. -/
theorem rtspHandle_action (P : Platform) (s : RtspSession) (m : RtspMsg) :
    ((rtspHandle P s m respCap).1.action = .startPlay →
      s.state = .setup ∧ (rtspHandle P s m respCap).1.state = .playing) ∧
    (s.state = .playing → (rtspHandle P s m respCap).1.action = .teardown ∨
      (rtspHandle P s m respCap).1.state = .playing) := by
  have hsess : (rtspHandle P s m respCap).1 = (rtspDispatch P { s with action := .none } m).sess := rfl
  rw [hsess]
  cases rtspDispatch_transition P { s with action := .none } m with
  | refused hs | kept hs | volume _ _ hs => rw [hs]; simp
  | badSdp _ hi hs | announced _ _ _ hi _ hs | setUp _ _ _ hi hs =>
    simp only at hi
    rw [hs]
    simp [hi]
  | recorded _ hi hs =>
    rw [hs]
    exact ⟨fun _ => ⟨hi, rfl⟩, fun _ => .inr rfl⟩
  | flushed _ hi hs =>
    rw [hs]
    simp [(takeRtpInfo_fields P { s with action := .none } m).1]
  | tornDown _ hs =>
    rw [hs]
    by_cases hi : s.state = .idle <;> simp [hi]

/-- Up to the reply the session stays, and the RTSP session has made one step. -/
theorem prepareReply_session (P : Platform) (env : MsgEnv) (S : Server) (m : RtspMsg) :
    (prepareReply P env S m).1.sess = S.sess ∧
    ((prepareReply P env S m).1.rtsp.action = .startPlay →
      S.rtsp.state = .setup ∧ (prepareReply P env S m).1.rtsp.state = .playing) ∧
    (S.rtsp.state = .playing → (prepareReply P env S m).1.rtsp.action = .teardown ∨
      (prepareReply P env S m).1.rtsp.state = .playing) := by
  have hstate : (captureInline env.file (bindRtp env (captureCreds S m) m).1 m).1.rtsp.state = S.rtsp.state := by
    have h1 := (captureInline_framer env.file (bindRtp env (captureCreds S m) m).1 m).1
    have h2 := (bindRtp_framer env (captureCreds S m) m).1
    exact congrArg Framer.state (h1.trans (h2.trans (captureCreds_framer S m).1))
  have hact := rtspHandle_action P (captureInline env.file (bindRtp env (captureCreds S m) m).1 m).1.rtsp m
  rw [hstate] at hact
  refine ⟨?_, hact⟩
  simp only [prepareReply]
  rw [captureInline_eq, bindRtp_eq, captureCreds_eq]

/-- **One request.** The holdings move and a session keeps playing; a play start never meets a session. -/
theorem handleMsg_moves (P : Platform) (env : MsgEnv) {S : Server} (m : RtspMsg) (ho : S.clientOpen = true)
    (hp : SessionPlays S) :
    Moves S.holdings (handleMsg P env S m).2.1 (handleMsg P env S m).1.holdings ∧
      SessionPlays (handleMsg P env S m).1 := by
  obtain ⟨hsess, hstart, hplay⟩ := prepareReply_session P env S m
  have hprep := prepareReply_moves P env S m
  have hopen : (prepareReply P env S m).1.clientOpen = true :=
    (congrArg Framer.isOpen (prepareReply_framer P env S m).1).trans ho
  simp only [handleMsg]
  generalize prepareReply P env S m = t at *
  have htorn : Moves S.holdings (t.2 ++ (teardownClient t.1).2) (teardownClient t.1).1.holdings ∧
      SessionPlays (teardownClient t.1).1 := ⟨hprep.trans (teardownClient_moves t.1), fun h => by cases h⟩
  have hkept : t.1.rtsp.action ≠ .teardown → SessionPlays t.1 := by
    intro ha hs
    rw [hsess] at hs
    exact ⟨hopen, (hplay (hp hs).2).resolve_left ha⟩
  unfold replyAndAct
  cases env.writeOk with
  | false => exact htorn
  | true =>
    simp only [Bool.not_true, Bool.false_eq_true, if_false]
    cases ha : t.1.rtsp.action with
    | teardown => exact htorn
    | none | bindRtp | flush | setVolume => exact ⟨by simpa using hprep, hkept (by rw [ha]; decide)⟩
    | startPlay =>
      obtain ⟨hsetup, hplaying⟩ := hstart ha
      -- RECORD acts in SETUP, where there is no session
      have hnone : t.1.sess = none := by
        rw [hsess, ← Option.not_isSome_iff_eq_none]
        intro hs
        rw [(hp hs).2] at hsetup
        cases hsetup
      have hfr := (startPlay_framer env t.1).1
      exact ⟨hprep.trans (startPlay_moves env hnone), fun _ =>
        ⟨(congrArg Framer.isOpen hfr).trans hopen, (congrArg Framer.state hfr).trans hplaying⟩⟩

/-! ## The loop -/

theorem Moves.cons_quiet {H H' : Holdings} {o : ServerObs} {obs : List ServerObs} (ho : o.isFraming = true)
    (h : Moves H obs H') : Moves H (o :: obs) H' := by
  have hquiet : Move H [o] H := .quiet (by simpa using ho)
  exact hquiet.moves.trans h

theorem drainLoop_moves (P : Platform) (env : Nat → MsgEnv) :
    ∀ (fuel i : Nat) (S : Server) (buf : Bytes), S.clientOpen = true → SessionPlays S →
      Moves S.holdings (drainLoop P env fuel i S buf).2 (drainLoop P env fuel i S buf).1.holdings ∧
        SessionPlays (drainLoop P env fuel i S buf).1
  | 0, i, S, buf, _, hp => ⟨.refl _, hp⟩
  | fuel + 1, i, S, buf, ho, hp => by
    simp only [drainLoop]
    cases rtspMsgParse P.longMax buf with
    | needHead | needBody m k => exact ⟨.refl _, hp⟩
    | malformed => exact ⟨(teardownClient_moves S).cons_quiet rfl, fun h => by cases h⟩
    | complete m k =>
      obtain ⟨h1, h2⟩ := handleMsg_moves P (env i) m ho hp
      have hfr := handleMsg_framer P (env i) S m
      dsimp only
      split
      · exact ⟨h1.cons_quiet rfl, h2⟩
      · rw [if_neg ‹_›] at hfr
        have ho' : (handleMsg P (env i) S m).1.clientOpen = true := (congrArg Framer.isOpen hfr).trans ho
        obtain ⟨i1, i2⟩ := drainLoop_moves P env fuel (i + 1) (handleMsg P (env i) S m).1 (buf.drop k) ho' h2
        exact ⟨(h1.trans i1).cons_quiet rfl, i2⟩

theorem frameOversized_moves (P : Platform) (env : MsgEnv) (file : FileEnv) {S : Server} (ho : S.clientOpen = true)
    (hp : SessionPlays S) :
    Moves S.holdings (frameOversized P env file S).2 (frameOversized P env file S).1.holdings ∧
      SessionPlays (frameOversized P env file S).1 := by
  unfold frameOversized
  cases rtspMsgParse P.longMax S.rbuf with
  | needHead | malformed | complete m k => exact ⟨(teardownClient_moves S).cons_quiet rfl, fun h => by cases h⟩
  | needBody m k =>
    obtain ⟨h1, h2⟩ := handleMsg_moves P env
      (S := { beginBodyCapture file S m m.bodyLen (S.rbuf.drop k) with rbuf := [] }) m ho hp
    refine ⟨?_, h2⟩
    have hquiet : Moves S.holdings (.capture (bodyMode m) m.bodyLen :: (S.rbuf.drop k).map .fed) S.holdings := by
      refine (Move.quiet ?_).moves
      simp only [List.mem_cons, List.mem_map]
      rintro o (rfl | ⟨_, _, rfl⟩) <;> rfl
    exact hquiet.trans (h1.cons_quiet rfl)

/-- Framing what a server `T` holds that differs from `S` in buffer and capture only. -/
theorem drain_moves (P : Platform) (env : Nat → MsgEnv) {S T : Server} (hh : T.holdings = S.holdings)
    (hf : T.clientOpen = S.clientOpen ∧ T.rtsp = S.rtsp) (ho : S.clientOpen = true) (hp : SessionPlays S) :
    Moves S.holdings (drain P env T).2 (drain P env T).1.holdings ∧ SessionPlays (drain P env T).1 := by
  have hp' : SessionPlays T := by
    intro h
    rw [show T.sess = S.sess from congrArg Holdings.sess hh] at h
    rw [hf.1, hf.2]
    exact hp h
  rw [← hh]
  exact drainLoop_moves P env T.rbuf.length 0 T T.rbuf (hf.1.trans ho) hp'

theorem onData_moves (P : Platform) (env : Nat → MsgEnv) (file : FileEnv) {S : Server} (chunk : Bytes)
    (ho : S.clientOpen = true) (hp : SessionPlays S) :
    Moves S.holdings (onData P env file S chunk).2 (onData P env file S chunk).1.holdings ∧
      SessionPlays (onData P env file S chunk).1 := by
  unfold onData
  cases S.bcap with
  | none => exact drain_moves P env rfl ⟨rfl, rfl⟩ ho hp
  | some b =>
    have hfed : ∀ bs : Bytes, Moves S.holdings (bs.map .fed) S.holdings := fun bs =>
      (Move.quiet (by simp [ServerObs.isFraming])).moves
    dsimp only
    split
    · exact ⟨hfed _, hp⟩
    · obtain ⟨d1, d2⟩ := drain_moves P env (finishBodyCapture_holdings file
        { S with bcap := some (bodycapFeed b ((S.rbuf ++ chunk).take b.remaining) file),
                 rbuf := (S.rbuf ++ chunk).drop b.remaining }
        (bodycapFeed b ((S.rbuf ++ chunk).take b.remaining) file)) ⟨rfl, rfl⟩ ho hp
      exact ⟨(hfed _).trans (d1.cons_quiet rfl), d2⟩

/-- **One round of the loop.** -/
theorem serverStep_moves (P : Platform) {S : Server} (e : ServerEvent) (hp : SessionPlays S) :
    Moves S.holdings (serverStep P S e).2 (serverStep P S e).1.holdings ∧ SessionPlays (serverStep P S e).1 := by
  have htorn : Moves S.holdings (teardownClient S).2 (teardownClient S).1.holdings ∧
      SessionPlays (teardownClient S).1 := ⟨teardownClient_moves S, fun h => by cases h⟩
  cases e with
  | accept peer =>
    simp only [serverStep, onListenReadable]
    cases peer with
    | none => exact ⟨.refl _, hp⟩
    | some ip =>
      dsimp only
      split
      · exact ⟨.refl _, hp⟩
      · exact ⟨.refl _, fun h => ⟨rfl, (hp h).2⟩⟩
  | readable r env file =>
    simp only [serverStep, onClientReadable]
    cases ho : S.clientOpen with
    | false => exact ⟨.refl _, hp⟩
    | true =>
      simp only [if_true]
      cases S.full with
      | true => exact frameOversized_moves P (env 0) file ho hp
      | false =>
        cases r with
        | data chunk => exact onData_moves P env file chunk ho hp
        | again => exact ⟨.refl _, hp⟩
        | eof | error => exact htorn
  | deadline =>
    simp only [serverStep]
    split
    · exact htorn
    · exact ⟨.refl _, hp⟩

/-- What has happened up to now accounts for what the server holds. -/
theorem run_ledger (P : Platform) (ip4 mac : Bytes) (es : List ServerEvent) :
    Ledger (Machine.run (serverStep P) (Server.init ip4 mac) es).1.holdings
        (Machine.run (serverStep P) (Server.init ip4 mac) es).2.flatten ∧
      SessionPlays (Machine.run (serverStep P) (Server.init ip4 mac) es).1 := by
  induction es using List.reverseRecOn with
  | nil =>
    refine ⟨⟨by simp [Server.holdings, Server.init], ?_, ?_, by simp, rfl, rfl⟩, fun h => by cases h⟩
    · simp [Server.holdings, Server.init]
    · simp [Server.holdings, Server.init, Holdings.owned]
  | append_singleton es e ih =>
    obtain ⟨h1, h2⟩ := serverStep_moves P e ih.2
    rw [Machine.run_concat, List.flatten_append, List.flatten_singleton]
    exact ⟨ih.1.moves h1, h2⟩

/-- `set` has been opened and not yet closed. -/
def RtpOpen (tr : List ServerObs) (set : Nat) : Prop := tr.count (.rtpClosed set) < tr.count (.rtpOpened set)

/-- **Ownership.** After any sequence of events, whatever the calls return: RTP is held by `rtp_bound` or
by the session, never by both; a set is open exactly while it is held, so at most one is; every set is
opened once and closed at most once, and the teardown at the end of the daemon closes what is left; a
session means an open connection in PLAYING; a play start never met a session; and the wakelock and the
now-playing flag say whether there is a session. -/
theorem rtp_sockets_owned_once (P : Platform) (ip4 mac : Bytes) (es : List ServerEvent) (S : Server)
    (obs : List (List ServerObs)) (h : Machine.run (serverStep P) (Server.init ip4 mac) es = (S, obs)) :
    (¬ (S.rtpBound = true ∧ S.sess.isSome = true)) ∧
    (∀ set, RtpOpen obs.flatten set ↔ (S.rtpBound = true ∧ S.socks = set) ∨ S.sess = some set) ∧
    (∀ set set', RtpOpen obs.flatten set → RtpOpen obs.flatten set' → set = set') ∧
    (∀ set, obs.flatten.count (.rtpOpened set) ≤ 1 ∧
      (obs.flatten ++ (teardownClient S).2).count (.rtpClosed set) = obs.flatten.count (.rtpOpened set)) ∧
    (S.sess.isSome = true → S.clientOpen = true ∧ S.rtsp.state = .playing) ∧
    ServerObs.startPlay true ∉ obs.flatten ∧
    (S.wakelock = true ↔ S.sess.isSome = true) ∧ (S.np.playing = true ↔ S.sess.isSome = true) := by
  obtain ⟨hl, hp⟩ : Ledger S.holdings obs.flatten ∧ SessionPlays S := by
    have := run_ledger P ip4 mac es
    rwa [h] at this
  have howned : ∀ set, RtpOpen obs.flatten set ↔ S.holdings.owned = some set := by
    intro set
    have := hl.balance set
    unfold RtpOpen
    split at this
    · exact iff_of_true (by omega) ‹_›
    · exact iff_of_false (by omega) ‹_›
  -- the account after the final teardown: nothing is owned, and nothing was opened by it
  have hend := hl.moves (teardownClient_moves S)
  refine ⟨fun hb => ?_, fun set => ?_, fun set set' h1 h2 => ?_, fun set => ⟨?_, ?_⟩, hp, hl.start, ?_, ?_⟩
  · have hnone : S.sess = none := hl.single hb.1
    rw [hnone] at hb
    cases hb.2
  · rw [howned]
    exact hl.owned_iff set
  · rw [howned] at h1 h2
    exact Option.some.inj (h1.symm.trans h2)
  · rw [hl.opened]
    split <;> decide
  · calc (obs.flatten ++ (teardownClient S).2).count (.rtpClosed set)
        = (obs.flatten ++ (teardownClient S).2).count (.rtpOpened set) := hend.balance set
      _ = obs.flatten.count (.rtpOpened set) := (hend.opened set).trans (hl.opened set).symm
  · exact Bool.eq_iff_iff.1 hl.wakelock
  · exact Bool.eq_iff_iff.1 hl.playing

/-- The opening requests as a client sends them. -/
def openingBytes : Bytes :=
  ascii "ANNOUNCE * RTSP/1.0\r\nContent-Length: 282\r\n\r\n" ++ (openingRequests.head?.bind (·.body)).getD [] ++
    ascii "SETUP * RTSP/1.0\r\nTransport: control_port=6001;timing_port=6002\r\n\r\nRECORD * RTSP/1.0\r\n\r\n"

/-- A client connects and opens a stream. -/
def oneStream : List ServerEvent :=
  [.accept (some 0), .readable (.data openingBytes) (Delivery.quiet []).env (Delivery.quiet []).file]

/-- The session of one stream owns set 0, and the wakelock is held. -/
theorem rtp_sockets_owned_once_one_stream :
    (Machine.run (serverStep barePlatform) (Server.init [] []) oneStream).1.sess = some 0 ∧
    RtpOpen (Machine.run (serverStep barePlatform) (Server.init [] []) oneStream).2.flatten 0 ∧
    (Machine.run (serverStep barePlatform) (Server.init [] []) oneStream).1.wakelock = true := by
  have hsess : (Machine.run (serverStep barePlatform) (Server.init [] []) oneStream).1.sess = some 0 := by
    decide +kernel
  obtain ⟨_, hopen, _, _, _, _, hwake, _⟩ :=
    rtp_sockets_owned_once barePlatform [] [] oneStream _ _ Prod.mk.eta.symm
  exact ⟨hsess, (hopen 0).2 (.inr hsess), hwake.2 (by rw [hsess]; rfl)⟩

end ShairKindle
