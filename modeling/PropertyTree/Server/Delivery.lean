import PropertyTree.Server.Connections
import PropertyTree.Server.Subscription

/-!
# What arrives where

A message of the server goes to a connection that is still referred to, whose descriptor no other such
connection has, so it never reaches a client that was given the descriptor of another one.  What the
server handles of a connection are the messages that have been sent on it, in order, however the bytes
are cut on the way and whatever the other connections do.
-/

namespace PropertyTree

open Library Framing Server

namespace TcpServer

variable {p : Per} {s s' : TcpServer} {e : SocketEvent} {l : List (Event × List Output)} {c d : Conn}
  {P Q : Conn → Prop}

/-! ## Where messages go -/

/-- The connections of the sessions have `P` and those of the listeners `Q`. -/
structure Mentions (P Q : Conn → Prop) (mProto : ProtocolHandler) : Prop where
  sessions : ∀ {sid : UInt32} {c : Conn}, mProto.mSessions[sid]? = some ⟨some c⟩ → P c
  listeners : ∀ {u : UInt64} {listener : Std.ExtTreeMap UInt32 Conn} {sid : UInt32} {c : Conn},
    mProto.listenerAt u = some listener → listener[sid]? = some c → Q c

/-- A connection that something is sent to by a listener entry is the one of the entry, or is known
otherwise. -/
theorem Mentions.listenerConnection {mProto : ProtocolHandler} (h : Mentions P Q mProto)
    (hPQ : ∀ d, P d → Q d) {sid : UInt32} {w : Conn} (hw : Q w) :
    Q ((mProto.listenerConnection c sid w).getD w) := by
  unfold ProtocolHandler.listenerConnection
  split_ifs with halive
  · exact hw
  · split
    · exact hw
    · rename_i session hs
      obtain ⟨x⟩ := session
      cases x with
      | none => exact hw
      | some d => exact hPQ d (h.sessions hs)

/-- An event mentions no connection but its own, and leads to messages for connections that have been
mentioned. -/
theorem Mentions.step {mProto mProto' : ProtocolHandler} {ev : Event} {o : List Output}
    (h : Mentions P Q mProto) (hw : WellLinked mProto) (hPQ : ∀ d, P d → Q d) (hev : P ev.connection)
    (hstep : mProto.step ev = .ok (mProto', o)) :
    Mentions P Q mProto' ∧ ∀ {d : Conn} {m : PropertyTreeMessage}, .send d m ∈ o →
      P d ∨ d ∉ mProto.dropped ∧ Q d := by
  have hres := Server.step_cases hstep
  refine ⟨⟨fun hs => ?_, fun {u listener' sid w} hu hl => ?_⟩, fun {d m} hd => ?_⟩
  · rcases session_of_step hstep hs with hold | ⟨m, rfl⟩
    · exact h.sessions hold
    · exact hev
  · cases hres.listenerChange hw with
    | unchanged hsame => exact h.listeners (hsame u ▸ hu) hl
    | create _ v _ hins =>
      rw [hins] at hu
      split_ifs at hu with huv
      · cases hu
        simp at hl
      · exact h.listeners hu hl
    | delete _ v hdel =>
      rw [hdel] at hu
      split_ifs at hu
      exact h.listeners hu hl
    | subscribe _ c v sid' listener _ hv he hsub =>
      rw [hsub] at hu
      split_ifs at hu with huv
      · cases hu
        rw [Std.ExtTreeMap.getElem?_insert] at hl
        split_ifs at hl
        · cases hl
          exact hPQ _ (he ▸ hev)
        · exact h.listeners hv hl
      · exact h.listeners hu hl
    | unsubscribe _ c v sid' listener _ hv huns =>
      rw [huns] at hu
      split_ifs at hu with huv
      · cases hu
        rw [Std.ExtTreeMap.getElem?_erase] at hl
        split_ifs at hl
        exact h.listeners hv hl
      · exact h.listeners hu hl
    | setValue _ c v data listener hv he hset =>
      rw [hset] at hu
      split_ifs at hu with huv
      · cases hu
        obtain ⟨x, hx, rfl⟩ := by simpa using hl
        exact h.listenerConnection hPQ (h.listeners hv hx)
      · exact h.listeners hu hl
  · rcases hres.recipient_cases hd with rfl | ⟨sid, hs⟩ | ⟨hnot, uuid, a, node, sid, ha, hn, hl⟩
    · exact .inl hev
    · exact .inl (h.sessions hs)
    · have hat : mProto.listenerAt uuid = some node.listener := by
        simp [ProtocolHandler.listenerAt, ha, hn]
      exact .inr ⟨hnot, h.listeners hat hl⟩

/-- The same for events one after the other. -/
theorem Mentions.run {mProto mProto' : ProtocolHandler} (h : Mentions P Q mProto)
    (hw : WellLinked mProto) (hPQ : ∀ d, P d → Q d) (hl : ∀ x ∈ l, P x.1.connection)
    (hrun : Run LiveStep mProto l mProto') :
    Mentions P Q mProto' ∧ WellLinked mProto' ∧ mProto.dropped ⊆ mProto'.dropped ∧
      ∀ x ∈ l, ∀ {d : Conn} {m : PropertyTreeMessage}, .send d m ∈ x.2 →
        P d ∨ d ∉ mProto.dropped ∧ Q d := by
  induction hrun with
  | nil => exact ⟨h, hw, List.Subset.refl _, fun x hx => by cases hx⟩
  | @snoc t u l x _ step ih =>
    obtain ⟨hment, hlinked, hsub, hsent⟩ := ih fun y hy => hl y (List.mem_append_left _ hy)
    have hx : P x.1.connection := hl x (List.mem_append_right _ (List.mem_singleton.mpr rfl))
    have hok : t.step x.1 = .ok (u, x.2) := step.2
    obtain ⟨hment', hsent'⟩ := hment.step hlinked hPQ hx hok
    have hsub' : t.dropped ⊆ u.dropped := by
      rw [(Server.step_cases hok).dropped]
      split
      · exact List.Subset.refl _
      · exact List.subset_cons_self _ _
    refine ⟨hment', hlinked.stateChange (Server.step_cases hok).stateChange, List.Subset.trans hsub hsub',
      fun y hy => ?_⟩
    rcases List.mem_append.mp hy with hy | hy
    · exact hsent y hy
    · obtain rfl := List.mem_singleton.mp hy
      intro d m hd
      exact (hsent' hd).imp_right fun hd => ⟨fun hin => hd.1 (hsub hin), hd.2⟩

/-- The events of a payload are all of the connection that it has been read from. -/
theorem connection_of_handleMessages {ms : List PropertyTreeMessage} {mProto mProto' : ProtocolHandler}
    (h : handleMessages mProto c ms = .ok (mProto', l)) :
    l.map Prod.fst = ms.map fun m => Event.message c m := by
  induction ms generalizing mProto l with
  | nil =>
    cases h
    rfl
  | cons m ms ih =>
    unfold handleMessages at h
    split at h
    · cases h
    split at h
    · cases h
    · cases h
      rw [List.map_cons, List.map_cons, ih ‹_›]

/-- The connections in the listener maps have been accepted. -/
def ListenersAccepted (s : TcpServer) : Prop :=
  ∀ ⦃u : UInt64⦄ ⦃listener : Std.ExtTreeMap UInt32 Conn⦄ ⦃sid : UInt32⦄ ⦃w : Conn⦄,
    s.mProto.listenerAt u = some listener → listener[sid]? = some w → s.sockets[w]? ≠ none

/-- The receive state of a connection does not matter. -/
theorem ListenersAccepted.receive (h : s.ListenersAccepted) (socket : Socket) :
    ListenersAccepted { s with sockets := s.sockets.insert c socket } := by
  intro u listener sid w hu hw
  have hw' := h hu hw
  grind

/-- What the `ProtocolHandler` mentions is known to the server. -/
theorem ListenersAccepted.mentions (h : s.ListenersAccepted) :
    Mentions s.keeps (fun d => s.sockets[d]? ≠ none) s.mProto where
  sessions hs := .inr (.inr ⟨_, hs⟩)
  listeners hu hw := h hu hw

/-- The events of a live connection mention no connection that has not been accepted, and what they
lead to is sent to connections that were referred to before. -/
theorem ListenersAccepted.run (h : s.ListenersAccepted) (hwired : s.Wired)
    (hlinked : WellLinked s.mProto) {fd : ℕ} (hc : s.mConnections[fd]? = some c)
    (hl : ∀ x ∈ l, x.1.connection = c) {mProto : ProtocolHandler}
    (hrun : Run LiveStep s.mProto l mProto) :
    ListenersAccepted { s with mProto := mProto } ∧
      ∀ x ∈ l, ∀ {d : Conn} {m : PropertyTreeMessage}, .send d m ∈ x.2 → s.keeps d := by
  have hkeeps : s.keeps c := .inr (.inl ⟨fd, hc⟩)
  obtain ⟨hment, -, -, hsent⟩ := h.mentions.run hlinked (fun d => hwired.accepted)
    (fun x hx => (hl x hx).symm ▸ hkeeps) hrun
  refine ⟨fun _ _ _ _ hu hw => hment.listeners hu hw, fun x hx d m hd => ?_⟩
  rcases hsent x hx hd with hd | ⟨hnot, hacc⟩
  · exact hd
  · exact .inr (.inl (hwired.live.mpr ⟨hacc, hnot⟩))

/-- Nothing is sent when a connection ends. -/
theorem eq_nil_of_disconnect {mProto mProto' : ProtocolHandler} {o : List Output}
    (h : mProto.step (.disconnect c) = .ok (mProto', o)) : o = [] := by
  cases Server.step_cases h <;> rfl

/-- A step mentions no connection that has not been accepted, and sends only to connections that were
referred to before. -/
theorem ListenersAccepted.step (h : s.ListenersAccepted) (hwired : s.Wired)
    (hlinked : WellLinked s.mProto) (hstep : Step p s (e, l) s') :
    s'.ListenersAccepted ∧ ∀ x ∈ l, ∀ {d : Conn} {m : PropertyTreeMessage}, .send d m ∈ x.2 →
      s.keeps d := by
  obtain ⟨henabled, hok⟩ := hstep
  have hend : ∀ {s : TcpServer} {fd : ℕ} {c : Conn} {mProto : ProtocolHandler} {o : List Output},
      s.ListenersAccepted → s.Wired → WellLinked s.mProto → s.mConnections[fd]? = some c →
        s.mProto.step (.disconnect c) = .ok (mProto, o) →
          (s.unregister fd mProto).ListenersAccepted := by
    intro s fd c mProto o hs hswired hslinked hc hdis
    have hlive : LiveStep s.mProto (.disconnect c, o) mProto := ⟨hswired.not_mem_dropped hc, hdis⟩
    exact (hs.run hswired hslinked hc (by simp [Event.connection]) (.single hlive)).1
  have hquiet : ∀ {c : Conn} {mProto : ProtocolHandler} {o : List Output} {t : TcpServer},
      t.mProto.step (.disconnect c) = .ok (mProto, o) → ∀ x ∈ [(Event.disconnect c, o)],
        ∀ {d : Conn} {m : PropertyTreeMessage}, .send d m ∈ x.2 → s.keeps d := by
    intro c mProto o t hdis x hx d m hd
    obtain rfl := List.mem_singleton.mp hx
    rw [eq_nil_of_disconnect hdis] at hd
    cases hd
  have hreg : ∀ fd mBuff, (s.register fd mBuff).ListenersAccepted := by
    intro fd mBuff u listener sid w hu hw
    have hw' := h (u := u) hu hw
    simp only [register]
    grind
  cases step_cases hok with
  | accepted fd mBuff => exact ⟨hreg fd mBuff, by simp⟩
  | refused fd mBuff c mProto o hc hdis =>
    exact ⟨hend (hreg fd mBuff) (hwired.register henabled mBuff) hlinked hc hdis,
      hquiet (t := s) hdis⟩
  | gone c bs hs => exact ⟨h, by simp⟩
  | ended c socket d mProto o hs hd hdis => exact ⟨hend h hwired hlinked hd hdis, hquiet (t := s) hdis⟩
  | part c bs socket receiver hs hread => exact ⟨h.receive { socket with receiver := receiver }, by simp⟩
  | payload c bs socket receiver pMsg out message rest mProto l hs hread hdecode hms =>
    obtain ⟨⟨fd, hfd⟩, -⟩ := henabled
    have hfd' : s.mConnections[fd]? = some c := hwired.handlers ▸ hfd
    have hl : ∀ x ∈ l, x.1.connection = c := by
      intro x hx
      have hx' := List.mem_map_of_mem (f := Prod.fst) hx
      rw [connection_of_handleMessages hms] at hx'
      obtain ⟨m, -, hm⟩ := List.mem_map.mp hx'
      rw [← hm]
      rfl
    obtain ⟨hacc, hsent⟩ := h.run hwired hlinked hfd' hl (hwired.messages hfd' hms).1
    exact ⟨hacc.receive { socket with receiver := receiver }, hsent⟩

variable {ls : List (SocketEvent × List (Event × List Output))}

/-- In every run the listeners are connections that have been accepted. -/
theorem listenersAccepted_of_run (h : Run (Step p) .init ls s) : s.ListenersAccepted := by
  have hnone : init.ListenersAccepted := by
    intro u listener sid w hu hw
    obtain ⟨a, -, node, hnode, rfl⟩ : ∃ a, init.mProto.mTree[u]? = some a ∧
        ∃ node, init.mProto.heap[a]? = some node ∧ node.listener = listener := by
      simpa [ProtocolHandler.listenerAt, Option.bind_eq_some_iff] using hu
    simp only [init, ProtocolHandler.init, Std.ExtTreeMap.getElem?_insert] at hnode
    split_ifs at hnode
    · cases hnode
      simp [rootNode] at hw
    · simp at hnode
  refine (h.history (P := fun ls s => Run (Step p) .init ls s ∧ s.ListenersAccepted)
    (fun {ls t l u} ht hstep => ?_) ⟨.nil _, hnone⟩).2
  obtain ⟨hwired, hrun⟩ := wired_of_run ht.1
  exact ⟨ht.1.snoc hstep, (ht.2.step hwired (wellLinked_of_run (serverRun_of_live hrun))
    (show Step p t (l.1, l.2) u from hstep)).1⟩

/-- In every run a message is sent to a connection that is still referred to, and that alone has its
descriptor among the connections that are. -/
theorem recipient_of_run (hrun : Run (Step p) .init ls s) (hstep : Step p s (e, l) s')
    {x : Event × List Output} (hx : x ∈ l) {m : PropertyTreeMessage} (hd : .send d m ∈ x.2) :
    ∃ socket, s.sockets[d]? = some socket ∧ s.keeps d ∧ ∀ d' socket',
      s.sockets[d']? = some socket' → s.keeps d' → socket'.mFd = socket.mFd → d' = d := by
  obtain ⟨hwired, hlive⟩ := wired_of_run hrun
  have hkeeps := ((listenersAccepted_of_run hrun).step hwired
    (wellLinked_of_run (serverRun_of_live hlive)) hstep).2 x hx hd
  obtain ⟨socket, hs⟩ := Option.ne_none_iff_exists'.mp (hwired.accepted hkeeps)
  exact ⟨socket, hs, hkeeps, fun d' socket' hs' hk' heq => hwired.single hs' hs hk' hkeeps heq⟩

/-- The notification of the new node goes to the client that has got the descriptor of a lost one. -/
theorem recipient_reconnect : ∃ (s : TcpServer) (socket : Socket), s.sockets[(2 : Conn)]? = some socket ∧
    socket.mFd = 6 ∧ s.keeps 2 ∧ ∀ d' socket', s.sockets[d']? = some socket' → s.keeps d' →
      socket'.mFd = socket.mFd → d' = 2 := by
  obtain ⟨s, t, hfd, hrun, hstep⟩ := exists_run_reconnect
  obtain ⟨socket, hs, hkeeps⟩ := recipient_of_run (hrun.mono fun _ _ _ h => h.2) hstep.2
    (List.mem_singleton.mpr rfl) (d := 2)
    (m := ⟨notificationId, .treeUpdateNotification [⟨[97], 1, 0⟩] []⟩) (by simp)
  rw [hs] at hfd
  exact ⟨s, socket, hs, Option.some.inj hfd, hkeeps⟩

/-! ## What arrives -/

/-- What has been read on a connection. -/
def readBy (c : Conn) (ls : List (SocketEvent × List (Event × List Output))) : List UInt8 :=
  ls.flatMap fun l => match l.1 with
    | .read d bs => if d = c then bs else []
    | .accept _ _ _ => []

/-- The messages of a connection that have been handled. -/
def handledFrom (c : Conn) (l : List (Event × List Output)) : List PropertyTreeMessage :=
  l.filterMap fun x => match x.1 with
    | .message d m => if d = c then some m else none
    | .disconnect _ => none

/-- The messages of the payloads that can be decoded. -/
def messagesIn (p : Per) (qs : List (List UInt8)) : List PropertyTreeMessage :=
  qs.flatMap fun q => match (PropertyTreeProtocol.decodePer p).run q with
    | some (x, _) => x.messages
    | none => []

/-- The payloads are decoded one by one. -/
theorem messagesIn_eq (p : Per) (qs : List (List UInt8)) :
    messagesIn p qs = (qs.map (PropertyTreeProtocol.decodePer p).run).flatMap fun x => match x with
      | some (x, _) => x.messages
      | none => [] := by
  rw [messagesIn, List.flatMap_map]

/-- The messages of a payload are those of one connection. -/
theorem handledFrom_of_handleMessages {ms : List PropertyTreeMessage}
    {mProto mProto' : ProtocolHandler} (h : handleMessages mProto d ms = .ok (mProto', l)) :
    handledFrom c l = if d = c then ms else [] := by
  have hmap : handledFrom c l = (l.map Prod.fst).filterMap fun ev => match ev with
      | .message d m => if d = c then some m else none
      | .disconnect _ => none := by
    rw [handledFrom, List.filterMap_map]
    rfl
  rw [hmap, connection_of_handleMessages h, List.filterMap_map]
  split_ifs with hdc
  · simp [hdc]
  · simp [hdc]

/-- What has been read on a connection went through its receiver, and what it handed on has been
handled. -/
structure Received (p : Per) (c : Conn) (ls : List (SocketEvent × List (Event × List Output)))
    (s : TcpServer) : Prop where
  before : s.sockets[c]? = none → readBy c ls = [] ∧ handledFrom c (ls.flatMap Prod.snd) = []
  receiver : ∀ socket, s.sockets[c]? = some socket → ∃ mBuff rs,
    Run (Guarded Receiver.HeaderWhole Receiver.Step) (.init mBuff) rs socket.receiver ∧
      rs.flatMap Prod.fst = readBy c ls ∧
      handledFrom c (ls.flatMap Prod.snd) = messagesIn p (rs.flatMap Prod.snd)

/-- The receiver of a connection hands on at most one payload at once. -/
theorem eq_nil_of_handleRead {size : ℕ} {r r' : Receiver size} {bs pMsg : List UInt8}
    {out : List (List UInt8)} (h : r.handleRead bs = .ok (r', pMsg :: out)) : out = [] := by
  unfold Receiver.handleRead at h
  split_ifs at h
  dsimp only at h
  split at h
  · cases h
  · split_ifs at h <;> cases h
    rfl

/-- What is read is not empty. -/
theorem ne_nil_of_handleRead {size : ℕ} {r r' : Receiver size} {bs : List UInt8}
    {out : List (List UInt8)} (h : r.handleRead bs = .ok (r', out)) : bs ≠ [] := by
  rintro rfl
  cases h

/-- What is read in a further step is behind what was read before. -/
theorem readBy_append (c : Conn) (ls ls' : List (SocketEvent × List (Event × List Output))) :
    readBy c (ls ++ ls') = readBy c ls ++ readBy c ls' :=
  List.flatMap_append

/-- What is handled in a further step is behind what was handled before. -/
theorem handledFrom_append (c : Conn) (l l' : List (Event × List Output)) :
    handledFrom c (l ++ l') = handledFrom c l ++ handledFrom c l' :=
  List.filterMap_append

/-- A step that reads and handles nothing of this connection does not matter. -/
theorem Received.of_other (h : Received p c ls s) {x : SocketEvent × List (Event × List Output)}
    (hread : readBy c [x] = []) (hl : handledFrom c x.2 = [])
    (hs : s'.sockets[c]? = s.sockets[c]?) : Received p c (ls ++ [x]) s' := by
  have hby : readBy c (ls ++ [x]) = readBy c ls := by
    rw [readBy_append, hread, List.append_nil]
  have hfrom : handledFrom c ((ls ++ [x]).flatMap Prod.snd) =
      handledFrom c (ls.flatMap Prod.snd) := by
    rw [List.flatMap_append, List.flatMap_singleton, handledFrom_append, hl, List.append_nil]
  constructor
  · rw [hby, hfrom, hs]
    exact h.before
  · rw [hby, hfrom, hs]
    exact h.receiver

/-- A new connection has read nothing. -/
theorem Received.of_accept (h : Received p c ls s) (hwired : s.Wired) {fd : ℕ}
    {mBuff : Vector UInt8 512} {added : Bool} (hl : handledFrom c l = [])
    (hs : s'.sockets = (s.register fd mBuff).sockets) :
    Received p c (ls ++ [(.accept fd mBuff added, l)]) s' := by
  by_cases hc : c = s.nextConn
  · subst hc
    obtain ⟨hby, hfrom⟩ := h.before (hwired.fresh le_rfl)
    have hnew : s'.sockets[s.nextConn]? = some ⟨fd, .init mBuff⟩ := by
      rw [hs]
      exact Std.ExtTreeMap.getElem?_insert_self
    refine ⟨fun hnone => absurd (hnew.symm.trans hnone) (by simp), fun socket hsock => ?_⟩
    rw [hnew] at hsock
    cases hsock
    refine ⟨mBuff, [], .nil _, ?_, ?_⟩
    · rw [readBy_append, hby]
      rfl
    · rw [List.flatMap_append, List.flatMap_singleton, handledFrom_append, hfrom, hl]
      rfl
  · refine h.of_other rfl hl ?_
    rw [hs, register, Std.ExtTreeMap.getElem?_insert, if_neg]
    simpa using Ne.symm hc

/-- What the connection reads goes through its receiver. -/
theorem Received.of_read (h : Received p c ls s) {socket : Socket} (hs : s.sockets[c]? = some socket)
    {bs : List UInt8} {receiver : Server.ConnectionSession} {out : List (List UInt8)}
    (hread : socket.receiver.handleRead bs = .ok (receiver, out))
    (hsize : (bs.length : ℤ) ≤ socket.receiver.readSize)
    (hwhole : socket.receiver.mReadState = .waitHeader → bs.length = 2)
    (hl : handledFrom c l = messagesIn p out)
    (hs' : s'.sockets[c]? = some { socket with receiver := receiver }) :
    Received p c (ls ++ [(.read c bs, l)]) s' := by
  refine ⟨fun hnone => absurd (hs'.symm.trans hnone) (by simp), fun socket' hsock => ?_⟩
  rw [hs'] at hsock
  cases hsock
  obtain ⟨mBuff, rs, hrun, hby, hfrom⟩ := h.receiver socket hs
  refine ⟨mBuff, rs ++ [(bs, out)], hrun.snoc ⟨hwhole, hsize, hread⟩, ?_, ?_⟩
  · rw [List.flatMap_append, hby, readBy_append]
    simp [readBy]
  · rw [List.flatMap_append, List.flatMap_append, List.flatMap_singleton, List.flatMap_singleton,
      handledFrom_append, hfrom, hl, messagesIn, messagesIn, messagesIn, List.flatMap_append]

/-- A step of the server on this connection, or on another one. -/
theorem Received.step (h : Received p c ls s) (hwired : s.Wired)
    {x : SocketEvent × List (Event × List Output)}
    (hstep : Guarded (HeadersWhole c) (Step p) s x s') : Received p c (ls ++ [x]) s' := by
  obtain ⟨e, l⟩ := x
  obtain ⟨hwhole, henabled, hok⟩ := hstep
  have hnone : ∀ {d : Conn} {bs : List UInt8} {l : List (Event × List Output)}, d ≠ c →
      readBy c [(.read d bs, l)] = [] := by
    intro d bs l hdc
    simp [readBy, hdc]
  have hsame : ∀ {d : Conn} {socket : Socket}, d ≠ c →
      (s.sockets.insert d socket)[c]? = s.sockets[c]? := by
    intro d socket hdc
    rw [Std.ExtTreeMap.getElem?_insert, if_neg (by simpa using hdc)]
  cases step_cases hok with
  | accepted fd mBuff => exact h.of_accept hwired rfl rfl
  | refused fd mBuff d mProto o hd hdis => exact h.of_accept hwired rfl rfl
  | gone d bs hs =>
    -- a connection with a handler has been accepted
    obtain ⟨⟨fd, hfd⟩, -⟩ := henabled
    exact absurd hs (hwired.accepted (.inl ⟨fd, hfd⟩))
  | ended d socket d' mProto o hs hd hdis => exact h.of_other (by simp [readBy]) rfl rfl
  | part d bs socket receiver hs hread =>
    by_cases hdc : d = c
    · subst hdc
      exact h.of_read hs hread (henabled.2 socket hs)
        (hwhole bs socket rfl hs (ne_nil_of_handleRead hread)) rfl
        Std.ExtTreeMap.getElem?_insert_self
    · exact h.of_other (hnone hdc) rfl (hsame hdc)
  | payload d bs socket receiver pMsg out message rest mProto l hs hread hdecode hms =>
    obtain rfl := eq_nil_of_handleRead hread
    have hfrom := handledFrom_of_handleMessages (c := c) hms
    by_cases hdc : d = c
    · subst hdc
      refine h.of_read hs hread (henabled.2 socket hs)
        (hwhole bs socket rfl hs (ne_nil_of_handleRead hread)) ?_ Std.ExtTreeMap.getElem?_insert_self
      rw [hfrom, if_pos rfl, messagesIn, List.flatMap_singleton, hdecode]
    · exact h.of_other (hnone hdc) (by rw [hfrom, if_neg hdc]) (hsame hdc)

/-- In every run in which the headers of a connection are read whole, what the server has handled of
it are the messages of the first payloads that have been sent on it, and of all of them once
everything has been read, whatever the other connections do. -/
theorem handledFrom_of_run (hp : p.Lawful) {xs : List PropertyTreeProtocol} {sent : List UInt8}
    (hx : ∀ x ∈ xs, x.Encodable) (hsent : encodeFrames p 512 xs = some sent)
    (hrun : Run (Guarded (HeadersWhole c) (Step p)) .init ls s)
    (hread : readBy c ls <+: sent) :
    ∃ done, done <+: xs ∧ (readBy c ls = sent → done = xs) ∧
      handledFrom c (ls.flatMap Prod.snd) = done.flatMap PropertyTreeProtocol.messages := by
  have hinit : Received p c [] TcpServer.init := by
    refine ⟨fun _ => ⟨rfl, rfl⟩, fun socket hs => ?_⟩
    simp [TcpServer.init] at hs
  have hrec : Received p c ls s := by
    refine (hrun.history (P := fun ls s => Run (Step p) .init ls s ∧ Received p c ls s)
      (fun {ls t l u} ht hstep => ?_) ⟨.nil _, hinit⟩).2
    exact ⟨ht.1.snoc hstep.2, ht.2.step (wired_of_run ht.1).1 hstep⟩
  obtain ⟨mBuff, rs, r, hrun', hby, hfrom⟩ : ∃ (mBuff : Vector UInt8 512) (rs : _) (r : Receiver 512),
      Run (Guarded Receiver.HeaderWhole Receiver.Step) (.init mBuff) rs r ∧
        rs.flatMap Prod.fst = readBy c ls ∧
        handledFrom c (ls.flatMap Prod.snd) = messagesIn p (rs.flatMap Prod.snd) := by
    cases hs : s.sockets[c]? with
    | none =>
      obtain ⟨hby, hfrom⟩ := hrec.before hs
      exact ⟨.replicate 512 0, [], _, .nil _, hby.symm, hfrom⟩
    | some socket =>
      obtain ⟨mBuff, rs, hrun', hby, hfrom⟩ := hrec.receiver socket hs
      exact ⟨mBuff, rs, _, hrun', hby, hfrom⟩
  obtain ⟨done, hdone, hall, hdec⟩ := Receiver.decoded_of_run hp (.inl rfl) hx hsent hrun' (hby ▸ hread)
  refine ⟨done, hdone, fun heq => hall (hby.trans heq), hfrom.trans ?_⟩
  rw [messagesIn_eq, hdec, List.flatMap_map]

/-- The server has handled both requests of a client once it has read them, the second one in two parts,
while other clients come and go. -/
theorem handledFrom_reconnect : ∃ ls s,
    Run (Guarded (HeadersWhole 0) (Step Per.littleEndian)) .init ls s ∧
      ls.map Prod.fst = reconnectEvents ++ [createRead.1] ∧ handledFrom 0 (ls.flatMap Prod.snd) =
        [⟨1, .signinRequest 0⟩, ⟨2, .createRequest [97] 0⟩] := by
  obtain ⟨s, t, -, hrun, hstep⟩ := exists_run_reconnect
  refine ⟨_, t, hrun.snoc hstep, rfl, ?_⟩
  have hx : ∀ x ∈ [PropertyTreeProtocol.propertyTreeMessage ⟨1, .signinRequest 0⟩,
      .propertyTreeMessage ⟨2, .createRequest [97] 0⟩], x.Encodable := by
    simp [PropertyTreeProtocol.Encodable, PropertyTreeMessages.Encodable]
  have hsent : encodeFrames Per.littleEndian 512 [.propertyTreeMessage ⟨1, .signinRequest 0⟩,
      .propertyTreeMessage ⟨2, .createRequest [97] 0⟩] =
      some [5, 0, 0, 1, 0, 0, 0, 14, 0, 0, 2, 0, 2, 97, 0, 0, 0, 0, 0, 0, 0, 0, 0] := rfl
  obtain ⟨done, -, hall, hfrom⟩ := handledFrom_of_run Per.lawful_littleEndian hx hsent
    (hrun.snoc hstep) (by decide)
  obtain rfl := hall rfl
  exact hfrom

end TcpServer

end PropertyTree
