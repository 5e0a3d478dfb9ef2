import PropertyTree.Server.Correspondence
import PropertyTree.Server.Safety
import PropertyTree.Transport

/-!
# The server on its sockets

`Server` of `server/src/Server.cpp`: the sockets it has accepted, the handlers its reactor calls, and
the `ProtocolHandler` that the payloads go to.  A `ConnectionSession` closes its descriptor when the
last `shared_ptr` to it goes away, and a session of the `ProtocolHandler` can keep one after
`onDisconnect`; until it is closed, `accept` does not return the same descriptor again.  Whatever
arrives on the sockets, the `ProtocolHandler` goes through a run on live connections.
-/

namespace PropertyTree

open Library Server

/-! ## The state -/

/-- A `ConnectionSession` object: its descriptor and its receive state. -/
structure Socket where
  mFd : ℕ
  receiver : Server.ConnectionSession

/-- `Server`.  `handlers` are those of `mReactor`, each by its descriptor with the `ConnectionSession`
it calls; `sockets` are the `ConnectionSession` objects in the order of their construction, also
those that are gone. -/
structure TcpServer where
  handlers : Std.ExtTreeMap ℕ Conn
  mConnections : Std.ExtTreeMap ℕ Conn
  mProto : ProtocolHandler
  sockets : Std.ExtTreeMap Conn Socket
  nextConn : Conn

/-- What the reactor finds: a connection to accept, with what it is accepted as and whether
`addHandler` succeeds, or something to read for the handler of a connection, which is nothing where
`read` fails. -/
inductive SocketEvent where
  | accept (fd : ℕ) (mBuff : Vector UInt8 512) (added : Bool)
  | read (c : Conn) (bs : List UInt8)

/-- What can go wrong: a handler runs into undefined behaviour, `decode_per` throws, a `read` goes
past `mBuff`, or `onDisconnect` is called for a descriptor that is not in `mConnections`. -/
inductive SocketFault where
  | handler (fault : Fault)
  | codec
  | overflow
  | unknownDescriptor
  deriving DecidableEq

namespace TcpServer

/-- The server before the first connection. -/
def init : TcpServer where
  handlers := ∅
  mConnections := ∅
  mProto := .init
  sockets := ∅
  nextConn := 0

/-- Whether a `shared_ptr` to the connection is left. -/
def keeps (s : TcpServer) (c : Conn) : Prop :=
  (∃ fd : ℕ, s.handlers[fd]? = some c) ∨ (∃ fd : ℕ, s.mConnections[fd]? = some c) ∨
    ∃ sid : UInt32, s.mProto.mSessions[sid]? = some ⟨some c⟩

/-- A descriptor is open as long as the `ConnectionSession` is there that closes it. -/
def isOpen (s : TcpServer) (fd : ℕ) : Prop :=
  ∃ c socket, s.sockets[c]? = some socket ∧ socket.mFd = fd ∧ s.keeps c

/-! ## The steps -/

/-- `Server::onDisconnect`. -/
def onDisconnect (s : TcpServer) (fd : ℕ) :
    Except SocketFault (TcpServer × List (Event × List Output)) :=
  match s.mConnections[fd]? with
  | none => .error .unknownDescriptor
  | some c =>
    match s.mProto.step (.disconnect c) with
    | .error f => .error (.handler f)
    | .ok (mProto, o) => .ok ({ s with
        handlers := s.handlers.erase fd
        mConnections := s.mConnections.erase fd
        mProto := mProto }, [(.disconnect c, o)])

/-- `Server::handleServerRead`, when `accept` has returned the descriptor `fd`. -/
def handleServerRead (s : TcpServer) (fd : ℕ) (mBuff : Vector UInt8 512) (added : Bool) :
    Except SocketFault (TcpServer × List (Event × List Output)) :=
  let c := s.nextConn
  let s := { s with
    mConnections := s.mConnections.insertIfNew fd c
    sockets := s.sockets.insert c ⟨fd, .init mBuff⟩
    nextConn := c + 1 }
  if added then .ok ({ s with handlers := s.handlers.insert fd c }, []) else s.onDisconnect fd

/-- The messages of a payload one after the other, with what each of them leads to. -/
def handleMessages (mProto : ProtocolHandler) (c : Conn) :
    List PropertyTreeMessage → Except Fault (ProtocolHandler × List (Event × List Output))
  | [] => .ok (mProto, [])
  | m :: ms =>
    match mProto.step (.message c m) with
    | .error f => .error f
    | .ok (mProto', o) =>
      match handleMessages mProto' c ms with
      | .error f => .error f
      | .ok (mProto'', l) => .ok (mProto'', (.message c m, o) :: l)

/-- `ProtocolHandler::onMsg` on the bytes of a payload; what is behind the payload is not looked
at. -/
def onMsg (p : Per) (s : TcpServer) (c : Conn) (pMsg : List UInt8) :
    Except SocketFault (TcpServer × List (Event × List Output)) :=
  match (PropertyTreeProtocol.decodePer p).run pMsg with
  | none => .error .codec
  | some (message, _) =>
    match handleMessages s.mProto c message.messages with
    | .error f => .error (.handler f)
    | .ok (mProto, l) => .ok ({ s with mProto := mProto }, l)

/-- `ConnectionSession::handleRead`. -/
def handleRead (p : Per) (s : TcpServer) (c : Conn) (bs : List UInt8) :
    Except SocketFault (TcpServer × List (Event × List Output)) :=
  match s.sockets[c]? with
  | none => .ok (s, [])
  | some socket =>
    match socket.receiver.handleRead bs with
    | .error .ended => s.onDisconnect socket.mFd
    | .error .overflow => .error .overflow
    | .ok (receiver, out) =>
      let s := { s with sockets := s.sockets.insert c { socket with receiver := receiver } }
      match out with
      | [] => .ok (s, [])
      | pMsg :: _ => s.onMsg p c pMsg

/-- One step of the server, with the events of its `ProtocolHandler` and what they lead to. -/
def step (p : Per) (s : TcpServer) :
    SocketEvent → Except SocketFault (TcpServer × List (Event × List Output))
  | .accept fd mBuff added => s.handleServerRead fd mBuff added
  | .read c bs => s.handleRead p c bs

/-- `accept` returns a descriptor that is not open, and the reactor calls the handlers it has, whose
`read` returns no more than it is asked for. -/
def Enabled (s : TcpServer) : SocketEvent → Prop
  | .accept fd _ _ => ¬ s.isOpen fd
  | .read c bs => (∃ fd : ℕ, s.handlers[fd]? = some c) ∧
      ∀ socket, s.sockets[c]? = some socket → (bs.length : ℤ) ≤ socket.receiver.readSize

/-- The steps of the server. -/
def Step (p : Per) : TcpServer → SocketEvent × List (Event × List Output) → TcpServer → Prop :=
  Guarded (fun s l => s.Enabled l.1) (StepOf (step p))

/-! ## What a step can do -/

variable {p : Per} {s s' : TcpServer} {e : SocketEvent} {l : List (Event × List Output)} {c : Conn}
  {fd : ℕ}

/-- The server with a new connection, accepted as the descriptor `fd`. -/
def register (s : TcpServer) (fd : ℕ) (mBuff : Vector UInt8 512) : TcpServer :=
  { s with
    handlers := s.handlers.insert fd s.nextConn
    mConnections := s.mConnections.insertIfNew fd s.nextConn
    sockets := s.sockets.insert s.nextConn ⟨fd, .init mBuff⟩
    nextConn := s.nextConn + 1 }

/-- The server without the connection that has the descriptor `fd`. -/
def unregister (s : TcpServer) (fd : ℕ) (mProto : ProtocolHandler) : TcpServer :=
  { s with
    handlers := s.handlers.erase fd
    mConnections := s.mConnections.erase fd
    mProto := mProto }

/-- The branches of a step. -/
inductive StepResult (p : Per) (s : TcpServer) :
    SocketEvent → List (Event × List Output) → TcpServer → Prop
  | accepted (fd mBuff) : StepResult p s (.accept fd mBuff true) [] (s.register fd mBuff)
  | refused (fd mBuff c mProto o) (hc : (s.register fd mBuff).mConnections[fd]? = some c)
      (hok : s.mProto.step (.disconnect c) = .ok (mProto, o)) :
      StepResult p s (.accept fd mBuff false) [(.disconnect c, o)]
        ((s.register fd mBuff).unregister fd mProto)
  | gone (c bs) (hs : s.sockets[c]? = none) : StepResult p s (.read c bs) [] s
  | ended (c socket d mProto o) (hs : s.sockets[c]? = some socket)
      (hd : s.mConnections[socket.mFd]? = some d)
      (hok : s.mProto.step (.disconnect d) = .ok (mProto, o)) :
      StepResult p s (.read c []) [(.disconnect d, o)] (s.unregister socket.mFd mProto)
  | part (c bs socket receiver) (hs : s.sockets[c]? = some socket)
      (hread : socket.receiver.handleRead bs = .ok (receiver, [])) :
      StepResult p s (.read c bs) []
        { s with sockets := s.sockets.insert c { socket with receiver := receiver } }
  | payload (c bs socket receiver pMsg out message rest mProto l)
      (hs : s.sockets[c]? = some socket)
      (hread : socket.receiver.handleRead bs = .ok (receiver, pMsg :: out))
      (hdecode : (PropertyTreeProtocol.decodePer p).run pMsg = some (message, rest))
      (hok : handleMessages s.mProto c message.messages = .ok (mProto, l)) :
      StepResult p s (.read c bs) l
        { s with
          sockets := s.sockets.insert c { socket with receiver := receiver }
          mProto := mProto }

/-- The branches of the end of a connection. -/
theorem onDisconnect_cases (h : s.onDisconnect fd = .ok (s', l)) :
    ∃ c mProto o, s.mConnections[fd]? = some c ∧ s.mProto.step (.disconnect c) = .ok (mProto, o) ∧
      s' = s.unregister fd mProto ∧ l = [(.disconnect c, o)] := by
  unfold onDisconnect at h
  split at h
  · cases h
  · split at h
    · cases h
    · cases h
      exact ⟨_, _, _, ‹_›, ‹_›, rfl, rfl⟩

/-- A `read` fails where it returns nothing. -/
theorem eq_nil_of_ended {size : ℕ} {r : Receiver size} {bs : List UInt8}
    (h : r.handleRead bs = .error .ended) : bs = [] := by
  unfold Receiver.handleRead at h
  split_ifs at h with hbs hle
  · exact hbs
  · dsimp only at h
    split at h
    · cases h
    · split_ifs at h
  · cases h

/-- Every step takes one of these branches. -/
theorem step_cases (h : s.step p e = .ok (s', l)) : StepResult p s e l s' := by
  cases e with
  | accept fd mBuff added =>
    simp only [step, handleServerRead] at h
    split_ifs at h with hadded
    · cases h
      rw [hadded]
      exact .accepted fd mBuff
    · obtain ⟨c, mProto, o, hc, hok, rfl, rfl⟩ := onDisconnect_cases h
      have hstate : (s.register fd mBuff).unregister fd mProto = unregister { s with
          mConnections := s.mConnections.insertIfNew fd s.nextConn
          sockets := s.sockets.insert s.nextConn ⟨fd, .init mBuff⟩
          nextConn := s.nextConn + 1 } fd mProto := by
        simp only [unregister, register, mk.injEq, and_self, and_true]
        ext k v
        grind
      rw [Bool.not_eq_true] at hadded
      rw [hadded, ← hstate]
      exact .refused fd mBuff c mProto o hc hok
  | read c bs =>
    simp only [step, handleRead] at h
    split at h
    · cases h
      exact .gone c bs ‹_›
    rename_i socket hs
    split at h
    · rename_i hread
      obtain rfl := eq_nil_of_ended hread
      obtain ⟨d, mProto, o, hd, hok, rfl, rfl⟩ := onDisconnect_cases h
      exact .ended c socket d mProto o hs hd hok
    · cases h
    · rename_i receiver out hread
      split at h
      · cases h
        exact .part c bs socket receiver hs hread
      · simp only [onMsg] at h
        split at h
        · cases h
        · split at h
          · cases h
          · cases h
            exact .payload c bs socket receiver _ _ _ _ _ _ hs hread ‹_› ‹_›

/-- The messages of an array are handled one after the other. -/
theorem onMsgArray_eq_handleMessages (mProto : ProtocolHandler) (c : Conn)
    (ms : List PropertyTreeMessage) : mProto.onMsgArray c ms =
      (handleMessages mProto c ms).map fun r => (r.1, r.2.flatMap Prod.snd) := by
  induction ms generalizing mProto with
  | nil => rfl
  | cons m ms ih =>
    rw [ProtocolHandler.onMsgArray, handleMessages,
      show mProto.step (.message c m) = mProto.handle m.transactionId m.message c from rfl]
    cases mProto.handle m.transactionId m.message c with
    | error f => rfl
    | ok r =>
      simp only [ih]
      cases handleMessages r.1 c ms <;> rfl

/-- `ProtocolHandler.onMsg` does with a payload what `handleMessages` does, which keeps the events apart:
what holds of this server holds of the translated function. -/
theorem onMsg_eq_handleMessages (mProto : ProtocolHandler) (c : Conn) (x : PropertyTreeProtocol) :
    mProto.onMsg c x =
      (handleMessages mProto c x.messages).map fun r => (r.1, r.2.flatMap Prod.snd) := by
  cases x with
  | propertyTreeMessage m =>
    rw [ProtocolHandler.onMsg, PropertyTreeProtocol.messages, handleMessages,
      show mProto.step (.message c m) = mProto.handle m.transactionId m.message c from rfl]
    cases mProto.handle m.transactionId m.message c with
    | error f => rfl
    | ok r => simp [handleMessages, Except.map]
  | propertyTreeMessageArray ms => exact onMsgArray_eq_handleMessages mProto c ms

/-! ## The tables of the server -/

/-- The handlers of the reactor are those of the connections in `mConnections`, which are the ones
that have been accepted and not been dropped, each under its own descriptor, and no two connections
that are still referred to have the same descriptor. -/
structure Wired (s : TcpServer) : Prop where
  handlers : ∀ {fd : ℕ}, s.handlers[fd]? = s.mConnections[fd]?
  registered : ∀ {fd c : ℕ}, s.mConnections[fd]? = some c →
    ∃ socket, s.sockets[c]? = some socket ∧ socket.mFd = fd
  live : ∀ {c : Conn}, (∃ fd : ℕ, s.mConnections[fd]? = some c) ↔
    s.sockets[c]? ≠ none ∧ c ∉ s.mProto.dropped
  fresh : ∀ {c : Conn}, s.nextConn ≤ c → s.sockets[c]? = none
  dropped : ∀ c ∈ s.mProto.dropped, s.sockets[c]? ≠ none
  sessions : ∀ {sid : UInt32} {c : Conn}, s.mProto.mSessions[sid]? = some ⟨some c⟩ →
    s.sockets[c]? ≠ none
  single : ∀ {c d : Conn} {socket socket' : Socket}, s.sockets[c]? = some socket →
    s.sockets[d]? = some socket' → s.keeps c → s.keeps d → socket.mFd = socket'.mFd → c = d

/-- A session refers to the connection of a message that has been handled, or has referred to the
same connection before. -/
theorem session_of_step {mProto mProto' : ProtocolHandler} {ev : Event} {o : List Output}
    (h : mProto.step ev = .ok (mProto', o)) {sid : UInt32}
    (hs : mProto'.mSessions[sid]? = some ⟨some c⟩) :
    mProto.mSessions[sid]? = some ⟨some c⟩ ∨ ∃ m, ev = .message c m := by
  cases (Server.step_cases h).sessionChange with
  | signin c' t spare =>
    simp only [ProtocolHandler.signin, Std.ExtTreeMap.getElem?_insertIfNew] at hs
    split_ifs at hs with hnew
    · cases hs
      exact .inr ⟨_, rfl⟩
    · exact .inl hs
  | signout c' sid' session hc hs' =>
    simp only [ProtocolHandler.signout, ProtocolHandler.drop,
      Std.ExtTreeMap.getElem?_insert] at hs
    split_ifs at hs with heq
    · cases hs
    · exact .inl hs
  | unchanged _ _ he hsess hc hctr => exact .inl (hsess ▸ hs)

namespace Wired

/-- A connection with a handler is live. -/
theorem not_mem_dropped (h : s.Wired) (hc : s.mConnections[fd]? = some c) :
    c ∉ s.mProto.dropped :=
  (h.live.mp ⟨fd, hc⟩).2

/-- A connection that is still referred to has been accepted. -/
theorem accepted (h : s.Wired) (hc : s.keeps c) : s.sockets[c]? ≠ none := by
  rcases hc with ⟨fd, hfd⟩ | ⟨fd, hfd⟩ | ⟨sid, hsid⟩
  · obtain ⟨socket, hs, -⟩ := h.registered (h.handlers ▸ hfd)
    simp [hs]
  · obtain ⟨socket, hs, -⟩ := h.registered hfd
    simp [hs]
  · exact h.sessions hsid

/-- A new connection. -/
theorem register (h : s.Wired) (hfd : ¬ s.isOpen fd) (mBuff : Vector UInt8 512) :
    (s.register fd mBuff).Wired := by
  have hnone : s.mConnections[fd]? = none := by
    rw [Option.eq_none_iff_forall_ne_some]
    intro c hc
    obtain ⟨socket, hs, hmFd⟩ := h.registered hc
    exact hfd ⟨c, socket, hs, hmFd, .inr (.inl ⟨fd, hc⟩)⟩
  have hconn : ∀ k : ℕ, (s.register fd mBuff).mConnections[k]? =
      if k = fd then some s.nextConn else s.mConnections[k]? := by
    intro k
    simp only [TcpServer.register]
    grind
  have hsock : ∀ c : Conn, (s.register fd mBuff).sockets[c]? =
      if c = s.nextConn then some ⟨fd, .init mBuff⟩ else s.sockets[c]? := by
    intro c
    simp only [TcpServer.register]
    grind
  have hnew : s.sockets[s.nextConn]? = none := h.fresh le_rfl
  have hold : ∀ {c : Conn}, s.sockets[c]? ≠ none → c ≠ s.nextConn := by
    rintro c hc rfl
    exact hc hnew
  have hkeeps : ∀ {c : Conn}, (s.register fd mBuff).keeps c → c = s.nextConn ∨ s.keeps c := by
    rintro c (⟨k, hk⟩ | ⟨k, hk⟩ | hsid)
    · simp only [TcpServer.register] at hk
      by_cases hkf : k = fd
      · subst hkf
        exact .inl (by simpa using hk.symm)
      · exact .inr (.inl ⟨k, by grind⟩)
    · rw [hconn] at hk
      split_ifs at hk with hkf
      · exact .inl (Option.some.inj hk).symm
      · exact .inr (.inr (.inl ⟨k, hk⟩))
    · exact .inr (.inr (.inr hsid))
  refine ⟨fun {k} => ?_, fun {k c} hk => ?_, fun {c} => ?_, fun {c} hc => ?_, fun c hc => ?_,
    fun {sid c} hsid => ?_, fun {c d socket socket'} hc hd hkc hkd heq => ?_⟩
  · have hk : s.handlers[k]? = s.mConnections[k]? := h.handlers
    rw [hconn]
    simp only [TcpServer.register]
    grind
  · rw [hconn] at hk
    split_ifs at hk with hkf
    · cases hk
      exact ⟨_, by rw [hsock, if_pos rfl], hkf.symm⟩
    · obtain ⟨socket, hs, hmFd⟩ := h.registered hk
      exact ⟨socket, by rw [hsock, if_neg (hold (by simp [hs])), hs], hmFd⟩
  · change _ ↔ (s.register fd mBuff).sockets[c]? ≠ none ∧ c ∉ s.mProto.dropped
    rw [hsock]
    constructor
    · rintro ⟨k, hk⟩
      rw [hconn] at hk
      split_ifs at hk with hkf
      · cases hk
        rw [if_pos rfl]
        exact ⟨by simp, fun hdrop => h.dropped _ hdrop hnew⟩
      · have hlive := h.live.mp ⟨k, hk⟩
        rw [if_neg (hold hlive.1)]
        exact hlive
    · rintro ⟨hs, hdrop⟩
      split_ifs at hs with hc
      · exact ⟨fd, by rw [hconn, if_pos rfl, hc]⟩
      · obtain ⟨k, hk⟩ := h.live.mpr ⟨hs, hdrop⟩
        refine ⟨k, ?_⟩
        rw [hconn, if_neg, hk]
        rintro rfl
        rw [hnone] at hk
        cases hk
  · have hc' : s.nextConn < c := hc
    rw [hsock, if_neg hc'.ne']
    exact h.fresh hc'.le
  · have := h.dropped c hc
    rwa [hsock, if_neg (hold this)]
  · have := h.sessions hsid
    rwa [hsock, if_neg (hold this)]
  · -- the new connection has a descriptor that no other one has
    have hother : ∀ {x : Conn} {sock : Socket}, s.sockets[x]? = some sock → s.keeps x →
        sock.mFd ≠ fd := fun hx hk heq => hfd ⟨_, _, hx, heq, hk⟩
    rw [hsock] at hc hd
    split_ifs at hc hd with hcn hdn hdn
    · exact hcn.trans hdn.symm
    · cases hc
      exact absurd heq.symm (hother hd ((hkeeps hkd).resolve_left hdn))
    · cases hd
      exact absurd heq (hother hc ((hkeeps hkc).resolve_left hcn))
    · exact h.single hc hd ((hkeeps hkc).resolve_left hcn) ((hkeeps hkd).resolve_left hdn) heq

/-- The end of a connection. -/
theorem unregister (h : s.Wired) (hc : s.mConnections[fd]? = some c) {mProto : ProtocolHandler}
    {o : List Output} (hok : s.mProto.step (.disconnect c) = .ok (mProto, o)) :
    (s.unregister fd mProto).Wired := by
  have hdrop : mProto.dropped = c :: s.mProto.dropped := (Server.step_cases hok).dropped
  have hsess : ∀ {sid : UInt32} {d : Conn}, mProto.mSessions[sid]? = some ⟨some d⟩ →
      s.mProto.mSessions[sid]? = some ⟨some d⟩ := fun hs =>
    (session_of_step hok hs).resolve_right (by simp)
  have hconn : ∀ k : ℕ, (s.unregister fd mProto).mConnections[k]? =
      if k = fd then none else s.mConnections[k]? := by
    intro k
    simp only [TcpServer.unregister]
    grind
  have hkeeps : ∀ {d : Conn}, (s.unregister fd mProto).keeps d → s.keeps d := by
    rintro d (⟨k, hk⟩ | ⟨k, hk⟩ | ⟨sid, hsid⟩)
    · refine .inl ⟨k, ?_⟩
      simp only [TcpServer.unregister] at hk
      grind
    · rw [hconn] at hk
      split_ifs at hk
      exact .inr (.inl ⟨k, hk⟩)
    · exact .inr (.inr ⟨sid, hsess hsid⟩)
  obtain ⟨socket, hs, hmFd⟩ := h.registered hc
  refine ⟨fun {k} => ?_, fun {k d} hk => ?_, fun {d} => ?_, h.fresh, fun d hd => ?_,
    fun {sid d} hsid => h.sessions (hsess hsid),
    fun {d d' sock sock'} hd hd' hkd hkd' heq => h.single hd hd' (hkeeps hkd) (hkeeps hkd') heq⟩
  · have hk : s.handlers[k]? = s.mConnections[k]? := h.handlers
    rw [hconn]
    simp only [TcpServer.unregister]
    grind
  · rw [hconn] at hk
    split_ifs at hk
    exact h.registered hk
  · change _ ↔ s.sockets[d]? ≠ none ∧ d ∉ mProto.dropped
    rw [hdrop, List.mem_cons, not_or]
    constructor
    · rintro ⟨k, hk⟩
      rw [hconn] at hk
      split_ifs at hk with hkf
      obtain ⟨hsd, hnd⟩ := h.live.mp ⟨k, hk⟩
      refine ⟨hsd, ?_, hnd⟩
      rintro rfl
      obtain ⟨sock, hsock, hfd⟩ := h.registered hk
      rw [hs] at hsock
      cases hsock
      exact hkf (hfd.symm.trans hmFd)
    · rintro ⟨hsd, hne, hnd⟩
      obtain ⟨k, hk⟩ := h.live.mpr ⟨hsd, hnd⟩
      refine ⟨k, ?_⟩
      rw [hconn, if_neg, hk]
      rintro rfl
      rw [hc] at hk
      exact hne (Option.some.inj hk).symm
  · change d ∈ mProto.dropped at hd
    rw [hdrop] at hd
    rcases List.mem_cons.mp hd with rfl | hd
    · change s.sockets[d]? ≠ none
      simp [hs]
    · exact h.dropped d hd

/-- A message of a live connection. -/
theorem message (h : s.Wired) (hc : s.mConnections[fd]? = some c) {m : PropertyTreeMessage}
    {mProto : ProtocolHandler} {o : List Output}
    (hok : s.mProto.step (.message c m) = .ok (mProto, o)) :
    Wired { s with mProto := mProto } := by
  have hdrop : mProto.dropped = s.mProto.dropped := (Server.step_cases hok).dropped
  have hkc : s.keeps c := .inr (.inl ⟨fd, hc⟩)
  have hkeeps : ∀ {d : Conn}, keeps { s with mProto := mProto } d → s.keeps d := by
    rintro d (hk | hk | ⟨sid, hsid⟩)
    · exact .inl hk
    · exact .inr (.inl hk)
    · rcases session_of_step hok hsid with hold | ⟨m', heq⟩
      · exact .inr (.inr ⟨sid, hold⟩)
      · obtain ⟨rfl, -⟩ := Event.message.inj heq
        exact hkc
  refine ⟨h.handlers, h.registered, fun {d} => ?_, h.fresh, fun d hd => ?_, fun {sid d} hsid =>
    h.accepted (hkeeps (.inr (.inr ⟨sid, hsid⟩))),
    fun {d d' sock sock'} hd hd' hkd hkd' heq => h.single hd hd' (hkeeps hkd) (hkeeps hkd') heq⟩
  · change _ ↔ s.sockets[d]? ≠ none ∧ d ∉ mProto.dropped
    rw [hdrop]
    exact h.live
  · exact h.dropped d (hdrop ▸ hd)

/-- The receive state of a connection does not matter. -/
theorem receive (h : s.Wired) {socket : Socket} (hs : s.sockets[c]? = some socket)
    (receiver : Server.ConnectionSession) :
    Wired { s with sockets := s.sockets.insert c { socket with receiver := receiver } } := by
  have hsock : ∀ d : Conn, (s.sockets.insert c { socket with receiver := receiver })[d]? =
      if d = c then some { socket with receiver := receiver } else s.sockets[d]? := by
    intro d
    grind
  have hnone : ∀ d : Conn, (s.sockets.insert c { socket with receiver := receiver })[d]? = none ↔
      s.sockets[d]? = none := by
    intro d
    rw [hsock]
    split_ifs with hdc
    · simp [hdc, hs]
    · exact Iff.rfl
  have hmFd : ∀ {d : Conn} {sock : Socket},
      (s.sockets.insert c { socket with receiver := receiver })[d]? = some sock →
      ∃ sock', s.sockets[d]? = some sock' ∧ sock'.mFd = sock.mFd := by
    intro d sock hd
    rw [hsock] at hd
    split_ifs at hd with hdc
    · cases hd
      exact ⟨socket, hdc ▸ hs, rfl⟩
    · exact ⟨sock, hd, rfl⟩
  refine ⟨h.handlers, fun {k d} hk => ?_, fun {d} => ?_, fun {d} hd => (hnone d).mpr (h.fresh hd),
    fun d hd => (hnone d).not.mpr (h.dropped d hd),
    fun {sid d} hsid => (hnone d).not.mpr (h.sessions hsid),
    fun {d d' sock sock'} hd hd' hkd hkd' heq => ?_⟩
  · obtain ⟨sock, hd, hfd⟩ := h.registered hk
    change ∃ sock, (s.sockets.insert c { socket with receiver := receiver })[d]? = some sock ∧ _
    rw [hsock]
    split_ifs with hdc
    · subst hdc
      rw [hs] at hd
      cases hd
      exact ⟨_, rfl, hfd⟩
    · exact ⟨sock, hd, hfd⟩
  · exact h.live.trans (and_congr_left' (hnone d).not.symm)
  · obtain ⟨x, hx, hxfd⟩ := hmFd hd
    obtain ⟨y, hy, hyfd⟩ := hmFd hd'
    exact h.single hx hy hkd hkd' (by rw [hxfd, hyfd, heq])

/-- The messages of a payload of a live connection. -/
theorem messages (h : s.Wired) (hc : s.mConnections[fd]? = some c) {ms : List PropertyTreeMessage}
    {mProto : ProtocolHandler} (hok : handleMessages s.mProto c ms = .ok (mProto, l)) :
    Run LiveStep s.mProto l mProto ∧ Wired { s with mProto := mProto } := by
  induction ms generalizing s l with
  | nil =>
    cases hok
    exact ⟨.nil _, h⟩
  | cons m ms ih =>
    unfold handleMessages at hok
    split at hok
    · cases hok
    rename_i mProto' o hm
    split at hok
    · cases hok
    rename_i mProto'' l' hms
    cases hok
    obtain ⟨hrun, hwired⟩ := ih (s := { s with mProto := mProto' }) (h.message hc hm) hc hms
    have hfirst : LiveStep s.mProto (.message c m, o) mProto' := ⟨h.not_mem_dropped hc, hm⟩
    exact ⟨hrun.cons hfirst, hwired⟩

/-- A step of the server keeps its tables and takes its `ProtocolHandler` through a run on live
connections. -/
theorem step (h : s.Wired) (hstep : Step p s (e, l) s') :
    s'.Wired ∧ Run LiveStep s.mProto l s'.mProto := by
  obtain ⟨henabled, hok⟩ := hstep
  have hend : ∀ {s : TcpServer} {fd : ℕ} {c : Conn} {mProto : ProtocolHandler} {o : List Output},
      s.Wired → s.mConnections[fd]? = some c → s.mProto.step (.disconnect c) = .ok (mProto, o) →
        (s.unregister fd mProto).Wired ∧ Run LiveStep s.mProto [(.disconnect c, o)] mProto := by
    intro s fd c mProto o hs hc hdis
    exact ⟨hs.unregister hc hdis, .single ⟨hs.not_mem_dropped hc, hdis⟩⟩
  cases step_cases hok with
  | accepted fd mBuff => exact ⟨h.register henabled mBuff, .nil _⟩
  | refused fd mBuff c mProto o hc hdis => exact hend (h.register henabled mBuff) hc hdis
  | gone c bs hs => exact ⟨h, .nil _⟩
  | ended c socket d mProto o hs hd hdis => exact hend h hd hdis
  | part c bs socket receiver hs hread => exact ⟨h.receive hs receiver, .nil _⟩
  | payload c bs socket receiver pMsg out message rest mProto l hs hread hdecode hms =>
    obtain ⟨⟨fd, hfd⟩, -⟩ := henabled
    exact ((h.receive hs receiver).messages (h.handlers ▸ hfd) hms).symm

/-- `onDisconnect` finds every descriptor it is called with. -/
theorem ne_unknownDescriptor (h : s.Wired) (henabled : s.Enabled e) :
    s.step p e ≠ .error .unknownDescriptor := by
  have hend : ∀ {s : TcpServer} {fd : ℕ}, (∃ c, s.mConnections[fd]? = some c) →
      s.onDisconnect fd ≠ .error .unknownDescriptor := by
    rintro s fd ⟨c, hc⟩ herr
    simp only [onDisconnect, hc] at herr
    split at herr <;> cases herr
  cases e with
  | accept fd mBuff added =>
    simp only [TcpServer.step, handleServerRead]
    split_ifs with hadded
    · simp
    · exact hend (Option.isSome_iff_exists.mp (by simp))
  | read c bs =>
    obtain ⟨⟨fd, hfd⟩, -⟩ := henabled
    obtain ⟨socket, hs, hmFd⟩ := h.registered (h.handlers ▸ hfd)
    intro herr
    simp only [TcpServer.step, TcpServer.handleRead, hs] at herr
    split at herr
    · exact hend ⟨c, by rw [hmFd, ← h.handlers, hfd]⟩ herr
    · cases herr
    · split at herr
      · cases herr
      · simp only [onMsg] at herr
        split at herr
        · cases herr
        · split at herr <;> cases herr

end Wired

/-- No connection is there before the first one is accepted. -/
theorem wired_init : init.Wired where
  handlers := rfl
  registered h := by simp [init] at h
  live := by simp [init]
  fresh := by simp [init]
  dropped := by simp [init, ProtocolHandler.init]
  sessions h := by simp [init, ProtocolHandler.init] at h
  single h := by simp [init] at h

variable {ls : List (SocketEvent × List (Event × List Output))}

/-- In every run the tables of the server fit together, and its `ProtocolHandler` goes through a run
on live connections. -/
theorem wired_of_run (h : Run (Step p) .init ls s) :
    s.Wired ∧ Run LiveStep .init (ls.flatMap Prod.snd) s.mProto := by
  -- `ProtocolHandler` answers one step of the sockets with a run of its own
  have hsim : ∀ {t : TcpServer} {l : SocketEvent × List (Event × List Output)} {u : TcpServer}
      {a : ProtocolHandler}, t.Wired ∧ t.mProto = a → Step p t l u →
      ∃ b, Run LiveStep a l.2 b ∧ u.Wired ∧ u.mProto = b := by
    rintro t l u _ ⟨ht, rfl⟩ hstep
    obtain ⟨hwired, hrun⟩ := ht.step (show Step p t (l.1, l.2) u from hstep)
    exact ⟨u.mProto, hrun, hwired, rfl⟩
  obtain ⟨_, hrun, hwired, rfl⟩ :=
    Run.simulate (R := fun t a => t.Wired ∧ t.mProto = a) (f := Prod.snd) hsim ⟨wired_init, rfl⟩ h
  exact ⟨hwired, hrun⟩

/-- The bytes of a header of this connection are both read at once. -/
def HeadersWhole (c : Conn) (s : TcpServer) (l : SocketEvent × List (Event × List Output)) : Prop :=
  ∀ bs socket, l.1 = .read c bs → s.sockets[c]? = some socket → bs ≠ [] →
    socket.receiver.mReadState = .waitHeader → bs.length = 2

/-! ## A run with a descriptor that is used again -/

instance (s : TcpServer) (c : Conn) : Decidable (s.keeps c) :=
  decidable_of_iff ((s.handlers.toList.any fun e => e.2 = c) = true ∨
      (s.mConnections.toList.any fun e => e.2 = c) = true ∨
        (s.mProto.mSessions.toList.any fun e => e.2.connectionSession = some c) = true) <| by
    simp only [keeps, List.any_eq_true, Prod.exists, decide_eq_true_eq,
      Std.ExtTreeMap.mem_toList_iff_getElem?_eq_some, exists_eq_right]
    refine or_congr_right (or_congr_right (exists_congr fun sid => ?_))
    constructor
    · rintro ⟨⟨d⟩, hsid, rfl⟩
      exact hsid
    · exact fun hsid => ⟨_, hsid, rfl⟩

instance (s : TcpServer) (fd : ℕ) : Decidable (s.isOpen fd) :=
  decidable_of_iff ((s.sockets.toList.any fun e => e.2.mFd = fd ∧ s.keeps e.1) = true) <| by
    simp only [isOpen, List.any_eq_true, Prod.exists, decide_eq_true_eq,
      Std.ExtTreeMap.mem_toList_iff_getElem?_eq_some]

instance (s : TcpServer) : (e : SocketEvent) → Decidable (s.Enabled e)
  | .accept fd _ _ => inferInstanceAs (Decidable (¬ s.isOpen fd))
  | .read c bs =>
    decidable_of_iff ((s.handlers.toList.any fun e => e.2 = c) = true ∧
        ∀ socket ∈ s.sockets[c]?, (bs.length : ℤ) ≤ socket.receiver.readSize) <| by
      simp only [Enabled, List.any_eq_true, Prod.exists, decide_eq_true_eq, Option.mem_def,
        Std.ExtTreeMap.mem_toList_iff_getElem?_eq_some, exists_eq_right]

instance (c : Conn) (s : TcpServer) :
    (l : SocketEvent × List (Event × List Output)) → Decidable (HeadersWhole c s l)
  | (.accept _ _ _, _) => isTrue (by rintro bs socket ⟨⟩)
  | (.read d bs, _) =>
    decidable_of_iff (d = c → ∀ socket ∈ s.sockets[c]?, bs ≠ [] →
        socket.receiver.mReadState = .waitHeader → bs.length = 2) <| by
      constructor
      · rintro h _ socket ⟨⟩ hs
        exact h rfl socket hs
      · rintro h rfl socket hs
        exact h bs socket rfl hs

/-- Two clients connect and sign in.  The second one is lost, and a third one connects, gets the same
descriptor and signs in.  The first one begins to send a `CreateRequest`. -/
def reconnectEvents : List SocketEvent :=
  [.accept 5 (.replicate 512 0) true, .accept 6 (.replicate 512 0) true,
    .read 0 [5, 0], .read 0 [0, 1, 0, 0, 0], .read 1 [5, 0], .read 1 [0, 1, 0, 0, 0], .read 1 [],
    .accept 6 (.replicate 512 0) true, .read 2 [5, 0], .read 2 [0, 1, 0, 0, 0],
    .read 0 [14, 0], .read 0 [0, 2, 0, 2, 97, 0]]

/-- What these lead to. -/
def reconnectOutputs : List (List (Event × List Output)) :=
  let signin c := [(.message c ⟨1, .signinRequest 0⟩, [.send c ⟨1, .signinAccept 0⟩])]
  [[], [], [], signin 0, [], signin 1, [(.disconnect 1, [])], [], [], signin 2, [], []]

/-- The rest of the `CreateRequest` is read, and both clients are notified of the new node. -/
def createRead : SocketEvent × List (Event × List Output) :=
  let notification := ⟨notificationId, .treeUpdateNotification [⟨[97], 1, 0⟩] []⟩
  (.read 0 [0, 0, 0, 0, 0, 0, 0, 0], [(.message 0 ⟨2, .createRequest [97] 0⟩,
    [.send 0 ⟨2, .createAccept 1⟩, .send 0 notification, .send 2 notification])])

/-- The server goes through this run. -/
theorem exists_run_reconnect : ∃ s t, (s.sockets[(2 : Conn)]?).map Socket.mFd = some 6 ∧
    Run (Guarded (HeadersWhole 0) (Step Per.littleEndian)) .init
      (reconnectEvents.zip reconnectOutputs) s ∧
    Guarded (HeadersWhole 0) (Step Per.littleEndian) s createRead t := by
  obtain ⟨⟨s, ls⟩, hexec, hall⟩ := (Option.any_eq_true _ _).mp (show (execute
      (TcpServer.step Per.littleEndian) (fun s e => decide (s.Enabled e ∧ HeadersWhole 0 s (e, [])))
      .init reconnectEvents).any (fun r => decide (r.2.map Prod.snd = reconnectOutputs ∧
        (r.1.sockets[(2 : Conn)]?).map Socket.mFd = some 6 ∧ r.1.Enabled createRead.1 ∧
        HeadersWhole 0 r.1 (createRead.1, [])) &&
          (r.1.step Per.littleEndian createRead.1).toOption.any fun x => decide (x.2 = createRead.2)) =
      true by decide +kernel)
  rw [Bool.and_eq_true, decide_eq_true_eq] at hall
  obtain ⟨⟨hout, hfd, henabled, hwhole⟩, hlast⟩ := hall
  obtain ⟨⟨t, l⟩, hstep, hl⟩ := (Option.any_eq_true _ _).mp hlast
  obtain rfl : ls = reconnectEvents.zip reconnectOutputs :=
    List.zip_of_prod (map_fst_of_execute _ hexec) hout
  refine ⟨s, t, hfd, ?_, hwhole, henabled, ?_⟩
  · exact (run_of_execute _ hexec).mono fun _ _ _ hst =>
      ⟨(of_decide_eq_true hst.1).2, (of_decide_eq_true hst.1).1, hst.2⟩
  · obtain rfl : l = createRead.2 := of_decide_eq_true hl
    cases hok : s.step Per.littleEndian createRead.1 with
    | error f =>
      rw [hok] at hstep
      cases hstep
    | ok r =>
      rw [hok] at hstep
      exact hok.trans (congrArg Except.ok (Option.some.inj hstep))

/-! ## The `ProtocolHandler` -/

/-- In every run the `ProtocolHandler` goes through a run on live connections, and `onDisconnect` finds
the descriptor it is called for. -/
theorem live_of_run (h : Run (Step p) .init ls s) :
    Run LiveStep .init (ls.flatMap Prod.snd) s.mProto ∧
      ∀ e, s.Enabled e → s.step p e ≠ .error .unknownDescriptor :=
  ⟨(wired_of_run h).2, fun _ henabled => (wired_of_run h).1.ne_unknownDescriptor henabled⟩

/-- The `ProtocolHandler` goes through the run in which a connection is lost. -/
theorem live_reconnect : ∃ ls s, Run (Step Per.littleEndian) .init ls s ∧
    (Event.disconnect 1, []) ∈ ls.flatMap Prod.snd ∧
      Run LiveStep .init (ls.flatMap Prod.snd) s.mProto := by
  obtain ⟨s, t, -, hrun, hstep⟩ := exists_run_reconnect
  have hall := (hrun.snoc hstep).mono fun _ _ _ h => h.2
  exact ⟨_, t, hall, by decide, (live_of_run hall).1⟩

/-! ## Where the server fails -/

/-- What makes the server fail: a `read` that asks for more than is left of `mBuff`, a payload that
begins with no word that is read as one, or one with a message whose handler runs into a missing
object. -/
inductive Breaks (p : Per) (s : TcpServer) : SocketEvent → Prop
  | overflow (c bs socket) (hs : s.sockets[c]? = some socket) (hbs : bs ≠ [])
      (hfull : 512 < socket.receiver.mBuffIdx.toNat + bs.length) : Breaks p s (.read c bs)
  | garbled (c bs socket receiver pMsg out) (hs : s.sockets[c]? = some socket)
      (hread : socket.receiver.handleRead bs = .ok (receiver, pMsg :: out))
      (hword : ∀ (x : PropertyTreeProtocol) w rest, x.Spells p w → pMsg ≠ w ++ rest) :
      Breaks p s (.read c bs)
  | hazard (c bs socket receiver pMsg out x w rest) (hs : s.sockets[c]? = some socket)
      (hread : socket.receiver.handleRead bs = .ok (receiver, pMsg :: out))
      (hword : PropertyTreeProtocol.Spells p x w) (hpre : pMsg = w ++ rest)
      (hhazard : ¬ Along ProtocolHandler.step (fun s e => ¬ Hazard s e) s.mProto
        (x.messages.map (Event.message c))) : Breaks p s (.read c bs)

/-- The messages of a payload fail exactly where one of them is a hazard when its turn comes. -/
theorem handleMessages_error_iff {mProto : ProtocolHandler} (hlinked : WellLinked mProto)
    (ms : List PropertyTreeMessage) : (∃ f, handleMessages mProto c ms = .error f) ↔
      ¬ Along ProtocolHandler.step (fun s e => ¬ Hazard s e) mProto (ms.map (Event.message c)) := by
  have hiff : (∃ r, handleMessages mProto c ms = .ok r) ↔
      Along ProtocolHandler.step (fun s e => ¬ Hazard s e) mProto (ms.map (Event.message c)) := by
    rw [← completes_iff_along ProtocolHandler.step (P := WellLinked)
      (fun h hok => h.stateChange (Server.step_cases hok).stateChange)
      (fun h => (h.step_error_iff _).trans not_not.symm) hlinked, ← onMsgArray_ok_iff,
      onMsgArray_eq_handleMessages]
    cases handleMessages mProto c ms <;> simp [Except.map]
  rw [← hiff]
  cases handleMessages mProto c ms <;> simp

/-- A `read` overflows the buffer where what is read does not fit behind what is there. -/
theorem handleRead_eq_overflow {size : ℕ} {r : Receiver size} {bs : List UInt8} :
    r.handleRead bs = .error .overflow ↔ bs ≠ [] ∧ size < r.mBuffIdx.toNat + bs.length := by
  unfold Receiver.handleRead
  split_ifs with hbs hle
  · simp [hbs]
  · dsimp only
    split
    · simp [hle]
    · split_ifs <;> simp [hle]
  · simpa [hbs] using hle

/-- The handling of a payload fails where it cannot be decoded, or where one of its messages is a
hazard. -/
theorem onMsg_error_iff (hp : p.Lawful) (hlinked : WellLinked s.mProto) {socket : Socket}
    (hs : s.sockets[c]? = some socket) {bs pMsg : List UInt8} {receiver : Server.ConnectionSession}
    {out : List (List UInt8)} {sockets : Std.ExtTreeMap Conn Socket}
    (hread : socket.receiver.handleRead bs = .ok (receiver, pMsg :: out)) :
    (∃ f, onMsg p { s with sockets := sockets } c pMsg = .error f) ↔ Breaks p s (.read c bs) := by
  have hsame : ∀ {socket' receiver' pMsg' out'}, s.sockets[c]? = some socket' →
      socket'.receiver.handleRead bs = .ok (receiver', pMsg' :: out') → pMsg' = pMsg := by
    intro socket' receiver' pMsg' out' hs' hread'
    obtain rfl := Option.some.inj (hs'.symm.trans hs)
    cases hread'.symm.trans hread
    rfl
  have hrec := PropertyTreeProtocol.recognizes_decodePer hp
  unfold onMsg
  split
  · rename_i hnone
    refine iff_of_true ⟨_, rfl⟩ (.garbled c bs socket receiver pMsg out hs hread fun x w rest hw heq => ?_)
    rw [(hrec pMsg x rest).mpr ⟨w, hw, heq⟩] at hnone
    cases hnone
  · rename_i x rest hdec
    obtain ⟨w, hw, heq⟩ := (hrec pMsg x rest).mp hdec
    have hfail := handleMessages_error_iff (c := c) hlinked x.messages
    constructor
    · rintro ⟨f, hf⟩
      refine .hazard c bs socket receiver pMsg out x w rest hs hread hw heq (hfail.mp ?_)
      split at hf
      · exact ⟨_, ‹_›⟩
      · cases hf
    · intro hbreak
      cases hbreak with
      | overflow _ _ socket' hs' hbs hfull =>
        obtain rfl := Option.some.inj (hs'.symm.trans hs)
        cases hread.symm.trans (handleRead_eq_overflow.mpr ⟨hbs, hfull⟩)
      | garbled _ _ _ _ _ _ hs' hread' hword => exact absurd (hsame hs' hread' ▸ heq) (hword x w rest hw)
      | hazard _ _ _ _ _ _ x' w' rest' hs' hread' hw' heq' hhazard =>
        obtain rfl := hsame hs' hread'
        cases hdec.symm.trans ((hrec _ x' rest').mpr ⟨w', hw', heq'⟩)
        obtain ⟨f, hf⟩ := hfail.mpr hhazard
        simp [hf]

end TcpServer

end PropertyTree
