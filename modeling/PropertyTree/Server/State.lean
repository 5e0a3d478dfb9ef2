import PropertyTree.Protocol

/-!
# The state of the server

`Node`, `Session` and `ProtocolHandler` of `server/src`.  Node objects live in a heap indexed by the
order of their construction: a `std::shared_ptr<Node>` is an address, and an object is in the heap
exactly as long as a `shared_ptr` keeps it, so `std::weak_ptr::lock` is a lookup.  A connection
object is its identity; `dropped` holds the connections that `Server::onDisconnect` has removed from
`Server::mConnections`, which from then on live only as long as a session refers to them.
-/

namespace PropertyTree

namespace Server

/-- `Node` of `server/src/Node.hpp`. -/
structure Node where
  name : Name
  sessionId : UInt32
  /-- `std::weak_ptr<Node> parent`. -/
  parent : Option Addr
  uuid : UInt64
  data : Buffer
  /-- `std::map<std::string, std::shared_ptr<Node>>`. -/
  children : Std.ExtTreeMap Name Addr
  /-- `std::unordered_map<uint32_t, std::weak_ptr<IConnectionSession>>`. -/
  listener : Std.ExtTreeMap UInt32 Conn

/-- `Session`: a possibly null `std::shared_ptr<IConnectionSession>`. -/
structure Session where
  connectionSession : Option Conn
  deriving DecidableEq

/-- `ProtocolHandler`, with the heap of the nodes it owns and the connections already dropped. -/
structure ProtocolHandler where
  mSessions : Std.ExtTreeMap UInt32 Session
  mConnectionToSessionId : Std.ExtTreeMap Conn UInt32
  mSessionIdCtr : UInt32
  mTrIdCtr : UInt32
  mTrIdTranslation : Std.ExtTreeMap UInt16 (UInt32 × UInt16)
  mTree : Std.ExtTreeMap UInt64 Addr
  mUuidCtr : UInt32
  heap : Std.ExtTreeMap Addr Node
  nextAddr : Addr
  dropped : List Conn

/-- The node the constructor makes for the root. -/
def rootNode : Node where
  name := []
  sessionId := 0xFFFFFFFF
  parent := none
  uuid := 0
  data := []
  children := ∅
  listener := ∅

/-- The state after `ProtocolHandler::ProtocolHandler`. -/
def ProtocolHandler.init : ProtocolHandler where
  mSessions := ∅
  mConnectionToSessionId := ∅
  mSessionIdCtr := 0
  mTrIdCtr := 0
  mTrIdTranslation := ∅
  mTree := (∅ : Std.ExtTreeMap UInt64 Addr).insertIfNew 0 0
  mUuidCtr := 0 + 1
  heap := (∅ : Std.ExtTreeMap Addr Node).insert 0 rootNode
  nextAddr := 1
  dropped := []

/-- The undefined behaviours a handler can run into. -/
inductive Fault where
  /-- A null `shared_ptr` is dereferenced. -/
  | nullPointer
  /-- An `end()` iterator, or the last element of an empty list, is dereferenced. -/
  | endIterator
  /-- A `shared_ptr` is dereferenced whose object is gone. -/
  | danglingPointer
  /-- The traversal loop is still running after its fuel. -/
  | outOfFuel
  deriving DecidableEq, Repr

/-- What a handler does to the outside: a message sent to a connection, or `mTerminator()`. -/
inductive Output where
  | send (connection : Conn) (message : PropertyTreeMessage)
  | terminate
  deriving DecidableEq, Repr

/-- The result of a handler. -/
abbrev Outcome := Except Fault (ProtocolHandler × List Output)

/-- `ProtocolHandler::send`: nothing is sent to a null connection.  A message that does not fit into the
buffer is not sent either, which is left to `Encodes`. -/
def send (message : PropertyTreeMessage) : Option Conn → List Output
  | none => []
  | some connection => [.send connection message]

@[simp] theorem send_none (m : PropertyTreeMessage) : send m none = [] := rfl

@[simp] theorem send_some (m : PropertyTreeMessage) (c : Conn) :
    send m (some c) = [.send c m] := rfl

namespace ProtocolHandler

/-- `std::weak_ptr<Node>::lock`: the address together with the object it still points to. -/
def lock (s : ProtocolHandler) : Option Addr → Option (Addr × Node)
  | none => none
  | some a => (s.heap[a]?).map fun node => (a, node)

/-- Whether a node object is still referred to by `mTree` or by a children map. -/
def isReferenced (s : ProtocolHandler) (a : Addr) : Bool :=
  (s.mTree.toList.any fun e => e.2 == a) ||
    s.heap.toList.any fun e => e.2.children.toList.any fun e' => e'.2 == a

/-- A `shared_ptr<Node>` goes out of scope: the object is destroyed unless it is still referred to.
The destroyed object's own children map is empty where the handlers do this. -/
def release (s : ProtocolHandler) (a : Addr) : ProtocolHandler :=
  if s.isReferenced a then s else { s with heap := s.heap.erase a }

/-- Whether the connection object `w` is alive while a message of `c` is handled: the caller's
`pConnection`, the server's own table, or a session keeps it. -/
def connectionAlive (s : ProtocolHandler) (c w : Conn) : Bool :=
  w == c || !s.dropped.contains w ||
    s.mSessions.toList.any fun e => e.2.connectionSession == some w

/-- The connection an update for the listener entry `(sessionId, w)` goes to: `w` itself when it is
still alive, and otherwise whatever the session now holds. -/
def listenerConnection (s : ProtocolHandler) (c : Conn) (sessionId : UInt32) (w : Conn) :
    Option Conn :=
  if s.connectionAlive c w then some w
  else match s.mSessions[sessionId]? with
    | none => none
    | some session => session.connectionSession

/-- The loop over `mSessions` that sends one encoded message to every connected session. -/
def broadcast (s : ProtocolHandler) (message : PropertyTreeMessage) : List Output :=
  s.mSessions.toList.flatMap fun e => send message e.2.connectionSession

end ProtocolHandler

end Server

end PropertyTree
