import PropertyTree.Server.State

/-!
# The request handlers of the server

`ProtocolHandler::handle` for every message, `onMsg` and `onDisconnect`, statement by statement.
A handler returns the new state and what it sends, in order, or the fault it runs into.  The
assignments of a successful branch are collected in a state update of their own (`insertNode`,
`removeNode` and so on), which the handler applies after its checks.
-/

namespace PropertyTree.Server

namespace ProtocolHandler

/-! ## Sign-in and disconnect -/

/-- The state changes of `handle(SigninRequest)`. -/
def signin (s : ProtocolHandler) (c : Conn) : ProtocolHandler :=
  let sessionId := s.mSessionIdCtr
  { s with
    mSessionIdCtr := s.mSessionIdCtr + 1
    mSessions := s.mSessions.insertIfNew sessionId ⟨some c⟩
    mConnectionToSessionId := s.mConnectionToSessionId.insertIfNew c sessionId }

/-- `handle(SigninRequest)`. -/
def handleSigninRequest (s : ProtocolHandler) (t : UInt16) (c : Conn) : Outcome :=
  .ok (s.signin c, send ⟨t, .signinAccept 0⟩ (some c))

/-- The state changes of `onDisconnect` for a connection signed in as `sessionId`. -/
def signout (s : ProtocolHandler) (c : Conn) (sessionId : UInt32) : ProtocolHandler :=
  { s with
    mConnectionToSessionId := s.mConnectionToSessionId.erase c
    mSessions := s.mSessions.insert sessionId ⟨none⟩ }

/-- `ProtocolHandler::onDisconnect`. -/
def onDisconnect (s : ProtocolHandler) (c : Conn) : Outcome :=
  match s.mConnectionToSessionId[c]? with
  | none => .ok (s, [])
  | some sessionId =>
    match s.mSessions[sessionId]? with
    | none => .error .endIterator
    | some _ => .ok (s.signout c sessionId, [])

/-- The part of `Server::onDisconnect` before the handler is told: the connection leaves
`Server::mConnections` and the reactor. -/
def drop (s : ProtocolHandler) (c : Conn) : ProtocolHandler :=
  { s with dropped := c :: s.dropped }

/-! ## Creating and deleting nodes -/

/-- The state changes of an accepted `CreateRequest`: the child is put into the children map, draws
its uuid, and is put into `mTree`. -/
def insertNode (s : ProtocolHandler) (p : Addr) (parent : Node) (name : Name)
    (sessionId : UInt32) : ProtocolHandler :=
  let uuid := s.mUuidCtr.toUInt64
  { s with
    mUuidCtr := s.mUuidCtr + 1
    mTree := s.mTree.insertIfNew uuid s.nextAddr
    heap := (s.heap.insert p
        { parent with children := parent.children.insertIfNew name s.nextAddr }).insert s.nextAddr
      { name := name, sessionId := sessionId, parent := some p, uuid := uuid, data := [],
        children := ∅, listener := ∅ }
    nextAddr := s.nextAddr + 1 }

/-- `handle(CreateRequest)`. -/
def handleCreateRequest (s : ProtocolHandler) (t : UInt16) (name : Name) (parentUuid : UInt64)
    (c : Conn) : Outcome :=
  match s.mTree[parentUuid]? with
  | none => .ok (s, send ⟨t, .createReject .notFound⟩ (some c))
  | some p =>
    match s.mConnectionToSessionId[c]? with
    | none => .ok (s, [])
    | some sessionId =>
      match s.heap[p]? with
      | none => .error .danglingPointer
      | some node =>
        match node.children[name]? with
        | some _ => .ok (s, send ⟨t, .createReject .alreadyExist⟩ (some c))
        | none =>
          let uuid := s.mUuidCtr.toUInt64
          let s' := s.insertNode p node name sessionId
          .ok (s', send ⟨t, .createAccept uuid⟩ (some c) ++
            s'.broadcast ⟨notificationId, .treeUpdateNotification [⟨name, uuid, node.uuid⟩] []⟩)

/-- The state changes of an accepted `DeleteRequest` on the node `node` at `a`, whose parent is
`parent` at `p`. -/
def removeNode (s : ProtocolHandler) (uuid : UInt64) (a : Addr) (node : Node) (p : Addr)
    (parent : Node) : ProtocolHandler :=
  { s with
    mTree := s.mTree.erase uuid
    heap := s.heap.insert p { parent with children := parent.children.erase node.name } }.release a

/-- `handle(DeleteRequest)`. -/
def handleDeleteRequest (s : ProtocolHandler) (t : UInt16) (uuid : UInt64) (c : Conn) : Outcome :=
  match s.mTree[uuid]? with
  | none => .ok (s, send ⟨t, .deleteResponse .notFound⟩ (some c))
  | some a =>
    match s.heap[a]? with
    | none => .error .danglingPointer
    | some node =>
      if node.children.size ≠ 0 then
        .ok (s, send ⟨t, .deleteResponse .notEmpty⟩ (some c))
      else
        -- `parentNode->children` is reached without a test of `parentNode`
        match s.lock node.parent with
        | none => .error .nullPointer
        | some (p, parent) =>
          let s' := s.removeNode uuid a node p parent
          .ok (s', send ⟨t, .deleteResponse .ok⟩ (some c) ++
            s'.broadcast ⟨notificationId, .treeUpdateNotification [] [uuid]⟩)

/-! ## Listing the tree -/

/-- `TraversalContext`: `parentNode`, and `current` as the entries from it up to
`parentNode->children.end()`. -/
structure TraversalContext where
  parentNode : Addr
  current : List (Name × Addr)

/-- The `while (true)` loop of `fillToAddListFromTree`; the head of `levels` is `levels.back()`. -/
def fillLoop (heap : Std.ExtTreeMap Addr Node) (pRecursive : Bool) :
    ℕ → List TraversalContext → List NamedNode → Except Fault (List NamedNode)
  | 0, _, _ => .error .outOfFuel
  | _ + 1, [], _ => .error .endIterator
  | fuel + 1, ⟨_, []⟩ :: levels, nodeToAddList =>
    if levels.isEmpty then .ok nodeToAddList
    else fillLoop heap pRecursive fuel levels nodeToAddList
  | fuel + 1, ⟨p, (name, a) :: current⟩ :: levels, nodeToAddList =>
    match heap[a]?, heap[p]? with
    | some node, some parent =>
      let nodeToAddList := nodeToAddList ++ [⟨name, node.uuid, parent.uuid⟩]
      if node.children.size ≠ 0 && pRecursive then
        fillLoop heap pRecursive fuel
          (⟨a, node.children.toList⟩ :: ⟨p, current⟩ :: levels) nodeToAddList
      else
        fillLoop heap pRecursive fuel (⟨p, current⟩ :: levels) nodeToAddList
    | _, _ => .error .danglingPointer

/-- `fillToAddListFromTree`.  Every node takes one turn of the loop to be listed and one to leave
its level. -/
def fillToAddListFromTree (s : ProtocolHandler) (nodeToAddList : List NamedNode) (a : Addr)
    (pRecursive : Bool) : Except Fault (List NamedNode) :=
  match s.heap[a]? with
  | none => .error .danglingPointer
  | some node =>
    fillLoop s.heap pRecursive (2 * s.heap.size + 1) [⟨a, node.children.toList⟩] nodeToAddList

/-- `handle(TreeInfoRequest)`. -/
def handleTreeInfoRequest (s : ProtocolHandler) (t : UInt16) (parentUuid : UInt64) (name : Name)
    (recursive : UInt8) (c : Conn) : Outcome :=
  match s.mTree[parentUuid]? with
  | none => .ok (s, send ⟨t, .treeInfoErrorResponse .notFound⟩ (some c))
  | some p =>
    match s.heap[p]? with
    | none => .error .danglingPointer
    | some parentNode =>
      if name = selfName then
        match s.fillToAddListFromTree [] p (recursive ≠ 0) with
        | .error f => .error f
        | .ok nodeToAddList => .ok (s, send ⟨t, .treeInfoResponse nodeToAddList⟩ (some c))
      else
        match parentNode.children[name]? with
        | none => .ok (s, send ⟨t, .treeInfoErrorResponse .notFound⟩ (some c))
        | some a =>
          match s.heap[a]? with
          | none => .error .danglingPointer
          | some node =>
            match s.fillToAddListFromTree [⟨name, node.uuid, parentNode.uuid⟩] a
                (recursive ≠ 0) with
            | .error f => .error f
            | .ok nodeToAddList => .ok (s, send ⟨t, .treeInfoResponse nodeToAddList⟩ (some c))

/-! ## Values and subscriptions -/

/-- The `uint32_t` that `memcpy` reads from four bytes, least significant byte first. -/
def uint32Value (data : Buffer) : ℕ :=
  data.foldr (fun b v => b.toNat + 256 * v) 0

/-- The value on uuid 0 that stops the server. -/
def isTerminate (uuid : UInt64) (data : Buffer) : Bool :=
  uuid == 0 && data.length == 4 && uint32Value data == 9

/-- The state changes of an accepted `SetValueRequest`: the data, and the listener entries whose
expired connection is replaced by the one their session holds. -/
def setValue (s : ProtocolHandler) (a : Addr) (node : Node) (data : Buffer) (c : Conn) :
    ProtocolHandler :=
  let listener := node.listener.map fun sessionId w => (s.listenerConnection c sessionId w).getD w
  { s with heap := s.heap.insert a { node with data := data, listener := listener } }

/-- `handle(SetValueRequest)`. -/
def handleSetValueRequest (s : ProtocolHandler) (t : UInt16) (uuid : UInt64) (data : Buffer)
    (c : Conn) : Outcome :=
  if isTerminate uuid data then .ok (s, [.terminate])
  else match s.mTree[uuid]? with
    | none => .ok (s, [])
    | some a =>
      match s.heap[a]? with
      | none => .error .danglingPointer
      | some node =>
        .ok (s.setValue a node data c, send ⟨t, .setValueAccept 0⟩ (some c) ++
          node.listener.toList.flatMap fun l =>
            send ⟨notificationId, .updateNotification node.uuid data⟩
              (s.listenerConnection c l.1 l.2))

/-- `handle(GetRequest)`. -/
def handleGetRequest (s : ProtocolHandler) (t : UInt16) (uuid : UInt64) (c : Conn) : Outcome :=
  match s.mTree[uuid]? with
  | none => .ok (s, send ⟨t, .getReject .notFound⟩ (some c))
  | some a =>
    match s.heap[a]? with
    | none => .error .danglingPointer
    | some node => .ok (s, send ⟨t, .getAccept node.data⟩ (some c))

/-- The state change of an accepted `SubscribeRequest`. -/
def subscribe (s : ProtocolHandler) (a : Addr) (node : Node) (sessionId : UInt32) (c : Conn) :
    ProtocolHandler :=
  { s with heap := s.heap.insert a { node with listener := node.listener.insert sessionId c } }

/-- `handle(SubscribeRequest)`. -/
def handleSubscribeRequest (s : ProtocolHandler) (t : UInt16) (uuid : UInt64) (c : Conn) :
    Outcome :=
  match s.mTree[uuid]? with
  | none => .ok (s, send ⟨t, .subscribeResponse .notFound⟩ (some c))
  | some a =>
    match s.mConnectionToSessionId[c]? with
    | none => .ok (s, [])
    | some sessionId =>
      match s.heap[a]? with
      | none => .error .danglingPointer
      | some node =>
        .ok (s.subscribe a node sessionId c, send ⟨t, .subscribeResponse .ok⟩ (some c))

/-- The state change of an accepted `UnsubscribeRequest`. -/
def unsubscribe (s : ProtocolHandler) (a : Addr) (node : Node) (sessionId : UInt32) :
    ProtocolHandler :=
  { s with heap := s.heap.insert a { node with listener := node.listener.erase sessionId } }

/-- `handle(UnsubscribeRequest)`. -/
def handleUnsubscribeRequest (s : ProtocolHandler) (t : UInt16) (uuid : UInt64) (c : Conn) :
    Outcome :=
  match s.mTree[uuid]? with
  | none => .ok (s, send ⟨t, .unsubscribeResponse .notFound⟩ (some c))
  | some a =>
    match s.mConnectionToSessionId[c]? with
    | none => .ok (s, [])
    | some sessionId =>
      match s.heap[a]? with
      | none => .error .danglingPointer
      | some node =>
        match node.listener[sessionId]? with
        | none => .ok (s, send ⟨t, .unsubscribeResponse .notFound⟩ (some c))
        | some _ =>
          .ok (s.unsubscribe a node sessionId, send ⟨t, .unsubscribeResponse .ok⟩ (some c))

/-! ## Remote procedure calls -/

/-- The state changes of a forwarded `RpcRequest`: the 32-bit counter moves on and its low 16 bits
become the key of the caller's session and transaction id. -/
def forwardRpc (s : ProtocolHandler) (sourceSessionId : UInt32) (t : UInt16) : ProtocolHandler :=
  { s with
    mTrIdCtr := s.mTrIdCtr + 1
    mTrIdTranslation := s.mTrIdTranslation.insert s.mTrIdCtr.toUInt16 (sourceSessionId, t) }

/-- `handle(RpcRequest)`. -/
def handleRpcRequest (s : ProtocolHandler) (t : UInt16) (uuid : UInt64) (param : Buffer)
    (c : Conn) : Outcome :=
  match s.mTree[uuid]? with
  | none => .ok (s, send ⟨t, .rpcReject .notFound⟩ (some c))
  | some a =>
    match s.mConnectionToSessionId[c]? with
    | none => .ok (s, [])
    | some sourceSessionId =>
      match s.heap[a]? with
      | none => .error .danglingPointer
      | some node =>
        -- `mSessions.find(sessionId)->second` without a test of the iterator
        match s.mSessions[node.sessionId]? with
        | none => .error .endIterator
        | some session =>
          match session.connectionSession with
          | none => .ok (s, [])
          | some targetConnection =>
            .ok (s.forwardRpc sourceSessionId t,
              send ⟨s.mTrIdCtr.toUInt16, .rpcRequest uuid param⟩ (some targetConnection))

/-- The state change of a reply: its translation entry is used up. -/
def takeTranslation (s : ProtocolHandler) (t : UInt16) : ProtocolHandler :=
  { s with mTrIdTranslation := s.mTrIdTranslation.erase t }

/-- `handleRpc`, the common body of `handle(RpcAccept)` and `handle(RpcReject)`. -/
def handleRpc (s : ProtocolHandler) (t : UInt16) (reply : PropertyTreeMessages) : Outcome :=
  match s.mTrIdTranslation[t]? with
  | none => .ok (s, [])
  | some translation =>
    match s.mSessions[translation.1]? with
    | none => .ok (s.takeTranslation t, [])
    | some targetSession =>
      .ok (s.takeTranslation t, send ⟨translation.2, reply⟩ targetSession.connectionSession)

/-- `handle(HearbeatRequest)`. -/
def handleHearbeatRequest (s : ProtocolHandler) (t : UInt16) (c : Conn) : Outcome :=
  .ok (s, send ⟨t, .hearbeatResponse 0⟩ (some c))

/-! ## Dispatch -/

/-- `ProtocolHandler::handle`; the messages a server has no handler for are ignored. -/
def handle (s : ProtocolHandler) (t : UInt16) (m : PropertyTreeMessages) (c : Conn) : Outcome :=
  match m with
  | .signinRequest _ => s.handleSigninRequest t c
  | .createRequest name parentUuid => s.handleCreateRequest t name parentUuid c
  | .treeInfoRequest parentUuid name recursive =>
    s.handleTreeInfoRequest t parentUuid name recursive c
  | .setValueRequest uuid data => s.handleSetValueRequest t uuid data c
  | .getRequest uuid => s.handleGetRequest t uuid c
  | .subscribeRequest uuid => s.handleSubscribeRequest t uuid c
  | .unsubscribeRequest uuid => s.handleUnsubscribeRequest t uuid c
  | .deleteRequest uuid => s.handleDeleteRequest t uuid c
  | .rpcRequest uuid param => s.handleRpcRequest t uuid param c
  | .rpcAccept value => s.handleRpc t (.rpcAccept value)
  | .rpcReject cause => s.handleRpc t (.rpcReject cause)
  | .hearbeatRequest _ => s.handleHearbeatRequest t c
  | .signinAccept _ | .createAccept _ | .createReject _ | .getAccept _ | .getReject _
  | .treeInfoResponse _ | .treeInfoErrorResponse _ | .treeUpdateNotification _ _
  | .deleteResponse _ | .setValueAccept _ | .setValueReject _ | .subscribeResponse _
  | .unsubscribeResponse _ | .updateNotification _ _ | .hearbeatResponse _ => .ok (s, [])

/-- `ProtocolHandler::onMsg(PropertyTreeMessageArray)`: the messages are handled in order. -/
def onMsgArray (s : ProtocolHandler) (c : Conn) : List PropertyTreeMessage → Outcome
  | [] => .ok (s, [])
  | m :: ms =>
    match s.handle m.transactionId m.message c with
    | .error f => .error f
    | .ok (s', o) =>
      match s'.onMsgArray c ms with
      | .error f => .error f
      | .ok (s'', o') => .ok (s'', o ++ o')

/-- `ProtocolHandler::onMsg` on a decoded frame. -/
def onMsg (s : ProtocolHandler) (c : Conn) : PropertyTreeProtocol → Outcome
  | .propertyTreeMessage m => s.handle m.transactionId m.message c
  | .propertyTreeMessageArray ms => s.onMsgArray c ms

end ProtocolHandler

/-- What happens to a `ProtocolHandler`: a message of a connection, or the loss of one. -/
inductive Event where
  | message (c : Conn) (m : PropertyTreeMessage)
  | disconnect (c : Conn)
  deriving DecidableEq, Repr

/-- One step of the server. -/
def ProtocolHandler.step (s : ProtocolHandler) : Event → Outcome
  | .message c m => s.handle m.transactionId m.message c
  | .disconnect c => (s.drop c).onDisconnect c

end PropertyTree.Server
