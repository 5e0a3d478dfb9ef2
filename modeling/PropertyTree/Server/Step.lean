import PropertyTree.Library.Transition
import PropertyTree.Server.Handlers

/-!
# What one step of the server can do

`StepResult s e s' o` lists, branch by branch, how the step of `s` on the event `e` can end in `s'`
with the output `o`, together with the tests that lead there; `step_cases` says that nothing else
happens.  `StateChange s s'` forgets the answers and keeps the effect on the state.  Everything
later about runs of the server is proved from these two, without unfolding a handler.
-/

namespace PropertyTree.Server

/-- The messages `handleRpc` is instantiated with. -/
def IsRpcReply (m : PropertyTreeMessages) : Prop :=
  (∃ value, m = .rpcAccept value) ∨ ∃ cause, m = .rpcReject cause

/-- The messages for which the server only has the empty template handler. -/
def IsIgnored : PropertyTreeMessages → Prop
  | .signinAccept _ | .createAccept _ | .createReject _ | .getAccept _ | .getReject _
  | .treeInfoResponse _ | .treeInfoErrorResponse _ | .treeUpdateNotification _ _
  | .deleteResponse _ | .setValueAccept _ | .setValueReject _ | .subscribeResponse _
  | .unsubscribeResponse _ | .updateNotification _ _ | .hearbeatResponse _ => True
  | _ => False

/-- The branches of the server's step that complete, with their tests. -/
inductive StepResult (s : ProtocolHandler) : Event → ProtocolHandler → List Output → Prop
  | signin (c t spare) :
      StepResult s (.message c ⟨t, .signinRequest spare⟩) (s.signin c)
        [.send c ⟨t, .signinAccept 0⟩]
  | createNoParent (c t name parentUuid) (hp : s.mTree[parentUuid]? = none) :
      StepResult s (.message c ⟨t, .createRequest name parentUuid⟩) s
        [.send c ⟨t, .createReject .notFound⟩]
  | createNotSignedIn (c t name parentUuid p) (hp : s.mTree[parentUuid]? = some p)
      (hc : s.mConnectionToSessionId[c]? = none) :
      StepResult s (.message c ⟨t, .createRequest name parentUuid⟩) s []
  | createExists (c t name parentUuid p sid node a) (hp : s.mTree[parentUuid]? = some p)
      (hc : s.mConnectionToSessionId[c]? = some sid) (hn : s.heap[p]? = some node)
      (ha : node.children[name]? = some a) :
      StepResult s (.message c ⟨t, .createRequest name parentUuid⟩) s
        [.send c ⟨t, .createReject .alreadyExist⟩]
  | create (c t name parentUuid p sid node) (hp : s.mTree[parentUuid]? = some p)
      (hc : s.mConnectionToSessionId[c]? = some sid) (hn : s.heap[p]? = some node)
      (ha : node.children[name]? = none) :
      StepResult s (.message c ⟨t, .createRequest name parentUuid⟩) (s.insertNode p node name sid)
        (.send c ⟨t, .createAccept s.mUuidCtr.toUInt64⟩ ::
          s.broadcast ⟨notificationId,
            .treeUpdateNotification [⟨name, s.mUuidCtr.toUInt64, node.uuid⟩] []⟩)
  | treeInfoNoParent (c t parentUuid name recursive) (hp : s.mTree[parentUuid]? = none) :
      StepResult s (.message c ⟨t, .treeInfoRequest parentUuid name recursive⟩) s
        [.send c ⟨t, .treeInfoErrorResponse .notFound⟩]
  | treeInfoNoChild (c t parentUuid name recursive p node) (hp : s.mTree[parentUuid]? = some p)
      (hn : s.heap[p]? = some node) (hname : name ≠ selfName) (ha : node.children[name]? = none) :
      StepResult s (.message c ⟨t, .treeInfoRequest parentUuid name recursive⟩) s
        [.send c ⟨t, .treeInfoErrorResponse .notFound⟩]
  | treeInfoSelf (c t parentUuid recursive p node l) (hp : s.mTree[parentUuid]? = some p)
      (hn : s.heap[p]? = some node)
      (hl : s.fillToAddListFromTree [] p (recursive ≠ 0) = .ok l) :
      StepResult s (.message c ⟨t, .treeInfoRequest parentUuid selfName recursive⟩) s
        [.send c ⟨t, .treeInfoResponse l⟩]
  | treeInfoChild (c t parentUuid name recursive p parent a node l)
      (hp : s.mTree[parentUuid]? = some p) (hn : s.heap[p]? = some parent)
      (hname : name ≠ selfName) (ha : parent.children[name]? = some a)
      (hna : s.heap[a]? = some node)
      (hl : s.fillToAddListFromTree [⟨name, node.uuid, parent.uuid⟩] a (recursive ≠ 0) = .ok l) :
      StepResult s (.message c ⟨t, .treeInfoRequest parentUuid name recursive⟩) s
        [.send c ⟨t, .treeInfoResponse l⟩]
  | terminate (c t uuid data) (hterm : ProtocolHandler.isTerminate uuid data = true) :
      StepResult s (.message c ⟨t, .setValueRequest uuid data⟩) s [.terminate]
  | setUnknown (c t uuid data) (hterm : ProtocolHandler.isTerminate uuid data = false)
      (ha : s.mTree[uuid]? = none) :
      StepResult s (.message c ⟨t, .setValueRequest uuid data⟩) s []
  | setValue (c t uuid data a node) (hterm : ProtocolHandler.isTerminate uuid data = false)
      (ha : s.mTree[uuid]? = some a) (hn : s.heap[a]? = some node) :
      StepResult s (.message c ⟨t, .setValueRequest uuid data⟩) (s.setValue a node data c)
        (.send c ⟨t, .setValueAccept 0⟩ :: node.listener.toList.flatMap fun l =>
          send ⟨notificationId, .updateNotification node.uuid data⟩
            (s.listenerConnection c l.1 l.2))
  | getUnknown (c t uuid) (ha : s.mTree[uuid]? = none) :
      StepResult s (.message c ⟨t, .getRequest uuid⟩) s [.send c ⟨t, .getReject .notFound⟩]
  | get (c t uuid a node) (ha : s.mTree[uuid]? = some a) (hn : s.heap[a]? = some node) :
      StepResult s (.message c ⟨t, .getRequest uuid⟩) s [.send c ⟨t, .getAccept node.data⟩]
  | subscribeUnknown (c t uuid) (ha : s.mTree[uuid]? = none) :
      StepResult s (.message c ⟨t, .subscribeRequest uuid⟩) s
        [.send c ⟨t, .subscribeResponse .notFound⟩]
  | subscribeNotSignedIn (c t uuid a) (ha : s.mTree[uuid]? = some a)
      (hc : s.mConnectionToSessionId[c]? = none) :
      StepResult s (.message c ⟨t, .subscribeRequest uuid⟩) s []
  | subscribe (c t uuid a sid node) (ha : s.mTree[uuid]? = some a)
      (hc : s.mConnectionToSessionId[c]? = some sid) (hn : s.heap[a]? = some node) :
      StepResult s (.message c ⟨t, .subscribeRequest uuid⟩) (s.subscribe a node sid c)
        [.send c ⟨t, .subscribeResponse .ok⟩]
  | unsubscribeUnknown (c t uuid) (ha : s.mTree[uuid]? = none) :
      StepResult s (.message c ⟨t, .unsubscribeRequest uuid⟩) s
        [.send c ⟨t, .unsubscribeResponse .notFound⟩]
  | unsubscribeNotSignedIn (c t uuid a) (ha : s.mTree[uuid]? = some a)
      (hc : s.mConnectionToSessionId[c]? = none) :
      StepResult s (.message c ⟨t, .unsubscribeRequest uuid⟩) s []
  | unsubscribeNoListener (c t uuid a sid node) (ha : s.mTree[uuid]? = some a)
      (hc : s.mConnectionToSessionId[c]? = some sid) (hn : s.heap[a]? = some node)
      (hl : node.listener[sid]? = none) :
      StepResult s (.message c ⟨t, .unsubscribeRequest uuid⟩) s
        [.send c ⟨t, .unsubscribeResponse .notFound⟩]
  | unsubscribe (c t uuid a sid node w) (ha : s.mTree[uuid]? = some a)
      (hc : s.mConnectionToSessionId[c]? = some sid) (hn : s.heap[a]? = some node)
      (hl : node.listener[sid]? = some w) :
      StepResult s (.message c ⟨t, .unsubscribeRequest uuid⟩) (s.unsubscribe a node sid)
        [.send c ⟨t, .unsubscribeResponse .ok⟩]
  | deleteUnknown (c t uuid) (ha : s.mTree[uuid]? = none) :
      StepResult s (.message c ⟨t, .deleteRequest uuid⟩) s
        [.send c ⟨t, .deleteResponse .notFound⟩]
  | deleteNotEmpty (c t uuid a node) (ha : s.mTree[uuid]? = some a) (hn : s.heap[a]? = some node)
      (hch : node.children.size ≠ 0) :
      StepResult s (.message c ⟨t, .deleteRequest uuid⟩) s
        [.send c ⟨t, .deleteResponse .notEmpty⟩]
  | delete (c t uuid a node p parent) (ha : s.mTree[uuid]? = some a) (hn : s.heap[a]? = some node)
      (hch : node.children.size = 0) (hp : node.parent = some p) (hpn : s.heap[p]? = some parent) :
      StepResult s (.message c ⟨t, .deleteRequest uuid⟩) (s.removeNode uuid a node p parent)
        (.send c ⟨t, .deleteResponse .ok⟩ ::
          (s.removeNode uuid a node p parent).broadcast
            ⟨notificationId, .treeUpdateNotification [] [uuid]⟩)
  | rpcUnknown (c t uuid param) (ha : s.mTree[uuid]? = none) :
      StepResult s (.message c ⟨t, .rpcRequest uuid param⟩) s [.send c ⟨t, .rpcReject .notFound⟩]
  | rpcNotSignedIn (c t uuid param a) (ha : s.mTree[uuid]? = some a)
      (hc : s.mConnectionToSessionId[c]? = none) :
      StepResult s (.message c ⟨t, .rpcRequest uuid param⟩) s []
  | rpcOwnerGone (c t uuid param a sid node) (ha : s.mTree[uuid]? = some a)
      (hc : s.mConnectionToSessionId[c]? = some sid) (hn : s.heap[a]? = some node)
      (ho : s.mSessions[node.sessionId]? = some ⟨none⟩) :
      StepResult s (.message c ⟨t, .rpcRequest uuid param⟩) s []
  | rpcForward (c t uuid param a sid node owner) (ha : s.mTree[uuid]? = some a)
      (hc : s.mConnectionToSessionId[c]? = some sid) (hn : s.heap[a]? = some node)
      (ho : s.mSessions[node.sessionId]? = some ⟨some owner⟩) :
      StepResult s (.message c ⟨t, .rpcRequest uuid param⟩) (s.forwardRpc sid t)
        [.send owner ⟨s.mTrIdCtr.toUInt16, .rpcRequest uuid param⟩]
  | replyUnknown (c t m) (hm : IsRpcReply m) (ht : s.mTrIdTranslation[t]? = none) :
      StepResult s (.message c ⟨t, m⟩) s []
  | replyNoSession (c t m translation) (hm : IsRpcReply m)
      (ht : s.mTrIdTranslation[t]? = some translation)
      (hs : s.mSessions[translation.1]? = none) :
      StepResult s (.message c ⟨t, m⟩) (s.takeTranslation t) []
  | reply (c t m translation session) (hm : IsRpcReply m)
      (ht : s.mTrIdTranslation[t]? = some translation)
      (hs : s.mSessions[translation.1]? = some session) :
      StepResult s (.message c ⟨t, m⟩) (s.takeTranslation t)
        (send ⟨translation.2, m⟩ session.connectionSession)
  | hearbeat (c t spare) :
      StepResult s (.message c ⟨t, .hearbeatRequest spare⟩) s [.send c ⟨t, .hearbeatResponse 0⟩]
  | ignored (c t m) (hm : IsIgnored m) : StepResult s (.message c ⟨t, m⟩) s []
  | disconnectUnknown (c) (hc : s.mConnectionToSessionId[c]? = none) :
      StepResult s (.disconnect c) (s.drop c) []
  | disconnect (c sid session) (hc : s.mConnectionToSessionId[c]? = some sid)
      (hs : s.mSessions[sid]? = some session) :
      StepResult s (.disconnect c) ((s.drop c).signout c sid) []

/-! ## Inversion of the handlers -/

section Inversion

open ProtocolHandler

variable {s s' : ProtocolHandler} {o : List Output} {t : UInt16} {c : Conn}

/-- The branches of `handle(CreateRequest)`. -/
theorem handleCreateRequest_cases {name : Name} {parentUuid : UInt64}
    (h : s.handleCreateRequest t name parentUuid c = .ok (s', o)) :
    StepResult s (.message c ⟨t, .createRequest name parentUuid⟩) s' o := by
  unfold handleCreateRequest at h
  split at h
  · cases h
    exact .createNoParent _ _ _ _ ‹_›
  split at h
  · cases h
    exact .createNotSignedIn _ _ _ _ _ ‹_› ‹_›
  split at h
  · cases h
  split at h
  · cases h
    exact .createExists _ _ _ _ _ _ _ _ ‹_› ‹_› ‹_› ‹_›
  · cases h
    exact .create _ _ _ _ _ _ _ ‹_› ‹_› ‹_› ‹_›

/-- The branches of `handle(TreeInfoRequest)`. -/
theorem handleTreeInfoRequest_cases {parentUuid : UInt64} {name : Name} {recursive : UInt8}
    (h : s.handleTreeInfoRequest t parentUuid name recursive c = .ok (s', o)) :
    StepResult s (.message c ⟨t, .treeInfoRequest parentUuid name recursive⟩) s' o := by
  unfold handleTreeInfoRequest at h
  split at h
  · cases h
    exact .treeInfoNoParent _ _ _ _ _ ‹_›
  split at h
  · cases h
  split at h
  · subst name
    split at h
    · cases h
    · cases h
      exact .treeInfoSelf _ _ _ _ _ _ _ ‹_› ‹_› ‹_›
  split at h
  · cases h
    exact .treeInfoNoChild _ _ _ _ _ _ _ ‹_› ‹_› ‹_› ‹_›
  split at h
  · cases h
  split at h
  · cases h
  · cases h
    exact .treeInfoChild _ _ _ _ _ _ _ _ _ _ ‹_› ‹_› ‹_› ‹_› ‹_› ‹_›

/-- The branches of `handle(SetValueRequest)`. -/
theorem handleSetValueRequest_cases {uuid : UInt64} {data : Buffer}
    (h : s.handleSetValueRequest t uuid data c = .ok (s', o)) :
    StepResult s (.message c ⟨t, .setValueRequest uuid data⟩) s' o := by
  unfold handleSetValueRequest at h
  split at h
  · cases h
    exact .terminate _ _ _ _ ‹_›
  have hterm : isTerminate uuid data = false := by simpa using ‹¬ isTerminate uuid data = true›
  split at h
  · cases h
    exact .setUnknown _ _ _ _ hterm ‹_›
  split at h
  · cases h
  · cases h
    exact .setValue _ _ _ _ _ _ hterm ‹_› ‹_›

/-- The branches of `handle(GetRequest)`. -/
theorem handleGetRequest_cases {uuid : UInt64} (h : s.handleGetRequest t uuid c = .ok (s', o)) :
    StepResult s (.message c ⟨t, .getRequest uuid⟩) s' o := by
  unfold handleGetRequest at h
  split at h
  · cases h
    exact .getUnknown _ _ _ ‹_›
  split at h
  · cases h
  · cases h
    exact .get _ _ _ _ _ ‹_› ‹_›

/-- The branches of `handle(SubscribeRequest)`. -/
theorem handleSubscribeRequest_cases {uuid : UInt64}
    (h : s.handleSubscribeRequest t uuid c = .ok (s', o)) :
    StepResult s (.message c ⟨t, .subscribeRequest uuid⟩) s' o := by
  unfold handleSubscribeRequest at h
  split at h
  · cases h
    exact .subscribeUnknown _ _ _ ‹_›
  split at h
  · cases h
    exact .subscribeNotSignedIn _ _ _ _ ‹_› ‹_›
  split at h
  · cases h
  · cases h
    exact .subscribe _ _ _ _ _ _ ‹_› ‹_› ‹_›

/-- The branches of `handle(UnsubscribeRequest)`. -/
theorem handleUnsubscribeRequest_cases {uuid : UInt64}
    (h : s.handleUnsubscribeRequest t uuid c = .ok (s', o)) :
    StepResult s (.message c ⟨t, .unsubscribeRequest uuid⟩) s' o := by
  unfold handleUnsubscribeRequest at h
  split at h
  · cases h
    exact .unsubscribeUnknown _ _ _ ‹_›
  split at h
  · cases h
    exact .unsubscribeNotSignedIn _ _ _ _ ‹_› ‹_›
  split at h
  · cases h
  split at h
  · cases h
    exact .unsubscribeNoListener _ _ _ _ _ _ ‹_› ‹_› ‹_› ‹_›
  · cases h
    exact .unsubscribe _ _ _ _ _ _ _ ‹_› ‹_› ‹_› ‹_›

/-- Locking a weak pointer gives the pointed-to object. -/
theorem lock_eq_some {w : Option Addr} {p : Addr} {n : Node} (h : s.lock w = some (p, n)) :
    w = some p ∧ s.heap[p]? = some n := by
  cases w with
  | none => cases h
  | some a =>
    obtain ⟨m, hm, hpn⟩ := Option.map_eq_some_iff.mp h
    cases hpn
    exact ⟨rfl, hm⟩

/-- The branches of `handle(DeleteRequest)`. -/
theorem handleDeleteRequest_cases {uuid : UInt64}
    (h : s.handleDeleteRequest t uuid c = .ok (s', o)) :
    StepResult s (.message c ⟨t, .deleteRequest uuid⟩) s' o := by
  unfold handleDeleteRequest at h
  split at h
  · cases h
    exact .deleteUnknown _ _ _ ‹_›
  split at h
  · cases h
  split at h
  · cases h
    exact .deleteNotEmpty _ _ _ _ _ ‹_› ‹_› ‹_›
  split at h
  · cases h
  · cases h
    obtain ⟨hp, hpn⟩ := lock_eq_some ‹_›
    exact .delete _ _ _ _ _ _ _ ‹_› ‹_› (not_not.mp ‹_›) hp hpn

/-- The branches of `handle(RpcRequest)`. -/
theorem handleRpcRequest_cases {uuid : UInt64} {param : Buffer}
    (h : s.handleRpcRequest t uuid param c = .ok (s', o)) :
    StepResult s (.message c ⟨t, .rpcRequest uuid param⟩) s' o := by
  unfold handleRpcRequest at h
  split at h
  · cases h
    exact .rpcUnknown _ _ _ _ ‹_›
  split at h
  · cases h
    exact .rpcNotSignedIn _ _ _ _ _ ‹_› ‹_›
  split at h
  · cases h
  split at h
  · cases h
  next session hsession =>
    obtain ⟨owner⟩ := session
    cases owner with
    | none =>
      cases h
      exact .rpcOwnerGone _ _ _ _ _ _ _ ‹_› ‹_› ‹_› hsession
    | some owner =>
      cases h
      exact .rpcForward _ _ _ _ _ _ _ _ ‹_› ‹_› ‹_› hsession

/-- The branches of `handleRpc`. -/
theorem handleRpc_cases {m : PropertyTreeMessages} (hm : IsRpcReply m)
    (h : s.handleRpc t m = .ok (s', o)) : StepResult s (.message c ⟨t, m⟩) s' o := by
  unfold handleRpc at h
  split at h
  · cases h
    exact .replyUnknown _ _ _ hm ‹_›
  split at h
  · cases h
    exact .replyNoSession _ _ _ _ hm ‹_› ‹_›
  · cases h
    exact .reply _ _ _ _ _ hm ‹_› ‹_›

/-- The branches of `onDisconnect`, on the state in which the connection has been dropped. -/
theorem onDisconnect_cases (h : (s.drop c).onDisconnect c = .ok (s', o)) :
    StepResult s (.disconnect c) s' o := by
  unfold onDisconnect at h
  split at h
  · cases h
    exact .disconnectUnknown _ ‹_›
  split at h
  · cases h
  · cases h
    exact .disconnect _ _ _ ‹_› ‹_›

/-- A step that completes is one of the branches of `StepResult`. -/
theorem step_cases {e : Event} (h : s.step e = .ok (s', o)) : StepResult s e s' o := by
  cases e with
  | disconnect c => exact onDisconnect_cases h
  | message c m =>
    obtain ⟨t, m⟩ := m
    cases m with
    | signinRequest spare =>
      cases h
      exact .signin _ _ _
    | createRequest name parentUuid => exact handleCreateRequest_cases h
    | treeInfoRequest parentUuid name recursive => exact handleTreeInfoRequest_cases h
    | setValueRequest uuid data => exact handleSetValueRequest_cases h
    | getRequest uuid => exact handleGetRequest_cases h
    | subscribeRequest uuid => exact handleSubscribeRequest_cases h
    | unsubscribeRequest uuid => exact handleUnsubscribeRequest_cases h
    | deleteRequest uuid => exact handleDeleteRequest_cases h
    | rpcRequest uuid param => exact handleRpcRequest_cases h
    | rpcAccept value => exact handleRpc_cases (.inl ⟨value, rfl⟩) h
    | rpcReject cause => exact handleRpc_cases (.inr ⟨cause, rfl⟩) h
    | hearbeatRequest spare =>
      cases h
      exact .hearbeat _ _ _
    | _ =>
      cases h
      exact .ignored _ _ _ trivial

end Inversion

/-! ## The effect on the state -/

/-- The two nodes differ at most in their data and listeners. -/
structure SameLinks (node node' : Node) : Prop where
  name : node'.name = node.name
  sessionId : node'.sessionId = node.sessionId
  parent : node'.parent = node.parent
  uuid : node'.uuid = node.uuid
  children : node'.children = node.children

/-- The state with another node object at an address. -/
def ProtocolHandler.setNode (s : ProtocolHandler) (a : Addr) (node : Node) : ProtocolHandler :=
  { s with heap := s.heap.insert a node }

/-- The effect of a completed step on the state. -/
inductive StateChange (s : ProtocolHandler) : ProtocolHandler → Prop
  | unchanged : StateChange s s
  | signin (c) : StateChange s (s.signin c)
  | create (parentUuid : UInt64) (p node name) (c : Conn) (sid) (hp : s.mTree[parentUuid]? = some p)
      (hc : s.mConnectionToSessionId[c]? = some sid) (hn : s.heap[p]? = some node)
      (ha : node.children[name]? = none) : StateChange s (s.insertNode p node name sid)
  | delete (uuid : UInt64) (a node p parent) (ha : s.mTree[uuid]? = some a) (hn : s.heap[a]? = some node)
      (hch : node.children.size = 0) (hp : node.parent = some p) (hpn : s.heap[p]? = some parent) :
      StateChange s (s.removeNode uuid a node p parent)
  | setNode (uuid : UInt64) (a node node') (ha : s.mTree[uuid]? = some a) (hn : s.heap[a]? = some node)
      (hsame : SameLinks node node') : StateChange s (s.setNode a node')
  | forwardRpc (sid t) : StateChange s (s.forwardRpc sid t)
  | takeTranslation (t) : StateChange s (s.takeTranslation t)
  | drop (c) : StateChange s (s.drop c)
  | disconnect (c sid session) (hc : s.mConnectionToSessionId[c]? = some sid)
      (hs : s.mSessions[sid]? = some session) : StateChange s ((s.drop c).signout c sid)

/-- What a step does to the state. -/
theorem StepResult.stateChange {s s' : ProtocolHandler} {e : Event} {o : List Output}
    (h : StepResult s e s' o) : StateChange s s' := by
  cases h with
  | signin => exact .signin _
  | create => exact .create _ _ _ _ _ _ ‹_› ‹_› ‹_› ‹_›
  | setValue _ _ _ _ a node _ ha hn => exact .setNode _ a node _ ha hn ⟨rfl, rfl, rfl, rfl, rfl⟩
  | subscribe _ _ _ a _ node ha _ hn => exact .setNode _ a node _ ha hn ⟨rfl, rfl, rfl, rfl, rfl⟩
  | unsubscribe _ _ _ a _ node _ ha _ hn =>
    exact .setNode _ a node _ ha hn ⟨rfl, rfl, rfl, rfl, rfl⟩
  | delete => exact .delete _ _ _ _ _ ‹_› ‹_› ‹_› ‹_› ‹_›
  | rpcForward => exact .forwardRpc _ _
  | replyNoSession => exact .takeTranslation _
  | reply => exact .takeTranslation _
  | disconnectUnknown => exact .drop _
  | disconnect => exact .disconnect _ _ _ ‹_› ‹_›
  | _ => exact .unchanged

end PropertyTree.Server
