import PropertyTree.Library.Effect
import PropertyTree.System.Model

/-!
# The monitor's use of its client

The commands of `monitor/src/main.cpp` run on one thread, one after the other, and are written here in
the same way, as programs over a `Session`: the server, and the monitor's client as it is between two
of its API calls.  A call sends its request, has it handled, and takes the response when the reader
has come to it.  The reader is a thread of its own: at every access of the caller to the mirror, and
before and after every wait, it may have handled any number of the messages that have arrived, which
`reader` says.  The tree-add handler that `Monitor` sets runs on the thread that changes the mirror; it
queues nodes for a third thread, the worker, whose turns are programs like the commands.
-/

namespace PropertyTree.Monitor

open Library Server Client

/-- What ends a command before its end. -/
inductive Failure where
  /-- The server has run into undefined behaviour. -/
  | server (what : Server.Fault)
  /-- An exception of an API function. -/
  | threw (what : Client.Failure)
  /-- A `Property` without a node, an `end()` iterator or the first entry of an empty list is
  dereferenced. -/
  | fault
  /-- A loop is still running after its fuel. -/
  | outOfFuel
  deriving DecidableEq

/-- The monitor with its client on `connection`, and the server.  `reader n` is the number of messages
the reader handles at the `n`-th of the following points, `dataMutex` the node whose mutex the caller
holds.  `requests` and `destroyed` only record what the commands have done: the requests sent, and
the calls of `Client::destroy` with what they returned. -/
structure Session where
  connection : Conn
  server : ProtocolHandler
  terminated : Bool
  mirror : Mirror
  mTransactioIdCtr : UInt16
  inbound : List PropertyTreeMessage
  dataMutex : Option Addr
  reader : ℕ → ℕ
  mAutowatch : Bool
  /-- The nodes the worker has still to subscribe to. -/
  mToSubscribe : List Addr
  requests : List PropertyTreeMessages
  destroyed : List (UInt64 × Bool)

/-- A command, or a function it calls. -/
abbrev Command (α : Type) := Program Session Failure α

/-! ## The tree-add handler -/

/-- The nodes a tree-add handler has been called with. -/
def treeAdds (calls : List HandlerCall) : List Addr :=
  calls.filterMap fun call =>
    match call with
    | .treeAdd a => some a
    | _ => none

/-- The mirror changes, and the tree-add handler does its work for each new call: while autowatch is on
it puts the node into `mToSubscribe`. -/
def Session.updateMirror (σ : Session) (m : Mirror) : Session :=
  { σ with
    mirror := m
    mToSubscribe := σ.mToSubscribe ++
      if σ.mAutowatch then treeAdds (m.calls.drop σ.mirror.calls.length) else [] }

/-! ## The reader -/

/-- The handlers of the messages that belong to no transaction.  The monitor answers no RPC and
nobody else is there to ask for one. -/
def dispatch (m : Mirror) (p : PropertyTreeMessage) : Mirror :=
  match p.message with
  | .treeUpdateNotification nodeToAddList nodeToDelete =>
    m.handleTreeUpdateNotification nodeToAddList nodeToDelete
  | .updateNotification uuid data =>
    match m.mTree[uuid]? with
    | none => m
    | some a => (m.modifyNode a fun node => { node with data := data }).callUpdate a
  | _ => m

namespace Session

/-- Whether the reader has to wait for the `dataMutex` the caller holds. -/
def blocks (dataMutex : Option Addr) (m : Mirror) (p : PropertyTreeMessage) : Bool :=
  match p.message, dataMutex with
  | .updateNotification uuid _, some a => m.mTree[uuid]? == some a
  | _, _ => false

/-- The reader handles the next message. -/
def read (σ : Session) : Session :=
  match σ.inbound with
  | [] => σ
  | p :: inbound =>
    if blocks σ.dataMutex σ.mirror p then σ
    else { σ.updateMirror (dispatch σ.mirror p) with inbound := inbound }

/-- The reader handles up to `n` messages. -/
def reads (σ : Session) : ℕ → Session
  | 0 => σ
  | n + 1 => σ.read.reads n

/-- The reader goes on until the response to the transaction `trId`: the mirror and the queue then,
and the response. -/
def satisfy (trId : UInt16) (dataMutex : Option Addr) :
    Mirror → List PropertyTreeMessage →
      Option (Mirror × List PropertyTreeMessage × PropertyTreeMessages)
  | _, [] => none
  | m, p :: inbound =>
    if p.transactionId = trId then some (m, inbound, p.message)
    else if blocks dataMutex m p then none
    else satisfy trId dataMutex (dispatch m p) inbound

end Session

/-- The session as it is now. -/
def session : Command Session :=
  get

/-- A point at which the reader may go on. -/
def pause : Command Unit :=
  modify fun σ => { σ.reads (σ.reader 0) with reader := fun n => σ.reader (n + 1) }

/-! ## Transactions -/

/-- The id `Client::addTransaction` draws, which is never `0xFFFF`. -/
def fetchId : Command UInt16 := do
  let trId := (← session).mTransactioIdCtr
  if trId = notificationId then
    modify fun σ => { σ with mTransactioIdCtr := trId + 2 }
    return trId + 1
  else
    modify fun σ => { σ with mTransactioIdCtr := trId + 1 }
    return trId

/-- The server handles the request, unless it has been terminated. -/
def serve (trId : UInt16) (request : PropertyTreeMessages) : Command Unit := do
  let σ ← session
  if σ.terminated then return ()
  match σ.server.step (.message σ.connection ⟨trId, request⟩) with
  | .error f => throw (.server f)
  | .ok (server, o) =>
    modify fun σ => { σ with
      server := server
      terminated := o.contains .terminate
      inbound := σ.inbound ++ System.sentTo σ.connection o }

/-- `Client::waitTransaction`. -/
def waitTransaction (trId : UInt16) : Command PropertyTreeMessages := do
  let σ ← session
  match Session.satisfy trId σ.dataMutex σ.mirror σ.inbound with
  | none => throw (.threw .transactionFailure)
  | some (m, inbound, response) =>
    modify fun σ => { σ.updateMirror m with inbound := inbound }
    return response

/-- `Client::addTransaction` and `Client::waitTransaction`. -/
def transact (request : PropertyTreeMessages) : Command PropertyTreeMessages := do
  pause
  let trId ← fetchId
  modify fun σ => { σ with requests := σ.requests ++ [request] }
  serve trId request
  let response ← waitTransaction trId
  pause
  return response

/-! ## `Client` and `Property` -/

/-- The node of a `Property`, which is dereferenced without a test. -/
def deref (prop : Option Addr) : Command Addr :=
  match prop with
  | none => throw .fault
  | some a => return a

/-- `*pProp.node()` as it is now. -/
def object (a : Addr) : Command Client.Node := do
  pause
  match (← session).mirror.heap[a]? with
  | none => throw .fault
  | some node => return node

/-- `Client::root`. -/
def root : Command Addr := do
  pause
  match (← session).mirror.mTree[(0 : UInt64)]? with
  | none => throw .fault
  | some a => return a

/-- `Client::create`. -/
def create (parent : Addr) (name : Name) : Command (Option Addr) := do
  let node ← object parent
  match node.children[name]? with
  | some a => return some a
  | none =>
    match ← transact (.createRequest name node.uuid) with
    | .createReject _ => return (← object parent).children[name]?
    | .createAccept uuid =>
      modify fun σ => { σ with mirror := σ.mirror.createNode parent name uuid }
      return (← session).mirror.mTree[uuid]?
    | _ => throw (.threw .protocolError)

/-- `Client::addNodes` on the caller's thread; each entry is added under a lock of its own. -/
def addNodes : List NamedNode → Command Unit
  | [] => return ()
  | i :: nodeList => do
    pause
    modify fun σ => σ.updateMirror (σ.mirror.addNode i)
    addNodes nodeList

/-- `Client::get`. -/
def get (parent : Addr) (name : Name) (recursive : Bool) : Command (Option Addr) := do
  let node ← object parent
  match if recursive then none else node.children[name]? with
  | some a => return some a
  | none =>
    match ← transact (.treeInfoRequest node.uuid name (if recursive then 1 else 0)) with
    | .treeInfoResponse nodeToAddList =>
      addNodes nodeToAddList
      if name = selfName then return some parent
      match nodeToAddList with
      | [] => throw .fault
      | i :: _ =>
        pause
        match (← session).mirror.mTree[i.uuid]? with
        | none => throw .fault
        | some a => return some a
    | .treeInfoErrorResponse _ => return none
    | _ => throw (.threw .protocolError)

/-- `Client::commit`. -/
def commit (prop : Addr) : Command Unit := do
  let node ← object prop
  match ← transact (.setValueRequest node.uuid node.data) with
  | .setValueAccept _ => return ()
  | _ => throw (.threw .protocolError)

/-- `Property::set`, which holds the node's `dataMutex` until it returns or throws. -/
def set (prop : Addr) (value : Buffer) : Command Unit := do
  pause
  modify fun σ => { σ with
    dataMutex := some prop
    mirror := σ.mirror.modifyNode prop fun node => { node with data := value } }
  try
    commit prop
  finally
    modify fun σ => { σ with dataMutex := none }

/-- `Client::fetch`. -/
def fetch (prop : Addr) : Command Unit := do
  let node ← object prop
  match ← transact (.getRequest node.uuid) with
  | .getAccept data =>
    modify fun σ => { σ with
      mirror := σ.mirror.modifyNode prop fun node => { node with data := data } }
  | .getReject _ => return ()
  | _ => throw (.threw .protocolError)

/-- `Client::subscribe`. -/
def subscribe (prop : Addr) : Command Bool := do
  let node ← object prop
  match ← transact (.subscribeRequest node.uuid) with
  | .subscribeResponse cause => return cause = .ok
  | _ => throw (.threw .protocolError)

/-- `Client::unsubscribe`. -/
def unsubscribe (prop : Addr) : Command Bool := do
  let node ← object prop
  match ← transact (.unsubscribeRequest node.uuid) with
  | .unsubscribeResponse cause => return cause = .ok
  | _ => throw (.threw .protocolError)

/-- The return of `Client::destroy`. -/
def recordDestroy (uuid : UInt64) (result : Bool) : Command Bool := do
  modify fun σ => { σ with destroyed := σ.destroyed ++ [(uuid, result)] }
  return result

/-- `Client::destroy`. -/
def destroy (prop : Addr) : Command Bool := do
  let node ← object prop
  match ← transact (.deleteRequest node.uuid) with
  | .deleteResponse cause =>
    if cause ≠ .ok then recordDestroy node.uuid false
    else
      modify fun σ => { σ with mirror := σ.mirror.destroyNode prop }
      recordDestroy node.uuid true
  | _ => throw (.threw .protocolError)

/-- `Property::loadChildren`. -/
def loadChildren (prop : Addr) (recursive : Bool) : Command Unit :=
  discard (get prop selfName recursive)

/-- `Property::children`. -/
def children (prop : Addr) : Command (List (Name × Addr)) :=
  return (← object prop).children.toList

/-- `Property::childrenSize`. -/
def childrenSize (prop : Addr) : Command ℕ :=
  return (← object prop).children.size

/-- `Property::raw`. -/
def raw (prop : Addr) : Command Buffer :=
  return (← object prop).data

/-- `Property::setUpdateHandler`. -/
def setUpdateHandler (prop : Addr) : Command Unit :=
  modify fun σ => { σ with
    mirror := (Setup.setUpdateHandler prop true).apply σ.mirror }

/-! ## The worker -/

/-- The loop of the worker over the nodes it has taken. -/
def subscribeTo : List Addr → Command Unit
  | [] => return ()
  | prop :: tosub => do
    discard (subscribe prop)
    setUpdateHandler prop
    subscribeTo tosub

/-- A turn of the worker: it takes what is queued and subscribes to it. -/
def mToSubscribeWorker : Command Unit := do
  let tosub := (← session).mToSubscribe
  modify fun σ => { σ with mToSubscribe := [] }
  subscribeTo tosub

end PropertyTree.Monitor
