import PropertyTree.Client.Mirror

/-!
# The threads of a client

`Client` of `client/src/Client.cpp`: the threads of the application, each of them inside one of the
API functions at most, and the thread of the reactor, which reads the messages of the server.  One
step is what a thread does under one lock, or between two of its calls to a function that can block:
`addTransaction` draws an id and then enters it and sends, `waitTransaction` takes the message and
then erases the entry, and what is done with the message comes after that.  Which thread goes next
is left open, and so is when a wait ends without an answer.
-/

namespace PropertyTree

/-- A message with the number of the request that led to it.  The number is not part of the program:
no step looks at it, and it serves to say which request a message answers. -/
structure Tagged where
  tag : ℕ
  message : PropertyTreeMessages
  deriving DecidableEq

/-- A frame on its way between a client and the server, numbered like its message. -/
structure Packet where
  tag : ℕ
  message : PropertyTreeMessage
  deriving DecidableEq

/-- The message of a packet without its transaction id. -/
def Packet.body (p : Packet) : Tagged :=
  ⟨p.tag, p.message.message⟩

namespace Client

/-- A thread of the application. -/
abbrev ThreadId := ℕ

/-- The functions of `Client` and `Property` that wait for an answer, with their arguments; `signin`
is the constructor, and `set` is both `Property::set` and `Property::operator=`. -/
inductive ApiCall where
  | signin
  | create (parent : Addr) (name : Name)
  | get (parent : Addr) (name : Name) (recursive : Bool)
  | set (node : Addr) (value : Buffer)
  | commit (node : Addr)
  | fetch (node : Addr)
  | subscribe (node : Addr)
  | unsubscribe (node : Addr)
  | destroy (node : Addr)
  | beat
  | call (node : Addr) (value : Buffer)
  deriving DecidableEq

/-- The exceptions an API call can end with. -/
inductive Failure where
  | transactionFailure
  | protocolError
  | signinFailure
  deriving DecidableEq

/-- How an API call ends: with a `Property`, which may hold no node, with a value, with an exception,
or by dereferencing an `end()` iterator or the first entry of an empty list. -/
inductive CallResult where
  | property (node : Option Addr)
  | bool (value : Bool)
  | bytes (value : Buffer)
  | void
  | threw (what : Failure)
  | fault
  deriving DecidableEq

/-- Where a call stands. -/
inductive Stage where
  /-- The request is built. -/
  | begun (request : PropertyTreeMessages)
  /-- The counter gave `0xFFFF`, so that it is asked once more. -/
  | skipping (request : PropertyTreeMessages)
  /-- The transaction id is drawn. -/
  | numbered (request : PropertyTreeMessages) (trId : UInt16)
  /-- The request is sent, as the one with this number. -/
  | waiting (trId : UInt16) (number : ℕ)
  /-- The wait has ended with a message; the entry is still in `mTransactions`. -/
  | taken (trId : UInt16) (number : ℕ) (response : Tagged)
  /-- `waitTransaction` has returned. -/
  | answered (number : ℕ) (response : Tagged)
  /-- `get` is inside `addNodes`, with these entries left. -/
  | adding (nodeToAddList todo : List NamedNode)
  deriving DecidableEq

/-- A thread inside an API function. -/
structure Thread where
  call : ApiCall
  stage : Stage
  deriving DecidableEq

/-- `Transaction`, without what it waits with. -/
structure Transaction where
  satisfied : Bool
  message : Tagged
  deriving DecidableEq

/-- A `Transaction` as it is constructed; its message is the first alternative of the choice. -/
def Transaction.new : Transaction :=
  ⟨false, 0, .signinRequest 0⟩

/-- Whether the constructor has returned and the destructor has run. -/
inductive Status where
  | constructing
  | running
  | closed
  deriving DecidableEq

end Client

open Client in
/-- `Client`.  `dataMutex` holds the locked `dataMutex`es with the threads that hold them, and
`reader` the update the reactor's thread is about to write under one of them.  `inbound` and
`outbound` are the two directions of its connection.  `deleted` and `results` only record what has
happened: the uuids of the deletions handled so far, and how the calls have ended. -/
structure Client where
  status : Status
  mirror : Mirror
  mTransactions : Std.ExtTreeMap UInt16 Transaction
  mTransactioIdCtr : UInt16
  threads : Std.ExtTreeMap ThreadId Thread
  dataMutex : Std.ExtTreeMap Addr ThreadId
  reader : Option (Addr × Buffer)
  inbound : List Packet
  outbound : List Packet
  deleted : List UInt64
  results : List (ThreadId × ApiCall × CallResult)

namespace Client

/-- A client whose constructor has just been entered, by thread 0. -/
def new : Client where
  status := .constructing
  mirror := .empty
  mTransactions := ∅
  mTransactioIdCtr := 0
  threads := (∅ : Std.ExtTreeMap ThreadId Thread).insert 0 ⟨.signin, .begun (.signinRequest 0)⟩
  dataMutex := ∅
  reader := none
  inbound := []
  outbound := []
  deleted := []
  results := []

namespace ApiCall

/-- The node object a call works on. -/
def node : ApiCall → Option Addr
  | signin | beat => none
  | create a _ | get a _ _ | set a _ | commit a | fetch a | subscribe a | unsubscribe a | destroy a
  | call a _ => some a

/-- The child `create` and the plain `get` find in the mirror, so that they send nothing. -/
def found (m : Mirror) : ApiCall → Option Addr
  | create a name | get a name false => (m.heap[a]?).bind fun node => node.children[name]?
  | _ => none

/-- The request a call on the node object `node` sends. -/
def request (node : Node) : ApiCall → PropertyTreeMessages
  | signin => .signinRequest 0
  | create _ name => .createRequest name node.uuid
  | get _ name recursive => .treeInfoRequest node.uuid name (if recursive then 1 else 0)
  | set _ _ | commit _ => .setValueRequest node.uuid node.data
  | fetch _ => .getRequest node.uuid
  | subscribe _ => .subscribeRequest node.uuid
  | unsubscribe _ => .unsubscribeRequest node.uuid
  | destroy _ => .deleteRequest node.uuid
  | beat => .hearbeatRequest 0
  | call _ value => .rpcRequest node.uuid value

/-- The object a call works on as it is now; `beat` works on none. -/
def object (m : Mirror) (call : ApiCall) : Option Node :=
  match call.node with
  | none => some (.make [] none 0)
  | some a => m.heap[a]?

/-- `set` gives its lock back when it is left. -/
def unlock (dataMutex : Std.ExtTreeMap Addr ThreadId) : ApiCall → Std.ExtTreeMap Addr ThreadId
  | set a _ => dataMutex.erase a
  | _ => dataMutex

end ApiCall

/-! ## API calls -/

/-- The call of thread `i` goes on to `stage`. -/
def setStage (k : Client) (i : ThreadId) (call : ApiCall) (stage : Stage) : Client :=
  { k with threads := k.threads.insert i ⟨call, stage⟩ }

/-- The call of thread `i` returns or throws. -/
def finish (k : Client) (i : ThreadId) (call : ApiCall) (result : CallResult) : Client :=
  { k with
    dataMutex := call.unlock k.dataMutex
    threads := k.threads.erase i
    results := k.results ++ [(i, call, result)] }

/-- An exception; the one that leaves the constructor ends the client. -/
def throw (k : Client) (i : ThreadId) (call : ApiCall) (what : Failure) : Client :=
  { k.finish i call (.threw what) with
    status := if call = .signin then .closed else k.status }

/-- `Property::set` and `operator=` lock the node's `dataMutex` and write the value. -/
def assign (k : Client) (i : ThreadId) : ApiCall → Option Client
  | .set a value =>
    if a ∈ k.dataMutex then none
    else some { k with
      dataMutex := k.dataMutex.insert a i
      mirror := k.mirror.modifyNode a fun node => { node with data := value } }
  | _ => some k

/-- Thread `i` enters an API function and goes on until `addTransaction`, unless it returns before
that. -/
def start (k : Client) (i : ThreadId) (call : ApiCall) : Option Client :=
  if k.status = .running ∧ i ∉ k.threads ∧ call ≠ .signin then
    match call.found k.mirror with
    | some a => some (k.finish i call (.property (some a)))
    | none =>
      match k.assign i call with
      | none => none
      | some k => (call.object k.mirror).map fun node => k.setStage i call (.begun (call.request node))
  else none

/-- `addTransaction` up to the id: `fetch_add`, and a second one after `0xFFFF`. -/
def fetchId (k : Client) (i : ThreadId) : Option Client :=
  let trId := k.mTransactioIdCtr
  let k' := { k with mTransactioIdCtr := trId + 1 }
  match k.threads[i]? with
  | some ⟨call, .begun q⟩ =>
    some (k'.setStage i call (if trId = notificationId then .skipping q else .numbered q trId))
  | some ⟨call, .skipping q⟩ => some (k'.setStage i call (.numbered q trId))
  | _ => none

/-- The rest of `addTransaction`, under `mTransactionsMutex`: `mTransactions.emplace` and `send`, which
here does not throw.  The request is the one with number `number`. -/
def send (k : Client) (i : ThreadId) (number : ℕ) : Option (Client × List Packet) :=
  match k.threads[i]? with
  | some ⟨call, .numbered q trId⟩ =>
    some ({ k with mTransactions := k.mTransactions.insertIfNew trId .new }.setStage i call
      (.waiting trId number), [⟨number, trId, q⟩])
  | _ => none

/-- `waitTransaction` ends its wait with the message of a satisfied transaction.  It keeps the reference
to its entry from before the wait, where the entry is looked up here: the two are the same unless another
call under the same id has erased the entry, after which the program uses a destroyed `Transaction`. -/
def take (k : Client) (i : ThreadId) : Option Client :=
  match k.threads[i]? with
  | some ⟨call, .waiting trId number⟩ =>
    match k.mTransactions[trId]? with
    | some ⟨true, response⟩ => some (k.setStage i call (.taken trId number response))
    | _ => none
  | _ => none

/-- `waitTransaction` ends its wait without one, and throws; the entry is looked up as in `take`. -/
def timeout (k : Client) (i : ThreadId) : Option Client :=
  match k.threads[i]? with
  | some ⟨call, .waiting trId _⟩ =>
    match k.mTransactions[trId]? with
    | some ⟨true, _⟩ => none
    | _ => some (k.throw i call .transactionFailure)
  | _ => none

/-- `waitTransaction` erases the entry and returns the message. -/
def erase (k : Client) (i : ThreadId) : Option Client :=
  match k.threads[i]? with
  | some ⟨call, .taken trId number response⟩ =>
    some ({ k with mTransactions := k.mTransactions.erase trId }.setStage i call
      (.answered number response))
  | _ => none

/-- The node that an uuid is registered with, as the `Property` of a finished call. -/
def property (k : Client) (uuid : UInt64) : CallResult :=
  .property k.mirror.mTree[uuid]?

/-- What the function `call` does with the message `waitTransaction` has returned.  `fetch` waits
for the node's `dataMutex`, and `get` has its entries still to add. -/
def respond (k : Client) (i : ThreadId) (call : ApiCall) (m : PropertyTreeMessages) :
    Option Client :=
  match call, m with
  | .signin, .signinAccept _ =>
    some ({ k with status := .running, mirror := k.mirror.emplaceRoot }.finish i call .void)
  | .signin, _ => some (k.throw i call .signinFailure)
  | .create _ _, .createReject _ => some (k.finish i call (.property (call.found k.mirror)))
  | .create a name, .createAccept uuid =>
    let k := { k with mirror := k.mirror.createNode a name uuid }
    some (k.finish i call (k.property uuid))
  | .get _ _ _, .treeInfoResponse nodeToAddList =>
    some (k.setStage i call (.adding nodeToAddList nodeToAddList))
  | .get _ _ _, .treeInfoErrorResponse _ => some (k.finish i call (.property none))
  | .set _ _, .setValueAccept _ => some (k.finish i call .void)
  | .commit _, .setValueAccept _ => some (k.finish i call .void)
  | .fetch a, .getAccept data =>
    if a ∈ k.dataMutex then none
    else some ({ k with
      mirror := k.mirror.modifyNode a fun node => { node with data := data } }.finish i call .void)
  | .fetch _, .getReject _ => some (k.finish i call .void)
  | .subscribe _, .subscribeResponse cause => some (k.finish i call (.bool (cause = .ok)))
  | .unsubscribe _, .unsubscribeResponse cause => some (k.finish i call (.bool (cause = .ok)))
  | .destroy a, .deleteResponse cause =>
    if cause = .ok then
      some ({ k with mirror := k.mirror.destroyNode a }.finish i call (.bool true))
    else some (k.finish i call (.bool false))
  | .beat, .hearbeatResponse _ => some (k.finish i call .void)
  | .call _ _, .rpcAccept value => some (k.finish i call (.bytes value))
  | _, _ => some (k.throw i call .protocolError)

/-- What `get` returns once the entries are added: `pParent` itself, or the node of the first entry,
which is looked up without a test. -/
def found (k : Client) (call : ApiCall) (nodeToAddList : List NamedNode) : CallResult :=
  match call with
  | .get a name _ =>
    if name = selfName then .property (some a)
    else match nodeToAddList with
      | [] => .fault
      | i :: _ =>
        match k.mirror.mTree[i.uuid]? with
        | none => .fault
        | some b => .property (some b)
  | _ => .fault

/-- One step of what follows `waitTransaction`: the response is looked at, or `addNodes` adds one
entry, or `get` returns. -/
def proceed (k : Client) (i : ThreadId) : Option Client :=
  match k.threads[i]? with
  | some ⟨call, .answered _ response⟩ => k.respond i call response.message
  | some ⟨call, .adding nodeToAddList (j :: todo)⟩ =>
    some ({ k with mirror := k.mirror.addNode j }.setStage i call (.adding nodeToAddList todo))
  | some ⟨call, .adding nodeToAddList []⟩ =>
    some (k.finish i call (k.found call nodeToAddList))
  | _ => none

/-! ## The reader -/

/-- What `Client::handle(RpcRequest)` answers. -/
def rpcReply (k : Client) (uuid : UInt64) (param : Buffer) : PropertyTreeMessages :=
  match k.mirror.mTree[uuid]? with
  | none => .rpcReject .notFound
  | some a =>
    match (k.mirror.heap[a]?).bind Node.rcpHandler with
    | none => .rpcReject .noHandler
    | some rcpHandler => .rpcAccept (rcpHandler param)

/-- The handlers of the messages that belong to no transaction; only three are not empty.  The
update handler waits for the node's `dataMutex`. -/
def dispatch (k : Client) (p : Packet) : Client × List Packet :=
  match p.message.message with
  | .treeUpdateNotification nodeToAddList nodeToDelete =>
    ({ k with
      mirror := k.mirror.handleTreeUpdateNotification nodeToAddList nodeToDelete
      deleted := k.deleted ++ nodeToDelete }, [])
  | .updateNotification uuid data =>
    ({ k with reader := (k.mirror.mTree[uuid]?).map fun a => (a, data) }, [])
  | .rpcRequest uuid param => (k, [⟨p.tag, p.message.transactionId, k.rpcReply uuid param⟩])
  | _ => (k, [])

/-- `Client::handle(PropertyTreeMessage)`: a message whose id is in `mTransactions` satisfies that
transaction, and every other one goes to its handler. -/
def handle (k : Client) (p : Packet) : Client × List Packet :=
  match k.mTransactions[p.message.transactionId]? with
  | some _ =>
    ({ k with mTransactions := k.mTransactions.insert p.message.transactionId ⟨true, p.body⟩ }, [])
  | none => k.dispatch p

/-- The reader takes the next message, unless it still waits for a `dataMutex`. -/
def read (k : Client) : Option (Client × List Packet) :=
  match k.reader, k.inbound with
  | none, p :: inbound => some ({ k with inbound := inbound }.handle p)
  | _, _ => none

/-- The rest of `Client::handle(UpdateNotification)`: the data is written under the node's
`dataMutex`, and the update handler is called. -/
def update (k : Client) : Option Client :=
  match k.reader with
  | none => none
  | some (a, data) =>
    if a ∈ k.dataMutex then none
    else
      some { k with
        reader := none
        mirror := (k.mirror.modifyNode a fun node => { node with data := data }).callUpdate a }

/-! ## Handlers, objects and the end -/

/-- The setters for the application's handlers. -/
inductive Setup where
  | setTreeAddHandler (handler : Bool)
  | setTreeRemoveHandler (handler : Bool)
  | setHRcpHandler (node : Addr) (handler : Option (Buffer → Buffer))
  | setUpdateHandler (node : Addr) (handler : Bool)

/-- The mirror with a handler set. -/
def Setup.apply (m : Mirror) : Setup → Mirror
  | setTreeAddHandler handler => { m with mTreeAddHandler := handler }
  | setTreeRemoveHandler handler => { m with mTreeRemoveHandler := handler }
  | setHRcpHandler a handler => m.modifyNode a fun node => { node with rcpHandler := handler }
  | setUpdateHandler a handler => m.modifyNode a fun node => { node with updateHandler := handler }

/-- A handler is set, on a client that is constructed. -/
def setup (k : Client) (s : Setup) : Option Client :=
  if k.status = .running then some { k with mirror := s.apply k.mirror } else none

/-- Whether a thread of the client holds the object at `a`. -/
def uses (k : Client) (a : Addr) : Bool :=
  (k.threads.toList.any fun e => e.2.call.node == some a) ||
    (k.reader.map Prod.fst == some a)

/-- The last `shared_ptr` to an object goes away. -/
def free (k : Client) (a : Addr) : Option Client :=
  if k.mirror.isReferenced a || k.uses a then none
  else some { k with mirror := k.mirror.free a }

/-- `Client::~Client`. -/
def close (k : Client) : Option Client :=
  if k.status = .running ∧ k.threads.isEmpty then some { k with status := .closed } else none

/-! ## Steps -/

/-- The steps of a client. -/
inductive Action where
  | start (i : ThreadId) (call : ApiCall)
  | fetchId (i : ThreadId)
  | send (i : ThreadId)
  | take (i : ThreadId)
  | timeout (i : ThreadId)
  | erase (i : ThreadId)
  | proceed (i : ThreadId)
  | read
  | update
  | setup (s : Setup)
  | free (a : Addr)
  | close

/-- One step of a client, with what it sends; `number` is the number its next request gets. -/
def step (k : Client) (number : ℕ) (a : Action) : Option (Client × List Packet) :=
  if k.status = .closed then none
  else match a with
    | .start i call => (k.start i call).map fun k => (k, [])
    | .fetchId i => (k.fetchId i).map fun k => (k, [])
    | .send i => k.send i number
    | .take i => (k.take i).map fun k => (k, [])
    | .timeout i => (k.timeout i).map fun k => (k, [])
    | .erase i => (k.erase i).map fun k => (k, [])
    | .proceed i => (k.proceed i).map fun k => (k, [])
    | .read => k.read
    | .update => k.update.map fun k => (k, [])
    | .setup s => (k.setup s).map fun k => (k, [])
    | .free a => (k.free a).map fun k => (k, [])
    | .close => k.close.map fun k => (k, [])

end Client

end PropertyTree
