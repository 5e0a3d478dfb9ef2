import PropertyTree.Protocol

/-!
# The client's mirror of the tree

`Node` of `client/src/Node.hpp` and the part of `Client` that `mTreeMutex` and the nodes' own mutexes
guard, with the functions that change it.  As on the server a `std::shared_ptr<Node>` is an address
and `std::weak_ptr::lock` a lookup in the heap.  `Property` objects of the application may keep an
object alive that the mirror no longer refers to, so that objects are not destroyed here but by
`free`, at any later time at which nothing in the mirror refers to them.
-/

namespace PropertyTree.Client

/-- `Node` of `client/src/Node.hpp`; of the update handler only its presence matters here. -/
structure Node where
  name : Name
  data : Buffer
  /-- `std::map<std::string, std::shared_ptr<Node>>`. -/
  children : Std.ExtTreeMap Name Addr
  rcpHandler : Option (Buffer → Buffer)
  updateHandler : Bool
  /-- `std::weak_ptr<Node> parent`. -/
  parent : Option Addr
  uuid : UInt64

/-- `Node::Node`. -/
def Node.make (name : Name) (parent : Option Addr) (uuid : UInt64) : Node where
  name := name
  data := []
  children := ∅
  rcpHandler := none
  updateHandler := false
  parent := parent
  uuid := uuid

/-- A call of one of the application's handlers, with the node it is passed. -/
inductive HandlerCall where
  | treeAdd (node : Addr)
  | treeRemove (node : Addr)
  | update (node : Addr)
  deriving DecidableEq, Repr

/-- The mirror: `Client::mTree`, the node objects, and the handlers with the calls made to them. -/
structure Mirror where
  mTree : Std.ExtTreeMap UInt64 Addr
  heap : Std.ExtTreeMap Addr Node
  nextAddr : Addr
  mTreeAddHandler : Bool
  mTreeRemoveHandler : Bool
  calls : List HandlerCall

namespace Mirror

/-- The mirror before the constructor has signed in. -/
def empty : Mirror where
  mTree := ∅
  heap := ∅
  nextAddr := 0
  mTreeAddHandler := false
  mTreeRemoveHandler := false
  calls := []

/-- `std::weak_ptr<Node>::lock`. -/
def lock (m : Mirror) (w : Option Addr) : Option Addr :=
  w.filter m.heap.contains

/-- `std::make_shared<Node>` into a local variable. -/
def makeNode (m : Mirror) (name : Name) (parent : Option Addr) (uuid : UInt64) : Mirror :=
  { m with
    heap := m.heap.insert m.nextAddr (.make name parent uuid)
    nextAddr := m.nextAddr + 1 }

/-- `mTree.emplace`. -/
def emplace (m : Mirror) (uuid : UInt64) (a : Addr) : Mirror :=
  { m with mTree := m.mTree.insertIfNew uuid a }

/-- A change of the node object at `a`. -/
def modifyNode (m : Mirror) (a : Addr) (f : Node → Node) : Mirror :=
  { m with heap := m.heap.modify a f }

/-- `parent->children[name] = node`. -/
def link (m : Mirror) (p : Addr) (name : Name) (a : Addr) : Mirror :=
  m.modifyNode p fun parent => { parent with children := parent.children.insert name a }

/-- `parent->children.emplace(name, node)`. -/
def linkIfNew (m : Mirror) (p : Addr) (name : Name) (a : Addr) : Mirror :=
  m.modifyNode p fun parent => { parent with children := parent.children.insertIfNew name a }

/-- `parent->children.erase(name)`. -/
def unlink (m : Mirror) (p : Addr) (name : Name) : Mirror :=
  m.modifyNode p fun parent => { parent with children := parent.children.erase name }

/-- The call of `mTreeAddHandler`, if it is set. -/
def callTreeAdd (m : Mirror) (a : Addr) : Mirror :=
  if m.mTreeAddHandler then { m with calls := m.calls ++ [.treeAdd a] } else m

/-- The call of `mTreeRemoveHandler`, if it is set. -/
def callTreeRemove (m : Mirror) (a : Addr) : Mirror :=
  if m.mTreeRemoveHandler then { m with calls := m.calls ++ [.treeRemove a] } else m

/-- The call of the node's `updateHandler`, if it is set. -/
def callUpdate (m : Mirror) (a : Addr) : Mirror :=
  if ((m.heap[a]?).map Node.updateHandler).getD false then
    { m with calls := m.calls ++ [.update a] }
  else m

/-- The constructor's `mTree.emplace(0, root)`; where uuid 0 is already known the new root is
destroyed again. -/
def emplaceRoot (m : Mirror) : Mirror :=
  match m.mTree[(0 : UInt64)]? with
  | some _ => m
  | none => (m.makeNode [] none 0).emplace 0 m.nextAddr

/-! ## `addNodes` and `removeNodes` -/

/-- The placeholder `addNodes` makes for an unknown parent. -/
def ghost (m : Mirror) (u : UInt64) : Mirror :=
  (m.makeNode ghostName none u).emplace u m.nextAddr

/-- The parent an entry names, or a new placeholder for it. -/
def parentOrGhost (m : Mirror) (parentUuid : UInt64) : Mirror × Addr :=
  match m.mTree[parentUuid]? with
  | some p => (m, p)
  | none => (m.ghost parentUuid, m.nextAddr)

/-- The branch of `addNodes` for a uuid that is in `mTree`. -/
def fillNode (m : Mirror) (a p : Addr) (name : Name) : Mirror :=
  let oldParent := (m.heap[a]?).bind Node.parent
  let m := (m.modifyNode a fun node => { node with name := name, parent := some p }).link p name a
  if m.lock oldParent = none then m.callTreeAdd a else m

/-- The branch of `addNodes` for a uuid that is not in `mTree`. -/
def insertNode (m : Mirror) (p : Addr) (name : Name) (uuid : UInt64) : Mirror :=
  let a := m.nextAddr
  (((m.makeNode name (some p) uuid).emplace uuid a).link p name a).callTreeAdd a

/-- The loop body of `Client::addNodes`: `nodeIt` is looked up before a placeholder is made. -/
def addNode (m : Mirror) (i : NamedNode) : Mirror :=
  let nodeIt := m.mTree[i.uuid]?
  let (m, p) := m.parentOrGhost i.parentUuid
  match nodeIt with
  | some a => m.fillNode a p i.name
  | none => m.insertNode p i.name i.uuid

/-- `Client::addNodes`. -/
def addNodes (m : Mirror) (nodeList : List NamedNode) : Mirror :=
  nodeList.foldl addNode m

/-- The loop body of `Client::removeNodes`. -/
def removeNode (m : Mirror) (i : UInt64) : Mirror :=
  match m.mTree[i]? with
  | none => m
  | some a =>
    let m := m.callTreeRemove a
    let m := match m.heap[a]? with
      | none => m
      | some node =>
        match m.lock node.parent with
        | none => m
        | some parent => m.unlink parent node.name
    { m with mTree := m.mTree.erase i }

/-- `Client::removeNodes`. -/
def removeNodes (m : Mirror) (nodes : List UInt64) : Mirror :=
  nodes.foldl removeNode m

/-- `Client::handle(TreeUpdateNotification)`. -/
def handleTreeUpdateNotification (m : Mirror) (nodeToAddList : List NamedNode)
    (nodeToDelete : List UInt64) : Mirror :=
  (m.addNodes nodeToAddList).removeNodes nodeToDelete

/-! ## The completion of API calls -/

/-- What `Client::create` does with a `CreateAccept`: nothing when the notification came first, and
otherwise a new node is put into `mTree` and into the parent's children map. -/
def createNode (m : Mirror) (p : Addr) (name : Name) (uuid : UInt64) : Mirror :=
  match m.mTree[uuid]? with
  | some _ => m
  | none =>
    let a := m.nextAddr
    ((m.makeNode name (some p) uuid).emplace uuid a).linkIfNew p name a

/-- What `Client::destroy` does after an OK: the name of the destroyed node is erased from its
parent's children map. -/
def destroyNode (m : Mirror) (a : Addr) : Mirror :=
  match m.heap[a]? with
  | none => m
  | some node =>
    match m.lock node.parent with
    | none => m
    | some parent => m.unlink parent node.name

/-! ## The end of an object -/

/-- Whether `mTree` or the children map of some object refers to the object at `a`. -/
def isReferenced (m : Mirror) (a : Addr) : Bool :=
  (m.mTree.toList.any fun e => e.2 == a) ||
    m.heap.toList.any fun e => e.2.children.toList.any fun e' => e'.2 == a

/-- The object at `a` is destroyed. -/
def free (m : Mirror) (a : Addr) : Mirror :=
  { m with heap := m.heap.erase a }

/-! ## What the primitive changes do -/

section Lemmas

variable {m : Mirror}

/-- Locking a weak pointer succeeds on the objects of the heap. -/
theorem lock_eq_some_iff {w : Option Addr} {a : Addr} :
    m.lock w = some a ↔ w = some a ∧ ∃ n : Node, m.heap[a]? = some n := by
  cases w with
  | none => simp [lock]
  | some b =>
    simp only [lock, Option.filter_some, Std.ExtTreeMap.contains_iff_mem]
    constructor
    · intro h
      split_ifs at h with hb
      cases h
      exact ⟨rfl, _, Std.ExtTreeMap.getElem?_eq_some_getElem hb⟩
    · rintro ⟨hab, n, hn⟩
      grind

/-- Locking fails when there is no pointer or its object is gone. -/
theorem lock_eq_none_iff {w : Option Addr} :
    m.lock w = none ↔ ∀ a, w = some a → m.heap[a]? = none := by
  cases w with
  | none => simp [lock]
  | some b =>
    simp only [lock, Option.filter_some]
    grind

@[simp] theorem modifyNode_mTree (a : Addr) (f : Node → Node) :
    (m.modifyNode a f).mTree = m.mTree := rfl

@[simp] theorem modifyNode_nextAddr (a : Addr) (f : Node → Node) :
    (m.modifyNode a f).nextAddr = m.nextAddr := rfl

/-- The heap after a change of one object. -/
theorem modifyNode_heap (a : Addr) (f : Node → Node) (x : Addr) :
    (m.modifyNode a f).heap[x]? = if x = a then (m.heap[x]?).map f else m.heap[x]? := by
  simp only [modifyNode]
  grind

@[simp] theorem link_mTree (p : Addr) (name : Name) (a : Addr) :
    (m.link p name a).mTree = m.mTree := rfl

@[simp] theorem link_nextAddr (p : Addr) (name : Name) (a : Addr) :
    (m.link p name a).nextAddr = m.nextAddr := rfl

@[simp] theorem unlink_mTree (p : Addr) (name : Name) : (m.unlink p name).mTree = m.mTree := rfl

@[simp] theorem unlink_nextAddr (p : Addr) (name : Name) :
    (m.unlink p name).nextAddr = m.nextAddr := rfl

@[simp] theorem callTreeAdd_mTree (a : Addr) : (m.callTreeAdd a).mTree = m.mTree := by
  unfold callTreeAdd; split <;> rfl

@[simp] theorem callTreeAdd_heap (a : Addr) : (m.callTreeAdd a).heap = m.heap := by
  unfold callTreeAdd; split <;> rfl

@[simp] theorem callTreeAdd_nextAddr (a : Addr) : (m.callTreeAdd a).nextAddr = m.nextAddr := by
  unfold callTreeAdd; split <;> rfl

@[simp] theorem callTreeRemove_mTree (a : Addr) : (m.callTreeRemove a).mTree = m.mTree := by
  unfold callTreeRemove; split <;> rfl

@[simp] theorem callTreeRemove_heap (a : Addr) : (m.callTreeRemove a).heap = m.heap := by
  unfold callTreeRemove; split <;> rfl

@[simp] theorem callTreeRemove_nextAddr (a : Addr) :
    (m.callTreeRemove a).nextAddr = m.nextAddr := by
  unfold callTreeRemove; split <;> rfl

@[simp] theorem callUpdate_mTree (a : Addr) : (m.callUpdate a).mTree = m.mTree := by
  unfold callUpdate; split <;> rfl

@[simp] theorem callUpdate_heap (a : Addr) : (m.callUpdate a).heap = m.heap := by
  unfold callUpdate; split <;> rfl

@[simp] theorem callUpdate_nextAddr (a : Addr) : (m.callUpdate a).nextAddr = m.nextAddr := by
  unfold callUpdate; split <;> rfl

/-- An object is referred to when an entry of `mTree` or of a children map leads to it. -/
theorem isReferenced_iff {a : Addr} :
    m.isReferenced a = true ↔ (∃ u : UInt64, m.mTree[u]? = some a) ∨
      ∃ (p : Addr) (pn : Node) (name : Name), m.heap[p]? = some pn ∧
        pn.children[name]? = some a := by
  simp only [isReferenced, Bool.or_eq_true, List.any_eq_true, Prod.exists, beq_iff_eq,
    Std.ExtTreeMap.mem_toList_iff_getElem?_eq_some, exists_eq_right, exists_and_left]

end Lemmas

/-! ## The effect of one entry -/

section Effect

variable {m : Mirror} {i : NamedNode} {a p : Addr} {n pn : Node}

/-- The mirror `m'` is `m` with the node `n` put at `a` under the uuid `u`, named `name` and linked
below the object `pn` at `p`; nothing else is touched. -/
structure Attached (m : Mirror) (name : Name) (u : UInt64) (p : Addr) (pn : Node) (a : Addr)
    (n : Node) (m' : Mirror) : Prop where
  mTree : ∀ v : UInt64, m'.mTree[v]? = if v = u then some a else m.mTree[v]?
  heap : ∀ x : Addr, m'.heap[x]? =
    if x = a then some { n with name := name, parent := some p }
    else if x = p then some { pn with children := pn.children.insert name a }
    else m.heap[x]?
  nextAddr : m'.nextAddr = max m.nextAddr (a + 1)

/-- An entry whose uuid is unknown and whose parent is known attaches a new node. -/
theorem addNode_of_unknown (hu : m.mTree[i.uuid]? = none) (hp : m.mTree[i.parentUuid]? = some p)
    (hpn : m.heap[p]? = some pn) (hlt : p < m.nextAddr) :
    Attached m i.name i.uuid p pn m.nextAddr (.make i.name (some p) i.uuid) (m.addNode i) where
  mTree := by
    intro v
    simp only [addNode, parentOrGhost, hp, hu, insertNode, callTreeAdd_mTree, link_mTree, emplace,
      makeNode]
    grind
  heap := by
    intro x
    simp only [addNode, parentOrGhost, hp, hu, insertNode, callTreeAdd_heap]
    simp only [link, modifyNode_heap, emplace, makeNode]
    grind [Node.make]
  nextAddr := by
    simp only [addNode, parentOrGhost, hp, hu, insertNode, callTreeAdd_nextAddr, link_nextAddr,
      emplace, makeNode]
    grind

/-- An entry whose uuid and parent are known renames the node and links it. -/
theorem addNode_of_known (hu : m.mTree[i.uuid]? = some a) (hn : m.heap[a]? = some n)
    (hp : m.mTree[i.parentUuid]? = some p) (hpn : m.heap[p]? = some pn) (hap : a ≠ p)
    (hlt : a < m.nextAddr) : Attached m i.name i.uuid p pn a n (m.addNode i) where
  mTree := by
    intro v
    simp only [addNode, parentOrGhost, hp, hu, fillNode]
    split <;> simp only [callTreeAdd_mTree, link_mTree, modifyNode_mTree] <;> grind
  heap := by
    intro x
    simp only [addNode, parentOrGhost, hp, hu, fillNode]
    split <;> simp only [callTreeAdd_heap, link, modifyNode_heap] <;> grind
  nextAddr := by
    simp only [addNode, parentOrGhost, hp, hu, fillNode]
    split <;> simp only [callTreeAdd_nextAddr, link_nextAddr, modifyNode_nextAddr] <;> grind

theorem ghost_mTree (hu : m.mTree[i.parentUuid]? = none) (v : UInt64) :
    (m.ghost i.parentUuid).mTree[v]? =
      if v = i.parentUuid then some m.nextAddr else m.mTree[v]? := by
  simp only [ghost, emplace, makeNode]
  grind

theorem ghost_heap (u : UInt64) (x : Addr) : (m.ghost u).heap[x]? =
    if x = m.nextAddr then some (.make ghostName none u) else m.heap[x]? := by
  simp only [ghost, emplace, makeNode]
  grind

@[simp] theorem ghost_nextAddr (u : UInt64) : (m.ghost u).nextAddr = m.nextAddr + 1 := rfl

/-- An entry whose parent is unknown is added after a placeholder for the parent. -/
theorem addNode_of_ghost (hp : m.mTree[i.parentUuid]? = none) (hne : i.uuid ≠ i.parentUuid) :
    m.addNode i = (m.ghost i.parentUuid).addNode i := by
  have hp' : (m.ghost i.parentUuid).mTree[i.parentUuid]? = some m.nextAddr := by
    rw [ghost_mTree hp, if_pos rfl]
  have hu' : (m.ghost i.parentUuid).mTree[i.uuid]? = m.mTree[i.uuid]? := by
    rw [ghost_mTree hp, if_neg hne]
  simp only [addNode, hu', parentOrGhost, hp, hp']

/-- The mirror `m'` is `m` without the uuid `u` of the node `n`, which is also taken out of its
parent's children map. -/
structure Detached (m : Mirror) (u : UInt64) (n : Node) (m' : Mirror) : Prop where
  mTree : ∀ v : UInt64, m'.mTree[v]? = if v = u then none else m.mTree[v]?
  heap : ∀ x : Addr, m'.heap[x]? =
    if n.parent = some x then
      (m.heap[x]?).map fun pn => { pn with children := pn.children.erase n.name }
    else m.heap[x]?
  nextAddr : m'.nextAddr = m.nextAddr

/-- Removing a known uuid. -/
theorem removeNode_of_known {u : UInt64} (hu : m.mTree[u]? = some a) (hn : m.heap[a]? = some n) :
    Detached m u n (m.removeNode u) := by
  have hlock : (m.callTreeRemove a).lock n.parent = m.lock n.parent := by
    simp only [lock, callTreeRemove_heap]
  constructor
  · intro v
    simp only [removeNode, hu, callTreeRemove_heap, hn, hlock]
    cases m.lock n.parent <;> simp only [unlink_mTree, callTreeRemove_mTree] <;> grind
  · intro x
    simp only [removeNode, hu, callTreeRemove_heap, hn, hlock]
    cases hp : m.lock n.parent with
    | none =>
      rw [lock_eq_none_iff] at hp
      have := hp x
      simp only [callTreeRemove_heap]
      grind
    | some p =>
      obtain ⟨hp, -⟩ := lock_eq_some_iff.mp hp
      simp only [unlink, modifyNode_heap, callTreeRemove_heap, hp]
      grind
  · simp only [removeNode, hu, callTreeRemove_heap, hn, hlock]
    cases m.lock n.parent <;> simp only [unlink_nextAddr, callTreeRemove_nextAddr]

/-- Removing an unknown uuid changes nothing. -/
theorem removeNode_of_unknown {u : UInt64} (hu : m.mTree[u]? = none) : m.removeNode u = m := by
  simp [removeNode, hu]

end Effect

end Mirror

end PropertyTree.Client
