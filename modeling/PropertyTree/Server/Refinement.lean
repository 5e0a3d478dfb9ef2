import PropertyTree.Library.NamedStore
import PropertyTree.Server.Representation

/-!
# The server refines a store of named entries

The abstract state is a `Library.Store`: uuids mapped to the parent's uuid, the name and the data,
with only the root at first.  A completed `CreateRequest`, `DeleteRequest`, `SetValueRequest` or
`GetRequest` is one exchange with the store, and what the handler answers is the store's answer;
every other event leaves the store alone.
-/

namespace PropertyTree.Server

open ProtocolHandler Library

variable {s s' : ProtocolHandler} {σ : Store UInt64 Name Buffer}

/-! ## The abstraction -/

/-- What the server knows about a uuid. -/
def ProtocolHandler.entry (s : ProtocolHandler) (u : UInt64) : Option (Entry UInt64 Name Buffer) :=
  match s.mTree[u]? with
  | none => none
  | some a => (s.heap[a]?).map fun n => ⟨(s.lock n.parent).map fun p => p.2.uuid, n.name, n.data⟩

/-- The store is the one the server holds. -/
def Represents (s : ProtocolHandler) (σ : Store UInt64 Name Buffer) : Prop :=
  ∀ u, σ.lookup u = s.entry u

/-- The store that holds the root only. -/
def rootStore : Store UInt64 Name Buffer := Store.root 0 [] []

/-- The uuid of a locked parent depends on the parent object only. -/
theorem lock_uuid (s : ProtocolHandler) (w : Option Addr) :
    (s.lock w).map (fun p => p.2.uuid) = w.bind fun a => (s.heap[a]?).map Node.uuid := by
  cases w with
  | none => rfl
  | some a => simp [lock, Function.comp_def]

/-- The entry of a uuid that is not in `mTree`. -/
theorem entry_of_none {u : UInt64} (hu : s.mTree[u]? = none) : s.entry u = none := by
  simp [entry, hu]

/-- The entry of a uuid in `mTree`. -/
theorem entry_of_some {u : UInt64} {a : Addr} {n : Node} (hu : s.mTree[u]? = some a)
    (hn : s.heap[a]? = some n) :
    s.entry u = some ⟨n.parent.bind fun p => (s.heap[p]?).map Node.uuid, n.name, n.data⟩ := by
  simp [entry, hu, hn, lock_uuid]

/-- The entries are the objects of `mTree`. -/
theorem WellLinked.entry_cases (h : WellLinked s) (u : UInt64) :
    s.mTree[u]? = none ∧ s.entry u = none ∨
      ∃ (a : Addr) (n : Node), s.mTree[u]? = some a ∧ s.heap[a]? = some n ∧ n.uuid = u ∧
        s.entry u = some ⟨n.parent.bind fun p => (s.heap[p]?).map Node.uuid, n.name, n.data⟩ := by
  cases hu : s.mTree[u]? with
  | none => exact .inl ⟨rfl, entry_of_none hu⟩
  | some a =>
    obtain ⟨n, hn, hnu⟩ := h.mTree_heap hu
    exact .inr ⟨a, n, rfl, hn, hnu, entry_of_some hu hn⟩

/-- The store knows the uuids of `mTree`. -/
theorem Represents.mem_iff (hR : Represents s σ) (h : WellLinked s) {u : UInt64} :
    u ∈ σ ↔ ∃ a, s.mTree[u]? = some a := by
  rw [Finmap.mem_iff, hR u]
  rcases h.entry_cases u with ⟨hu, he⟩ | ⟨a, n, hu, -, -, he⟩ <;> simp [hu, he]

/-- The parent of an object is in the heap. -/
theorem WellLinked.parent_heap (h : WellLinked s) {a p : Addr} {n : Node}
    (hn : s.heap[a]? = some n) (hp : n.parent = some p) :
    ∃ pn : Node, s.heap[p]? = some pn ∧ pn.children[n.name]? = some a := by
  have h0 : a ≠ 0 := by
    rintro rfl
    obtain ⟨r, hr, hr0, -⟩ := h.root_heap
    grind
  obtain ⟨q, qn, hq, -, hqn, hlink⟩ := h.parent hn h0
  obtain rfl : p = q := by simpa [hp] using hq
  exact ⟨qn, hqn, hlink⟩

/-- An entry with the parent `u` and a name is the entry of that name in `u`'s children map. -/
theorem WellLinked.exists_entry_iff (h : WellLinked s) (hi : Indexed s) {u : UInt64} {a : Addr}
    {n : Node} (hu : s.mTree[u]? = some a) (hn : s.heap[a]? = some n) (name : Name) :
    (∃ v e, s.entry v = some e ∧ e.parent = some u ∧ e.name = name) ↔
      ∃ x, n.children[name]? = some x := by
  constructor
  · rintro ⟨v, e, hv, hpar, rfl⟩
    rcases h.entry_cases v with ⟨-, he⟩ | ⟨x, m, -, hm, -, he⟩
    · rw [he] at hv
      cases hv
    · rw [he] at hv
      cases hv
      obtain ⟨p, hp, hpu⟩ := Option.bind_eq_some_iff.mp hpar
      obtain ⟨pn, hpn, rfl⟩ := Option.map_eq_some_iff.mp hpu
      obtain ⟨qn, hqn, hlink⟩ := h.parent_heap hm hp
      have := hi.heap_mTree hpn
      exact ⟨x, by grind⟩
  · rintro ⟨x, hx⟩
    obtain ⟨m, hm, hpar, rfl⟩ := h.child hn hx
    refine ⟨m.uuid, _, entry_of_some (hi.heap_mTree hm) hm, ?_, rfl⟩
    obtain ⟨n', hn', hnu⟩ := h.mTree_heap hu
    simp only [hpar, Option.bind_some]
    grind

/-- A node has children when some entry has it as its parent. -/
theorem WellLinked.exists_child_iff (h : WellLinked s) (hi : Indexed s) {u : UInt64} {a : Addr}
    {n : Node} (hu : s.mTree[u]? = some a) (hn : s.heap[a]? = some n) :
    (∃ v e, s.entry v = some e ∧ e.parent = some u) ↔ n.children.size ≠ 0 := by
  have hiff : (∃ v e, s.entry v = some e ∧ e.parent = some u) ↔
      ∃ (name : Name) (x : Addr), n.children[name]? = some x := by
    simp only [← h.exists_entry_iff hi hu hn]
    exact ⟨fun ⟨v, e, hv, hpar⟩ => ⟨e.name, v, e, hv, hpar, rfl⟩,
      fun ⟨_, v, e, hv, hpar, _⟩ => ⟨v, e, hv, hpar⟩⟩
  rw [hiff, ne_eq, ← Std.ExtTreeMap.eq_empty_iff_size_eq_zero]
  constructor
  · rintro ⟨name, x, hx⟩ hempty
    simp [hempty] at hx
  · intro hne
    by_contra hall
    refine hne (Std.ExtTreeMap.ext_getElem? fun name => ?_)
    simpa using Option.eq_none_iff_forall_ne_some.mpr fun x hx => hall ⟨name, x, hx⟩

/-- The store has a named child of `u` when `u`'s children map has. -/
theorem Represents.hasChildNamed_iff (hR : Represents s σ) (h : WellLinked s) (hi : Indexed s)
    {u : UInt64} {a : Addr} {n : Node} (hu : s.mTree[u]? = some a) (hn : s.heap[a]? = some n)
    (name : Name) : σ.HasChildNamed u name ↔ ∃ x, n.children[name]? = some x := by
  rw [← h.exists_entry_iff hi hu hn]
  simp only [Store.HasChildNamed, hR _]

/-- The store has a child of `u` when `u`'s children map is not empty. -/
theorem Represents.hasChild_iff (hR : Represents s σ) (h : WellLinked s) (hi : Indexed s)
    {u : UInt64} {a : Addr} {n : Node} (hu : s.mTree[u]? = some a) (hn : s.heap[a]? = some n) :
    σ.HasChild u ↔ n.children.size ≠ 0 := by
  rw [← h.exists_child_iff hi hu hn]
  simp only [Store.HasChild, hR _]

/-- The entries of the server form a tree. -/
theorem WellLinked.namedTree (h : WellLinked s) (hi : Indexed s) : NamedTree 0 s.entry where
  parent := by
    intro u p e he hp
    rcases h.entry_cases u with ⟨-, he'⟩ | ⟨a, n, hu, hn, hnu, he'⟩ <;> rw [he'] at he <;> cases he
    obtain ⟨q, hq, hqu⟩ := Option.bind_eq_some_iff.mp hp
    obtain ⟨qn, hqn, rfl⟩ := Option.map_eq_some_iff.mp hqu
    have hqt := hi.heap_mTree hqn
    refine ⟨?_, by rw [entry_of_some hqt hqn]; simp⟩
    rintro rfl
    obtain ⟨qn', hqn', hlink⟩ := h.parent_heap hn hq
    have := h.child_lt hqn' hlink
    grind
  parent_eq_none_iff := by
    intro u e he
    rcases h.entry_cases u with ⟨-, he'⟩ | ⟨a, n, hu, hn, hnu, he'⟩ <;> rw [he'] at he <;> cases he
    rw [← (hi.representation h).no_parent_iff hu hn]
    simp only [← lock_uuid, Option.map_eq_none_iff]
  sibling := by
    intro u v p e e' he he' hp hp' hname
    rcases h.entry_cases u with ⟨-, hu⟩ | ⟨a, n, hu, hn, hnu, hue⟩
    · rw [hu] at he
      cases he
    rcases h.entry_cases v with ⟨-, hv⟩ | ⟨b, k, hv, hk, hkv, hve⟩
    · rw [hv] at he'
      cases he'
    rw [hue] at he
    rw [hve] at he'
    cases he
    cases he'
    obtain ⟨q, hq, hqu⟩ := Option.bind_eq_some_iff.mp hp
    obtain ⟨r, hr, hru⟩ := Option.bind_eq_some_iff.mp hp'
    obtain ⟨qn, hqn, hlink⟩ := h.parent_heap hn hq
    obtain ⟨rn, hrn, hlink'⟩ := h.parent_heap hk hr
    have hqt := hi.heap_mTree hqn
    have hrt := hi.heap_mTree hrn
    rw [hqn, Option.map_some, Option.some.injEq] at hqu
    rw [hrn, Option.map_some, Option.some.injEq] at hru
    simp only at hname
    grind

/-- A child in the heap is a child among the entries, under its name. -/
theorem entry_of_mem_kids (h : WellLinked s) (hi : Indexed s) {a c : Addr} {name : Name}
    (hk : (name, c) ∈ kids s.heap a) : ∃ e, s.entry (uuidAt s.heap c) = some e ∧
      e.parent = some (uuidAt s.heap a) ∧ e.name = name := by
  obtain ⟨n, hn, hc⟩ := mem_kids_iff.mp hk
  obtain ⟨cn, hcn, hpar, rfl⟩ := h.child hn hc
  rw [uuidAt_of_heap hcn, uuidAt_of_heap hn, entry_of_some (hi.heap_mTree hcn) hcn]
  exact ⟨_, rfl, by simp [hpar, hn], rfl⟩

/-! ## The entries after each update -/

/-- A creation adds one entry, with empty data. -/
theorem entry_insertNode (h : WellLinked s) (hi : Indexed s) {p : Addr} {node : Node}
    (hn : s.heap[p]? = some node) (name : Name) (sid : UInt32) (u : UInt64) :
    (s.insertNode p node name sid).entry u =
      if u = s.mUuidCtr.toUInt64 then some ⟨some node.uuid, name, []⟩ else s.entry u := by
  have hfresh := hi.mTree_fresh
  have hlt := h.heap_lt hn
  have hmTree : (s.insertNode p node name sid).mTree[u]? =
      if u = s.mUuidCtr.toUInt64 then some s.nextAddr else s.mTree[u]? := by
    simp only [ProtocolHandler.insertNode]
    grind
  split_ifs with hu
  · rw [if_pos hu] at hmTree
    rw [entry_of_some hmTree (by rw [insertNode_heap, if_pos rfl])]
    simp only [Option.bind_some]
    rw [insertNode_heap, if_neg (ne_of_lt hlt), if_pos rfl]
    rfl
  · rw [if_neg hu] at hmTree
    rcases h.entry_cases u with ⟨hnone, he⟩ | ⟨a, n, hua, hna, -, he⟩
    · rw [he, entry_of_none (hmTree.trans hnone)]
    · have hparent : ∀ q, n.parent = some q →
          ((s.insertNode p node name sid).heap[q]?).map Node.uuid = (s.heap[q]?).map Node.uuid := by
        intro q hq
        obtain ⟨qn, hqn, -⟩ := h.parent_heap hna hq
        have := h.heap_lt hqn
        rw [insertNode_heap]
        grind
      have hbind := Option.bind_congr hparent
      have halt := h.heap_lt hna
      by_cases hap : a = p
      · subst hap
        rw [hna] at hn
        cases hn
        rw [he, entry_of_some (hmTree.trans hua)
          (by rw [insertNode_heap, if_neg (ne_of_lt halt), if_pos rfl]), ← hbind]
      · rw [he, entry_of_some (hmTree.trans hua)
          (by rw [insertNode_heap, if_neg (ne_of_lt halt), if_neg hap, hna]), ← hbind]

/-- A deletion removes one entry. -/
theorem entry_removeNode (h : WellLinked s) {uuid : UInt64} {a p : Addr} {node parent : Node}
    (ha : s.mTree[uuid]? = some a) (hn : s.heap[a]? = some node) (hch : node.children.size = 0)
    (hp : node.parent = some p) (hpn : s.heap[p]? = some parent) (u : UInt64) :
    (s.removeNode uuid a node p parent).entry u = if u = uuid then none else s.entry u := by
  have hheap := h.removeNode_heap ha hn hp hpn
  have hmTree : (s.removeNode uuid a node p parent).mTree[u]? =
      if u = uuid then none else s.mTree[u]? := by
    simp only [ProtocolHandler.removeNode, release_mTree]
    grind
  split_ifs with hu
  · rw [if_pos hu] at hmTree
    exact entry_of_none hmTree
  · rw [if_neg hu] at hmTree
    rcases h.entry_cases u with ⟨hnone, he⟩ | ⟨x, n, hux, hx, hnu, he⟩
    · rw [he, entry_of_none (hmTree.trans hnone)]
    · have hxa : x ≠ a := by
        rintro rfl
        obtain ⟨n', hn', hnu'⟩ := h.mTree_heap ha
        grind
      have hparent : ∀ q, n.parent = some q →
          ((s.removeNode uuid a node p parent).heap[q]?).map Node.uuid =
            (s.heap[q]?).map Node.uuid := by
        intro q hq
        obtain ⟨qn, hqn, hlink⟩ := h.parent_heap hx hq
        have hqa : q ≠ a := by
          rintro rfl
          rw [hn] at hqn
          cases hqn
          rw [← Std.ExtTreeMap.eq_empty_iff_size_eq_zero] at hch
          simp [hch] at hlink
        rw [hheap]
        grind
      have hbind := Option.bind_congr hparent
      by_cases hxp : x = p
      · subst hxp
        rw [hx] at hpn
        cases hpn
        rw [he, entry_of_some (hmTree.trans hux) (by rw [hheap, if_neg hxa, if_pos rfl]), ← hbind]
      · rw [he, entry_of_some (hmTree.trans hux) (by rw [hheap, if_neg hxa, if_neg hxp, hx]),
          ← hbind]

/-- Replacing a node by one with the same links changes at most the data of its entry. -/
theorem entry_setNode (h : WellLinked s) {uuid : UInt64} {a : Addr} {node node' : Node}
    (ha : s.mTree[uuid]? = some a) (hn : s.heap[a]? = some node) (hsame : SameLinks node node')
    (u : UInt64) : (s.setNode a node').entry u =
      if u = uuid then (s.entry u).map fun e => { e with data := node'.data } else s.entry u := by
  have huuid : ∀ q : Addr, ((s.setNode a node').heap[q]?).map Node.uuid =
      (s.heap[q]?).map Node.uuid := by
    intro q
    have := hsame.uuid
    simp only [ProtocolHandler.setNode]
    grind
  have hmTree : (s.setNode a node').mTree = s.mTree := rfl
  rcases h.entry_cases u with ⟨hnone, he⟩ | ⟨x, n, hux, hx, hnu, he⟩
  · rw [he, entry_of_none (hmTree ▸ hnone)]
    split_ifs <;> rfl
  · by_cases hxa : x = a
    · subst hxa
      rw [hn] at hx
      cases hx
      have hu : u = uuid := by
        obtain ⟨n', hn', hnu'⟩ := h.mTree_heap ha
        grind
      rw [if_pos hu, he, entry_of_some (n := node') (hmTree ▸ hux)
        (by simp [ProtocolHandler.setNode]), hsame.parent, hsame.name]
      simp only [huuid, Option.map_some]
    · have hu : u ≠ uuid := by
        rintro rfl
        grind
      rw [if_neg hu, he, entry_of_some (n := n) (hmTree ▸ hux)
        (by simp only [ProtocolHandler.setNode]; grind)]
      simp only [huuid]

/-! ## Requests and answers -/

/-- The store request a message stands for. -/
def storeRequest : PropertyTreeMessages → Option (Request UInt64 Name Buffer)
  | .createRequest name parentUuid => some (.create parentUuid name)
  | .deleteRequest uuid => some (.delete uuid)
  | .setValueRequest uuid data => some (.set uuid data)
  | .getRequest uuid => some (.get uuid)
  | _ => none

/-- The message that carries an answer of the store. -/
def answer : Response UInt64 Buffer → PropertyTreeMessages
  | .created uuid => .createAccept uuid
  | .parentNotFound => .createReject .notFound
  | .alreadyExist => .createReject .alreadyExist
  | .deleted => .deleteResponse .ok
  | .deleteNotFound => .deleteResponse .notFound
  | .notEmpty => .deleteResponse .notEmpty
  | .stored => .setValueAccept 0
  | .value data => .getAccept data
  | .getNotFound => .getReject .notFound

/-- The messages among the outputs that answer a request, with their receivers. -/
def responses (o : List Output) : List (Conn × PropertyTreeMessage) :=
  o.filterMap fun
    | .send c m => if m.message.isServerInitiated then none else some (c, m)
    | .terminate => none

/-- Whether an event is a request to the store. -/
def isStoreEvent : Event → Bool
  | .message _ m => (storeRequest m.message).isSome
  | .disconnect _ => false

/-- A step of the server carries out an exchange with the store: its event is the request, and the
requester is sent the store's answer, under the request's transaction id, and nothing else. -/
def CarriesOut (l : Event × List Output)
    (al : Request UInt64 Name Buffer × Option (Response UInt64 Buffer)) : Prop :=
  ∃ c t m, l.1 = .message c ⟨t, m⟩ ∧ storeRequest m = some al.1 ∧
    responses l.2 = al.2.toList.map fun r => (c, ⟨t, answer r⟩)

/-- The requests the refinement is about: a `CreateRequest` comes from a signed-in connection, and a
`SetValueRequest` is not the terminate command. -/
def admissible (s : ProtocolHandler) : Event → Bool
  | .message c ⟨_, .createRequest _ _⟩ => s.mConnectionToSessionId.contains c
  | .message _ ⟨_, .setValueRequest uuid data⟩ => !isTerminate uuid data
  | _ => true

/-- A broadcast of a notification answers nobody. -/
theorem responses_broadcast {m : PropertyTreeMessage} (hm : m.message.isServerInitiated = true) :
    responses (s.broadcast m) = [] := by
  rw [responses, List.filterMap_eq_nil_iff]
  intro x hx
  obtain ⟨sid, c, -, rfl⟩ := mem_broadcast_iff.mp hx
  simp [hm]

/-- The updates of an accepted `SetValueRequest` answer nobody. -/
theorem responses_updates (listener : List (UInt32 × Conn)) (f : UInt32 × Conn → Option Conn)
    (u : UInt64) (data : Buffer) : responses (listener.flatMap fun l =>
      send ⟨notificationId, .updateNotification u data⟩ (f l)) = [] := by
  rw [responses, List.filterMap_eq_nil_iff]
  intro x hx
  obtain ⟨l, -, hx⟩ := List.mem_flatMap.mp hx
  cases hl : f l with
  | none => simp [hl] at hx
  | some c =>
    obtain rfl : x = _ := by simpa [hl] using hx
    rfl

/-- An answer to the requester is a response, in front of those that follow. -/
theorem responses_cons {c : Conn} {m : PropertyTreeMessage}
    (hm : m.message.isServerInitiated = false) (o : List Output) :
    responses (.send c m :: o) = (c, m) :: responses o := by
  simp [responses, hm]

/-! ## The simulation -/

/-- A node replaced by one with the same links and data changes no entry. -/
theorem Represents.setNode (hR : Represents s σ) (h : WellLinked s) {uuid : UInt64} {a : Addr}
    {node node' : Node} (ha : s.mTree[uuid]? = some a) (hn : s.heap[a]? = some node)
    (hsame : SameLinks node node') (hdata : node'.data = node.data) :
    Represents (s.setNode a node') σ := by
  intro u
  rw [entry_setNode h ha hn hsame, hR u]
  split_ifs with hu
  · subst hu
    rw [entry_of_some ha hn, Option.map_some, hdata]
  · rfl

/-- What a step on an admissible event means for the store. -/
inductive Simulates (σ : Store UInt64 Name Buffer) (l : Event × List Output)
    (s' : ProtocolHandler) : Prop
  | exchange (al τ) (hl : isStoreEvent l.1 = true) (hstep : Store.Step [] σ al τ)
      (hal : CarriesOut l al) (hR : Represents s' τ)
  | silent (hl : isStoreEvent l.1 = false) (hR : Represents s' σ)

/-- A request that leaves the store as it is. -/
theorem Represents.exchange_same (hR : Represents s σ) (hfresh : s.mUuidCtr.toUInt64 ∉ σ) {c : Conn}
    {t : UInt16} {m : PropertyTreeMessages} {o : List Output}
    (request : Request UInt64 Name Buffer) (response : Option (Response UInt64 Buffer))
    (hm : storeRequest m = some request)
    (hres : Store.respond [] σ s.mUuidCtr.toUInt64 request = (σ, response))
    (ho : responses o = response.toList.map fun r => (c, ⟨t, answer r⟩)) :
    Simulates σ (.message c ⟨t, m⟩, o) s :=
  .exchange (request, response) σ (by simp [isStoreEvent, hm]) ⟨_, hfresh, hres⟩
    ⟨c, t, m, rfl, hm, ho⟩ hR

/-- A reply to an RPC is no store request. -/
theorem isStoreEvent_of_isRpcReply {c : Conn} {t : UInt16} {m : PropertyTreeMessages}
    (hm : IsRpcReply m) : isStoreEvent (.message c ⟨t, m⟩) = false := by
  rcases hm with ⟨value, rfl⟩ | ⟨cause, rfl⟩ <;> rfl

/-- A completed step on an admissible event is an exchange with the store or leaves it alone. -/
theorem Represents.step (hR : Represents s σ) (h : WellLinked s) (hi : Indexed s) {e : Event}
    {o : List Output} (hadm : admissible s e = true) (hstep : StepResult s e s' o) :
    Simulates σ (e, o) s' := by
  have hfresh : s.mUuidCtr.toUInt64 ∉ σ := by
    rw [hR.mem_iff h, hi.mTree_fresh]
    simp
  have hmem : ∀ {u : UInt64} {a : Addr}, s.mTree[u]? = some a → u ∈ σ :=
    fun hu => (hR.mem_iff h).mpr ⟨_, hu⟩
  have hnmem : ∀ {u : UInt64}, s.mTree[u]? = none → u ∉ σ := by
    intro u hu
    rw [hR.mem_iff h, hu]
    simp
  have hlookup : ∀ {u : UInt64}, s.mTree[u]? = none → σ.lookup u = none :=
    fun hu => (hR _).trans (entry_of_none hu)
  cases hstep with
  | createNoParent c t name parentUuid hp =>
    exact hR.exchange_same hfresh (.create parentUuid name) (some .parentNotFound) rfl
      (by simp [Store.respond, hnmem hp]) rfl
  | createNotSignedIn c t name parentUuid p hp hc =>
    simp only [admissible] at hadm
    grind
  | createExists c t name parentUuid p sid node a hp hc hn ha =>
    have hchild := (hR.hasChildNamed_iff h hi hp hn name).mpr ⟨a, ha⟩
    exact hR.exchange_same hfresh (.create parentUuid name) (some .alreadyExist) rfl
      (by simp [Store.respond, hmem hp, hchild]) rfl
  | create c t name parentUuid p sid node hp hc hn ha =>
    have hchild : ¬ σ.HasChildNamed parentUuid name := by
      rw [hR.hasChildNamed_iff h hi hp hn, ha]
      simp
    have huuid : node.uuid = parentUuid := by
      obtain ⟨n, hn', hnu⟩ := h.mTree_heap hp
      grind
    refine .exchange (.create parentUuid name, some (.created s.mUuidCtr.toUInt64)) _ rfl
      ⟨_, hfresh, by simp [Store.respond, hmem hp, hchild]; rfl⟩ ⟨c, t, _, rfl, rfl, ?_⟩ ?_
    · rw [responses_cons rfl, responses_broadcast rfl]
      rfl
    · intro u
      rw [entry_insertNode h hi hn, huuid]
      split_ifs with hu
      · subst hu
        exact Finmap.lookup_insert _
      · rw [Finmap.lookup_insert_of_ne _ hu, hR u]
  | deleteUnknown c t uuid ha =>
    exact hR.exchange_same hfresh (.delete uuid) (some .deleteNotFound) rfl
      (by simp [Store.respond, hnmem ha]) rfl
  | deleteNotEmpty c t uuid a node ha hn hch =>
    have hchild := (hR.hasChild_iff h hi ha hn).mpr hch
    exact hR.exchange_same hfresh (.delete uuid) (some .notEmpty) rfl
      (by simp [Store.respond, hmem ha, hchild]) rfl
  | delete c t uuid a node p parent ha hn hch hp hpn =>
    have hchild : ¬ σ.HasChild uuid := by
      rw [hR.hasChild_iff h hi ha hn]
      exact not_not.mpr hch
    refine .exchange (.delete uuid, some .deleted) _ rfl
      ⟨_, hfresh, by simp [Store.respond, hmem ha, hchild]; rfl⟩ ⟨c, t, _, rfl, rfl, ?_⟩ ?_
    · rw [responses_cons rfl, responses_broadcast rfl]
      rfl
    · intro u
      rw [entry_removeNode h ha hn hch hp hpn]
      split_ifs with hu
      · subst hu
        exact Finmap.lookup_erase _ _
      · rw [Finmap.lookup_erase_ne hu, hR u]
  | terminate c t uuid data hterm => simp [admissible, hterm] at hadm
  | setUnknown c t uuid data hterm ha =>
    exact hR.exchange_same hfresh (.set uuid data) none rfl (by simp [Store.respond, hlookup ha]) rfl
  | setValue c t uuid data a node hterm ha hn =>
    have hentry := (hR uuid).trans (entry_of_some ha hn)
    refine .exchange (.set uuid data, some .stored) _ rfl
      ⟨_, hfresh, by simp [Store.respond, hentry]; rfl⟩ ⟨c, t, _, rfl, rfl, ?_⟩ ?_
    · rw [responses_cons rfl, responses_updates]
      rfl
    · intro u
      have hsame : SameLinks node { node with
          data := data
          listener := node.listener.map fun sessionId w =>
            (s.listenerConnection c sessionId w).getD w } := ⟨rfl, rfl, rfl, rfl, rfl⟩
      have hset := entry_setNode h ha hn hsame u
      refine Eq.trans ?_ hset.symm
      split_ifs with hu
      · subst hu
        rw [Finmap.lookup_insert, entry_of_some ha hn]
        rfl
      · rw [Finmap.lookup_insert_of_ne _ hu, hR u]
  | getUnknown c t uuid ha =>
    exact hR.exchange_same hfresh (.get uuid) (some .getNotFound) rfl
      (by simp [Store.respond, hlookup ha, Response.ofData]) rfl
  | get c t uuid a node ha hn =>
    have hentry := (hR uuid).trans (entry_of_some ha hn)
    exact hR.exchange_same hfresh (.get uuid) (some (.value node.data)) rfl
      (by simp [Store.respond, hentry, Response.ofData]) rfl
  | subscribe c t uuid a sid node ha hc hn =>
    exact .silent rfl (hR.setNode h ha hn ⟨rfl, rfl, rfl, rfl, rfl⟩ rfl)
  | unsubscribe c t uuid a sid node w ha hc hn hl =>
    exact .silent rfl (hR.setNode h ha hn ⟨rfl, rfl, rfl, rfl, rfl⟩ rfl)
  | replyUnknown c t m hm ht => exact .silent (isStoreEvent_of_isRpcReply hm) hR
  | replyNoSession c t m translation hm ht hs => exact .silent (isStoreEvent_of_isRpcReply hm) hR
  | reply c t m translation session hm ht hs => exact .silent (isStoreEvent_of_isRpcReply hm) hR
  | ignored c t m hm => exact .silent (by cases m <;> first | rfl | exact hm.elim) hR
  | _ => exact .silent rfl hR

/-- The constructor's state holds the root only. -/
theorem represents_init : Represents .init rootStore := by
  intro u
  by_cases hu : u = 0
  · subst hu
    rw [rootStore, Store.root, Finmap.lookup_singleton_eq,
      entry_of_some (a := 0) (n := rootNode) (by decide) (by simp [init])]
    rfl
  · have hnone : init.mTree[u]? = none := by
      simp only [init]
      grind
    rw [entry_of_none hnone, rootStore, Store.root, Finmap.lookup_eq_none, Finmap.mem_singleton]
    exact hu

/-- The server refines the store: in every run on admissible requests before the uuid counter wraps,
the steps on store requests carry out, in order, the exchanges of a run of the store that starts
with the root only, and the store it ends in is the one the server holds.  In particular a
`GetRequest` is answered with the data last set since the node was created. -/
theorem refines_store {ls : List (Event × List Output)}
    (h : Run (Guarded (fun s l => admissible s l.1 = true) (StepOf ProtocolHandler.step)) .init ls s)
    (hacc : acceptedCreates ls < 2 ^ 32 - 1) :
    ∃ als σ, Run (Store.Step []) rootStore als σ ∧
      List.Forall₂ CarriesOut (ls.filter fun l => isStoreEvent l.1) als ∧ Represents s σ ∧
      ∀ als₁ als₂ u r, als = als₁ ++ (.get u, r) :: als₂ →
        r = some (.ofData (Store.valueAfter [] u (if u = 0 then some [] else none) als₁)) := by
  have hsim : ∃ als σ, Run (Store.Step []) rootStore als σ ∧
      List.Forall₂ CarriesOut (ls.filter fun l => isStoreEvent l.1) als ∧ Represents s σ := by
    induction h with
    | nil => exact ⟨[], rootStore, .nil _, .nil, represents_init⟩
    | snoc run step ih =>
      rw [acceptedCreates_concat] at hacc
      have hlt := lt_of_le_of_lt (Nat.le_add_right _ _) hacc
      obtain ⟨als, σ, hals, hmatch, hR⟩ := ih hlt
      have hserver := run.of_guarded
      rw [List.filter_append]
      cases hR.step (wellLinked_of_run hserver) (indexed_of_run hserver hlt) step.1
        (step_cases step.2) with
      | exchange al τ hl hstep hal hR' =>
        refine ⟨als ++ [al], τ, hals.snoc hstep, List.rel_append hmatch ?_, hR'⟩
        simpa [hl] using hal
      | silent hl hR' => exact ⟨als, σ, hals, by simpa [hl] using hmatch, hR'⟩
  obtain ⟨als, σ, hals, hmatch, hR⟩ := hsim
  refine ⟨als, σ, hals, hmatch, hR, fun als₁ als₂ u r hsplit => ?_⟩
  have hroot : (rootStore.lookup u).map Entry.data = if u = 0 then some [] else none := by
    split_ifs with hu
    · subst hu
      rw [rootStore, Store.root, Finmap.lookup_singleton_eq]
      rfl
    · have : rootStore.lookup u = none := by
        rw [Finmap.lookup_eq_none, rootStore, Store.root, Finmap.mem_singleton]
        exact hu
      rw [this]
      rfl
  rw [← hroot]
  exact Store.get_of_run hals hsplit

/-- Two clients create a node, set it, delete it, create its name again and read it. -/
theorem refines_store_recreate :
    ∃ (ls : List (Event × List Output)) (s : ProtocolHandler)
      (als : List (Request UInt64 Name Buffer × Option (Response UInt64 Buffer)))
      (σ : Store UInt64 Name Buffer), ls.map (fun l => responses l.2) = [[(7, ⟨0, .signinAccept 0⟩)],
        [(8, ⟨0, .signinAccept 0⟩)], [(7, ⟨1, .createAccept 1⟩)], [(8, ⟨1, .setValueAccept 0⟩)],
        [(8, ⟨2, .getAccept [5]⟩)], [(7, ⟨2, .deleteResponse .ok⟩)], [(7, ⟨3, .createAccept 2⟩)],
        [(8, ⟨3, .getReject .notFound⟩)], [(8, ⟨4, .getAccept []⟩)]] ∧
      Run (Store.Step []) rootStore als σ ∧
      List.Forall₂ CarriesOut (ls.filter fun l => isStoreEvent l.1) als ∧ Represents s σ := by
  have hrun : ∃ r, execute step admissible .init [.message 7 ⟨0, .signinRequest 0⟩,
      .message 8 ⟨0, .signinRequest 0⟩, .message 7 ⟨1, .createRequest [97] 0⟩,
      .message 8 ⟨1, .setValueRequest 1 [5]⟩, .message 8 ⟨2, .getRequest 1⟩,
      .message 7 ⟨2, .deleteRequest 1⟩, .message 7 ⟨3, .createRequest [97] 0⟩,
      .message 8 ⟨3, .getRequest 1⟩, .message 8 ⟨4, .getRequest 2⟩] = some r ∧
      acceptedCreates r.2 < 2 ^ 32 - 1 ∧
      r.2.map (fun l => responses l.2) = [[(7, ⟨0, .signinAccept 0⟩)],
        [(8, ⟨0, .signinAccept 0⟩)], [(7, ⟨1, .createAccept 1⟩)], [(8, ⟨1, .setValueAccept 0⟩)],
        [(8, ⟨2, .getAccept [5]⟩)], [(7, ⟨2, .deleteResponse .ok⟩)], [(7, ⟨3, .createAccept 2⟩)],
        [(8, ⟨3, .getReject .notFound⟩)], [(8, ⟨4, .getAccept []⟩)]] :=
    ⟨_, rfl, by decide, by decide⟩
  obtain ⟨⟨s, ls⟩, hexec, hacc, hresponses⟩ := hrun
  obtain ⟨als, σ, hals, hmatch, hR, -⟩ := refines_store (run_of_execute step hexec) hacc
  exact ⟨ls, s, als, σ, hresponses, hals, hmatch, hR⟩

end PropertyTree.Server
