import PropertyTree.Server.Step

/-!
# The invariant of every server state

`WellLinked` relates the flat index `mTree`, the node objects with their parent links and children
maps, and the session tables.  It holds in every state that completed steps reach from the
constructor, whatever the messages are and however often the counters wrap.
-/

namespace PropertyTree.Server

open ProtocolHandler

/-- The links of the server state. -/
structure WellLinked (s : ProtocolHandler) : Prop where
  /-- An entry of `mTree` refers to an object that carries its key. -/
  mTree_heap : ∀ {u : UInt64} {a : Addr}, s.mTree[u]? = some a →
    ∃ n : Node, s.heap[a]? = some n ∧ n.uuid = u
  /-- Addresses are handed out in order. -/
  heap_lt : ∀ {a : Addr} {n : Node}, s.heap[a]? = some n → a < s.nextAddr
  /-- The root is registered under uuid 0. -/
  root_mTree : s.mTree[(0 : UInt64)]? = some 0
  /-- The root has no parent, and an owner that no session need be. -/
  root_heap : ∃ n : Node, s.heap[(0 : Addr)]? = some n ∧ n.parent = none ∧
    n.sessionId = 0xFFFFFFFF
  /-- Every other object is an entry of an older object's children map, under its name. -/
  parent : ∀ {a : Addr} {n : Node}, s.heap[a]? = some n → a ≠ 0 →
    ∃ (p : Addr) (pn : Node), n.parent = some p ∧ p < a ∧ s.heap[p]? = some pn ∧
      pn.children[n.name]? = some a
  /-- An entry of a children map refers to an object linked back to it. -/
  child : ∀ {p : Addr} {pn : Node} {name : Name} {a : Addr}, s.heap[p]? = some pn →
    pn.children[name]? = some a → ∃ n : Node, s.heap[a]? = some n ∧ n.parent = some p ∧
      n.name = name
  /-- The creator of a node has a session. -/
  owner : ∀ {a : Addr} {n : Node}, s.heap[a]? = some n → a ≠ 0 → n.sessionId ∈ s.mSessions
  /-- A signed-in connection has a session. -/
  session : ∀ {c : Conn} {sid : UInt32}, s.mConnectionToSessionId[c]? = some sid →
    sid ∈ s.mSessions

/-- The constructor's state is well linked. -/
theorem wellLinked_init : WellLinked .init where
  mTree_heap := by
    intro u a h
    simp only [init] at h ⊢
    exact ⟨rootNode, by grind, by grind [rootNode]⟩
  heap_lt := by
    intro a n h
    simp only [init] at h ⊢
    grind
  root_mTree := by decide
  root_heap := ⟨rootNode, by simp [init], rfl, rfl⟩
  parent := by
    intro a n h
    simp only [init] at h ⊢
    grind
  child := by
    intro p pn name a h
    simp only [init] at h ⊢
    grind [rootNode]
  owner := by
    intro a n h
    simp only [init] at h ⊢
    grind
  session := by
    intro c sid h
    simp only [init] at h
    grind

namespace WellLinked

variable {s : ProtocolHandler}

/-- The entries of a children map are younger than its node. -/
theorem child_lt (h : WellLinked s) {p a : Addr} {pn : Node} {name : Name}
    (hp : s.heap[p]? = some pn) (ha : pn.children[name]? = some a) : p < a := by
  obtain ⟨n, hn, hpar, rfl⟩ := h.child hp ha
  have h0 : a ≠ 0 := by
    rintro rfl
    obtain ⟨r, hr, hr0, -⟩ := h.root_heap
    rw [hn] at hr
    cases hr
    rw [hpar] at hr0
    cases hr0
  obtain ⟨q, -, hq, hlt, -⟩ := h.parent hn h0
  rw [hpar] at hq
  cases hq
  exact hlt

/-- Signing in keeps the links. -/
theorem signin (h : WellLinked s) (c : Conn) : WellLinked (s.signin c) where
  mTree_heap := h.mTree_heap
  heap_lt := h.heap_lt
  root_mTree := h.root_mTree
  root_heap := h.root_heap
  parent := h.parent
  child := h.child
  owner := by
    intro a n ha h0
    have := h.owner ha h0
    simp only [ProtocolHandler.signin]
    grind
  session := by
    intro c' sid hc
    have : s.mConnectionToSessionId[c']? = some sid → sid ∈ s.mSessions := h.session
    simp only [ProtocolHandler.signin] at hc ⊢
    grind

/-- No object lies at the next address. -/
theorem heap_nextAddr (h : WellLinked s) : s.heap[s.nextAddr]? = none := by
  by_contra hne
  obtain ⟨n, hn⟩ := Option.ne_none_iff_exists'.mp hne
  exact lt_irrefl _ (h.heap_lt hn)

/-- Two links to the same object are the same link. -/
theorem child_unique (h : WellLinked s) {p q a : Addr} {pn qn : Node} {name name' : Name}
    (hp : s.heap[p]? = some pn) (ha : pn.children[name]? = some a)
    (hq : s.heap[q]? = some qn) (ha' : qn.children[name']? = some a) : p = q ∧ name = name' := by
  obtain ⟨n, hn, hpar, rfl⟩ := h.child hp ha
  obtain ⟨n', hn', hpar', rfl⟩ := h.child hq ha'
  rw [hn] at hn'
  cases hn'
  rw [hpar] at hpar'
  exact ⟨by simpa using hpar', rfl⟩

end WellLinked

/-! ## The heap after each update -/

section Heap

variable {s : ProtocolHandler}

/-- The heap after a creation. -/
theorem insertNode_heap (p : Addr) (node : Node) (name : Name) (sid : UInt32) (a : Addr) :
    (s.insertNode p node name sid).heap[a]? =
      if a = s.nextAddr then
        some { name := name, sessionId := sid, parent := some p, uuid := s.mUuidCtr.toUInt64,
               data := [], children := ∅, listener := ∅ }
      else if a = p then
        some { node with children := node.children.insertIfNew name s.nextAddr }
      else s.heap[a]? := by
  simp only [ProtocolHandler.insertNode]
  grind

end Heap

namespace WellLinked

variable {s : ProtocolHandler}

/-- Creating a node keeps the links. -/
theorem insertNode (h : WellLinked s) {p : Addr} {node : Node} {name : Name} {sid : UInt32}
    (hn : s.heap[p]? = some node) (ha : node.children[name]? = none) (hs : sid ∈ s.mSessions) :
    WellLinked (s.insertNode p node name sid) := by
  have hlt := h.heap_lt hn
  have hnew := h.heap_nextAddr
  constructor
  · intro u a hu
    simp only [ProtocolHandler.insertNode] at hu
    rw [insertNode_heap]
    have := h.mTree_heap (u := u) (a := a)
    grind
  · intro a n hu
    rw [insertNode_heap] at hu
    have := h.heap_lt (a := a) (n := n)
    simp only [ProtocolHandler.insertNode]
    grind
  · have := h.root_mTree
    simp only [ProtocolHandler.insertNode]
    grind
  · obtain ⟨r, hr, hr0, hrs⟩ := h.root_heap
    rw [insertNode_heap]
    grind
  · intro a n hu h0
    rw [insertNode_heap] at hu
    split_ifs at hu with h1 h2
    · cases hu
      refine ⟨p, { node with children := node.children.insertIfNew name s.nextAddr }, rfl,
        h1 ▸ hlt, ?_, ?_⟩
      · rw [insertNode_heap]
        grind
      · grind
    · cases hu
      subst h2
      obtain ⟨q, qn, hpar, hqlt, hq, hlink⟩ := h.parent hn h0
      exact ⟨q, qn, hpar, hqlt, by rw [insertNode_heap]; grind, hlink⟩
    · obtain ⟨q, qn, hpar, hqlt, hq, hlink⟩ := h.parent hu h0
      by_cases hqp : q = p
      · subst hqp
        rw [hn] at hq
        cases hq
        refine ⟨q, { node with children := node.children.insertIfNew name s.nextAddr }, hpar,
          hqlt, ?_, ?_⟩
        · rw [insertNode_heap]
          grind
        · grind
      · exact ⟨q, qn, hpar, hqlt, by rw [insertNode_heap]; grind, hlink⟩
  · intro q qn nm a hq hu
    rw [insertNode_heap] at hq
    split_ifs at hq with h1 h2
    · cases hq
      simp at hu
    · cases hq
      subst h2
      by_cases hname : nm = name
      · obtain rfl : a = s.nextAddr := by grind
        exact ⟨_, by rw [insertNode_heap, if_pos rfl], rfl, hname.symm⟩
      · obtain ⟨n, hna, hnp, hnn⟩ := h.child hn (show node.children[nm]? = some a by grind)
        have := h.child_lt hn (show node.children[nm]? = some a by grind)
        exact ⟨n, by rw [insertNode_heap]; grind, hnp, hnn⟩
    · obtain ⟨n, hna, hnp, hnn⟩ := h.child hq hu
      by_cases hap : a = p
      · subst hap
        rw [hn] at hna
        cases hna
        refine ⟨{ node with children := node.children.insertIfNew name s.nextAddr }, ?_, hnp, hnn⟩
        rw [insertNode_heap, if_neg (ne_of_lt hlt), if_pos rfl]
      · exact ⟨n, by rw [insertNode_heap]; grind, hnp, hnn⟩
  · intro a n hu h0
    rw [insertNode_heap] at hu
    have := h.owner (a := a) (n := n)
    have := h.owner hn
    simp only [ProtocolHandler.insertNode]
    grind
  · exact h.session

/-- Replacing a node by one with the same links keeps the links. -/
theorem setNode (h : WellLinked s) {a : Addr} {node node' : Node} (hn : s.heap[a]? = some node)
    (hsame : SameLinks node node') : WellLinked (s.setNode a node') := by
  -- every object has a counterpart with the same links, in both directions
  have hto : ∀ {x : Addr} {n : Node}, s.heap[x]? = some n →
      ∃ n', (s.setNode a node').heap[x]? = some n' ∧ SameLinks n n' := by
    intro x n hx
    by_cases hxa : a = x
    · subst hxa
      rw [hn] at hx
      cases hx
      exact ⟨node', by simp [ProtocolHandler.setNode], hsame⟩
    · exact ⟨n, by simp only [ProtocolHandler.setNode]; grind, ⟨rfl, rfl, rfl, rfl, rfl⟩⟩
  have hfrom : ∀ {x : Addr} {n' : Node}, (s.setNode a node').heap[x]? = some n' →
      ∃ n, s.heap[x]? = some n ∧ SameLinks n n' := by
    intro x n' hx
    by_cases hxa : a = x
    · subst hxa
      obtain rfl : node' = n' := by simpa [ProtocolHandler.setNode] using hx
      exact ⟨node, hn, hsame⟩
    · exact ⟨n', by simp only [ProtocolHandler.setNode] at hx; grind, ⟨rfl, rfl, rfl, rfl, rfl⟩⟩
  constructor
  · intro u x hu
    obtain ⟨n, hx, hnu⟩ := h.mTree_heap hu
    obtain ⟨n', hx', hs⟩ := hto hx
    exact ⟨n', hx', hs.uuid.trans hnu⟩
  · intro x n' hx'
    obtain ⟨n, hx, -⟩ := hfrom hx'
    exact h.heap_lt hx
  · exact h.root_mTree
  · obtain ⟨r, hr, hr0, hrs⟩ := h.root_heap
    obtain ⟨r', hr', hs⟩ := hto hr
    exact ⟨r', hr', hs.parent.trans hr0, hs.sessionId.trans hrs⟩
  · intro x n' hx' h0
    obtain ⟨n, hx, hs⟩ := hfrom hx'
    obtain ⟨p, pn, hpar, hlt, hp, hlink⟩ := h.parent hx h0
    obtain ⟨pn', hp', hps⟩ := hto hp
    exact ⟨p, pn', hs.parent.trans hpar, hlt, hp', by rw [hps.children, hs.name]; exact hlink⟩
  · intro p pn' name x hp' hx
    obtain ⟨pn, hp, hps⟩ := hfrom hp'
    rw [hps.children] at hx
    obtain ⟨n, hn, hnp, hnn⟩ := h.child hp hx
    obtain ⟨n', hn', hs⟩ := hto hn
    exact ⟨n', hn', hs.parent.trans hnp, hs.name.trans hnn⟩
  · intro x n' hx' h0
    obtain ⟨n, hx, hs⟩ := hfrom hx'
    rw [hs.sessionId]
    exact h.owner hx h0
  · exact h.session

end WellLinked

/-! ## Deletion -/

/-- An object is referred to when an entry of `mTree` or of a children map leads to it. -/
theorem isReferenced_iff {s : ProtocolHandler} {a : Addr} :
    s.isReferenced a = true ↔ (∃ u : UInt64, s.mTree[u]? = some a) ∨
      ∃ (p : Addr) (pn : Node) (name : Name), s.heap[p]? = some pn ∧
        pn.children[name]? = some a := by
  simp only [isReferenced, Bool.or_eq_true, List.any_eq_true, Prod.exists, beq_iff_eq,
    Std.ExtTreeMap.mem_toList_iff_getElem?_eq_some, exists_eq_right, exists_and_left]

/-! Releasing an object changes nothing but the heap. -/

section Release

variable (s : ProtocolHandler) (a : Addr)

@[simp] theorem release_mTree : (s.release a).mTree = s.mTree := by
  unfold release; split <;> rfl

@[simp] theorem release_mSessions : (s.release a).mSessions = s.mSessions := by
  unfold release; split <;> rfl

@[simp] theorem release_mConnectionToSessionId :
    (s.release a).mConnectionToSessionId = s.mConnectionToSessionId := by
  unfold release; split <;> rfl

@[simp] theorem release_mUuidCtr : (s.release a).mUuidCtr = s.mUuidCtr := by
  unfold release; split <;> rfl

@[simp] theorem release_dropped : (s.release a).dropped = s.dropped := by
  unfold release; split <;> rfl

@[simp] theorem release_nextAddr : (s.release a).nextAddr = s.nextAddr := by
  unfold release; split <;> rfl

end Release

section Delete

variable {s : ProtocolHandler} {uuid : UInt64} {a p : Addr} {node parent : Node}

/-- The heap after a deletion: the deleted node is referred to by nothing else, so its object goes
away, and its parent loses an entry. -/
theorem WellLinked.removeNode_heap (h : WellLinked s) (ha : s.mTree[uuid]? = some a)
    (hn : s.heap[a]? = some node) (hp : node.parent = some p) (hpn : s.heap[p]? = some parent)
    (x : Addr) :
    (s.removeNode uuid a node p parent).heap[x]? =
      if x = a then none
      else if x = p then some { parent with children := parent.children.erase node.name }
      else s.heap[x]? := by
  have h0 : a ≠ 0 := by
    rintro rfl
    obtain ⟨r, hr, hr0, -⟩ := h.root_heap
    grind
  obtain ⟨q, qn, hq, hlt, hqn, hlink⟩ := h.parent hn h0
  obtain rfl : p = q := by simpa [hp] using hq
  obtain rfl : parent = qn := by simpa [hpn] using hqn
  set s₁ : ProtocolHandler := { s with
    mTree := s.mTree.erase uuid
    heap := s.heap.insert p { parent with children := parent.children.erase node.name } } with hs₁
  have hfree : s₁.isReferenced a = false := by
    rw [Bool.eq_false_iff, ne_eq, isReferenced_iff]
    rintro (⟨u, hu⟩ | ⟨y, yn, name, hy, hlink'⟩)
    · obtain ⟨n, hn', hnu⟩ := h.mTree_heap (u := u) (a := a) (by grind)
      obtain ⟨n', hn'', hnu'⟩ := h.mTree_heap ha
      grind
    · by_cases hyp : y = p
      · subst hyp
        have hyn : yn = { parent with children := parent.children.erase node.name } := by grind
        subst hyn
        have hne : name ≠ node.name := by grind
        exact hne (h.child_unique hpn (show parent.children[name]? = some a by grind) hpn hlink).2
      · exact hyp (h.child_unique (by grind) hlink' hpn hlink).1
  have : (s.removeNode uuid a node p parent).heap = s₁.heap.erase a := by
    simp only [ProtocolHandler.removeNode, release, ← hs₁, hfree]
    rfl
  rw [this]
  grind

/-- Deleting a childless node other than the root keeps the links. -/
theorem WellLinked.removeNode (h : WellLinked s) (ha : s.mTree[uuid]? = some a)
    (hn : s.heap[a]? = some node) (hch : node.children.size = 0) (hp : node.parent = some p)
    (hpn : s.heap[p]? = some parent) : WellLinked (s.removeNode uuid a node p parent) := by
  have hheap := h.removeNode_heap ha hn hp hpn
  have hmTree : (s.removeNode uuid a node p parent).mTree = s.mTree.erase uuid := by
    simp [ProtocolHandler.removeNode]
  obtain ⟨r, hr, hr0, hrs⟩ := h.root_heap
  have h0 : a ≠ 0 := by
    rintro rfl
    grind
  have hlink : parent.children[node.name]? = some a := by
    obtain ⟨q, qn, hq, -, hqn, hlink⟩ := h.parent hn h0
    obtain rfl : p = q := by simpa [hp] using hq
    obtain rfl : parent = qn := by simpa [hpn] using hqn
    exact hlink
  have hempty : ∀ name : Name, node.children[name]? = none := by
    rw [← Std.ExtTreeMap.eq_empty_iff_size_eq_zero] at hch
    simp [hch]
  constructor
  · intro u x hu
    rw [hmTree] at hu
    obtain ⟨n, hx, hnu⟩ := h.mTree_heap (u := u) (a := x) (by grind)
    have hxa : x ≠ a := by
      rintro rfl
      obtain ⟨n', hn', hnu'⟩ := h.mTree_heap ha
      grind
    rw [hheap, if_neg hxa]
    by_cases hxp : x = p
    · subst hxp
      rw [hpn] at hx
      cases hx
      exact ⟨_, if_pos rfl, hnu⟩
    · exact ⟨n, by rw [if_neg hxp, hx], hnu⟩
  · intro x n hx
    rw [hheap] at hx
    simp only [ProtocolHandler.removeNode, release_nextAddr]
    have := h.heap_lt (a := x) (n := n)
    have := h.heap_lt hpn
    grind
  · have hu : uuid ≠ 0 := by
      rintro rfl
      have := h.root_mTree
      grind
    rw [hmTree]
    have := h.root_mTree
    grind
  · rw [hheap, if_neg (Ne.symm h0)]
    by_cases h0p : 0 = p
    · subst h0p
      rw [hpn] at hr
      cases hr
      exact ⟨_, if_pos rfl, hr0, hrs⟩
    · exact ⟨r, by rw [if_neg h0p, hr], hr0, hrs⟩
  · intro x n' hx hx0
    rw [hheap] at hx
    split_ifs at hx with hxa hxp
    · cases hx
      subst hxp
      obtain ⟨q, qn, hpar, hlt, hq, hqx⟩ := h.parent hpn hx0
      have hqa : q ≠ a := by
        rintro rfl
        grind
      exact ⟨q, qn, hpar, hlt, by rw [hheap, if_neg hqa, if_neg (ne_of_lt hlt), hq], hqx⟩
    · obtain ⟨q, qn, hpar, hlt, hq, hqx⟩ := h.parent hx hx0
      have hqa : q ≠ a := by
        rintro rfl
        grind
      by_cases hqp : q = p
      · subst hqp
        rw [hpn] at hq
        cases hq
        refine ⟨q, { parent with children := parent.children.erase node.name }, hpar, hlt,
          by rw [hheap, if_neg hqa, if_pos rfl], ?_⟩
        -- another name, since `node.name` leads to `a`
        have : node.name ≠ n'.name := by grind
        grind
      · exact ⟨q, qn, hpar, hlt, by rw [hheap, if_neg hqa, if_neg hqp, hq], hqx⟩
  · intro q qn name x hq hx
    rw [hheap] at hq
    have hold : ∃ qn', s.heap[q]? = some qn' ∧ qn'.children[name]? = some x ∧
        (q = p → name ≠ node.name) := by
      split_ifs at hq with hqa hqp
      · cases hq
        exact ⟨parent, hqp ▸ hpn, by grind, fun _ => by grind⟩
      · exact ⟨qn, hq, hx, fun hqp' => absurd hqp' hqp⟩
    obtain ⟨qn', hq', hx', hne⟩ := hold
    obtain ⟨n, hxn, hnp, hnn⟩ := h.child hq' hx'
    have hxa : x ≠ a := by
      rintro rfl
      obtain ⟨hqp, hname⟩ := h.child_unique hq' hx' hpn hlink
      exact hne hqp hname
    rw [hheap, if_neg hxa]
    by_cases hxp : x = p
    · subst hxp
      rw [hpn] at hxn
      cases hxn
      exact ⟨_, if_pos rfl, hnp, hnn⟩
    · exact ⟨n, by rw [if_neg hxp, hxn], hnp, hnn⟩
  · intro x n hx hx0
    rw [hheap] at hx
    simp only [ProtocolHandler.removeNode, release_mSessions]
    have := h.owner (a := x) (n := n)
    have := h.owner hpn
    grind
  · intro c sid hc
    simp only [ProtocolHandler.removeNode, release_mConnectionToSessionId,
      release_mSessions] at hc ⊢
    exact h.session hc

end Delete

/-! ## Runs -/

/-- Every completed step keeps the links. -/
theorem WellLinked.stateChange {s s' : ProtocolHandler} (h : WellLinked s)
    (hstep : StateChange s s') : WellLinked s' := by
  cases hstep with
  | unchanged => exact h
  | signin c => exact h.signin c
  | create _ _ _ _ _ _ hp hc hn ha => exact h.insertNode hn ha (h.session hc)
  | delete _ _ _ _ _ ha hn hch hp hpn => exact h.removeNode ha hn hch hp hpn
  | setNode _ _ _ _ ha hn hsame => exact h.setNode hn hsame
  | forwardRpc sid t =>
    exact ⟨h.mTree_heap, h.heap_lt, h.root_mTree, h.root_heap, h.parent, h.child, h.owner,
      h.session⟩
  | takeTranslation t =>
    exact ⟨h.mTree_heap, h.heap_lt, h.root_mTree, h.root_heap, h.parent, h.child, h.owner,
      h.session⟩
  | drop c =>
    exact ⟨h.mTree_heap, h.heap_lt, h.root_mTree, h.root_heap, h.parent, h.child, h.owner,
      h.session⟩
  | disconnect c sid session hc hs =>
    refine ⟨h.mTree_heap, h.heap_lt, h.root_mTree, h.root_heap, h.parent, h.child, ?_, ?_⟩
    · intro a n ha h0
      have := h.owner ha h0
      simp only [signout, ProtocolHandler.drop]
      grind
    · intro c' sid' hc'
      have : s.mConnectionToSessionId[c']? = some sid' → sid' ∈ s.mSessions := h.session
      simp only [signout, ProtocolHandler.drop] at hc' ⊢
      grind

/-- The runs of the server, labelled by the events with what is sent. -/
abbrev ServerRun : ProtocolHandler → List (Event × List Output) → ProtocolHandler → Prop :=
  Library.Run (Library.StepOf step)

/-- Every reachable state is well linked. -/
theorem wellLinked_of_run {es : List (Event × List Output)} {s : ProtocolHandler}
    (h : ServerRun .init es s) : WellLinked s :=
  h.invariant (fun hs hstep => hs.stateChange (step_cases hstep).stateChange) wellLinked_init

end PropertyTree.Server
