import PropertyTree.Client.Step

/-!
# The objects of a mirror

Node objects keep their uuid, and nothing but the end of its last `shared_ptr` takes one away:
`Extends m m'` says so of two mirrors, and holds between the mirrors before and after every change
the client makes.  With it goes what `mTree` refers to, and what a thread asks for: the request of a
call names the uuid of the object the call works on, as long as the call lasts.
-/

namespace PropertyTree.Client

variable {m m' m'' : Mirror} {u : UInt64} {a : Addr}

/-- Addresses are handed out in order, and an entry of `mTree` refers to an object that carries its
uuid. -/
structure Mirror.WellFormed (m : Mirror) : Prop where
  heap_lt : ∀ {a : Addr} {n : Node}, m.heap[a]? = some n → a < m.nextAddr
  mTree_heap : ∀ {u : UInt64} {a : Addr}, m.mTree[u]? = some a →
    ∃ n : Node, m.heap[a]? = some n ∧ n.uuid = u

/-- Every object of `m` is still there in `m'`, with its uuid. -/
def Mirror.Extends (m m' : Mirror) : Prop :=
  ∀ {a : Addr} {n : Node}, m.heap[a]? = some n → ∃ n' : Node, m'.heap[a]? = some n' ∧ n'.uuid = n.uuid

/-- A well-formed mirror that extends a well-formed one. -/
structure Mirror.Grows (m m' : Mirror) : Prop where
  wellFormed : m'.WellFormed
  objects : m.Extends m'

namespace Mirror

theorem WellFormed.grows_refl (h : m.WellFormed) : m.Grows m :=
  ⟨h, fun hn => ⟨_, hn, rfl⟩⟩

theorem Grows.trans (h : m.Grows m') (h' : m'.Grows m'') : m.Grows m'' := by
  refine ⟨h'.wellFormed, fun hn => ?_⟩
  obtain ⟨n', hn', hu⟩ := h.objects hn
  obtain ⟨n'', hn'', hu'⟩ := h'.objects hn'
  exact ⟨n'', hn'', hu'.trans hu⟩

/-- A mirror that differs in nothing but the handlers and their calls. -/
theorem Grows.congr (h : m.Grows m') (hmTree : m''.mTree = m'.mTree) (hheap : m''.heap = m'.heap)
    (hnext : m''.nextAddr = m'.nextAddr) : m.Grows m'' := by
  obtain ⟨⟨hlt, htree⟩, hobj⟩ := h
  refine ⟨⟨fun hn => ?_, fun hu => ?_⟩, fun hn => ?_⟩
  · rw [hheap] at hn
    exact hnext ▸ hlt hn
  · rw [hmTree] at hu
    exact hheap ▸ htree hu
  · exact hheap ▸ hobj hn

/-- A new object, under its uuid unless that is taken. -/
theorem WellFormed.makeNode_emplace (h : m.WellFormed) (name : Name) (parent : Option Addr)
    (u : UInt64) : m.Grows ((m.makeNode name parent u).emplace u m.nextAddr) := by
  have hheap : ∀ x : Addr, ((m.makeNode name parent u).emplace u m.nextAddr).heap[x]? =
      if x = m.nextAddr then some (.make name parent u) else m.heap[x]? := by
    intro x
    simp only [emplace, makeNode]
    grind
  have hmTree : ∀ v : UInt64, ((m.makeNode name parent u).emplace u m.nextAddr).mTree[v]? =
      if v = u ∧ m.mTree[u]? = none then some m.nextAddr else m.mTree[v]? := by
    intro v
    simp only [emplace, makeNode]
    grind
  have hnext : ((m.makeNode name parent u).emplace u m.nextAddr).nextAddr = m.nextAddr + 1 := rfl
  refine ⟨⟨fun {x n} hn => ?_, fun {v x} hv => ?_⟩, fun {x n} hn => ?_⟩
  · rw [hheap] at hn
    rw [hnext]
    split_ifs at hn with hx
    · exact hx ▸ Nat.lt_succ_self _
    · exact Nat.lt_succ_of_lt (h.heap_lt hn)
  · rw [hmTree] at hv
    split_ifs at hv with hvu
    · cases hv
      exact ⟨_, (hheap _).trans (if_pos rfl), hvu.1.symm⟩
    · obtain ⟨n, hn, hnu⟩ := h.mTree_heap hv
      exact ⟨n, by rw [hheap, if_neg (h.heap_lt hn).ne, hn], hnu⟩
  · exact ⟨n, by rw [hheap, if_neg (h.heap_lt hn).ne, hn], rfl⟩

/-- A change of an object that leaves its uuid alone. -/
theorem WellFormed.modifyNode (h : m.WellFormed) (a : Addr) {f : Node → Node}
    (hf : ∀ n, (f n).uuid = n.uuid) : m.Grows (m.modifyNode a f) := by
  have hobj : m.Extends (m.modifyNode a f) := by
    intro x n hn
    rw [modifyNode_heap, hn]
    split_ifs
    · exact ⟨_, rfl, hf n⟩
    · exact ⟨n, rfl, rfl⟩
  refine ⟨⟨fun {x n} hn => ?_, fun {v x} hv => ?_⟩, hobj⟩
  · rw [modifyNode_heap] at hn
    split_ifs at hn
    · obtain ⟨n₀, hn₀, -⟩ := Option.map_eq_some_iff.mp hn
      exact h.heap_lt hn₀
    · exact h.heap_lt hn
  · obtain ⟨n, hn, hnu⟩ := h.mTree_heap hv
    obtain ⟨n', hn', hnu'⟩ := hobj hn
    exact ⟨n', hn', hnu'.trans hnu⟩

theorem WellFormed.link (h : m.WellFormed) (p : Addr) (name : Name) (a : Addr) :
    m.Grows (m.link p name a) :=
  h.modifyNode p fun _ => rfl

theorem WellFormed.unlink (h : m.WellFormed) (p : Addr) (name : Name) : m.Grows (m.unlink p name) :=
  h.modifyNode p fun _ => rfl

theorem WellFormed.callTreeAdd (h : m.WellFormed) (a : Addr) : m.Grows (m.callTreeAdd a) :=
  h.grows_refl.congr (callTreeAdd_mTree a) (callTreeAdd_heap a) (callTreeAdd_nextAddr a)

theorem WellFormed.callUpdate (h : m.WellFormed) (a : Addr) : m.Grows (m.callUpdate a) :=
  h.grows_refl.congr (callUpdate_mTree a) (callUpdate_heap a) (callUpdate_nextAddr a)

/-! ## The changes the client makes -/

theorem WellFormed.parentOrGhost (h : m.WellFormed) (u : UInt64) :
    m.Grows (m.parentOrGhost u).1 := by
  unfold Mirror.parentOrGhost
  split
  · exact h.grows_refl
  · exact h.makeNode_emplace _ _ _

theorem WellFormed.fillNode (h : m.WellFormed) (a p : Addr) (name : Name) :
    m.Grows (m.fillNode a p name) := by
  have h₁ := h.modifyNode a (f := fun node => { node with name := name, parent := some p })
    fun _ => rfl
  have h₂ := h₁.trans (h₁.wellFormed.link p name a)
  unfold Mirror.fillNode
  simp only
  split
  · exact h₂.trans (h₂.wellFormed.callTreeAdd a)
  · exact h₂

theorem WellFormed.insertNode (h : m.WellFormed) (p : Addr) (name : Name) (u : UInt64) :
    m.Grows (m.insertNode p name u) := by
  have h₁ := h.makeNode_emplace name (some p) u
  have h₂ := h₁.trans (h₁.wellFormed.link p name m.nextAddr)
  exact h₂.trans (h₂.wellFormed.callTreeAdd m.nextAddr)

theorem WellFormed.addNode (h : m.WellFormed) (i : NamedNode) : m.Grows (m.addNode i) := by
  have h₁ := h.parentOrGhost i.parentUuid
  unfold Mirror.addNode
  simp only
  split
  · exact h₁.trans (h₁.wellFormed.fillNode _ _ _)
  · exact h₁.trans (h₁.wellFormed.insertNode _ _ _)

theorem WellFormed.removeNode (h : m.WellFormed) (u : UInt64) : m.Grows (m.removeNode u) := by
  cases hu : m.mTree[u]? with
  | none => simpa only [Mirror.removeNode, hu] using h.grows_refl
  | some a =>
    obtain ⟨n, hn, -⟩ := h.mTree_heap hu
    have hdet := removeNode_of_known hu hn
    have hobj : m.Extends (m.removeNode u) := by
      intro x nx hx
      rw [hdet.heap, hx]
      split_ifs
      · exact ⟨_, rfl, rfl⟩
      · exact ⟨nx, rfl, rfl⟩
    refine ⟨⟨fun {x nx} hx => ?_, fun {v x} hv => ?_⟩, hobj⟩
    · rw [hdet.heap] at hx
      rw [hdet.nextAddr]
      split_ifs at hx
      · obtain ⟨n₀, hn₀, -⟩ := Option.map_eq_some_iff.mp hx
        exact h.heap_lt hn₀
      · exact h.heap_lt hx
    · rw [hdet.mTree] at hv
      split_ifs at hv
      obtain ⟨nx, hnx, hnu⟩ := h.mTree_heap hv
      obtain ⟨n', hn', hnu'⟩ := hobj hnx
      exact ⟨n', hn', hnu'.trans hnu⟩

theorem WellFormed.handleTreeUpdateNotification (h : m.WellFormed) (add : List NamedNode)
    (del : List UInt64) : m.Grows (m.handleTreeUpdateNotification add del) := by
  have hadd : m.Grows (m.addNodes add) := by
    induction add generalizing m with
    | nil => exact h.grows_refl
    | cons i add ih => exact (h.addNode i).trans (ih (h.addNode i).wellFormed)
  have hdel : ∀ {m : Mirror}, m.WellFormed → m.Grows (m.removeNodes del) := by
    induction del with
    | nil => exact fun h => h.grows_refl
    | cons u del ih => exact fun h => (h.removeNode u).trans (ih (h.removeNode u).wellFormed)
  exact hadd.trans (hdel hadd.wellFormed)

theorem WellFormed.createNode (h : m.WellFormed) (p : Addr) (name : Name) (u : UInt64) :
    m.Grows (m.createNode p name u) := by
  unfold Mirror.createNode
  split
  · exact h.grows_refl
  · have h₁ := h.makeNode_emplace name (some p) u
    exact h₁.trans (h₁.wellFormed.modifyNode p fun _ => rfl)

theorem WellFormed.destroyNode (h : m.WellFormed) (a : Addr) : m.Grows (m.destroyNode a) := by
  unfold Mirror.destroyNode
  split
  · exact h.grows_refl
  · split
    · exact h.grows_refl
    · exact h.unlink _ _

theorem WellFormed.emplaceRoot (h : m.WellFormed) : m.Grows m.emplaceRoot := by
  unfold Mirror.emplaceRoot
  split
  · exact h.grows_refl
  · exact h.makeNode_emplace _ _ _

theorem WellFormed.setup (h : m.WellFormed) (s : Setup) : m.Grows (s.apply m) := by
  cases s with
  | setTreeAddHandler handler => exact h.grows_refl.congr rfl rfl rfl
  | setTreeRemoveHandler handler => exact h.grows_refl.congr rfl rfl rfl
  | setHRcpHandler a handler => exact h.modifyNode a fun _ => rfl
  | setUpdateHandler a handler => exact h.modifyNode a fun _ => rfl

/-- The end of an object that `mTree` does not refer to. -/
theorem WellFormed.free (h : m.WellFormed) (ha : m.isReferenced a = false) :
    (m.free a).WellFormed := by
  rw [Bool.eq_false_iff, ne_eq, isReferenced_iff, not_or] at ha
  refine ⟨fun {x n} hn => ?_, fun {u x} hu => ?_⟩
  · simp only [Mirror.free] at hn ⊢
    have := h.heap_lt (a := x) (n := n)
    grind
  · obtain ⟨n, hn, hnu⟩ := h.mTree_heap hu
    have hx : x ≠ a := by
      rintro rfl
      exact ha.1 ⟨u, hu⟩
    refine ⟨n, ?_, hnu⟩
    simp only [Mirror.free]
    grind

end Mirror

/-! ## What the threads ask for -/

/-- The request of a call that is not sent yet. -/
def Stage.unsent : Stage → Option PropertyTreeMessages
  | begun q | skipping q | numbered q _ => some q
  | _ => none

/-- The number of the request of a call that waits for its response, or has it in hand. -/
def Stage.number : Stage → Option ℕ
  | waiting _ r | taken _ r _ | answered r _ => some r
  | _ => none

/-- The message `q` is the request of the call, on the object the call works on. -/
def Asks (m : Mirror) (call : ApiCall) (q : PropertyTreeMessages) : Prop :=
  ∃ node : Node, q = call.request node ∧
    ∀ a, call.node = some a → ∃ n : Node, m.heap[a]? = some n ∧ n.uuid = node.uuid

/-- What a call sends is a request. -/
theorem ApiCall.isRequest_request (call : ApiCall) (node : Node) :
    (call.request node).isRequest = true := by
  cases call <;> rfl

section Threads

variable {call : ApiCall} {q : PropertyTreeMessages}

theorem Asks.isRequest (h : Asks m call q) : q.isRequest = true := by
  obtain ⟨node, rfl, -⟩ := h
  exact call.isRequest_request node

theorem Asks.extends (h : Asks m call q) (hm : m.Extends m') : Asks m' call q := by
  obtain ⟨node, hq, hnode⟩ := h
  refine ⟨node, hq, fun a ha => ?_⟩
  obtain ⟨n, hn, hu⟩ := hnode a ha
  obtain ⟨n', hn', hu'⟩ := hm hn
  exact ⟨n', hn', hu'.trans hu⟩

/-- A call that does not work on the destroyed object asks for the same. -/
theorem Asks.free (h : Asks m call q) (ha : call.node ≠ some a) : Asks (m.free a) call q := by
  obtain ⟨node, hq, hnode⟩ := h
  refine ⟨node, hq, fun x hx => ?_⟩
  obtain ⟨n, hn, hu⟩ := hnode x hx
  refine ⟨n, ?_, hu⟩
  simp only [Mirror.free]
  grind

/-- An object that the client uses is the object of a call. -/
theorem uses_eq_false {k : Client} (h : k.uses a = false) {i : ThreadId} {th : Thread}
    (hi : k.threads[i]? = some th) : th.call.node ≠ some a := by
  intro hth
  have hmem := Std.ExtTreeMap.mem_toList_iff_getElem?_eq_some.mpr hi
  simp only [uses, Bool.or_eq_false_iff, List.any_eq_false, beq_iff_eq] at h
  exact h.1 _ hmem hth

end Threads

end PropertyTree.Client
