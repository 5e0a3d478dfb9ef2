import PropertyTree.Client.Changes

/-!
# Data that one call has written

`Property::set` writes the value before the server has accepted it.  Nothing else that happens to
the mirror looks at the data of a node, so that whatever the reader and the other threads do, while
the lock keeps them from writing to the same node, they do alike with the value and without it:
`withData` commutes with every change of the mirror.
-/

namespace PropertyTree.Client

/-- A node with the data `v`. -/
def Node.withData (v : Buffer) (n : Node) : Node :=
  { n with data := v }

namespace Mirror

variable {m : Mirror} {a p x : Addr} {v w : Buffer} {name : Name} {u : UInt64} {f : Node → Node}

/-- The mirror with the data `v` in the object at `a`. -/
def withData (m : Mirror) (a : Addr) (v : Buffer) : Mirror :=
  m.modifyNode a (Node.withData v)

@[simp] theorem withData_mTree : (m.withData a v).mTree = m.mTree := rfl

@[simp] theorem withData_nextAddr : (m.withData a v).nextAddr = m.nextAddr := rfl

@[simp] theorem withData_mTreeAddHandler :
    (m.withData a v).mTreeAddHandler = m.mTreeAddHandler := rfl

/-- The objects with the data `v` in the one at `a`. -/
theorem withData_heap (x : Addr) : (m.withData a v).heap[x]? =
    if x = a then (m.heap[x]?).map (Node.withData v) else m.heap[x]? :=
  modifyNode_heap a _ x

/-- Data that is there already. -/
theorem withData_eq_self {n : Node} (h : m.heap[a]? = some n) : m.withData a n.data = m := by
  obtain ⟨mTree, heap, nextAddr, add, remove, calls⟩ := m
  simp only [withData, modifyNode, Mirror.mk.injEq, true_and, and_true] at h ⊢
  apply Std.ExtTreeMap.ext_getElem?
  intro y
  by_cases hy : a = y
  · subst hy
    rw [Std.ExtTreeMap.getElem?_modify_self, h]
    rfl
  · grind

/-- What is no data is the same with the data and without. -/
theorem withData_heap_map {α : Type*} {g : Node → α} (hg : ∀ n, g (n.withData v) = g n) (x : Addr) :
    ((m.withData a v).heap[x]?).map g = (m.heap[x]?).map g := by
  rw [withData_heap]
  split_ifs
  · rw [Option.map_map]
    exact congrArg (fun h => (m.heap[x]?).map h) (funext hg)
  · rfl

theorem withData_heap_bind {α : Type*} {g : Node → Option α} (hg : ∀ n, g (n.withData v) = g n)
    (x : Addr) : ((m.withData a v).heap[x]?).bind g = (m.heap[x]?).bind g := by
  rw [withData_heap]
  split_ifs
  · rw [Option.bind_map]
    exact congrArg (fun h => (m.heap[x]?).bind h) (funext hg)
  · rfl

/-- An object keeps its name and its parent. -/
theorem exists_withData_heap {n : Node} (h : m.heap[x]? = some n) :
    ∃ n' : Node, (m.withData a v).heap[x]? = some n' ∧ n'.parent = n.parent ∧ n'.name = n.name := by
  rw [withData_heap, h]
  split_ifs
  · exact ⟨_, rfl, rfl, rfl⟩
  · exact ⟨n, rfl, rfl, rfl⟩

theorem withData_heap_eq_none (h : m.heap[x]? = none) : (m.withData a v).heap[x]? = none := by
  rw [withData_heap, h, Option.map_none, ite_self]

@[simp] theorem withData_lock (w : Option Addr) : (m.withData a v).lock w = m.lock w := by
  cases w with
  | none => rfl
  | some b =>
    simp only [lock, withData, modifyNode, Option.filter_some, Std.ExtTreeMap.contains_modify]

/-! ## The changes of a mirror -/

/-- Two changes of objects commute when they do on each object. -/
theorem modifyNode_comm {g : Node → Node} (h : a = x → ∀ n, f (g n) = g (f n)) :
    (m.modifyNode a g).modifyNode x f = (m.modifyNode x f).modifyNode a g := by
  simp only [modifyNode, Mirror.mk.injEq, true_and, and_true]
  apply Std.ExtTreeMap.ext_getElem?
  intro y
  grind

/-- A change of something else than data. -/
theorem withData_modifyNode (h : ∀ n, f (n.withData v) = (f n).withData v) :
    (m.withData a v).modifyNode x f = (m.modifyNode x f).withData a v :=
  modifyNode_comm fun _ => h

/-- A change of another object. -/
theorem withData_modifyNode_of_ne (h : x ≠ a) :
    (m.withData a v).modifyNode x f = (m.modifyNode x f).withData a v :=
  modifyNode_comm fun hax => absurd hax.symm h

theorem withData_makeNode (h : a < m.nextAddr) (w : Option Addr) :
    (m.withData a v).makeNode name w u = (m.makeNode name w u).withData a v := by
  simp only [withData, modifyNode, makeNode, Mirror.mk.injEq, true_and, and_true]
  apply Std.ExtTreeMap.ext_getElem?
  intro y
  have hne : a ≠ m.nextAddr := h.ne
  grind

@[simp] theorem withData_emplace : (m.withData a v).emplace u x = (m.emplace u x).withData a v := rfl

@[simp] theorem withData_link :
    (m.withData a v).link p name x = (m.link p name x).withData a v :=
  withData_modifyNode fun _ => rfl

@[simp] theorem withData_linkIfNew :
    (m.withData a v).linkIfNew p name x = (m.linkIfNew p name x).withData a v :=
  withData_modifyNode fun _ => rfl

@[simp] theorem withData_unlink :
    (m.withData a v).unlink p name = (m.unlink p name).withData a v :=
  withData_modifyNode fun _ => rfl

@[simp] theorem withData_callTreeAdd :
    (m.withData a v).callTreeAdd x = (m.callTreeAdd x).withData a v := by
  unfold callTreeAdd
  rw [withData_mTreeAddHandler]
  split_ifs <;> rfl

@[simp] theorem withData_callTreeRemove :
    (m.withData a v).callTreeRemove x = (m.callTreeRemove x).withData a v := by
  unfold callTreeRemove
  have : (m.withData a v).mTreeRemoveHandler = m.mTreeRemoveHandler := rfl
  rw [this]
  split_ifs <;> rfl

theorem withData_callUpdate :
    (m.withData a v).callUpdate x = (m.callUpdate x).withData a v := by
  unfold callUpdate
  rw [withData_heap_map fun _ => rfl]
  split_ifs <;> rfl

theorem withData_emplaceRoot (h : a < m.nextAddr) :
    (m.withData a v).emplaceRoot = m.emplaceRoot.withData a v := by
  unfold emplaceRoot
  rw [withData_mTree]
  split
  · rfl
  · rw [withData_makeNode h]
    rfl

theorem withData_parentOrGhost (h : a < m.nextAddr) :
    (m.withData a v).parentOrGhost u =
      ((m.parentOrGhost u).1.withData a v, (m.parentOrGhost u).2) := by
  unfold parentOrGhost ghost
  rw [withData_mTree]
  split
  · rfl
  · rw [withData_makeNode h]
    rfl

theorem withData_fillNode :
    (m.withData a v).fillNode x p name = (m.fillNode x p name).withData a v := by
  unfold fillNode
  rw [withData_heap_bind fun _ => rfl, withData_modifyNode
    (f := fun node => { node with name := name, parent := some p }) fun _ => rfl]
  simp only [withData_link, withData_lock, withData_callTreeAdd]
  split_ifs <;> rfl

theorem withData_insertNode (h : a < m.nextAddr) :
    (m.withData a v).insertNode p name u = (m.insertNode p name u).withData a v := by
  unfold insertNode
  simp only [withData_nextAddr, withData_makeNode h, withData_emplace, withData_link,
    withData_callTreeAdd]

theorem withData_addNode (h : a < m.nextAddr) (i : NamedNode) :
    (m.withData a v).addNode i = (m.addNode i).withData a v := by
  have hlt : a < (m.parentOrGhost i.parentUuid).1.nextAddr := by
    unfold parentOrGhost
    split
    · exact h
    · exact Nat.lt_succ_of_lt h
  unfold addNode
  rw [withData_parentOrGhost h, withData_mTree]
  cases m.mTree[i.uuid]? with
  | some b => exact withData_fillNode
  | none => exact withData_insertNode hlt

/-- Objects are not unmade by an entry. -/
theorem nextAddr_le_addNode (m : Mirror) (i : NamedNode) : m.nextAddr ≤ (m.addNode i).nextAddr := by
  have hghost : m.nextAddr ≤ (m.parentOrGhost i.parentUuid).1.nextAddr := by
    unfold parentOrGhost
    split
    · exact le_rfl
    · exact Nat.le_succ _
  unfold addNode
  cases m.mTree[i.uuid]? with
  | some b =>
    simp only [fillNode]
    split_ifs
    · simpa using hghost
    · simpa using hghost
  | none =>
    refine hghost.trans ?_
    simp [insertNode, makeNode, emplace]

theorem withData_addNodes (h : a < m.nextAddr) (l : List NamedNode) :
    (m.withData a v).addNodes l = (m.addNodes l).withData a v := by
  induction l generalizing m with
  | nil => rfl
  | cons i l ih =>
    simp only [addNodes, List.foldl_cons] at ih ⊢
    rw [withData_addNode h, ih (h.trans_le (nextAddr_le_addNode m i))]

theorem withData_removeNode (i : UInt64) :
    (m.withData a v).removeNode i = (m.removeNode i).withData a v := by
  unfold removeNode
  rw [withData_mTree]
  cases m.mTree[i]? with
  | none => rfl
  | some x =>
    simp only [withData_callTreeRemove]
    generalize m.callTreeRemove x = m
    -- the name and the parent of the removed node are the same with the data
    cases hx : m.heap[x]? with
    | none =>
      rw [withData_heap_eq_none hx]
      rfl
    | some n =>
      obtain ⟨n', hn', hparent, hname⟩ := exists_withData_heap (a := a) (v := v) hx
      simp only [hn', hparent, hname, withData_lock, withData_unlink]
      cases m.lock n.parent <;> rfl

theorem withData_removeNodes (l : List UInt64) :
    (m.withData a v).removeNodes l = (m.removeNodes l).withData a v := by
  induction l generalizing m with
  | nil => rfl
  | cons i l ih =>
    simp only [removeNodes, List.foldl_cons] at ih ⊢
    rw [withData_removeNode, ih]

theorem withData_createNode (h : a < m.nextAddr) :
    (m.withData a v).createNode p name u = (m.createNode p name u).withData a v := by
  unfold createNode
  rw [withData_mTree]
  split
  · rfl
  · simp only [withData_nextAddr, withData_makeNode h, withData_emplace, withData_linkIfNew]

theorem withData_destroyNode :
    (m.withData a v).destroyNode x = (m.destroyNode x).withData a v := by
  unfold destroyNode
  cases hx : m.heap[x]? with
  | none => rw [withData_heap_eq_none hx]
  | some n =>
    obtain ⟨n', hn', hparent, hname⟩ := exists_withData_heap (a := a) (v := v) hx
    simp only [hn', hparent, hname, withData_lock, withData_unlink]
    cases m.lock n.parent <;> rfl

theorem withData_setup (s : Setup) : s.apply (m.withData a v) = (s.apply m).withData a v := by
  cases s with
  | setTreeAddHandler handler => rfl
  | setTreeRemoveHandler handler => rfl
  | setHRcpHandler b handler => exact withData_modifyNode fun _ => rfl
  | setUpdateHandler b handler => exact withData_modifyNode fun _ => rfl

theorem withData_free (h : x ≠ a) : (m.withData a v).free x = (m.free x).withData a v := by
  simp only [withData, modifyNode, free, Mirror.mk.injEq, true_and, and_true]
  apply Std.ExtTreeMap.ext_getElem?
  intro y
  grind

@[simp] theorem withData_isReferenced (x : Addr) :
    (m.withData a v).isReferenced x = m.isReferenced x := by
  have hchild : ∀ (p : Addr) (name : Name) (y : Addr),
      (∃ pn : Node, (m.withData a v).heap[p]? = some pn ∧ pn.children[name]? = some y) ↔
        ∃ pn : Node, m.heap[p]? = some pn ∧ pn.children[name]? = some y := by
    intro p name y
    simp only [← Option.bind_eq_some_iff]
    rw [withData_heap_bind fun _ => rfl]
  rw [Bool.eq_iff_iff, isReferenced_iff, isReferenced_iff]
  refine or_congr Iff.rfl (exists_congr fun p => ?_)
  rw [exists_comm, exists_comm (α := Node)]
  exact exists_congr fun name => hchild p name x

end Mirror

end PropertyTree.Client
