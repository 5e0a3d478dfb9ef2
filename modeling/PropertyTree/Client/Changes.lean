import PropertyTree.Client.Transactions

/-!
# What a step does to the mirror

Most steps of a client leave the shape of its mirror alone: which objects there are, under which
uuids, with which names, parents and children.  `MirrorChange` lists the others, with the threads
and the messages they go back to.
-/

namespace PropertyTree.Client

/-- What a node object has besides its data and its handlers. -/
def Node.shape (n : Node) : Name × Std.ExtTreeMap Name Addr × Option Addr × UInt64 :=
  (n.name, n.children, n.parent, n.uuid)

/-- Mirrors that differ in nothing but data, handlers and calls of handlers. -/
structure Mirror.SameShape (m m' : Mirror) : Prop where
  mTree : m'.mTree = m.mTree
  nextAddr : m'.nextAddr = m.nextAddr
  heap : ∀ a : Addr, (m'.heap[a]?).map Node.shape = (m.heap[a]?).map Node.shape

namespace Mirror.SameShape

variable {m m' m'' : Mirror}

theorem refl (m : Mirror) : m.SameShape m :=
  ⟨rfl, rfl, fun _ => rfl⟩

theorem symm (h : m.SameShape m') : m'.SameShape m :=
  ⟨h.mTree.symm, h.nextAddr.symm, fun a => (h.heap a).symm⟩

theorem trans (h : m.SameShape m') (h' : m'.SameShape m'') : m.SameShape m'' :=
  ⟨h'.mTree.trans h.mTree, h'.nextAddr.trans h.nextAddr, fun a => (h'.heap a).trans (h.heap a)⟩

/-- An object of the one mirror is one of the other. -/
theorem exists_heap (h : m.SameShape m') {a : Addr} {n' : Node} (ha : m'.heap[a]? = some n') :
    ∃ n : Node, m.heap[a]? = some n ∧ n'.name = n.name ∧ n'.children = n.children ∧
      n'.parent = n.parent ∧ n'.uuid = n.uuid := by
  have hshape := h.heap a
  rw [ha, Option.map_some] at hshape
  obtain ⟨n, hn, heq⟩ := Option.map_eq_some_iff.mp hshape.symm
  simp only [Node.shape, Prod.mk.injEq] at heq
  exact ⟨n, hn, heq.1.symm, heq.2.1.symm, heq.2.2.1.symm, heq.2.2.2.symm⟩

/-- A change of an object that leaves its shape alone. -/
theorem modifyNode (m : Mirror) (a : Addr) {f : Node → Node} (hf : ∀ n, (f n).shape = n.shape) :
    m.SameShape (m.modifyNode a f) := by
  refine ⟨rfl, rfl, fun x => ?_⟩
  rw [Mirror.modifyNode_heap]
  split_ifs
  · rw [Option.map_map]
    exact congrArg (fun g => (m.heap[x]?).map g) (funext hf)
  · rfl

theorem callUpdate (m : Mirror) (a : Addr) : m.SameShape (m.callUpdate a) :=
  ⟨m.callUpdate_mTree a, m.callUpdate_nextAddr a, fun x => by rw [m.callUpdate_heap a]⟩

theorem setup (m : Mirror) (s : Setup) : m.SameShape (s.apply m) := by
  cases s with
  | setTreeAddHandler handler => exact ⟨rfl, rfl, fun _ => rfl⟩
  | setTreeRemoveHandler handler => exact ⟨rfl, rfl, fun _ => rfl⟩
  | setHRcpHandler a handler => exact modifyNode m a fun _ => rfl
  | setUpdateHandler a handler => exact modifyNode m a fun _ => rfl

end Mirror.SameShape

/-- The effect of a step on the shape of the mirror and on the deletions handled. -/
inductive MirrorChange (k k' : Client) : Action → Prop
  | same (a : Action) (h : k.mirror.SameShape k'.mirror) (hd : k'.deleted = k.deleted)
      (hr : ∀ p, k.inbound = p :: k'.inbound →
        k.mTransactions[p.message.transactionId]? = none →
          ∀ add del, p.message.message ≠ .treeUpdateNotification add del) : MirrorChange k k' a
  | signin (i : ThreadId) (h : k'.mirror = k.mirror.emplaceRoot) (hd : k'.deleted = k.deleted)
      (hin : k'.inbound = k.inbound) : MirrorChange k k' (.proceed i)
  | create (i : ThreadId) (a name r tag uuid)
      (ht : k.threads[i]? = some ⟨.create a name, .answered r ⟨tag, .createAccept uuid⟩⟩)
      (h : k'.mirror = k.mirror.createNode a name uuid) (hd : k'.deleted = k.deleted)
      (hin : k'.inbound = k.inbound) : MirrorChange k k' (.proceed i)
  | add (i : ThreadId) (call l j todo) (ht : k.threads[i]? = some ⟨call, .adding l (j :: todo)⟩)
      (h : k'.mirror = k.mirror.addNode j) (hd : k'.deleted = k.deleted)
      (hin : k'.inbound = k.inbound) : MirrorChange k k' (.proceed i)
  | destroy (i : ThreadId) (a r tag)
      (ht : k.threads[i]? = some ⟨.destroy a, .answered r ⟨tag, .deleteResponse .ok⟩⟩)
      (h : k'.mirror = k.mirror.destroyNode a) (hd : k'.deleted = k.deleted)
      (hin : k'.inbound = k.inbound) : MirrorChange k k' (.proceed i)
  | treeUpdate (tag trId add del) (hin : k.inbound =
        ⟨tag, trId, .treeUpdateNotification add del⟩ :: k'.inbound)
      (hx : k.mTransactions[trId]? = none)
      (h : k'.mirror = k.mirror.handleTreeUpdateNotification add del)
      (hd : k'.deleted = k.deleted ++ del) : MirrorChange k k' .read
  | free (a : Addr) (ha : k.mirror.isReferenced a = false) (hu : k.uses a = false)
      (h : k'.mirror = k.mirror.free a) (hd : k'.deleted = k.deleted)
      (hin : k'.inbound = k.inbound) : MirrorChange k k' (.free a)

variable {k k' : Client} {number : ℕ} {a : Action} {sent : List Packet}

/-- A step that takes no message. -/
theorem MirrorChange.of_sameShape (h : k.mirror.SameShape k'.mirror) (hd : k'.deleted = k.deleted)
    (hin : k'.inbound = k.inbound) : MirrorChange k k' a := by
  refine .same a h hd fun p hp => ?_
  rw [hin] at hp
  exact absurd (congrArg List.length hp) (by simp)

/-- What a step does to the mirror. -/
theorem StepResult.mirrorChange (h : StepResult k number a k' sent) : MirrorChange k k' a := by
  have hrefl := Mirror.SameShape.refl k.mirror
  have htake : ∀ {p : Packet} {inbound : List Packet}, k.inbound = p :: inbound →
      (∀ add del, p.message.message ≠ .treeUpdateNotification add del) →
      ∀ q, k.inbound = q :: inbound → k.mTransactions[q.message.transactionId]? = none →
        ∀ add del, q.message.message ≠ .treeUpdateNotification add del := by
    intro p inbound hin hp q hq _
    rw [hin, List.cons.injEq] at hq
    exact hq.1 ▸ hp
  cases h with
  | startSet i a value node hs hi hl hn =>
    exact .of_sameShape (.modifyNode _ _ fun _ => rfl) rfl rfl
  | fetch i a r tag data ht hl => exact .of_sameShape (.modifyNode _ _ fun _ => rfl) rfl rfl
  | update a data hr hl =>
    have hmod : k.mirror.SameShape (k.mirror.modifyNode a fun node => { node with data := data }) :=
      .modifyNode _ _ fun _ => rfl
    exact .of_sameShape (hmod.trans (.callUpdate _ _)) rfl rfl
  | setup s hs => exact .of_sameShape (.setup _ _) rfl rfl
  | signin i r tag sessionId ht => exact .signin i rfl rfl rfl
  | create i a name r tag uuid ht => exact .create _ _ _ _ _ _ ht rfl rfl rfl
  | add i call l j todo ht => exact .add _ _ _ _ _ ht rfl rfl rfl
  | destroy i a r tag ht => exact .destroy _ _ _ _ ht rfl rfl rfl
  | treeUpdate tag trId add del inbound hr hin hx => exact .treeUpdate _ _ _ _ hin hx rfl rfl
  | free a ha hu => exact .free _ ha hu rfl rfl rfl
  | satisfy p inbound x hr hin hx =>
    refine .same _ hrefl rfl fun q hq hnone => ?_
    obtain ⟨rfl, -⟩ := List.cons.inj (hin.symm.trans hq)
    rw [hx] at hnone
    cases hnone
  | updateNotification tag trId uuid data inbound hr hin hx =>
    exact .same _ hrefl rfl (htake hin nofun)
  | rpcRequest tag trId uuid param inbound hr hin hx => exact .same _ hrefl rfl (htake hin nofun)
  | ignore p inbound hr hin hx hm =>
    refine .same _ hrefl rfl (htake hin fun add del hp => ?_)
    rw [hp] at hm
    cases hm
  | _ => exact .of_sameShape hrefl rfl rfl

/-- A handled deletion stays handled. -/
theorem MirrorChange.deleted_subset (h : MirrorChange k k' a) : k.deleted ⊆ k'.deleted := by
  cases h with
  | same a h hd hr => exact hd ▸ List.Subset.refl _
  | signin i h hd hin => exact hd ▸ List.Subset.refl _
  | create i a name r tag uuid ht h hd hin => exact hd ▸ List.Subset.refl _
  | add i call l j todo ht h hd hin => exact hd ▸ List.Subset.refl _
  | destroy i a r tag ht h hd hin => exact hd ▸ List.Subset.refl _
  | treeUpdate tag trId add del hin hx h hd => exact hd ▸ List.subset_append_left _ _
  | free a ha hu h hd hin => exact hd ▸ List.Subset.refl _

end PropertyTree.Client
