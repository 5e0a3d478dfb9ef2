import PropertyTree.Client.Changes
import PropertyTree.Client.Confluence
import PropertyTree.Client.Mentions

/-!
# Calls of the tree-add handler

`addNodes` calls `mTreeAddHandler` when a node gets its first parent link.  `Once` counts the calls for
one uuid since some moment: there is one if the node has a parent, and none otherwise.  Every change of
the mirror keeps this, except for a `create` that puts the node into the mirror itself.
-/

namespace PropertyTree.Client

variable {created created' : NamedNode → Prop} {u v : UInt64} {calls : List HandlerCall}
  {m m' : Mirror} {i : NamedNode}

/-- Since the calls were `calls`, the handler has been called once for the node of `u` if it has a
parent, which is then registered, and not at all otherwise. -/
structure Once (created : NamedNode → Prop) (u : UInt64) (calls : List HandlerCall) (m : Mirror) :
    Prop where
  wellFormed : m.WellFormed
  handler : m.mTreeAddHandler = true
  calls : ∃ new, m.calls = calls ++ new ∧ (∀ {a}, .treeAdd a ∈ new → a < m.nextAddr) ∧
    ∀ {a : Addr} {n : Node}, m.mTree[u]? = some a → m.heap[a]? = some n →
      new.count (.treeAdd a) = if n.parent = none then 0 else 1
  parent : ∀ {a p : Addr} {n : Node}, m.mTree[u]? = some a → m.heap[a]? = some n →
    n.parent = some p → ∃ i, created i ∧ i.uuid = u ∧ m.mTree[i.parentUuid]? = some p

namespace Once

/-- A node without a parent has not been called for yet. -/
theorem refl (hw : m.WellFormed) (hset : m.mTreeAddHandler = true)
    (hno : ∀ {a : Addr} {n : Node}, m.mTree[u]? = some a → m.heap[a]? = some n → n.parent = none) :
    Once created u m.calls m := by
  refine ⟨hw, hset, ⟨[], by simp, by simp, fun hu hn => ?_⟩, fun hu hn hp => ?_⟩
  · rw [if_pos (hno hu hn)]
    rfl
  · rw [hno hu hn] at hp
    cases hp

/-- More may have been created. -/
theorem mono (h : Once created u calls m) (hc : ∀ {i}, created i → created' i) :
    Once created' u calls m := by
  refine ⟨h.wellFormed, h.handler, h.calls, fun hu hn hp => ?_⟩
  obtain ⟨i, hi, hrest⟩ := h.parent hu hn hp
  exact ⟨i, hc hi, hrest⟩

/-- The node has a parent link when it has a parent. -/
theorem parentOf_eq_none_iff (h : Once created u calls m) {a : Addr} {n : Node}
    (hu : m.mTree[u]? = some a) (hn : m.heap[a]? = some n) :
    m.parentOf u = none ↔ n.parent = none := by
  rw [Mirror.parentOf, hu, Option.bind_some, hn, Option.bind_some, Mirror.lock_eq_none_iff]
  constructor
  · intro hgone
    by_contra hne
    obtain ⟨p, hp⟩ := Option.ne_none_iff_exists'.mp hne
    obtain ⟨i, -, -, hreg⟩ := h.parent hu hn hp
    obtain ⟨pn, hpn, -⟩ := h.wellFormed.mTree_heap hreg
    rw [hgone p hp] at hpn
    cases hpn
  · intro hnone a ha
    rw [hnone] at ha
    cases ha

/-- The number of calls for a node with a parent link. -/
theorem treeAddsSince_eq {m₀ : Mirror} (h : Once created u m₀.calls m) (hp : m.parentOf u ≠ none) :
    Mirror.treeAddsSince m₀ m u = 1 := by
  obtain ⟨new, hcalls, -, hcount⟩ := h.calls
  cases hu : m.mTree[u]? with
  | none => simp [Mirror.parentOf, hu] at hp
  | some a =>
    obtain ⟨n, hn, -⟩ := h.wellFormed.mTree_heap hu
    rw [ne_eq, h.parentOf_eq_none_iff hu hn] at hp
    rw [Mirror.treeAddsSince, hu, Option.elim_some, hcalls, List.drop_left, hcount hu hn, if_neg hp]

/-! ## Changes of other nodes -/

/-- Calls for other nodes, and changes that leave the node of `u` and its parent where they are. -/
theorem frame (h : Once created u calls m) (hw : m'.WellFormed) (hset : m'.mTreeAddHandler = true)
    (hu : m'.mTree[u]? = m.mTree[u]?)
    (hheap : ∀ {a : Addr} {n' : Node}, m.mTree[u]? = some a → m'.heap[a]? = some n' →
      ∃ n : Node, m.heap[a]? = some n ∧ n'.parent = n.parent)
    (hpar : ∀ {i p}, m.mTree[u]? ≠ none → created i → i.uuid = u →
      m.mTree[i.parentUuid]? = some p → m'.mTree[i.parentUuid]? = some p)
    (hnext : m.nextAddr ≤ m'.nextAddr)
    (hcalls : ∃ new, m'.calls = m.calls ++ new ∧
      ∀ {a}, .treeAdd a ∈ new → a < m'.nextAddr ∧ m.mTree[u]? ≠ some a) :
    Once created u calls m' := by
  obtain ⟨new, hnew, hlt, hcount⟩ := h.calls
  obtain ⟨new', hnew', hother⟩ := hcalls
  refine ⟨hw, hset, ⟨new ++ new', ?_, fun ha => ?_, fun hu' hn' => ?_⟩, fun hu' hn' hp => ?_⟩
  · rw [hnew', hnew, List.append_assoc]
  · rcases List.mem_append.mp ha with ha | ha
    · exact lt_of_lt_of_le (hlt ha) hnext
    · exact (hother ha).1
  · rw [hu] at hu'
    obtain ⟨n, hn, hparent⟩ := hheap hu' hn'
    rw [List.count_append, hcount hu' hn, hparent,
      List.count_eq_zero.mpr fun ha => (hother ha).2 hu', Nat.add_zero]
  · rw [hu] at hu'
    obtain ⟨n, hn, hparent⟩ := hheap hu' hn'
    obtain ⟨i, hi, hiu, hreg⟩ := h.parent hu' hn (hparent ▸ hp)
    exact ⟨i, hi, hiu, hpar (by rw [hu']; nofun) hi hiu hreg⟩

/-- No node is called for. -/
theorem frame_silent (h : Once created u calls m) (hw : m'.WellFormed)
    (hset : m'.mTreeAddHandler = m.mTreeAddHandler) (hmTree : m'.mTree = m.mTree)
    (hheap : ∀ {a : Addr} {n' : Node}, m'.heap[a]? = some n' →
      ∃ n : Node, m.heap[a]? = some n ∧ n'.parent = n.parent)
    (hnext : m.nextAddr ≤ m'.nextAddr)
    (hcalls : ∃ new, m'.calls = m.calls ++ new ∧ ∀ {a}, .treeAdd a ∉ new) :
    Once created u calls m' := by
  obtain ⟨new, hnew, hnot⟩ := hcalls
  refine h.frame hw (hset.trans h.handler) (by rw [hmTree]) (fun _ hn => hheap hn)
    (fun _ _ _ hp => by rw [hmTree, hp]) hnext ⟨new, hnew, fun ha => absurd ha hnot⟩

/-- Data, handlers of nodes, and calls of other handlers do not matter. -/
theorem sameShape (h : Once created u calls m) (hm : m.SameShape m')
    (hset : m'.mTreeAddHandler = m.mTreeAddHandler)
    (hcalls : ∃ new, m'.calls = m.calls ++ new ∧ ∀ {a}, .treeAdd a ∉ new) (hw : m'.WellFormed) :
    Once created u calls m' := by
  refine h.frame_silent hw hset hm.mTree (fun hn' => ?_) hm.nextAddr.ge hcalls
  obtain ⟨n, hn, -, -, hparent, -⟩ := hm.exists_heap hn'
  exact ⟨n, hn, hparent⟩

/-- An entry of a children map is erased. -/
theorem unlink (h : Once created u calls m) (p : Addr) (name : Name) :
    Once created u calls (m.unlink p name) := by
  refine h.frame_silent (h.wellFormed.unlink p name).wellFormed rfl rfl (fun {a n'} hn' => ?_) le_rfl
    ⟨[], by simp [Mirror.unlink, Mirror.modifyNode], by simp⟩
  rw [Mirror.unlink, Mirror.modifyNode_heap] at hn'
  split_ifs at hn'
  · obtain ⟨n, hn, rfl⟩ := Option.map_eq_some_iff.mp hn'
    exact ⟨n, hn, rfl⟩
  · exact ⟨n', hn', rfl⟩

theorem destroyNode (h : Once created u calls m) (a : Addr) :
    Once created u calls (m.destroyNode a) := by
  unfold Mirror.destroyNode
  split
  · exact h
  · split
    · exact h
    · exact h.unlink _ _

theorem free (h : Once created u calls m) {a : Addr} (ha : m.isReferenced a = false) :
    Once created u calls (m.free a) := by
  refine h.frame_silent (h.wellFormed.free ha) rfl rfl (fun {x n'} hn' => ⟨n', ?_, rfl⟩) le_rfl
    ⟨[], by simp [Mirror.free], by simp⟩
  simp only [Mirror.free] at hn'
  grind

/-! ## New nodes -/

/-- A new object without a parent, under a uuid that is unknown. -/
theorem makeNode_emplace (h : Once created u calls m) (name : Name) (hv : m.mTree[v]? = none) :
    Once created u calls ((m.makeNode name none v).emplace v m.nextAddr) := by
  have hw := (h.wellFormed.makeNode_emplace name none v).wellFormed
  have hmTree : ∀ x : UInt64, ((m.makeNode name none v).emplace v m.nextAddr).mTree[x]? =
      if x = v then some m.nextAddr else m.mTree[x]? := by
    intro x
    simp only [Mirror.emplace, Mirror.makeNode]
    grind
  have hheap : ∀ x : Addr, ((m.makeNode name none v).emplace v m.nextAddr).heap[x]? =
      if x = m.nextAddr then some (.make name none v) else m.heap[x]? := by
    intro x
    simp only [Mirror.emplace, Mirror.makeNode]
    grind
  have hcalls : ((m.makeNode name none v).emplace v m.nextAddr).calls = m.calls := rfl
  by_cases huv : u = v
  · subst huv
    obtain ⟨new, hnew, hlt, -⟩ := h.calls
    refine ⟨hw, h.handler, ⟨new, hcalls.trans hnew, fun ha => ?_, fun hu hn => ?_⟩,
      fun hu hn hp => ?_⟩
    · exact lt_of_lt_of_le (hlt ha) (Nat.le_succ _)
    · rw [hmTree, if_pos rfl] at hu
      cases hu
      rw [hheap, if_pos rfl] at hn
      cases hn
      exact List.count_eq_zero.mpr fun ha => lt_irrefl _ (hlt ha)
    · rw [hmTree, if_pos rfl] at hu
      cases hu
      rw [hheap, if_pos rfl] at hn
      cases hn
      cases hp
  · refine h.frame hw h.handler (by rw [hmTree, if_neg huv]) (fun {a n'} hu hn' => ⟨n', ?_, rfl⟩)
      (fun {i p} _ _ _ hp => ?_) (Nat.le_succ _) ⟨[], by simp [hcalls], by simp⟩
    · obtain ⟨n, hn, -⟩ := h.wellFormed.mTree_heap hu
      rwa [hheap, if_neg (h.wellFormed.heap_lt hn).ne] at hn'
    · rw [hmTree, if_neg, hp]
      rintro rfl
      rw [hv] at hp
      cases hp

theorem emplaceRoot (h : Once created u calls m) : Once created u calls m.emplaceRoot := by
  unfold Mirror.emplaceRoot
  split
  · exact h
  · exact h.makeNode_emplace [] ‹_›

/-- The node of a `CreateAccept`, unless it is the node of `u` and new. -/
theorem createNode (h : Once created u calls m) (p : Addr) (name : Name)
    (huv : v = u → m.mTree[u]? ≠ none) : Once created u calls (m.createNode p name v) := by
  have hw := (h.wellFormed.createNode p name v).wellFormed
  cases hv : m.mTree[v]? with
  | some a => simpa only [Mirror.createNode, hv] using h
  | none =>
    have hne : u ≠ v := by
      rintro rfl
      exact huv rfl hv
    simp only [Mirror.createNode, hv] at hw ⊢
    refine h.frame hw h.handler ?_ (fun {a n'} hu hn' => ?_) (fun {i q} _ _ _ hq => ?_)
      (Nat.le_succ _) ⟨[], by simp [Mirror.linkIfNew, Mirror.modifyNode, Mirror.emplace,
        Mirror.makeNode], by simp⟩
    · simp only [Mirror.linkIfNew, Mirror.modifyNode_mTree, Mirror.emplace, Mirror.makeNode]
      grind
    · obtain ⟨n, hn, -⟩ := h.wellFormed.mTree_heap hu
      have hlt := h.wellFormed.heap_lt hn
      have hheap : (m.heap.insert m.nextAddr (Node.make name (some p) v))[a]? = some n := by
        rw [Std.ExtTreeMap.getElem?_insert, if_neg (by simpa using hlt.ne'), hn]
      simp only [Mirror.linkIfNew, Mirror.modifyNode_heap, Mirror.emplace, Mirror.makeNode,
        hheap] at hn'
      split_ifs at hn'
      all_goals
        cases hn'
        exact ⟨_, hn, rfl⟩
    · simp only [Mirror.linkIfNew, Mirror.modifyNode_mTree, Mirror.emplace, Mirror.makeNode]
      grind

/-! ## Entries -/

/-- An entry whose parent is known attaches the object of its uuid, or a new one. -/
theorem exists_attached (hw : m.WellFormed) (hne : i.uuid ≠ i.parentUuid) {p : Addr}
    (hp : m.mTree[i.parentUuid]? = some p) : ∃ (pn : Node) (a : Addr) (n : Node),
      m.heap[p]? = some pn ∧ (m.mTree[i.uuid]?).getD m.nextAddr = a ∧
        (m.mTree[i.uuid]? = some a ∧ m.heap[a]? = some n ∨
          m.mTree[i.uuid]? = none ∧ a = m.nextAddr) ∧
        Mirror.Attached m i.name i.uuid p pn a n (m.addNode i) := by
  obtain ⟨pn, hpn, hpu⟩ := hw.mTree_heap hp
  cases hu : m.mTree[i.uuid]? with
  | none => exact ⟨pn, _, _, hpn, rfl, .inr ⟨rfl, rfl⟩,
      Mirror.addNode_of_unknown hu hp hpn (hw.heap_lt hpn)⟩
  | some a =>
    obtain ⟨n, hn, hnu⟩ := hw.mTree_heap hu
    have hap : a ≠ p := by
      rintro rfl
      rw [hn] at hpn
      cases hpn
      exact hne (hnu.symm.trans hpu)
    exact ⟨pn, a, n, hpn, rfl, .inl ⟨rfl, hn⟩,
      Mirror.addNode_of_known hu hn hp hpn hap (hw.heap_lt hn)⟩

/-- An entry whose parent is known. -/
theorem attach (h : Once created u calls m) (hi : created i) (hne : i.uuid ≠ i.parentUuid)
    {p : Addr} (hp : m.mTree[i.parentUuid]? = some p) : Once created u calls (m.addNode i) := by
  have hw := (h.wellFormed.addNode i).wellFormed
  have hset := (m.addNode_handlers i).1.trans h.handler
  have hcalls := Mirror.addNode_calls (i := i) hp
  obtain ⟨pn, a, n, hpn, haddr, ha, hatt⟩ := exists_attached h.wellFormed hne hp
  have hlt : a < (m.addNode i).nextAddr :=
    hatt.nextAddr ▸ lt_of_lt_of_le (Nat.lt_succ_self a) (le_max_right _ _)
  have hnext : m.nextAddr ≤ (m.addNode i).nextAddr := hatt.nextAddr ▸ le_max_left _ _
  rw [haddr, h.handler] at hcalls
  by_cases hiu : u = i.uuid
  · subst hiu
    obtain ⟨new, hnew, hnewlt, hcount⟩ := h.calls
    have hat : (m.addNode i).mTree[i.uuid]? = some a := (hatt.mTree _).trans (if_pos rfl)
    -- the calls before, by the parent link before
    have hbefore : new.count (.treeAdd a) = if m.parentOf i.uuid = none then 0 else 1 := by
      rcases ha with ⟨hu, hn⟩ | ⟨hu, rfl⟩
      · simp only [h.parentOf_eq_none_iff hu hn]
        exact hcount hu hn
      · rw [if_pos (by rw [Mirror.parentOf, hu, Option.bind_none])]
        exact List.count_eq_zero.mpr fun ha => lt_irrefl _ (hnewlt ha)
    refine ⟨hw, hset, ?_, fun hu' hn' hp' => ?_⟩
    · by_cases hnone : m.parentOf i.uuid = none
      · rw [if_pos ⟨rfl, hnone⟩] at hcalls
        rw [if_pos hnone] at hbefore
        refine ⟨new ++ [.treeAdd a], by rw [hcalls, hnew, List.append_assoc], fun hb => ?_,
          fun hu' hn' => ?_⟩
        · rcases List.mem_append.mp hb with hb | hb
          · exact lt_of_lt_of_le (hnewlt hb) hnext
          · cases List.mem_singleton.mp hb
            exact hlt
        · rw [hat] at hu'
          cases hu'
          rw [hatt.heap, if_pos rfl] at hn'
          cases hn'
          simp [hbefore]
      · rw [if_neg fun hboth => hnone hboth.2] at hcalls
        rw [if_neg hnone] at hbefore
        refine ⟨new, hcalls.trans hnew, fun hb => lt_of_lt_of_le (hnewlt hb) hnext,
          fun hu' hn' => ?_⟩
        rw [hat] at hu'
        cases hu'
        rw [hatt.heap, if_pos rfl] at hn'
        cases hn'
        simp [hbefore]
    · rw [hat] at hu'
      cases hu'
      rw [hatt.heap, if_pos rfl] at hn'
      cases hn'
      cases hp'
      exact ⟨i, hi, rfl, by rw [hatt.mTree, if_neg hne.symm, hp]⟩
  · have hother : m.mTree[u]? ≠ some a := by
      intro hu
      obtain ⟨nu, hnu, huu⟩ := h.wellFormed.mTree_heap hu
      rcases ha with ⟨hi', hn⟩ | ⟨-, rfl⟩
      · obtain ⟨n', hn', hnu'⟩ := h.wellFormed.mTree_heap hi'
        rw [hnu] at hn'
        cases hn'
        exact hiu (huu.symm.trans hnu')
      · exact lt_irrefl _ (h.wellFormed.heap_lt hnu)
    refine h.frame hw hset ((hatt.mTree u).trans (if_neg hiu)) (fun {b n'} hu hn' => ?_)
      (fun {j q} _ _ _ hq => ?_) hnext ?_
    · have hba : b ≠ a := by
        rintro rfl
        exact hother hu
      rw [hatt.heap, if_neg hba] at hn'
      split_ifs at hn' with hbp
      · cases hn'
        exact ⟨pn, hbp ▸ hpn, rfl⟩
      · exact ⟨n', hn', rfl⟩
    · rw [hatt.mTree]
      split_ifs with hju
      · rcases ha with ⟨hi', -⟩ | ⟨hi', -⟩ <;> rw [hju, hi'] at hq <;> cases hq
        rfl
      · exact hq
    · split_ifs at hcalls
      · refine ⟨_, hcalls, fun hb => ?_⟩
        cases List.mem_singleton.mp hb
        exact ⟨hlt, hother⟩
      · exact ⟨[], by rw [hcalls, List.append_nil], by simp⟩

/-- An entry. -/
theorem addNode (h : Once created u calls m) (hi : created i) (hne : i.uuid ≠ i.parentUuid) :
    Once created u calls (m.addNode i) := by
  cases hp : m.mTree[i.parentUuid]? with
  | some p => exact h.attach hi hne hp
  | none =>
    rw [Mirror.addNode_of_ghost hp hne]
    exact (h.makeNode_emplace ghostName hp).attach hi hne
      ((Mirror.ghost_mTree hp _).trans (if_pos rfl))

/-- The entries of a notification. -/
theorem addNodes (h : Once created u calls m) {add : List NamedNode} (hi : ∀ i ∈ add, created i)
    (hne : ∀ {i}, created i → i.uuid ≠ i.parentUuid) : Once created u calls (m.addNodes add) := by
  induction add generalizing m with
  | nil => exact h
  | cons i add ih =>
    have hic := hi i List.mem_cons_self
    exact ih (h.addNode hic (hne hic)) fun j hj => hi j (List.mem_cons_of_mem i hj)

/-! ## Deletions -/

/-- A removal calls no handler but `mTreeRemoveHandler`. -/
theorem removeNode_calls (m : Mirror) (v : UInt64) :
    (m.removeNode v).mTreeAddHandler = m.mTreeAddHandler ∧
      ∃ new, (m.removeNode v).calls = m.calls ++ new ∧ ∀ {a}, .treeAdd a ∉ new := by
  have hcall : ∀ a, (m.callTreeRemove a).mTreeAddHandler = m.mTreeAddHandler ∧
      ∃ new, (m.callTreeRemove a).calls = m.calls ++ new ∧ ∀ {a}, .treeAdd a ∉ new := by
    intro a
    unfold Mirror.callTreeRemove
    split
    · exact ⟨rfl, [.treeRemove a], rfl, by simp⟩
    · exact ⟨rfl, [], by simp, by simp⟩
  cases hv : m.mTree[v]? with
  | none => rw [Mirror.removeNode_of_unknown hv]; exact ⟨rfl, [], by simp, by simp⟩
  | some a =>
    simp only [Mirror.removeNode, hv]
    split
    · exact hcall a
    · split
      · exact hcall a
      · exact hcall a

/-- What is unknown stays so. -/
theorem removeNode_mTree (hu : m.mTree[u]? = none) (v : UInt64) : (m.removeNode v).mTree[u]? = none := by
  rw [← Option.not_isSome_iff_eq_none, Mirror.isSome_mTree_removeNode, Library.lastOf_singleton, hu]
  split_ifs <;> simp

/-- The removal of a uuid that is not the one of the node or of its parent. -/
theorem removeNode (h : Once created u calls m) (hu : v ≠ u)
    (hpar : ∀ {i}, m.mTree[u]? ≠ none → created i → i.uuid = u → i.parentUuid ≠ v) :
    Once created u calls (m.removeNode v) := by
  cases hv : m.mTree[v]? with
  | none => rwa [Mirror.removeNode_of_unknown hv]
  | some a =>
    obtain ⟨n, hn, hnu⟩ := h.wellFormed.mTree_heap hv
    have hdet := Mirror.removeNode_of_known hv hn
    refine h.frame (h.wellFormed.removeNode v).wellFormed ((removeNode_calls m v).1.trans h.handler)
      ((hdet.mTree u).trans (if_neg hu.symm)) (fun {b n'} _ hn' => ?_) (fun {i p} hk hi hiu hp => ?_)
      hdet.nextAddr.ge ?_
    · rw [hdet.heap] at hn'
      split_ifs at hn'
      · obtain ⟨n₀, hn₀, rfl⟩ := Option.map_eq_some_iff.mp hn'
        exact ⟨n₀, hn₀, rfl⟩
      · exact ⟨n', hn', rfl⟩
    · rw [hdet.mTree, if_neg (hpar hk hi hiu), hp]
    · obtain ⟨-, new, hnew, hnot⟩ := removeNode_calls m v
      exact ⟨new, hnew, fun ha => absurd ha hnot⟩

/-- The removal of several uuids. -/
theorem removeNodes (h : Once created u calls m) {del : List UInt64} (hu : u ∉ del)
    (hpar : ∀ {i}, m.mTree[u]? ≠ none → created i → i.uuid = u → i.parentUuid ∉ del) :
    Once created u calls (m.removeNodes del) := by
  induction del generalizing m with
  | nil => exact h
  | cons v del ih =>
    have hvu : v ≠ u := fun heq => hu (heq ▸ List.mem_cons_self)
    refine ih (h.removeNode hvu fun hk hi hiu heq => hpar hk hi hiu (heq ▸ List.mem_cons_self))
      (fun hmem => hu (List.mem_cons_of_mem v hmem)) fun hk hi hiu hmem =>
        hpar (fun hnone => hk (removeNode_mTree hnone v)) hi hiu (List.mem_cons_of_mem v hmem)

end Once

end PropertyTree.Client
