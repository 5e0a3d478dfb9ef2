import PropertyTree.Client.TreeAdds

/-!
# The child of one name

What the changes of a mirror do to the child of one name below a known parent, and to the object that
has this name: an entry of another name leaves both alone, and a deletion takes at most the name out of
the children map.
-/

namespace PropertyTree.Client

variable {m m' : Mirror} {P u v : UInt64} {p x a b : Addr} {name : Name} {i : NamedNode}
  {adds : List NamedNode} {gone : List UInt64}

namespace Mirror

/-- The parent `P` is known, as the object at `p`. -/
structure Anchored (P : UInt64) (p : Addr) (m : Mirror) : Prop where
  wellFormed : m.WellFormed
  parent : m.mTree[P]? = some p

/-- The object at `a` is that of the node `u`, which has this name and the parent at `p`. -/
def Placed (p : Addr) (name : Name) (u : UInt64) (a : Addr) (m : Mirror) : Prop :=
  ∃ n : Node, m.heap[a]? = some n ∧ n.uuid = u ∧ n.name = name ∧ n.parent = some p

/-- No child of the object at `p` has this name. -/
def Lacks (p : Addr) (name : Name) (m : Mirror) : Prop :=
  ∀ pn : Node, m.heap[p]? = some pn → pn.children[name]? = none

instance : Decidable (m.Lacks p name) :=
  inferInstanceAs (Decidable (∀ pn ∈ m.heap[p]?, pn.children[name]? = none))

/-- So `create` does not find it. -/
theorem Lacks.found_eq_none (h : m.Lacks p name) : (ApiCall.create p name).found m = none := by
  cases hp : m.heap[p]? with
  | none => simp [ApiCall.found, hp]
  | some pn => simp [ApiCall.found, hp, h pn hp]

/-- What a change leaves as it is that adds the entries in `adds` and takes the uuids in `gone`. -/
structure Leaves (p : Addr) (adds : List NamedNode) (gone : List UInt64) (m m' : Mirror) : Prop where
  wellFormed : m'.WellFormed
  known : ∀ {u : UInt64} {a : Addr}, m.mTree[u]? = some a → u ∉ gone → m'.mTree[u]? = some a
  lacks : ∀ {name : Name}, m.Lacks p name → (∀ i ∈ adds, i.name ≠ name) → m'.Lacks p name
  placed : ∀ {name : Name} {u : UInt64} {a : Addr}, m.Placed p name u a →
    (∀ i ∈ adds, i.uuid = u → i.name = name) → m'.Placed p name u a
  /-- A node that becomes known is placed where its entry says. -/
  new : ∀ {u : UInt64} {a : Addr}, m.mTree[u]? = none → m'.mTree[u]? = some a →
    ∃ i ∈ adds, i.uuid = u ∧ m'.Placed p i.name u a

/-- The parent stays known. -/
theorem Anchored.of_leaves (h : m.Anchored P p) (hl : m.Leaves p adds gone m') (hP : P ∉ gone) :
    m'.Anchored P p :=
  ⟨hl.wellFormed, hl.known h.parent hP⟩

/-- What a node is registered with is placed where its entries say. -/
theorem Leaves.placed_of_known (hl : m.Leaves p adds gone m') (hu : u ∉ gone)
    (hname : ∀ i ∈ adds, i.uuid = u → i.name = name)
    (h : ∀ a : Addr, m.mTree[u]? = some a → m.Placed p name u a) :
    ∀ a : Addr, m'.mTree[u]? = some a → m'.Placed p name u a := by
  intro a ha
  cases hm : m.mTree[u]? with
  | none =>
    obtain ⟨i, hi, hiu, hplaced⟩ := hl.new hm ha
    exact hname i hi hiu ▸ hplaced
  | some b =>
    cases (hl.known hm hu).symm.trans ha
    exact hl.placed (h a hm) hname

/-- A change in which nothing but children maps differ, and these only by what is taken out. -/
theorem leaves_of_children (hwf : m'.WellFormed)
    (hmTree : ∀ u : UInt64, m'.mTree[u]? = if u ∈ gone then none else m.mTree[u]?)
    (hheap : ∀ (b : Addr) (n : Node), m.heap[b]? = some n → ∃ n' : Node, m'.heap[b]? = some n' ∧
      n'.uuid = n.uuid ∧ n'.name = n.name ∧ n'.parent = n.parent ∧
        ∀ name : Name, n.children[name]? = none → n'.children[name]? = none)
    (hold : ∀ (b : Addr) (n' : Node), m'.heap[b]? = some n' → ∃ n : Node, m.heap[b]? = some n) :
    m.Leaves p [] gone m' := by
  refine ⟨hwf, fun {u b} hu hgone => ?_, fun {name} hl _ n' hn' => ?_, fun {name u b} hb _ => ?_,
    fun {u b} hu hb => ?_⟩
  · rw [hmTree, if_neg hgone, hu]
  · obtain ⟨n, hn⟩ := hold p n' hn'
    obtain ⟨n₁, hn₁, -, -, -, hch⟩ := hheap p n hn
    rw [hn'] at hn₁
    cases hn₁
    exact hch name (hl n hn)
  · obtain ⟨n, hn, hnu, hnn, hnp⟩ := hb
    obtain ⟨n', hn', hu', hname', hpar', -⟩ := hheap b n hn
    exact ⟨n', hn', hu'.trans hnu, hname'.trans hnn, hpar'.trans hnp⟩
  · rw [hmTree, hu] at hb
    split_ifs at hb

/-- The loop body of `removeNodes`. -/
theorem WellFormed.leaves_removeNode (h : m.WellFormed) (p : Addr) (v : UInt64) :
    m.Leaves p [] [v] (m.removeNode v) := by
  have hwf := (h.removeNode v).wellFormed
  cases hv : m.mTree[v]? with
  | none =>
    rw [removeNode_of_unknown hv] at hwf ⊢
    refine leaves_of_children hwf (fun u => ?_) (fun b n hn => ⟨n, hn, rfl, rfl, rfl, fun _ h => h⟩)
      fun b n hn => ⟨n, hn⟩
    split_ifs with hu
    · rw [List.mem_singleton.mp hu, hv]
    · rfl
  | some a =>
    obtain ⟨n, hn, -⟩ := h.mTree_heap hv
    have hdet := removeNode_of_known hv hn
    refine leaves_of_children hwf (fun u => ?_) (fun b nb hnb => ?_) fun b nb hnb => ?_
    · rw [hdet.mTree]
      simp
    · rw [hdet.heap, hnb]
      split_ifs
      · refine ⟨_, rfl, rfl, rfl, rfl, fun name hnone => ?_⟩
        grind
      · exact ⟨nb, rfl, rfl, rfl, rfl, fun _ h => h⟩
    · rw [hdet.heap] at hnb
      split_ifs at hnb
      · obtain ⟨n₀, hn₀, -⟩ := Option.map_eq_some_iff.mp hnb
        exact ⟨n₀, hn₀⟩
      · exact ⟨nb, hnb⟩

/-- A name that is taken out of a children map. -/
theorem WellFormed.leaves_unlink (h : m.WellFormed) (p q : Addr) (name : Name) :
    m.Leaves p [] [] (m.unlink q name) := by
  refine leaves_of_children (h.unlink q name).wellFormed (fun u => by simp) (fun b n hn => ?_)
    fun b n hn => ?_
  · rw [Mirror.unlink, modifyNode_heap, hn]
    split_ifs
    · refine ⟨_, rfl, rfl, rfl, rfl, fun name hnone => ?_⟩
      grind
    · exact ⟨n, rfl, rfl, rfl, rfl, fun _ h => h⟩
  · rw [Mirror.unlink, modifyNode_heap] at hn
    split_ifs at hn
    · obtain ⟨n₀, hn₀, -⟩ := Option.map_eq_some_iff.mp hn
      exact ⟨n₀, hn₀⟩
    · exact ⟨n, hn⟩

/-- What `destroy` does after an OK, if the object is placed below one that is still there. -/
theorem Placed.destroyNode (ha : m.Placed p name u a) (h : m.Anchored P p) :
    m.Leaves p [] [] (m.destroyNode a) ∧ (m.destroyNode a).Lacks p name := by
  obtain ⟨n, hn, -, rfl, hnp⟩ := ha
  obtain ⟨pn, hpn, -⟩ := h.wellFormed.mTree_heap h.parent
  have hlock : m.lock n.parent = some p := lock_eq_some_iff.mpr ⟨hnp, pn, hpn⟩
  have heq : m.destroyNode a = m.unlink p n.name := by simp only [Mirror.destroyNode, hn, hlock]
  rw [heq]
  refine ⟨h.wellFormed.leaves_unlink p p n.name, fun pn' hpn' => ?_⟩
  rw [unlink, modifyNode_heap, if_pos rfl, hpn] at hpn'
  cases hpn'
  grind

/-- The mirror with a node of its own under `u` at `a`, which has the name and the parent of an entry, and
with at most this name put into the children map of the parent. -/
theorem leaves_of_entry (hwf : m'.WellFormed) (h : m.Anchored P p)
    (ha : m.mTree[i.uuid]? = some a ∨ m.mTree[i.uuid]? = none ∧ a = m.nextAddr)
    (hmTree : ∀ v : UInt64, m'.mTree[v]? = if v = i.uuid then some a else m.mTree[v]?)
    (hnew : m'.Placed p i.name i.uuid a)
    (hparent : ∀ pn : Node, m.heap[p]? = some pn → ∃ pn' : Node, m'.heap[p]? = some pn' ∧
      pn'.uuid = pn.uuid ∧ pn'.name = pn.name ∧ pn'.parent = pn.parent ∧
        ∀ name : Name, name ≠ i.name → pn'.children[name]? = pn.children[name]?)
    (hheap : ∀ b : Addr, b ≠ a → b ≠ p → m'.heap[b]? = m.heap[b]?) :
    m.Leaves p [i] [] m' := by
  obtain ⟨pn, hpn, hpu⟩ := h.wellFormed.mTree_heap h.parent
  obtain ⟨pn', hpn', hsame⟩ := hparent pn hpn
  refine ⟨hwf, fun {v b} hv _ => ?_, fun {name} hl hname n' hn' => ?_, fun {name v b} hb hname => ?_,
    fun {v b} hv hb => ?_⟩
  · rw [hmTree]
    split_ifs with hvi
    · subst hvi
      rcases ha with ha | ⟨ha, -⟩ <;> rw [ha] at hv <;> cases hv
      rfl
    · exact hv
  · rw [hpn'] at hn'
    cases hn'
    rw [hsame.2.2.2 name fun heq => hname i List.mem_cons_self heq.symm]
    exact hl pn hpn
  · by_cases hba : b = a
    · subst hba
      -- the object is that of the entry
      have hvi : v = i.uuid := by
        obtain ⟨n, hn, hnu, -⟩ := hb
        rcases ha with ha | ⟨-, rfl⟩
        · obtain ⟨n', hn', hnu'⟩ := h.wellFormed.mTree_heap ha
          rw [hn] at hn'
          cases hn'
          exact hnu.symm.trans hnu'
        · exact absurd (h.wellFormed.heap_lt hn) (lt_irrefl _)
      rw [hvi, ← hname i List.mem_cons_self hvi.symm]
      exact hnew
    · obtain ⟨n, hn, hrest⟩ := hb
      by_cases hbp : b = p
      · subst hbp
        rw [hpn] at hn
        cases hn
        exact ⟨pn', hpn', hsame.1.trans hrest.1, hsame.2.1.trans hrest.2.1, hsame.2.2.1.trans hrest.2.2⟩
      · exact ⟨n, (hheap b hba hbp).trans hn, hrest⟩
  · rw [hmTree] at hb
    split_ifs at hb with hvi
    · cases hb
      exact ⟨i, List.mem_cons_self, hvi.symm, hvi ▸ hnew⟩
    · rw [hv] at hb
      cases hb

/-- The loop body of `addNodes`, for an entry below the parent. -/
theorem Anchored.leaves_addNode (h : m.Anchored P p) (hi : i.parentUuid = P) (hne : i.uuid ≠ P) :
    m.Leaves p [i] [] (m.addNode i) := by
  obtain ⟨pn, a, n, hpn, -, ha, hatt⟩ := Once.exists_attached h.wellFormed (hi ▸ hne) (hi ▸ h.parent)
  have hwf := (h.wellFormed.addNode i).wellFormed
  have hpa : p ≠ a := by
    rintro rfl
    rcases ha with ⟨hu, hn⟩ | ⟨-, heq⟩
    · obtain ⟨n₁, hn₁, hu₁⟩ := h.wellFormed.mTree_heap hu
      obtain ⟨n₂, hn₂, hu₂⟩ := h.wellFormed.mTree_heap h.parent
      rw [hn₁] at hn₂
      cases hn₂
      exact hne (hu₁.symm.trans hu₂)
    · exact absurd (h.wellFormed.heap_lt hpn) (heq ▸ lt_irrefl _)
  have hnew : (m.addNode i).Placed p i.name i.uuid a := by
    obtain ⟨n', hn', hnu⟩ := hwf.mTree_heap ((hatt.mTree i.uuid).trans (if_pos rfl))
    refine ⟨n', hn', hnu, ?_⟩
    rw [hatt.heap, if_pos rfl] at hn'
    cases hn'
    exact ⟨rfl, rfl⟩
  refine leaves_of_entry hwf h (ha.imp And.left id) hatt.mTree hnew (fun pn₁ hpn₁ => ?_)
    fun b hba hbp => by rw [hatt.heap, if_neg hba, if_neg hbp]
  rw [hpn] at hpn₁
  cases hpn₁
  refine ⟨_, (hatt.heap p).trans ((if_neg hpa).trans (if_pos rfl)), rfl, rfl, rfl, fun name hname => ?_⟩
  grind

/-- What `create` does with a `CreateAccept`. -/
theorem Anchored.leaves_createNode (h : m.Anchored P p) (name : Name) (u : UInt64) :
    m.Leaves p [⟨name, u, P⟩] [] (m.createNode p name u) := by
  have hwf := (h.wellFormed.createNode p name u).wellFormed
  cases hu : m.mTree[u]? with
  | some a =>
    have heq : m.createNode p name u = m := by simp only [createNode, hu]
    rw [heq]
    exact ⟨h.wellFormed, fun hv _ => hv, fun hl _ => hl, fun hb _ => hb,
      fun hv hb => by rw [hv] at hb; cases hb⟩
  | none =>
    have hp : p ≠ m.nextAddr := by
      obtain ⟨pn, hpn, -⟩ := h.wellFormed.mTree_heap h.parent
      exact (h.wellFormed.heap_lt hpn).ne
    have hmTree : ∀ v : UInt64, (m.createNode p name u).mTree[v]? =
        if v = u then some m.nextAddr else m.mTree[v]? := by
      intro v
      simp only [createNode, hu, linkIfNew, modifyNode_mTree, emplace, makeNode]
      grind
    have hheap : ∀ b : Addr, (m.createNode p name u).heap[b]? =
        if b = m.nextAddr then some (.make name (some p) u)
        else if b = p then (m.heap[p]?).map fun pn =>
          { pn with children := pn.children.insertIfNew name m.nextAddr }
        else m.heap[b]? := by
      intro b
      simp only [createNode, hu, linkIfNew, modifyNode_heap, emplace, makeNode]
      grind
    refine leaves_of_entry (i := ⟨name, u, P⟩) hwf h (.inr ⟨hu, rfl⟩) hmTree
      ⟨_, (hheap _).trans (if_pos rfl), rfl, rfl, rfl⟩ (fun pn hpn => ?_)
      fun b hba hbp => by rw [hheap, if_neg hba, if_neg hbp]
    refine ⟨{ pn with children := pn.children.insertIfNew name m.nextAddr }, ?_, rfl, rfl, rfl,
      fun name' hname => ?_⟩
    · rw [hheap, if_neg hp, if_pos rfl, hpn]
      rfl
    · grind

/-- An object comes to its end that nothing refers to. -/
theorem Anchored.free (h : m.Anchored P p) (hb : m.isReferenced b = false) :
    (m.free b).Anchored P p ∧ (∀ {name : Name}, m.Lacks p name → (m.free b).Lacks p name) ∧
      ∀ {name : Name} {u : UInt64} {a : Addr}, m.Placed p name u a → a ≠ b →
        (m.free b).Placed p name u a := by
  refine ⟨⟨h.wellFormed.free hb, h.parent⟩, fun {name} hl pn hpn => hl pn ?_, fun {name u a} ha hne => ?_⟩
  · simp only [Mirror.free] at hpn
    grind
  · obtain ⟨n, hn, hrest⟩ := ha
    refine ⟨n, ?_, hrest⟩
    simp only [Mirror.free]
    grind

end Mirror

end PropertyTree.Client
