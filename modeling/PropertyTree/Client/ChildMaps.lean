import PropertyTree.Client.Deletions
import PropertyTree.Client.Mentions

/-!
# The children maps of a mirror

`Listed dead m` says that every object in `mTree` stands under its name in the children map of its
parent, unless its node is `dead`: an entry is erased by its name, by `removeNodes` together with the
`mTree` entry, and by `destroy` before it.  As long as no two nodes that are known have the same name
and the same parent, nothing but the entry of the node itself is overwritten or erased.
-/

namespace PropertyTree.Client

open Library

variable {created : NamedNode → Prop} {gone dead dead' known : UInt64 → Prop} {m m' : Mirror}
  {i : NamedNode}

/-- Every object in `mTree` is listed by its parent, unless its node is dead. -/
def Listed (dead : UInt64 → Prop) (m : Mirror) : Prop :=
  ∀ (u : UInt64) (a p : Addr) (n pn : Node), m.mTree[u]? = some a → m.heap[a]? = some n →
    n.parent = some p → m.heap[p]? = some pn → pn.children[n.name]? = some a ∨ dead u

/-- The nodes that are known have different names below one parent. -/
def Distinct (created : NamedNode → Prop) (known : UInt64 → Prop) : Prop :=
  ∀ i j : NamedNode, created i → created j → known i.uuid → known j.uuid →
    i.parentUuid = j.parentUuid → i.name = j.name → i.uuid = j.uuid

/-- What `mTree` knows of is known. -/
def KnownIn (known : UInt64 → Prop) (m : Mirror) : Prop :=
  ∀ u : UInt64, m.mTree[u]? ≠ none → known u

namespace KnownIn

/-- The node and the parent of an entry are known when it is added. -/
theorem addNode (h : KnownIn known m) (hki : known i.uuid)
    (hkp : known i.parentUuid) : KnownIn known (m.addNode i) := by
  intro v hv
  rw [← Option.isSome_iff_ne_none, Mirror.isSome_mTree_addNode] at hv
  cases hlast : lastOf v (entryMentions i) with
  | none =>
    rw [hlast, Option.getD_none, Option.isSome_iff_ne_none] at hv
    exact h v hv
  | some b =>
    have hmem := mem_of_lastOf hlast
    simp only [entryMentions, List.mem_cons, Prod.mk.injEq, List.not_mem_nil, or_false] at hmem
    rcases hmem with ⟨rfl, -⟩ | ⟨rfl, -⟩
    · exact hkp
    · exact hki

/-- The removal of a uuid makes nothing known. -/
theorem removeNode (h : KnownIn known m) (u : UInt64) : KnownIn known (m.removeNode u) := by
  intro v hv
  rw [← Option.isSome_iff_ne_none, Mirror.isSome_mTree_removeNode, lastOf_singleton] at hv
  split_ifs at hv
  · cases hv
  · exact h v (Option.isSome_iff_ne_none.mp hv)

end KnownIn

namespace Kept

/-- What stands in a children map under the name and the parent of a known node is that node. -/
theorem entry_eq (h : Kept created gone m) (hdist : Distinct created known)
    (hknown : KnownIn known m) (hi : created i)
    (hki : known i.uuid) {p b : Addr} {pn : Node} (hpn : m.heap[p]? = some pn)
    (hpu : pn.uuid = i.parentUuid) (hb : pn.children[i.name]? = some b) :
    m.mTree[i.uuid]? = some b := by
  obtain ⟨n, hn, hname, hpar, hreg⟩ := h.mTree_of_child hpn hb
  obtain ⟨-, j, hj, hju, hjn, -, hjp⟩ := h.parent hn hpar
  have hkj : known j.uuid := by
    refine hknown j.uuid ?_
    rw [hju, hreg]
    exact Option.some_ne_none b
  have heq := hdist j i hj hi hkj hki ((hjp pn hpn).symm.trans hpu) (hjn.trans hname)
  rw [← heq, hju, hreg]

end Kept

namespace Listed

/-- More nodes may be dead. -/
theorem mono (h : Listed dead m) (hd : ∀ u, dead u → dead' u) : Listed dead' m :=
  fun u a p n pn hu hn hp hpn => (h u a p n pn hu hn hp hpn).imp_right (hd u)

/-- Data and handlers do not matter. -/
theorem sameShape (h : Listed dead m) (hm : m.SameShape m') : Listed dead m' := by
  intro u a p n' pn' hu hn' hp hpn'
  rw [hm.mTree] at hu
  obtain ⟨n, hn, hname, -, hpar, -⟩ := hm.exists_heap hn'
  obtain ⟨pn, hpn, -, hch, -, -⟩ := hm.exists_heap hpn'
  rw [hname, hch]
  exact h u a p n pn hu hn (hpar ▸ hp) hpn

/-- An entry of a children map is erased whose node is dead. -/
theorem unlink (h : Listed dead m) (hk : Kept created gone m) {p : Addr} {name : Name}
    (hdead : ∀ (pn : Node) (b : Addr) (n : Node), m.heap[p]? = some pn →
      pn.children[name]? = some b → m.heap[b]? = some n → dead n.uuid) :
    Listed dead (m.unlink p name) := by
  -- the objects are those that were there
  have hold : ∀ {x : Addr} {n' : Node}, (m.unlink p name).heap[x]? = some n' →
      ∃ n : Node, m.heap[x]? = some n ∧ n'.name = n.name ∧ n'.parent = n.parent ∧
        n'.children = if x = p then n.children.erase name else n.children := by
    intro x n' hx
    rw [Mirror.unlink, Mirror.modifyNode_heap] at hx
    split_ifs at hx with hxp
    · obtain ⟨n, hn, rfl⟩ := Option.map_eq_some_iff.mp hx
      exact ⟨n, hn, rfl, rfl, (if_pos hxp).symm⟩
    · exact ⟨n', hx, rfl, rfl, (if_neg hxp).symm⟩
  intro u a q n' qn' hu hn' hq hqn'
  obtain ⟨n, hn, hname, hpar, -⟩ := hold hn'
  obtain ⟨qn, hqn, -, -, hch⟩ := hold hqn'
  rcases h u a q n qn hu hn (hpar ▸ hq) hqn with hent | hd
  · by_cases heq : q = p ∧ n.name = name
    · obtain ⟨rfl, rfl⟩ := heq
      exact .inr (hk.uuid_eq hu hn ▸ hdead qn a n hqn hent hn)
    · left
      rw [hname, hch]
      split_ifs with hqp
      · grind
      · exact hent
  · exact .inr hd

/-- `destroy` erases the entry of its own node, which is dead, or none. -/
theorem destroyNode (h : Listed dead m) (hk : Kept created gone m) {a : Addr}
    (hdead : ∀ (n : Node) (p : Addr) (pn : Node) (b : Addr), m.heap[a]? = some n →
      n.parent = some p → m.heap[p]? = some pn → pn.children[n.name]? = some b → b = a ∧ dead n.uuid) :
    Listed dead (m.destroyNode a) := by
  unfold Mirror.destroyNode
  split
  · exact h
  · rename_i n hn
    split
    · exact h
    · rename_i p hp
      refine h.unlink hk fun pn b nb hpn hb hnb => ?_
      obtain ⟨rfl, hd⟩ := hdead n p pn b hn (Mirror.lock_eq_some_iff.mp hp).1 hpn hb
      rw [hn] at hnb
      cases hnb
      exact hd

/-- The end of an object that the mirror does not refer to. -/
theorem free (h : Listed dead m) (a : Addr) : Listed dead (m.free a) := by
  have hheap : ∀ {x : Addr} {n : Node}, (m.free a).heap[x]? = some n → m.heap[x]? = some n := by
    intro x n hx
    simp only [Mirror.free] at hx
    grind
  exact fun u x p n pn hu hn hp hpn => h u x p n pn hu (hheap hn) hp (hheap hpn)

/-- A new object without a parent. -/
theorem makeNode_emplace (h : Listed dead m) (hk : Kept created gone m) (name : Name) (u : UInt64) :
    Listed dead ((m.makeNode name none u).emplace u m.nextAddr) := by
  have hheap : ∀ x : Addr, ((m.makeNode name none u).emplace u m.nextAddr).heap[x]? =
      if x = m.nextAddr then some (.make name none u) else m.heap[x]? := by
    intro x
    simp only [Mirror.emplace, Mirror.makeNode]
    grind
  have hmTree : ∀ {v : UInt64} {a : Addr},
      ((m.makeNode name none u).emplace u m.nextAddr).mTree[v]? = some a →
        a = m.nextAddr ∨ m.mTree[v]? = some a := by
    intro v a hv
    simp only [Mirror.emplace, Mirror.makeNode] at hv
    grind
  intro v a p n pn hv hn hp hpn
  rw [hheap] at hn hpn
  split_ifs at hn with han
  · cases hn
    cases hp
  · split_ifs at hpn with hpl
    · exact absurd (hpl ▸ (hk.parent hn hp).1) (lt_irrefl _)
    · exact h v a p n pn ((hmTree hv).resolve_left han) hn hp hpn

theorem emplaceRoot (h : Listed dead m) (hk : Kept created gone m) : Listed dead m.emplaceRoot := by
  unfold Mirror.emplaceRoot
  split
  · exact h
  · exact h.makeNode_emplace hk [] 0

section Place

variable {a p : Addr} {n pn : Node} {children : Std.ExtTreeMap Name Addr}

/-- A node is put at `a`, below the object at `p`, where its name is free or its own. -/
theorem place (h : Listed dead m) (hk : Kept created gone m) (hpn : m.heap[p]? = some pn)
    (hap : a ≠ p) (ha : m.heap[a]? = some n ∨ a = m.nextAddr ∧ n = .make i.name (some p) i.uuid)
    (hmTree : ∀ v : UInt64, m'.mTree[v]? = if v = i.uuid then some a else m.mTree[v]?)
    (hheap : ∀ x : Addr, m'.heap[x]? =
      if x = a then some { n with name := i.name, parent := some p }
      else if x = p then some { pn with children := children } else m.heap[x]?)
    (hfree : ∀ b : Addr, pn.children[i.name]? = some b → b = a)
    (hch : ∀ name : Name, children[name]? = if name = i.name then some a else pn.children[name]?) :
    Listed dead m' := by
  intro u x q nx qn' hu hx hq hqn'
  by_cases hxa : x = a
  · -- the node itself is listed at its place
    subst hxa
    rw [hheap, if_pos rfl] at hx
    cases hx
    cases hq
    rw [hheap, if_neg (Ne.symm hap), if_pos rfl] at hqn'
    cases hqn'
    exact .inl ((hch i.name).trans (if_pos rfl))
  · obtain ⟨ox, hox, hname, hpar⟩ :
        ∃ ox : Node, m.heap[x]? = some ox ∧ nx.name = ox.name ∧ nx.parent = ox.parent := by
      rw [hheap, if_neg hxa] at hx
      split_ifs at hx with hxp
      · cases hx
        exact ⟨pn, hxp ▸ hpn, rfl, rfl⟩
      · exact ⟨nx, hx, rfl, rfl⟩
    have hux : m.mTree[u]? = some x := by
      rw [hmTree] at hu
      split_ifs at hu with hui
      · exact absurd (Option.some.inj hu).symm hxa
      · exact hu
    rw [hpar] at hq
    rw [hname]
    have hold := fun qn hqn => h u x q ox qn hux hox hq hqn
    rw [hheap] at hqn'
    split_ifs at hqn' with hqa hqp
    · cases hqn'
      subst hqa
      rcases ha with hn | ⟨rfl, -⟩
      · exact hold n hn
      · exact absurd (hk.parent hox hq).1 (lt_irrefl _)
    · cases hqn'
      subst hqp
      refine (hold pn hpn).imp_left fun hent => ?_
      have hne : ox.name ≠ i.name := fun heq => hxa (hfree x (heq ▸ hent))
      rw [hch, if_neg hne, hent]
    · exact hold qn' hqn'

/-- An entry of `addNodes`. -/
theorem addNode (h : Listed dead m) (hk : Kept created gone m) (hdist : Distinct created known)
    (hknown : KnownIn known m) (hi : created i)
    (hne : i.uuid ≠ i.parentUuid) (hki : known i.uuid) (hkp : known i.parentUuid)
    (hgone : ¬ gone i.parentUuid) : Listed dead (m.addNode i) := by
  have hparent : ∀ {m : Mirror} {p : Addr}, Listed dead m → Kept created gone m → KnownIn known m →
      m.mTree[i.parentUuid]? = some p → Listed dead (m.addNode i) := by
    intro m p h hk hknown hp
    obtain ⟨pn, hpn, hpu⟩ := hk.wellFormed.mTree_heap hp
    have hplace := fun b => hk.entry_eq hdist hknown hi hki hpn hpu (b := b)
    have hch : ∀ (a : Addr) (name : Name), (pn.children.insert i.name a)[name]? =
        if name = i.name then some a else pn.children[name]? := by
      intro a name
      grind
    cases hu : m.mTree[i.uuid]? with
    | none =>
      have hatt := Mirror.addNode_of_unknown hu hp hpn (hk.wellFormed.heap_lt hpn)
      refine h.place hk hpn (ne_of_gt (hk.wellFormed.heap_lt hpn)) (.inr ⟨rfl, rfl⟩) hatt.mTree
        hatt.heap (fun b hb => ?_) (hch _)
      have hb' := hplace b hb
      rw [hu] at hb'
      cases hb'
    | some a =>
      obtain ⟨n, hn, hnu⟩ := hk.wellFormed.mTree_heap hu
      have hap : a ≠ p := by
        rintro rfl
        exact hne (hnu.symm.trans (hk.uuid_eq hp hn))
      have hatt := Mirror.addNode_of_known hu hn hp hpn hap (hk.wellFormed.heap_lt hn)
      refine h.place hk hpn hap (.inl hn) hatt.mTree hatt.heap (fun b hb => ?_) (hch _)
      have hb' := hplace b hb
      rw [hu] at hb'
      exact (Option.some.inj hb').symm
  cases hp : m.mTree[i.parentUuid]? with
  | some p => exact hparent h hk hknown hp
  | none =>
    rw [Mirror.addNode_of_ghost hp hne]
    refine hparent (h.makeNode_emplace hk ghostName i.parentUuid) (hk.ghost hp hgone) ?_
      ((Mirror.ghost_mTree hp _).trans (if_pos rfl))
    intro u hu
    rw [Mirror.ghost_mTree hp] at hu
    split_ifs at hu with hup
    · exact hup ▸ hkp
    · exact hknown u hu

/-- The node of a `CreateAccept`. -/
theorem createNode (h : Listed dead m) (hk : Kept created gone m) (hdist : Distinct created known)
    (hknown : KnownIn known m) (hi : created i)
    (hki : known i.uuid) (hpn : m.heap[p]? = some pn) (hpu : pn.uuid = i.parentUuid) :
    Listed dead (m.createNode p i.name i.uuid) := by
  cases hu : m.mTree[i.uuid]? with
  | some a => simpa only [Mirror.createNode, hu] using h
  | none =>
    have hplace : ∀ b : Addr, pn.children[i.name]? ≠ some b := by
      intro b hb
      have hb' := hk.entry_eq hdist hknown hi hki hpn hpu hb
      rw [hu] at hb'
      cases hb'
    have hch : ∀ name : Name, (pn.children.insertIfNew i.name m.nextAddr)[name]? =
        if name = i.name then some m.nextAddr else pn.children[name]? := by
      intro name
      rw [Std.ExtTreeMap.getElem?_insertIfNew]
      have hnone : i.name ∉ pn.children := fun hmem =>
        hplace _ (Std.ExtTreeMap.getElem?_eq_some_getElem hmem)
      grind
    refine h.place (n := .make i.name (some p) i.uuid) (a := m.nextAddr) hk hpn
      (ne_of_gt (hk.wellFormed.heap_lt hpn)) (.inr ⟨rfl, rfl⟩) (fun v => ?_) (fun x => ?_)
      (fun b hb => absurd hb (hplace b)) hch
    · simp only [Mirror.createNode, hu, Mirror.linkIfNew, Mirror.modifyNode, Mirror.emplace,
        Mirror.makeNode]
      grind
    · have hlt := hk.wellFormed.heap_lt hpn
      simp only [Mirror.createNode, hu, Mirror.linkIfNew, Mirror.modifyNode_heap, Mirror.emplace,
        Mirror.makeNode]
      grind [Node.make]

end Place

/-! ## Deletions -/

/-- The removal of a uuid. -/
theorem removeNode (h : Listed dead m) (hk : Kept created gone m) (hdist : Distinct created known)
    (hknown : KnownIn known m) (u : UInt64) :
    Listed dead (m.removeNode u) := by
  cases hu : m.mTree[u]? with
  | none => rwa [Mirror.removeNode_of_unknown hu]
  | some a =>
    obtain ⟨n, hn, hnu⟩ := hk.wellFormed.mTree_heap hu
    have hdet := Mirror.removeNode_of_known hu hn
    have hold : ∀ {x : Addr} {nx : Node}, (m.removeNode u).heap[x]? = some nx →
        ∃ ox : Node, m.heap[x]? = some ox ∧ nx.name = ox.name ∧ nx.parent = ox.parent ∧
          nx.children = if n.parent = some x then ox.children.erase n.name else ox.children := by
      intro x nx hx
      rw [hdet.heap] at hx
      split_ifs at hx with hpar
      · obtain ⟨ox, hox, rfl⟩ := Option.map_eq_some_iff.mp hx
        exact ⟨ox, hox, rfl, rfl, (if_pos hpar).symm⟩
      · exact ⟨nx, hx, rfl, rfl, (if_neg hpar).symm⟩
    intro v x q nx qn' hv hx hq hqn'
    rw [hdet.mTree] at hv
    split_ifs at hv with hvu
    obtain ⟨ox, hox, hname, hpar, -⟩ := hold hx
    obtain ⟨qn, hqn, -, -, hch⟩ := hold hqn'
    rw [hpar] at hq
    refine (h v x q ox qn hv hox hq hqn).imp_left fun hent => ?_
    rw [hname, hch]
    split_ifs with hparent
    · -- the erased entry is another one, since the two nodes are known
      have hnamene : ox.name ≠ n.name := by
        intro heq
        obtain ⟨-, j, hj, hju, hjn, -, hjp⟩ := hk.parent hn hparent
        have hkj : known j.uuid := by
          refine hknown j.uuid ?_
          rw [hju, hnu, hu]
          exact Option.some_ne_none a
        have hxa := hk.entry_eq hdist hknown hj hkj hqn (hjp qn hqn)
          (hjn.trans heq.symm ▸ hent)
        rw [hju, hnu, hu, Option.some.injEq] at hxa
        subst hxa
        rw [hn] at hox
        cases hox
        exact hvu ((hk.uuid_eq hv hn).symm.trans hnu)
      grind
    · exact hent

/-- The removal of several uuids. -/
theorem removeNodes (h : Listed dead m) (hk : Kept created gone m) (hdist : Distinct created known)
    (hknown : KnownIn known m) (del : List UInt64) :
    Listed dead (m.removeNodes del) := by
  induction del generalizing m gone with
  | nil => exact h
  | cons u del ih =>
    exact ih (h.removeNode hk hdist hknown u) (hk.removeNode u) (hknown.removeNode u)

/-- The entries of a notification, none of them gone. -/
theorem addNodes (h : Listed dead m) (hk : Kept created gone m) (hdist : Distinct created known)
    (hknown : KnownIn known m) {add : List NamedNode}
    (hi : ∀ i ∈ add, created i) (honce : ∀ {i j}, created i → created j → j.uuid = i.uuid → j = i)
    (hne : ∀ {i}, created i → i.uuid ≠ i.parentUuid)
    (hgone : ∀ i ∈ add, ¬ gone i.uuid ∧ ¬ gone i.parentUuid)
    (hadd : ∀ i ∈ add, known i.uuid ∧ known i.parentUuid) :
    Listed dead (m.addNodes add) ∧ KnownIn known (m.addNodes add) := by
  induction add generalizing m with
  | nil => exact ⟨h, hknown⟩
  | cons i add ih =>
    have hic := hi i List.mem_cons_self
    obtain ⟨hu, hp⟩ := hgone i List.mem_cons_self
    obtain ⟨hki, hkp⟩ := hadd i List.mem_cons_self
    exact ih (h.addNode hk hdist hknown hic (hne hic) hki hkp hp)
      (hk.addNode hic (fun hj => honce hic hj) (hne hic) hu hp) (hknown.addNode hki hkp)
      (fun j hj => hi j (List.mem_cons_of_mem i hj)) (fun j hj => hgone j (List.mem_cons_of_mem i hj))
      fun j hj => hadd j (List.mem_cons_of_mem i hj)

end Listed

end PropertyTree.Client
