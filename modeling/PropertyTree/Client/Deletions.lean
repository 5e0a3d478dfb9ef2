import PropertyTree.Client.Changes

/-!
# Mirrors and the deletions they have seen

`Kept created gone m` says what a mirror is like as long as nothing that is `gone`, that is whose
deletion has been handled, is added to it again: the objects of the other uuids are registered, the
children maps list no object that is gone, and every object is named and placed as its node has been
created.  The entries a client adds keep it when neither their node nor their parent is gone, and
the removal of a uuid makes it gone.
-/

namespace PropertyTree.Client

variable {created created' : NamedNode → Prop} {gone gone' : UInt64 → Prop} {m m' : Mirror}

/-- The mirror knows nothing that is gone, and knows everything else as it has been created. -/
structure Kept (created : NamedNode → Prop) (gone : UInt64 → Prop) (m : Mirror) : Prop where
  wellFormed : m.WellFormed
  /-- An object is registered under its uuid, unless that is gone. -/
  registered : ∀ {a : Addr} {n : Node}, m.heap[a]? = some n →
    m.mTree[n.uuid]? = some a ∨ gone n.uuid
  /-- Nothing that is gone is registered. -/
  absent : ∀ {u : UInt64}, gone u → m.mTree[u]? = none
  /-- An object with a parent has the name and the parent its node has been created with. -/
  parent : ∀ {a p : Addr} {n : Node}, m.heap[a]? = some n → n.parent = some p →
    p < m.nextAddr ∧ ∃ i, created i ∧ i.uuid = n.uuid ∧ i.name = n.name ∧
      (m.mTree[i.parentUuid]? = some p ∨ gone i.parentUuid) ∧
        ∀ pn : Node, m.heap[p]? = some pn → pn.uuid = i.parentUuid
  /-- An entry of a children map is an object of that name and parent, and not gone. -/
  child : ∀ {p a : Addr} {pn : Node} {name : Name}, m.heap[p]? = some pn →
    pn.children[name]? = some a →
      ∃ n : Node, m.heap[a]? = some n ∧ n.name = name ∧ n.parent = some p ∧ ¬ gone n.uuid

namespace Kept

/-- Before the first message there is nothing. -/
theorem empty (created : NamedNode → Prop) : Kept created (fun _ => False) Mirror.empty := by
  refine ⟨⟨fun h => ?_, fun h => ?_⟩, fun h => ?_, nofun, fun h => ?_, fun h => ?_⟩ <;>
    simp [Mirror.empty] at h

/-- Different uuids have different objects. -/
theorem uuid_eq (h : Kept created gone m) {u : UInt64} {a : Addr} {n : Node}
    (hu : m.mTree[u]? = some a) (hn : m.heap[a]? = some n) : n.uuid = u := by
  obtain ⟨n', hn', hnu⟩ := h.wellFormed.mTree_heap hu
  rw [hn] at hn'
  cases hn'
  exact hnu

/-- The object that a children map lists is registered. -/
theorem mTree_of_child (h : Kept created gone m) {p a : Addr} {pn : Node} {name : Name}
    (hp : m.heap[p]? = some pn) (ha : pn.children[name]? = some a) :
    ∃ n : Node, m.heap[a]? = some n ∧ n.name = name ∧ n.parent = some p ∧
      m.mTree[n.uuid]? = some a := by
  obtain ⟨n, hn, hname, hpar, hgone⟩ := h.child hp ha
  exact ⟨n, hn, hname, hpar, (h.registered hn).resolve_right hgone⟩

/-- More may have been created, as long as the same is gone. -/
theorem mono (h : Kept created gone m) (hc : ∀ {i}, created i → created' i)
    (hg : ∀ u, gone' u ↔ gone u) : Kept created' gone' m := by
  obtain rfl : gone' = gone := funext fun u => propext (hg u)
  refine ⟨h.wellFormed, h.registered, h.absent, fun hn hp => ?_, h.child⟩
  obtain ⟨hlt, i, hi, hrest⟩ := h.parent hn hp
  exact ⟨hlt, i, hc hi, hrest⟩

/-- Data and handlers do not matter. -/
theorem sameShape (h : Kept created gone m) (hm : m.SameShape m') : Kept created gone m' := by
  refine ⟨⟨fun {x n'} hx => ?_, fun {v x} hv => ?_⟩, fun {x n'} hx => ?_, fun {v} hv => ?_,
    fun {x p n'} hx hp => ?_, fun {p x pn' name} hp hx => ?_⟩
  · obtain ⟨n, hn, -⟩ := hm.exists_heap hx
    exact hm.nextAddr ▸ h.wellFormed.heap_lt hn
  · rw [hm.mTree] at hv
    obtain ⟨n, hn, hu⟩ := h.wellFormed.mTree_heap hv
    obtain ⟨n', hn', -, -, -, hu'⟩ := hm.symm.exists_heap hn
    exact ⟨n', hn', hu'.symm.trans hu⟩
  · obtain ⟨n, hn, -, -, -, hu⟩ := hm.exists_heap hx
    rw [hm.mTree, hu]
    exact h.registered hn
  · rw [hm.mTree]
    exact h.absent hv
  · obtain ⟨n, hn, hname, -, hpar, hu⟩ := hm.exists_heap hx
    obtain ⟨hlt, i, hi, hiu, hin, hreg, huuid⟩ := h.parent hn (hpar ▸ hp)
    rw [hm.nextAddr, hm.mTree, hname, hu]
    refine ⟨hlt, i, hi, hiu, hin, hreg, fun pn' hpn' => ?_⟩
    obtain ⟨pn, hpn, -, -, -, hpu⟩ := hm.exists_heap hpn'
    exact hpu.trans (huuid pn hpn)
  · obtain ⟨pn, hpn, -, hch, -, -⟩ := hm.exists_heap hp
    obtain ⟨n, hn, hname, hpar, hgone⟩ := h.child hpn (hch ▸ hx)
    obtain ⟨n', hn', hname', -, hpar', hu⟩ := hm.symm.exists_heap hn
    exact ⟨n', hn', hname'.symm.trans hname, hpar'.symm.trans hpar, hu ▸ hgone⟩

/-! ## Changes of one object -/

/-- An entry of a children map is erased. -/
theorem unlink (h : Kept created gone m) (p : Addr) (name : Name) :
    Kept created gone (m.unlink p name) := by
  -- every object is one that was there, with at most fewer children
  have hold : ∀ {x : Addr} {n' : Node}, (m.unlink p name).heap[x]? = some n' →
      ∃ n : Node, m.heap[x]? = some n ∧ n'.uuid = n.uuid ∧ n'.name = n.name ∧
        n'.parent = n.parent ∧ ∀ {name : Name} {b : Addr}, n'.children[name]? = some b →
          n.children[name]? = some b := by
    intro x n' hx
    rw [Mirror.unlink, Mirror.modifyNode_heap] at hx
    split_ifs at hx
    · obtain ⟨n, hn, rfl⟩ := Option.map_eq_some_iff.mp hx
      exact ⟨n, hn, rfl, rfl, rfl, fun {name b} hb => by grind⟩
    · exact ⟨n', hx, rfl, rfl, rfl, id⟩
  have hnew : ∀ {x : Addr} {n : Node}, m.heap[x]? = some n →
      ∃ n' : Node, (m.unlink p name).heap[x]? = some n' ∧ n'.uuid = n.uuid ∧ n'.name = n.name ∧
        n'.parent = n.parent := by
    intro x n hx
    rw [Mirror.unlink, Mirror.modifyNode_heap, hx]
    split_ifs
    · exact ⟨_, rfl, rfl, rfl, rfl⟩
    · exact ⟨n, rfl, rfl, rfl, rfl⟩
  refine ⟨(h.wellFormed.unlink p name).wellFormed, fun {x n'} hx => ?_, h.absent,
    fun {x q n'} hx hq => ?_, fun {q x qn' name'} hq hx => ?_⟩
  · obtain ⟨n, hn, hu, -⟩ := hold hx
    exact hu ▸ h.registered hn
  · obtain ⟨n, hn, hu, hname, hpar, -⟩ := hold hx
    obtain ⟨hlt, i, hi, hiu, hin, hreg, huuid⟩ := h.parent hn (hpar ▸ hq)
    refine ⟨hlt, i, hi, hu ▸ hiu, hname ▸ hin, hreg, fun qn' hqn' => ?_⟩
    obtain ⟨qn, hqn, hqu, -⟩ := hold hqn'
    exact hqu.trans (huuid qn hqn)
  · obtain ⟨qn, hqn, -, -, -, hch⟩ := hold hq
    obtain ⟨n, hn, hname, hpar, hgone⟩ := h.child hqn (hch hx)
    obtain ⟨n', hn', hu, hname', hpar'⟩ := hnew hn
    exact ⟨n', hn', hname'.trans hname, hpar'.trans hpar, hu ▸ hgone⟩

theorem destroyNode (h : Kept created gone m) (a : Addr) :
    Kept created gone (m.destroyNode a) := by
  unfold Mirror.destroyNode
  split
  · exact h
  · split
    · exact h
    · exact h.unlink _ _

/-- The end of an object that the mirror does not refer to. -/
theorem free (h : Kept created gone m) {a : Addr} (ha : m.isReferenced a = false) :
    Kept created gone (m.free a) := by
  have hheap : ∀ {x : Addr} {n : Node}, (m.free a).heap[x]? = some n → m.heap[x]? = some n := by
    intro x n hx
    simp only [Mirror.free] at hx
    grind
  refine ⟨h.wellFormed.free ha, fun hn => h.registered (hheap hn), h.absent, fun hn hp => ?_,
    fun {p x pn name} hp hx => ?_⟩
  · obtain ⟨hlt, i, hi, hiu, hin, hreg, huuid⟩ := h.parent (hheap hn) hp
    exact ⟨hlt, i, hi, hiu, hin, hreg, fun pn hpn => huuid pn (hheap hpn)⟩
  · obtain ⟨n, hn, hrest⟩ := h.child (hheap hp) hx
    rw [Bool.eq_false_iff, ne_eq, Mirror.isReferenced_iff, not_or] at ha
    have hxa : x ≠ a := by
      rintro rfl
      exact ha.2 ⟨p, pn, name, hheap hp, hx⟩
    refine ⟨n, ?_, hrest⟩
    simp only [Mirror.free]
    grind

/-! ## New objects -/

/-- A new object without a parent, under a uuid that is not known. -/
theorem makeNode_emplace (h : Kept created gone m) (name : Name) {u : UInt64}
    (hu : m.mTree[u]? = none) (hgone : ¬ gone u) :
    Kept created gone ((m.makeNode name none u).emplace u m.nextAddr) := by
  have hheap : ∀ x : Addr, ((m.makeNode name none u).emplace u m.nextAddr).heap[x]? =
      if x = m.nextAddr then some (.make name none u) else m.heap[x]? := by
    intro x
    simp only [Mirror.emplace, Mirror.makeNode]
    grind
  have hmTree : ∀ v : UInt64, ((m.makeNode name none u).emplace u m.nextAddr).mTree[v]? =
      if v = u then some m.nextAddr else m.mTree[v]? := by
    intro v
    simp only [Mirror.emplace, Mirror.makeNode]
    grind
  have hnext : ((m.makeNode name none u).emplace u m.nextAddr).nextAddr = m.nextAddr + 1 := rfl
  have hkeep : ∀ {v : UInt64} {x : Addr}, m.mTree[v]? = some x →
      ((m.makeNode name none u).emplace u m.nextAddr).mTree[v]? = some x := by
    intro v x hv
    rw [hmTree, if_neg (by grind), hv]
  refine ⟨(h.wellFormed.makeNode_emplace name none u).wellFormed, fun {x n} hx => ?_,
    fun {v} hv => ?_, fun {x p n} hx hp => ?_, fun {p x pn name'} hp hx => ?_⟩
  · rw [hheap] at hx
    split_ifs at hx with hxn
    · cases hx
      exact .inl ((hmTree u).trans (by rw [if_pos rfl, hxn]))
    · exact (h.registered hx).imp_left hkeep
  · rw [hmTree, if_neg (by rintro rfl; exact hgone hv), h.absent hv]
  · rw [hheap] at hx
    split_ifs at hx with hxn
    · cases hx
      cases hp
    · obtain ⟨hlt, i, hi, hiu, hin, hreg, huuid⟩ := h.parent hx hp
      refine ⟨hnext ▸ Nat.lt_succ_of_lt hlt, i, hi, hiu, hin, hreg.imp_left hkeep, fun pn hpn => ?_⟩
      rw [hheap, if_neg (ne_of_lt hlt)] at hpn
      exact huuid pn hpn
  · rw [hheap] at hp
    split_ifs at hp with hpn
    · cases hp
      simp [Node.make] at hx
    · obtain ⟨n, hn, hrest⟩ := h.child hp hx
      exact ⟨n, by rw [hheap, if_neg (h.wellFormed.heap_lt hn).ne, hn], hrest⟩

theorem ghost (h : Kept created gone m) {u : UInt64} (hu : m.mTree[u]? = none) (hgone : ¬ gone u) :
    Kept created gone (m.ghost u) :=
  h.makeNode_emplace ghostName hu hgone

theorem emplaceRoot (h : Kept created gone m) (hgone : ¬ gone 0) :
    Kept created gone m.emplaceRoot := by
  unfold Mirror.emplaceRoot
  split
  · exact h
  · exact h.makeNode_emplace [] ‹_› hgone

/-! ## New entries -/

section Place

variable {i : NamedNode} {a p : Addr} {n pn : Node} {children : Std.ExtTreeMap Name Addr}

/-- A node is put at `a` as it has been created, below the object at `p`, in whose children map at
most it is new.  The object at `a` is new itself, or it is the one that is registered. -/
theorem place (h : Kept created gone m) (hi : created i) (hgone : ¬ gone i.uuid)
    (honce : ∀ {j}, created j → j.uuid = i.uuid → j = i)
    (hpn : m.heap[p]? = some pn) (hpu : pn.uuid = i.parentUuid)
    (ha : m.mTree[i.uuid]? = some a ∧ m.heap[a]? = some n ∧ a ≠ p ∧
        m.mTree[i.parentUuid]? = some p ∨
      m.mTree[i.uuid]? = none ∧ a = m.nextAddr ∧ n = .make i.name (some p) i.uuid)
    (hmTree : ∀ v : UInt64, m'.mTree[v]? = if v = i.uuid then some a else m.mTree[v]?)
    (hheap : ∀ x : Addr, m'.heap[x]? =
      if x = a then some { n with name := i.name, parent := some p }
      else if x = p then some { pn with children := children } else m.heap[x]?)
    (hnext : m'.nextAddr = max m.nextAddr (a + 1))
    (hch : ∀ {name : Name} {b : Addr}, children[name]? = some b →
      pn.children[name]? = some b ∨ name = i.name ∧ b = a) : Kept created gone m' := by
  have hplt := h.wellFormed.heap_lt hpn
  have hap : a ≠ p := by
    rcases ha with ⟨-, -, hap, -⟩ | ⟨-, rfl, -⟩
    · exact hap
    · exact ne_of_gt hplt
  have huuid : n.uuid = i.uuid := by
    rcases ha with ⟨hu, hn, -⟩ | ⟨-, -, rfl⟩
    · exact h.uuid_eq hu hn
    · rfl
  have hle : m.nextAddr ≤ m'.nextAddr := hnext ▸ le_max_left _ _
  have hkeep : ∀ {v : UInt64} {x : Addr}, m.mTree[v]? = some x → m'.mTree[v]? = some x := by
    intro v x hv
    rw [hmTree]
    split_ifs with hvu
    · rcases ha with ⟨hu, -⟩ | ⟨hu, -⟩ <;> grind
    · exact hv
  -- the other objects are those that were there
  have hother : ∀ {x : Addr} {nx : Node}, x ≠ a → m'.heap[x]? = some nx →
      ∃ ox : Node, m.heap[x]? = some ox ∧ nx.uuid = ox.uuid ∧ nx.name = ox.name ∧
        nx.parent = ox.parent := by
    intro x nx hxa hx
    rw [hheap, if_neg hxa] at hx
    split_ifs at hx with hxp
    · cases hx
      exact ⟨pn, hxp ▸ hpn, rfl, rfl, rfl⟩
    · exact ⟨nx, hx, rfl, rfl, rfl⟩
  have hnew : ∀ {x : Addr} {ox : Node}, x ≠ a → m.heap[x]? = some ox →
      ∃ nx : Node, m'.heap[x]? = some nx ∧ nx.uuid = ox.uuid ∧ nx.name = ox.name ∧
        nx.parent = ox.parent := by
    intro x ox hxa hx
    rw [hheap, if_neg hxa]
    split_ifs with hxp
    · subst hxp
      rw [hpn] at hx
      cases hx
      exact ⟨_, rfl, rfl, rfl, rfl⟩
    · exact ⟨ox, hx, rfl, rfl, rfl⟩
  have hat : m'.heap[a]? = some { n with name := i.name, parent := some p } := by
    rw [hheap, if_pos rfl]
  -- what was listed is still listed correctly
  have hlisted : ∀ {q x : Addr} {qn : Node} {name : Name}, m.heap[q]? = some qn →
      qn.children[name]? = some x → ∃ nx : Node, m'.heap[x]? = some nx ∧ nx.name = name ∧
        nx.parent = some q ∧ ¬ gone nx.uuid := by
    intro q x qn name hq hx
    obtain ⟨ox, hox, hname, hpar, hog⟩ := h.child hq hx
    by_cases hxa : x = a
    · subst hxa
      rcases ha with ⟨hu, hn, -, hreg⟩ | ⟨-, rfl, -⟩
      · rw [hn] at hox
        cases hox
        obtain ⟨-, j, hj, hju, hjn, hjp, -⟩ := h.parent hn hpar
        obtain rfl := honce hj (hju.trans huuid)
        have hqp : q = p := by
          rcases hjp with hjp | hjp
          · rw [hreg] at hjp
            exact (Option.some.inj hjp).symm
          · rw [h.absent hjp] at hreg
            cases hreg
        exact ⟨_, hat, hjn.trans hname, hqp ▸ rfl, hog⟩
      · exact absurd (h.wellFormed.heap_lt hox) (lt_irrefl _)
    · obtain ⟨nx, hnx, hu, hname', hpar'⟩ := hnew hxa hox
      exact ⟨nx, hnx, hname'.trans hname, hpar'.trans hpar, hu ▸ hog⟩
  refine ⟨⟨fun {x nx} hx => ?_, fun {v x} hv => ?_⟩, fun {x nx} hx => ?_, fun {v} hv => ?_,
    fun {x q nx} hx hq => ?_, fun {q x qn name} hq hx => ?_⟩
  · by_cases hxa : x = a
    · rw [hnext, hxa]
      exact lt_of_lt_of_le (Nat.lt_succ_self a) (le_max_right _ _)
    · obtain ⟨ox, hox, -⟩ := hother hxa hx
      exact lt_of_lt_of_le (h.wellFormed.heap_lt hox) hle
  · rw [hmTree] at hv
    split_ifs at hv with hvu
    · cases hv
      exact ⟨_, hat, huuid.trans hvu.symm⟩
    · obtain ⟨ox, hox, hou⟩ := h.wellFormed.mTree_heap hv
      by_cases hxa : x = a
      · rcases ha with ⟨hu, hn, -⟩ | ⟨-, rfl, -⟩
        · exact absurd ((h.uuid_eq hv (hxa ▸ hn)).symm.trans huuid) hvu
        · exact absurd (h.wellFormed.heap_lt hox) (hxa ▸ lt_irrefl _)
      · obtain ⟨nx, hnx, hu, -⟩ := hnew hxa hox
        exact ⟨nx, hnx, hu.trans hou⟩
  · by_cases hxa : x = a
    · subst hxa
      rw [hat] at hx
      cases hx
      exact .inl ((hmTree _).trans (if_pos huuid))
    · obtain ⟨ox, hox, hu, -⟩ := hother hxa hx
      exact hu ▸ (h.registered hox).imp_left hkeep
  · rw [hmTree, if_neg (by rintro rfl; exact hgone hv), h.absent hv]
  · by_cases hxa : x = a
    · subst hxa
      rw [hat] at hx
      cases hx
      cases hq
      refine ⟨lt_of_lt_of_le hplt hle, i, hi, huuid.symm, rfl, ?_, fun qn hqn => ?_⟩
      · exact hpu ▸ (h.registered hpn).imp_left hkeep
      · rw [hheap, if_neg (Ne.symm hap), if_pos rfl] at hqn
        cases hqn
        exact hpu
    · obtain ⟨ox, hox, hu, hname, hpar⟩ := hother hxa hx
      obtain ⟨hlt, j, hj, hju, hjn, hjp, hjq⟩ := h.parent hox (hpar ▸ hq)
      refine ⟨lt_of_lt_of_le hlt hle, j, hj, hju.trans hu.symm, hjn.trans hname.symm,
        hjp.imp_left hkeep, fun qn hqn => ?_⟩
      by_cases hqa : q = a
      · subst hqa
        rw [hat] at hqn
        cases hqn
        rcases ha with ⟨-, hn, -⟩ | ⟨-, rfl, -⟩
        · exact hjq n hn
        · exact absurd hlt (lt_irrefl _)
      · obtain ⟨oq, hoq, hqu, -⟩ := hother hqa hqn
        exact hqu.trans (hjq oq hoq)
  · by_cases hqa : q = a
    · subst hqa
      rw [hat] at hq
      cases hq
      rcases ha with ⟨-, hn, -⟩ | ⟨-, -, rfl⟩
      · exact hlisted hn hx
      · simp [Node.make] at hx
    · rw [hheap, if_neg hqa] at hq
      split_ifs at hq with hqp
      · subst hqp
        cases hq
        rcases hch hx with hx | ⟨rfl, rfl⟩
        · exact hlisted hpn hx
        · exact ⟨_, hat, rfl, rfl, huuid ▸ hgone⟩
      · exact hlisted hq hx

/-- An entry of `addNodes` whose node and parent are not gone. -/
theorem addNode (h : Kept created gone m) (hi : created i)
    (honce : ∀ {j}, created j → j.uuid = i.uuid → j = i) (hne : i.uuid ≠ i.parentUuid)
    (hgone : ¬ gone i.uuid) (hgone' : ¬ gone i.parentUuid) : Kept created gone (m.addNode i) := by
  have hknown : ∀ {m : Mirror} {p : Addr}, Kept created gone m →
      m.mTree[i.parentUuid]? = some p → Kept created gone (m.addNode i) := by
    intro m p h hp
    obtain ⟨pn, hpn, hpu⟩ := h.wellFormed.mTree_heap hp
    have hch : ∀ {a : Addr} {name : Name} {b : Addr},
        (pn.children.insert i.name a)[name]? = some b →
          pn.children[name]? = some b ∨ name = i.name ∧ b = a := by
      intro a name b hb
      grind
    cases hu : m.mTree[i.uuid]? with
    | none =>
      have hatt := Mirror.addNode_of_unknown hu hp hpn (h.wellFormed.heap_lt hpn)
      exact h.place hi hgone honce hpn hpu (.inr ⟨hu, rfl, rfl⟩) hatt.mTree hatt.heap
        hatt.nextAddr hch
    | some a =>
      obtain ⟨n, hn, hnu⟩ := h.wellFormed.mTree_heap hu
      have hap : a ≠ p := by
        rintro rfl
        exact hne (hnu.symm.trans (h.uuid_eq hp hn))
      have hatt := Mirror.addNode_of_known hu hn hp hpn hap (h.wellFormed.heap_lt hn)
      exact h.place hi hgone honce hpn hpu (.inl ⟨hu, hn, hap, hp⟩) hatt.mTree hatt.heap
        hatt.nextAddr hch
  cases hp : m.mTree[i.parentUuid]? with
  | some p => exact hknown h hp
  | none =>
    rw [Mirror.addNode_of_ghost hp hne]
    exact hknown (h.ghost hp hgone') ((Mirror.ghost_mTree hp _).trans (if_pos rfl))

/-- The node of a `CreateAccept` whose uuid is not gone. -/
theorem createNode (h : Kept created gone m) (hi : created i)
    (honce : ∀ {j}, created j → j.uuid = i.uuid → j = i) (hgone : ¬ gone i.uuid)
    (hpn : m.heap[p]? = some pn) (hpu : pn.uuid = i.parentUuid) :
    Kept created gone (m.createNode p i.name i.uuid) := by
  have hlt := h.wellFormed.heap_lt hpn
  cases hu : m.mTree[i.uuid]? with
  | some a => simpa only [Mirror.createNode, hu] using h
  | none =>
    have hch : ∀ {name : Name} {b : Addr},
        (pn.children.insertIfNew i.name m.nextAddr)[name]? = some b →
          pn.children[name]? = some b ∨ name = i.name ∧ b = m.nextAddr := by
      intro name b hb
      rw [Std.ExtTreeMap.getElem?_insertIfNew] at hb
      grind
    refine h.place (n := .make i.name (some p) i.uuid) (a := m.nextAddr) hi hgone honce hpn hpu
      (.inr ⟨hu, rfl, rfl⟩) (fun v => ?_) (fun x => ?_) ?_ hch
    · simp only [Mirror.createNode, hu, Mirror.linkIfNew, Mirror.modifyNode, Mirror.emplace,
        Mirror.makeNode]
      grind
    · simp only [Mirror.createNode, hu, Mirror.linkIfNew, Mirror.modifyNode_heap, Mirror.emplace,
        Mirror.makeNode]
      grind [Node.make]
    · simp only [Mirror.createNode, hu, Mirror.linkIfNew, Mirror.modifyNode, Mirror.emplace,
        Mirror.makeNode]
      grind

end Place

/-! ## Deletions -/

/-- The removal of a uuid makes it gone. -/
theorem removeNode (h : Kept created gone m) (u : UInt64) :
    Kept created (fun v => gone v ∨ v = u) (m.removeNode u) := by
  cases hu : m.mTree[u]? with
  | none =>
    -- no object has the uuid, unless it is gone already
    rw [Mirror.removeNode_of_unknown hu]
    refine ⟨h.wellFormed, fun hn => (h.registered hn).imp_right .inl, ?_, fun hn hp => ?_,
      fun hp ha => ?_⟩
    · rintro v (hv | rfl)
      · exact h.absent hv
      · exact hu
    · obtain ⟨hlt, i, hi, hiu, hin, hreg, huuid⟩ := h.parent hn hp
      exact ⟨hlt, i, hi, hiu, hin, hreg.imp_right .inl, huuid⟩
    · obtain ⟨n, hn, hname, hpar, hreg⟩ := h.mTree_of_child hp ha
      refine ⟨n, hn, hname, hpar, ?_⟩
      rintro (hgone | heq)
      · rw [h.absent hgone] at hreg
        cases hreg
      · rw [heq, hu] at hreg
        cases hreg
  | some a =>
    obtain ⟨n, hn, hnu⟩ := h.wellFormed.mTree_heap hu
    have hdet := Mirror.removeNode_of_known hu hn
    -- every object is one that was there, with fewer entries in its children map
    have hold : ∀ {x : Addr} {nx : Node}, (m.removeNode u).heap[x]? = some nx →
        ∃ ox : Node, m.heap[x]? = some ox ∧ nx.uuid = ox.uuid ∧ nx.name = ox.name ∧
          nx.parent = ox.parent ∧ ∀ {name : Name} {b : Addr}, nx.children[name]? = some b →
            ox.children[name]? = some b ∧ (n.parent = some x → name ≠ n.name) := by
      intro x nx hx
      rw [hdet.heap] at hx
      split_ifs at hx with hpar
      · obtain ⟨ox, hox, rfl⟩ := Option.map_eq_some_iff.mp hx
        refine ⟨ox, hox, rfl, rfl, rfl, fun {name b} hb => ?_⟩
        grind
      · exact ⟨nx, hx, rfl, rfl, rfl, fun hb => ⟨hb, fun hpar' => absurd hpar' hpar⟩⟩
    have hnew : ∀ {x : Addr} {ox : Node}, m.heap[x]? = some ox →
        ∃ nx : Node, (m.removeNode u).heap[x]? = some nx ∧ nx.uuid = ox.uuid ∧
          nx.name = ox.name ∧ nx.parent = ox.parent := by
      intro x ox hx
      rw [hdet.heap, hx]
      split_ifs
      · exact ⟨_, rfl, rfl, rfl, rfl⟩
      · exact ⟨ox, rfl, rfl, rfl, rfl⟩
    have hreg' : ∀ {v : UInt64} {x : Addr}, m.mTree[v]? = some x ∨ gone v →
        (m.removeNode u).mTree[v]? = some x ∨ gone v ∨ v = u := by
      intro v x hv
      rw [hdet.mTree]
      split_ifs with hvu
      · exact .inr (.inr hvu)
      · exact hv.imp_right .inl
    refine ⟨(h.wellFormed.removeNode u).wellFormed, fun {x nx} hx => ?_, ?_,
      fun {x p nx} hx hp => ?_, fun {p x pn name} hp hx => ?_⟩
    · obtain ⟨ox, hox, hxu, -⟩ := hold hx
      exact hxu ▸ hreg' (h.registered hox)
    · intro v hv
      rw [hdet.mTree]
      split_ifs with hvu
      · rfl
      · exact h.absent (hv.resolve_right hvu)
    · obtain ⟨ox, hox, hxu, hname, hpar, -⟩ := hold hx
      obtain ⟨hlt, i, hi, hiu, hin, hreg, huuid⟩ := h.parent hox (hpar ▸ hp)
      refine ⟨hdet.nextAddr ▸ hlt, i, hi, hiu.trans hxu.symm, hin.trans hname.symm, hreg' hreg,
        fun pn hpn => ?_⟩
      obtain ⟨op, hop, hpu, -⟩ := hold hpn
      exact hpu.trans (huuid op hop)
    · obtain ⟨op, hop, -, -, -, hch⟩ := hold hp
      obtain ⟨hx', hne⟩ := hch hx
      obtain ⟨ox, hox, hname, hpar, hgone⟩ := h.child hop hx'
      obtain ⟨nx, hnx, hxu, hname', hpar'⟩ := hnew hox
      refine ⟨nx, hnx, hname'.trans hname, hpar'.trans hpar, hxu ▸ ?_⟩
      rintro (hg | heq)
      · exact hgone hg
      · -- the entry of the removed object is the one that is erased
        have hxa := (h.registered hox).resolve_right hgone
        rw [heq, hu, Option.some.injEq] at hxa
        subst hxa
        rw [hn] at hox
        cases hox
        exact hne hpar hname.symm

/-- The removal of several uuids. -/
theorem removeNodes (h : Kept created gone m) (del : List UInt64) :
    Kept created (fun v => gone v ∨ v ∈ del) (m.removeNodes del) := by
  induction del generalizing m gone with
  | nil => exact h.mono id fun u => by simp
  | cons u del ih =>
    exact (ih (h.removeNode u)).mono id fun v => by simp only [List.mem_cons, or_assoc]

/-- The entries of a notification, none of them gone. -/
theorem addNodes (h : Kept created gone m) {add : List NamedNode} (hi : ∀ i ∈ add, created i)
    (honce : ∀ {i j}, created i → created j → j.uuid = i.uuid → j = i)
    (hne : ∀ {i}, created i → i.uuid ≠ i.parentUuid)
    (hgone : ∀ i ∈ add, ¬ gone i.uuid ∧ ¬ gone i.parentUuid) :
    Kept created gone (m.addNodes add) := by
  induction add generalizing m with
  | nil => exact h
  | cons i add ih =>
    have hic := hi i List.mem_cons_self
    obtain ⟨hu, hp⟩ := hgone i List.mem_cons_self
    exact ih (h.addNode hic (fun hj => honce hic hj) (hne hic) hu hp)
      (fun j hj => hi j (List.mem_cons_of_mem i hj))
      fun j hj => hgone j (List.mem_cons_of_mem i hj)

end Kept

end PropertyTree.Client
