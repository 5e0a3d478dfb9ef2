import PropertyTree.Client.Mirror
import PropertyTree.Library.NamedStore

/-!
# Mirrors that agree with a tree

`Agrees linked ent m` relates a mirror to what a server knows, given as the map `ent` from uuids to
entries: a known node has the entry's name and parent, or is a placeholder that waits for its entry;
and the nodes whose uuids satisfy `linked` are listed in their parent's children map.  Adding
entries of the tree and removing leaves of it keeps the agreement; so does destroying objects the
mirror does not refer to.
-/

namespace PropertyTree.Client

open Library

/-- What a server knows about each uuid. -/
abbrev Entries := UInt64 → Option (Entry UInt64 Name Buffer)

variable {linked : UInt64 → Prop} {ent : Entries} {m m' : Mirror}

/-- The node `n` at `a` of the uuid `u` has the name and the parent of the entry `e`, and is listed
below it if it has to be. -/
def Filled (linked : UInt64 → Prop) (m : Mirror) (u : UInt64) (e : Entry UInt64 Name Buffer)
    (a : Addr) (n : Node) : Prop :=
  n.name = e.name ∧
    (e.parent = none ∧ n.parent = none ∨
      ∃ (pu : UInt64) (p : Addr) (pn : Node), e.parent = some pu ∧ m.mTree[pu]? = some p ∧
        n.parent = some p ∧ m.heap[p]? = some pn ∧ (linked u → pn.children[n.name]? = some a))

/-- The node is a placeholder that has not been filled. -/
def Placeholder (n : Node) : Prop :=
  n.name = ghostName ∧ n.parent = none

/-- The mirror agrees with the entries. -/
structure Agrees (linked : UInt64 → Prop) (ent : Entries) (m : Mirror) : Prop where
  /-- Entries of `mTree` refer to objects that carry their uuid. -/
  mTree_heap : ∀ {u : UInt64} {a : Addr}, m.mTree[u]? = some a →
    ∃ n : Node, m.heap[a]? = some n ∧ n.uuid = u
  /-- Addresses are handed out in order. -/
  heap_lt : ∀ {a : Addr} {n : Node}, m.heap[a]? = some n → a < m.nextAddr
  /-- A known uuid is an entry, and its node is filled from it or a placeholder. -/
  node : ∀ {u : UInt64} {a : Addr} {n : Node}, m.mTree[u]? = some a → m.heap[a]? = some n →
    ∃ e, ent u = some e ∧ (Filled linked m u e a n ∨ Placeholder n)
  /-- The children maps list linked nodes only. -/
  child : ∀ {u : UInt64} {p : Addr} {pn : Node} {name : Name} {a : Addr}, m.mTree[u]? = some p →
    m.heap[p]? = some pn → pn.children[name]? = some a →
    ∃ (v : UInt64) (n : Node), m.mTree[v]? = some a ∧ m.heap[a]? = some n ∧ n.parent = some p ∧
      n.name = name

namespace Agrees

/-- Different uuids have different objects. -/
theorem inj (h : Agrees linked ent m) {u v : UInt64} {a : Addr} (hu : m.mTree[u]? = some a)
    (hv : m.mTree[v]? = some a) : u = v := by
  obtain ⟨n, hn, rfl⟩ := h.mTree_heap hu
  obtain ⟨n', hn', rfl⟩ := h.mTree_heap hv
  rw [hn] at hn'
  cases hn'
  rfl

/-- A node with a parent is filled from its entry. -/
theorem filled (h : Agrees linked ent m) {u : UInt64} {a p : Addr} {n : Node} (hu : m.mTree[u]? = some a)
    (hn : m.heap[a]? = some n) (hp : n.parent = some p) :
    ∃ e pu pn, ent u = some e ∧ e.parent = some pu ∧ n.name = e.name ∧ m.mTree[pu]? = some p ∧
      m.heap[p]? = some pn ∧ (linked u → pn.children[n.name]? = some a) := by
  obtain ⟨e, he, ⟨hname, ⟨-, hnone⟩ | ⟨pu, q, pn, hpu, hq, hnq, hpn, hlink⟩⟩ | ⟨-, hnone⟩⟩ :=
    h.node hu hn
  · rw [hp] at hnone
    cases hnone
  · rw [hp] at hnq
    cases hnq
    exact ⟨e, pu, pn, he, hpu, hname, hq, hpn, hlink⟩
  · rw [hp] at hnone
    cases hnone

/-- A placeholder for an unknown entry keeps the agreement. -/
theorem ghost (h : Agrees linked ent m) {i : NamedNode} (hu : m.mTree[i.parentUuid]? = none)
    (hent : ent i.parentUuid ≠ none) :
    Agrees linked ent (m.ghost i.parentUuid) := by
  have hmTree := Mirror.ghost_mTree hu
  have hheap := Mirror.ghost_heap (m := m) i.parentUuid
  obtain ⟨e, he⟩ := Option.ne_none_iff_exists'.mp hent
  have hlt := @h.heap_lt
  constructor
  · intro v a hv
    rw [hmTree] at hv
    rw [hheap]
    split_ifs at hv with hvu
    · cases hv
      exact ⟨_, if_pos rfl, hvu.symm⟩
    · obtain ⟨n, hn, hnu⟩ := h.mTree_heap hv
      have := h.heap_lt hn
      exact ⟨n, by rw [if_neg (by grind), hn], hnu⟩
  · intro a n hn
    rw [hheap] at hn
    rw [Mirror.ghost_nextAddr]
    have := h.heap_lt (a := a) (n := n)
    grind
  · intro v a n hv hn
    rw [hmTree] at hv
    rw [hheap] at hn
    split_ifs at hv with hvu
    · subst hvu
      cases hv
      rw [if_pos rfl] at hn
      cases hn
      exact ⟨e, he, .inr ⟨rfl, rfl⟩⟩
    · obtain ⟨n', hn', -⟩ := h.mTree_heap hv
      have := h.heap_lt hn'
      rw [if_neg (by grind)] at hn
      obtain ⟨e', he', hor⟩ := h.node hv hn
      refine ⟨e', he', hor.imp_left ?_⟩
      rintro ⟨hname, hroot | ⟨pu, p, pn, hpu, hp, hnp, hpn, hlink⟩⟩
      · exact ⟨hname, .inl hroot⟩
      · have := h.heap_lt hpn
        exact ⟨hname, .inr ⟨pu, p, pn, hpu, by rw [hmTree, if_neg (by grind), hp], hnp,
          by rw [hheap, if_neg (by grind), hpn], hlink⟩⟩
  · intro v p pn name a hv hpn ha
    rw [hmTree] at hv
    rw [hheap] at hpn
    split_ifs at hv with hvu
    · cases hv
      rw [if_pos rfl] at hpn
      cases hpn
      simp [Node.make] at ha
    · obtain ⟨n', hn', -⟩ := h.mTree_heap hv
      have := h.heap_lt hn'
      rw [if_neg (by grind)] at hpn
      obtain ⟨w, n, hw, hn, hnp, hname⟩ := h.child hv hpn ha
      have := h.heap_lt hn
      exact ⟨w, n, by rw [hmTree, if_neg (by grind), hw], by rw [hheap, if_neg (by grind), hn], hnp,
        hname⟩

/-- Attaching the node of an entry below its known parent keeps the agreement. -/
theorem attach (h : Agrees linked ent m) (ht : NamedTree 0 ent) {i : NamedNode} {e : Entry UInt64 Name Buffer}
    (he : ent i.uuid = some e) (hpar : e.parent = some i.parentUuid) (hname : e.name = i.name)
    {p a : Addr} {pn n : Node} (hp : m.mTree[i.parentUuid]? = some p) (hpn : m.heap[p]? = some pn)
    (ha : m.mTree[i.uuid]? = some a ∧ m.heap[a]? = some n ∨
      m.mTree[i.uuid]? = none ∧ a = m.nextAddr ∧ n = .make i.name (some p) i.uuid)
    (hatt : Mirror.Attached m i.name i.uuid p pn a n m') : Agrees linked ent m' := by
  have hplt := h.heap_lt hpn
  have hne := (ht.parent he hpar).1
  have hap : a ≠ p := by
    rcases ha with ⟨hu, -⟩ | ⟨-, rfl, -⟩
    · rintro rfl
      exact hne (h.inj hu hp)
    · exact ne_of_gt hplt
  have huuid : n.uuid = i.uuid := by
    rcases ha with ⟨hu, hn⟩ | ⟨-, -, rfl⟩
    · obtain ⟨n', hn', hnu⟩ := h.mTree_heap hu
      grind
    · rfl
  -- no other uuid is registered with the object at `a`
  have hother : ∀ {v : UInt64} {b : Addr}, v ≠ i.uuid → m.mTree[v]? = some b → b ≠ a := by
    rintro v b hv hb rfl
    rcases ha with ⟨hu, -⟩ | ⟨-, rfl, -⟩
    · exact hv (h.inj hb hu)
    · obtain ⟨n', hn', -⟩ := h.mTree_heap hb
      exact lt_irrefl _ (h.heap_lt hn')
  have hmTree := hatt.mTree
  have hheap := hatt.heap
  have hpn' : m'.heap[p]? = some { pn with children := pn.children.insert i.name a } := by
    rw [hheap, if_neg (Ne.symm hap), if_pos rfl]
  have hp' : m'.mTree[i.parentUuid]? = some p := by
    rw [hmTree, if_neg (Ne.symm hne), hp]
  -- every object other than the one at `a` keeps its fields, up to the new link
  have hkeep : ∀ {b : Addr} {nb : Node}, b ≠ a → m.heap[b]? = some nb →
      ∃ nb' : Node, m'.heap[b]? = some nb' ∧ nb'.name = nb.name ∧ nb'.parent = nb.parent ∧
        nb'.uuid = nb.uuid ∧
        nb'.children = if b = p then nb.children.insert i.name a else nb.children := by
    intro b nb hb hnb
    by_cases hbp : b = p
    · subst hbp
      rw [hpn] at hnb
      cases hnb
      exact ⟨_, hpn', rfl, rfl, rfl, (if_pos rfl).symm⟩
    · exact ⟨nb, by rw [hheap, if_neg hb, if_neg hbp, hnb], rfl, rfl, rfl, (if_neg hbp).symm⟩
  -- a link other than the one below `p` under the new name stays
  have hlink : ∀ {q b : Addr} {qn : Node} {name : Name}, m.heap[q]? = some qn →
      qn.children[name]? = some b → (q = a → qn = n) → (q = p → name ≠ i.name) →
      ∃ qn' : Node, m'.heap[q]? = some qn' ∧ qn'.children[name]? = some b := by
    intro q b qn name hq hb hqa hqp
    by_cases hqa' : q = a
    · refine ⟨_, by rw [hheap, if_pos hqa'], ?_⟩
      rw [← hqa hqa']
      exact hb
    · obtain ⟨qn', hq', -, -, -, hch⟩ := hkeep hqa' hq
      refine ⟨qn', hq', ?_⟩
      rw [hch]
      split_ifs with h'
      · have := hqp h'
        grind
      · exact hb
  have hexists : ∀ {q : Addr} {qn : Node}, m.heap[q]? = some qn →
      ∃ qn' : Node, m'.heap[q]? = some qn' := by
    intro q qn hq
    by_cases hqa : q = a
    · exact ⟨_, by rw [hheap, if_pos hqa]⟩
    · obtain ⟨qn', hq', -⟩ := hkeep hqa hq
      exact ⟨qn', hq'⟩
  have han : ∀ {nb : Node}, m.heap[a]? = some nb → nb = n := by
    intro nb hnb
    rcases ha with ⟨-, hn⟩ | ⟨-, rfl, -⟩
    · grind
    · exact absurd (h.heap_lt hnb) (lt_irrefl _)
  constructor
  · intro v b hv
    rw [hmTree] at hv
    split_ifs at hv with hvu
    · cases hv
      exact ⟨_, (hheap a).trans (if_pos rfl), huuid.trans hvu.symm⟩
    · obtain ⟨nb, hnb, hnu⟩ := h.mTree_heap hv
      obtain ⟨nb', hnb', -, -, hnu', -⟩ := hkeep (hother hvu hv) hnb
      exact ⟨nb', hnb', hnu'.trans hnu⟩
  · intro b nb hb
    rw [hheap] at hb
    rw [hatt.nextAddr]
    have := h.heap_lt (a := b) (n := nb)
    grind
  · intro v b nb hv hnb
    rw [hmTree] at hv
    split_ifs at hv with hvu
    · cases hv
      subst hvu
      rw [hheap, if_pos rfl] at hnb
      cases hnb
      refine ⟨e, he, .inl ⟨hname.symm, .inr ⟨i.parentUuid, p, _, hpar, hp', rfl, hpn', ?_⟩⟩⟩
      simp
    · obtain ⟨nb₀, hnb₀, -⟩ := h.mTree_heap hv
      obtain ⟨nb', hnb', hnm, hnp, -, -⟩ := hkeep (hother hvu hv) hnb₀
      rw [hnb] at hnb'
      cases hnb'
      obtain ⟨e', he', hor⟩ := h.node hv hnb₀
      refine ⟨e', he', ?_⟩
      rcases hor with ⟨hname', ⟨hroot, hnone⟩ | ⟨pu, q, qn, hpu, hq, hnq, hqn, hqb⟩⟩ | ⟨hg, hnone⟩
      · exact .inl ⟨hnm.trans hname', .inl ⟨hroot, hnp.trans hnone⟩⟩
      · have hq' : m'.mTree[pu]? = some q := by
          rw [hmTree]
          split_ifs with hpi
          · subst hpi
            rcases ha with ⟨hu, -⟩ | ⟨hu, -⟩
            · rw [← hu, hq]
            · rw [hu] at hq
              cases hq
          · exact hq
        obtain ⟨qn', hqn'⟩ := hexists hqn
        refine .inl ⟨hnm.trans hname', .inr ⟨pu, q, qn', hpu, hq', hnp.trans hnq, hqn', fun hv' => ?_⟩⟩
        obtain ⟨qn'', hqn'', hqb'⟩ := hlink hqn (hqb hv') (fun hqa => han (hqa ▸ hqn)) (by
          rintro rfl hnn
          obtain rfl := h.inj hq hp
          exact hvu (ht.sibling he' he hpu hpar (by rw [hname, ← hname', hnn])))
        rw [hqn', Option.some.injEq] at hqn''
        rw [hnm, hqn'']
        exact hqb'
      · exact .inr ⟨hnm.trans hg, hnp.trans hnone⟩
  · intro v q qn name b hv hq hb
    rw [hmTree] at hv
    -- an old entry that does not lead to `a` still leads to a node linked back
    have hold : ∀ {w : UInt64} {nb : Node}, b ≠ a → m.mTree[w]? = some b → m.heap[b]? = some nb →
        nb.parent = some q → nb.name = name → ∃ (w : UInt64) (nb : Node), m'.mTree[w]? = some b ∧
          m'.heap[b]? = some nb ∧ nb.parent = some q ∧ nb.name = name := by
      intro w nb hba hw hnb hnp hnm
      obtain ⟨nb', hnb', hnm', hnp', -, -⟩ := hkeep hba hnb
      have hwu : w ≠ i.uuid := by
        rintro rfl
        rcases ha with ⟨hu, -⟩ | ⟨hu, -⟩ <;> rw [hw] at hu <;> cases hu
        exact hba rfl
      exact ⟨w, nb', by rw [hmTree, if_neg hwu, hw], hnb', hnp'.trans hnp, hnm'.trans hnm⟩
    split_ifs at hv with hvu
    · obtain rfl : q = a := (Option.some.inj hv).symm
      rw [hheap, if_pos rfl] at hq
      cases hq
      rcases ha with ⟨hu, hn⟩ | ⟨-, -, rfl⟩
      · obtain ⟨w, nb, hw, hnb, hnp, hnm⟩ := h.child hu hn hb
        refine hold ?_ hw hnb hnp hnm
        rintro rfl
        obtain ⟨e', pu, -, he', hpu, -, hpb, -⟩ := h.filled hw hnb hnp
        obtain rfl := h.inj hpb hw
        exact (ht.parent he' hpu).1 rfl
      · simp [Node.make] at hb
    · obtain ⟨qn₀, hqn₀, -⟩ := h.mTree_heap hv
      obtain ⟨qn', hqn', -, -, -, hch⟩ := hkeep (hother hvu hv) hqn₀
      rw [hq] at hqn'
      cases hqn'
      rw [hch] at hb
      by_cases hnew : q = p ∧ name = i.name
      · obtain ⟨rfl, rfl⟩ := hnew
        obtain rfl : a = b := by
          rw [if_pos rfl] at hb
          grind
        exact ⟨i.uuid, _, by rw [hmTree, if_pos rfl], (hheap a).trans (if_pos rfl), rfl, rfl⟩
      · have hb₀ : qn₀.children[name]? = some b := by
          split_ifs at hb <;> grind
        obtain ⟨w, nb, hw, hnb, hnp, hnm⟩ := h.child hv hqn₀ hb₀
        refine hold ?_ hw hnb hnp hnm
        rintro rfl
        obtain ⟨e', pu, -, he', hpu, hname', hpq, -⟩ := h.filled hw hnb hnp
        rcases ha with ⟨hu, -⟩ | ⟨-, rfl, -⟩
        · obtain rfl := h.inj hw hu
          rw [he] at he'
          cases he'
          rw [hpar] at hpu
          cases hpu
          rw [hp] at hpq
          cases hpq
          exact hnew ⟨rfl, by rw [← hnm, hname', hname]⟩
        · exact lt_irrefl _ (h.heap_lt hnb)

/-- A mirror agrees with any entries that name and place its nodes as the given ones do, and fewer
nodes may have to be listed. -/
theorem mono (h : Agrees linked ent m) {linked' : UInt64 → Prop} {ent' : Entries}
    (hent : ∀ {u : UInt64} {a : Addr} {e}, m.mTree[u]? = some a → ent u = some e →
      ∃ e', ent' u = some e' ∧ e'.name = e.name ∧ e'.parent = e.parent)
    (hlinked : ∀ {u : UInt64} {a : Addr}, m.mTree[u]? = some a → linked' u → linked u) :
    Agrees linked' ent' m where
  mTree_heap := h.mTree_heap
  heap_lt := h.heap_lt
  node := by
    intro u a n hu hn
    obtain ⟨e, he, hor⟩ := h.node hu hn
    obtain ⟨e', he', hname, hparent⟩ := hent hu he
    refine ⟨e', he', hor.imp_left ?_⟩
    rintro ⟨hnm, hroot | ⟨pu, p, pn, hpu, hp, hnp, hpn, hlink⟩⟩
    · exact ⟨hnm.trans hname.symm, .inl ⟨hparent.trans hroot.1, hroot.2⟩⟩
    · exact ⟨hnm.trans hname.symm, .inr ⟨pu, p, pn, hparent.trans hpu, hp, hnp, hpn,
        fun hl => hlink (hlinked hu hl)⟩⟩
  child := h.child

/-- Taking a leaf of the tree out of the mirror keeps the agreement. -/
theorem detach (h : Agrees linked ent m) (ht : NamedTree 0 ent) {u : UInt64} {a : Addr} {n : Node}
    (hu : m.mTree[u]? = some a) (hn : m.heap[a]? = some n)
    (hleaf : ∀ {v : UInt64} {e}, ent v = some e → e.parent ≠ some u)
    (hdet : Mirror.Detached m u n m') : Agrees linked ent m' := by
  have hmTree := hdet.mTree
  have hheap := hdet.heap
  -- every object keeps its fields, up to the link to the removed node
  have hkeep : ∀ {b : Addr} {nb : Node}, m.heap[b]? = some nb →
      ∃ nb' : Node, m'.heap[b]? = some nb' ∧ nb'.name = nb.name ∧ nb'.parent = nb.parent ∧
        nb'.uuid = nb.uuid ∧
        nb'.children = if n.parent = some b then nb.children.erase n.name else nb.children := by
    intro b nb hnb
    rw [hheap, hnb]
    split_ifs with hb
    · exact ⟨_, rfl, rfl, rfl, rfl, rfl⟩
    · exact ⟨nb, rfl, rfl, rfl, rfl, rfl⟩
  have hback : ∀ {b : Addr} {nb' : Node}, m'.heap[b]? = some nb' →
      ∃ nb : Node, m.heap[b]? = some nb := by
    intro b nb' hnb'
    rw [hheap] at hnb'
    split_ifs at hnb' with hb
    · obtain ⟨nb, hnb, -⟩ := Option.map_eq_some_iff.mp hnb'
      exact ⟨nb, hnb⟩
    · exact ⟨nb', hnb'⟩
  constructor
  · intro v b hv
    rw [hmTree] at hv
    split_ifs at hv with hvu
    obtain ⟨nb, hnb, hnu⟩ := h.mTree_heap hv
    obtain ⟨nb', hnb', -, -, hnu', -⟩ := hkeep hnb
    exact ⟨nb', hnb', hnu'.trans hnu⟩
  · intro b nb' hnb'
    obtain ⟨nb, hnb⟩ := hback hnb'
    rw [hdet.nextAddr]
    exact h.heap_lt hnb
  · intro v b nb' hv hnb'
    rw [hmTree] at hv
    split_ifs at hv with hvu
    obtain ⟨nb, hnb⟩ := hback hnb'
    obtain ⟨nb'', hnb'', hnm, hnp, -, -⟩ := hkeep hnb
    rw [hnb'] at hnb''
    cases hnb''
    obtain ⟨e, he, hor⟩ := h.node hv hnb
    refine ⟨e, he, ?_⟩
    rcases hor with ⟨hname, ⟨hroot, hnone⟩ | ⟨pu, q, qn, hpu, hq, hnq, hqn, hqb⟩⟩ | ⟨hg, hnone⟩
    · exact .inl ⟨hnm.trans hname, .inl ⟨hroot, hnp.trans hnone⟩⟩
    · obtain ⟨qn', hqn', -, -, -, hch⟩ := hkeep hqn
      have hpu' : pu ≠ u := by
        rintro rfl
        exact hleaf he hpu
      refine .inl ⟨hnm.trans hname, .inr ⟨pu, q, qn', hpu, by rw [hmTree, if_neg hpu', hq],
        hnp.trans hnq, hqn', fun hv' => ?_⟩⟩
      have hqb' := hqb hv'
      rw [hch, hnm]
      split_ifs with hqp
      · have hne : n.name ≠ nb.name := by
          intro heq
          obtain ⟨e', pu', -, he', hpu'', hname', hq', -⟩ := h.filled hu hn hqp
          obtain rfl := h.inj hq hq'
          exact hvu (ht.sibling he he' hpu hpu'' (by rw [← hname, ← hname', heq]))
        grind
      · exact hqb'
    · exact .inr ⟨hnm.trans hg, hnp.trans hnone⟩
  · intro v q qn' name b hv hqn' hb
    rw [hmTree] at hv
    split_ifs at hv with hvu
    obtain ⟨qn, hqn⟩ := hback hqn'
    obtain ⟨qn'', hqn'', -, -, -, hch⟩ := hkeep hqn
    rw [hqn'] at hqn''
    cases hqn''
    rw [hch] at hb
    have hb₀ : qn.children[name]? = some b := by
      split_ifs at hb <;> grind
    obtain ⟨w, nb, hw, hnb, hnp, hnm⟩ := h.child hv hqn hb₀
    obtain ⟨nb', hnb', hnm', hnp', -, -⟩ := hkeep hnb
    have hwu : w ≠ u := by
      rintro rfl
      rw [hu] at hw
      cases hw
      rw [hn] at hnb
      cases hnb
      rw [if_pos hnp] at hb
      grind
    exact ⟨w, nb', by rw [hmTree, if_neg hwu, hw], hnb', hnp'.trans hnp, hnm'.trans hnm⟩

/-- The end of an object the mirror does not refer to keeps the agreement. -/
theorem free (h : Agrees linked ent m) {a : Addr} (ha : m.isReferenced a = false) :
    Agrees linked ent (m.free a) := by
  rw [Bool.eq_false_iff, ne_eq, Mirror.isReferenced_iff, not_or] at ha
  obtain ⟨hnoTree, hnoChild⟩ := ha
  have hheap : ∀ x : Addr, (m.free a).heap[x]? = if x = a then none else m.heap[x]? := by
    intro x
    simp only [Mirror.free]
    grind
  have hmTree : (m.free a).mTree = m.mTree := rfl
  have hne : ∀ {u : UInt64} {b : Addr}, m.mTree[u]? = some b → b ≠ a := by
    rintro u b hu rfl
    exact hnoTree ⟨u, hu⟩
  constructor
  · intro u b hu
    obtain ⟨n, hn, hnu⟩ := h.mTree_heap hu
    exact ⟨n, by rw [hheap, if_neg (hne hu), hn], hnu⟩
  · intro b n hn
    rw [hheap] at hn
    split_ifs at hn
    exact h.heap_lt hn
  · intro u b n hu hn
    rw [hheap, if_neg (hne hu)] at hn
    obtain ⟨e, he, hor⟩ := h.node hu hn
    refine ⟨e, he, hor.imp_left ?_⟩
    rintro ⟨hname, hroot | ⟨pu, p, pn, hpu, hp, hnp, hpn, hlink⟩⟩
    · exact ⟨hname, .inl hroot⟩
    · exact ⟨hname, .inr ⟨pu, p, pn, hpu, hp, hnp, by rw [hheap, if_neg (hne hp), hpn], hlink⟩⟩
  · intro u p pn name b hu hpn hb
    rw [hheap, if_neg (hne hu)] at hpn
    obtain ⟨v, n, hv, hn, hnp, hname⟩ := h.child hu hpn hb
    exact ⟨v, n, hv, by rw [hheap, if_neg (hne hv), hn], hnp, hname⟩

end Agrees

end PropertyTree.Client
