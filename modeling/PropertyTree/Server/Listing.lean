import PropertyTree.Library.StackTraversal
import PropertyTree.Server.Invariant

/-!
# The listing of a subtree

`fillToAddListFromTree` is the stack loop of `Library.StackTraversal` on the children maps of the
heap.  On a tree of node objects it terminates within its fuel and appends the recursive preorder
listing, or the direct children when it is not asked to recurse.  The links of a server state form
such a tree.
-/

namespace PropertyTree.Server

open ProtocolHandler Library

/-- The children of a node object, in the order of their names. -/
def kids (heap : Std.ExtTreeMap Addr Node) (a : Addr) : List (Name × Addr) :=
  match heap[a]? with
  | none => []
  | some node => node.children.toList

/-- The uuid a node object carries. -/
def uuidAt (heap : Std.ExtTreeMap Addr Node) (a : Addr) : UInt64 :=
  match heap[a]? with
  | none => 0
  | some node => node.uuid

/-- The entry by which a child is listed. -/
def listEntry (heap : Std.ExtTreeMap Addr Node) (p : Addr) (name : Name) (a : Addr) : NamedNode :=
  ⟨name, uuidAt heap a, uuidAt heap p⟩

variable {s : ProtocolHandler}

/-- The children of an address are the entries of its object's children map. -/
theorem mem_kids_iff {heap : Std.ExtTreeMap Addr Node} {p : Addr} {name : Name} {a : Addr} :
    (name, a) ∈ kids heap p ↔ ∃ pn : Node, heap[p]? = some pn ∧ pn.children[name]? = some a := by
  unfold kids
  cases h : heap[p]? with
  | none => simp
  | some pn => simp [Std.ExtTreeMap.mem_toList_iff_getElem?_eq_some]

/-- The children of an object in the heap. -/
theorem kids_of_heap {heap : Std.ExtTreeMap Addr Node} {p : Addr} {pn : Node}
    (h : heap[p]? = some pn) : kids heap p = pn.children.toList := by
  simp [kids, h]

/-- The uuid of an object in the heap. -/
theorem uuidAt_of_heap {heap : Std.ExtTreeMap Addr Node} {a : Addr} {n : Node}
    (h : heap[a]? = some n) : uuidAt heap a = n.uuid := by
  simp [uuidAt, h]

/-! ## Trees of node objects -/

/-- The children maps of the heap form a forest: an entry refers to an object of the entry's name,
which is an entry of no other object, and nothing is below itself. -/
structure NodeTree (heap : Std.ExtTreeMap Addr Node) where
  /-- How high an object is above the leaves, or any other measure that decreases downwards. -/
  height : Addr → ℕ
  height_lt : ∀ {p a : Addr} {pn : Node} {name : Name}, heap[p]? = some pn →
    pn.children[name]? = some a → height a < height p
  child : ∀ {p a : Addr} {pn : Node} {name : Name}, heap[p]? = some pn →
    pn.children[name]? = some a → ∃ n : Node, heap[a]? = some n ∧ n.name = name
  unique : ∀ {p q a : Addr} {pn qn : Node} {name name' : Name}, heap[p]? = some pn →
    pn.children[name]? = some a → heap[q]? = some qn → qn.children[name']? = some a → p = q

/-- The links of a well-linked state form a tree. -/
def WellLinked.nodeTree (h : WellLinked s) : NodeTree s.heap where
  height a := s.nextAddr - a
  height_lt := by
    intro p a pn name hp ha
    have hlt := h.child_lt hp ha
    have hp' := h.heap_lt hp
    grind
  child := by
    intro p a pn name hp ha
    obtain ⟨n, hn, -, hname⟩ := h.child hp ha
    exact ⟨n, hn, hname⟩
  unique := fun hp ha hq ha' => (h.child_unique hp ha hq ha').1

namespace NodeTree

variable {heap : Std.ExtTreeMap Addr Node}

/-- Children are lower than their parent. -/
theorem rank_kids (T : NodeTree heap) : ∀ a, ∀ kc ∈ kids heap a, T.height kc.2 < T.height a := by
  rintro a ⟨name, c⟩ hkc
  obtain ⟨n, hn, hc⟩ := mem_kids_iff.mp hkc
  exact T.height_lt hn hc

/-- Every node object has one parent. -/
theorem isKid_unique (T : NodeTree heap) {a b c : Addr} (ha : IsKid (kids heap) a c)
    (hb : IsKid (kids heap) b c) : a = b := by
  obtain ⟨k, hk⟩ := ha
  obtain ⟨k', hk'⟩ := hb
  obtain ⟨an, han, hac⟩ := mem_kids_iff.mp hk
  obtain ⟨bn, hbn, hbc⟩ := mem_kids_iff.mp hk'
  exact T.unique han hac hbn hbc

/-- A node is an entry of its parent's children map only once. -/
theorem kids_nodup (T : NodeTree heap) (a : Addr) : ((kids heap a).map Prod.snd).Nodup := by
  cases ha : heap[a]? with
  | none => simp [kids, ha]
  | some n =>
    rw [kids_of_heap ha]
    refine List.pairwise_map.mpr ((Std.ExtTreeMap.distinct_keys_toList (t := n.children)).imp_of_mem
      (fun {x y} hx hy hne heq => hne ?_))
    rw [Std.ExtTreeMap.mem_toList_iff_getElem?_eq_some] at hx hy
    rw [Std.compare_eq_iff_eq]
    -- an object has one name
    obtain ⟨m, hm, hmx⟩ := T.child ha hx
    obtain ⟨m', hm', hmy⟩ := T.child ha hy
    rw [← hmx, ← hmy]
    rw [heq, hm'] at hm
    cases hm
    rfl

/-- A child is in the heap. -/
theorem mem_heap_of_mem_kids (T : NodeTree heap) {p a : Addr} {name : Name}
    (hk : (name, a) ∈ kids heap p) : a ∈ heap := by
  obtain ⟨pn, hp, hc⟩ := mem_kids_iff.mp hk
  obtain ⟨n, hn, -⟩ := T.child hp hc
  grind

/-- The proper descendants of a node in preorder: each with its parent, and the name it has there. -/
noncomputable def preorder (T : NodeTree heap) (a : Addr) : List (Addr × Name × Addr) :=
  listing (kids heap) (fun p name c => (p, name, c)) T.rank_kids a

/-- The recursion the preorder follows: every child is followed by what is below it. -/
theorem preorder_eq (T : NodeTree heap) (a : Addr) :
    T.preorder a = (kids heap a).flatMap fun kc => (a, kc.1, kc.2) :: T.preorder kc.2 :=
  listing_eq T.rank_kids a

/-- The objects in the preorder. -/
theorem map_preorder (T : NodeTree heap) (a : Addr) : (T.preorder a).map (fun e => e.2.2) =
    listing (kids heap) (fun _ _ c => c) T.rank_kids a :=
  map_listing _ _ T.rank_kids a

/-- The entries of the preorder are the entries of the children maps of the nodes reached. -/
theorem mem_preorder_iff (T : NodeTree heap) {a : Addr} {e : Addr × Name × Addr} :
    e ∈ T.preorder a ↔ Relation.ReflTransGen (IsKid (kids heap)) a e.1 ∧
      (e.2.1, e.2.2) ∈ kids heap e.1 := by
  rw [preorder, mem_listing_iff]
  constructor
  · rintro ⟨p, name, c, hreach, hkc, rfl⟩
    exact ⟨hreach, hkc⟩
  · rintro ⟨hreach, hkc⟩
    exact ⟨_, _, _, hreach, hkc, rfl⟩

/-- The heap has room for a list of different objects in it. -/
theorem length_le_heap_size {l : List Addr} (hnodup : l.Nodup) (hsub : ∀ x ∈ l, x ∈ heap) :
    l.length ≤ heap.size := by
  have hkeys : l ⊆ heap.keys := fun x hx => Std.ExtTreeMap.mem_keys.mpr (hsub x hx)
  have := (hnodup.subperm hkeys).length_le
  rwa [Std.ExtTreeMap.length_keys] at this

/-- No object is listed twice. -/
theorem preorder_nodup (T : NodeTree heap) (a : Addr) :
    ((T.preorder a).map fun e => e.2.2).Nodup := by
  rw [map_preorder]
  exact listing_nodup T.rank_kids T.isKid_unique T.kids_nodup a

/-- Everything below a node is in the heap, and listed once. -/
theorem length_preorder_le (T : NodeTree heap) (a : Addr) :
    (T.preorder a).length ≤ heap.size := by
  rw [← List.length_map fun e : Addr × Name × Addr => e.2.2]
  refine length_le_heap_size (T.preorder_nodup a) fun x hx => ?_
  obtain ⟨e, he, rfl⟩ := List.mem_map.mp hx
  exact T.mem_heap_of_mem_kids (T.mem_preorder_iff.mp he).2

/-- So are the direct children. -/
theorem length_kids_le (T : NodeTree heap) (a : Addr) : (kids heap a).length ≤ heap.size := by
  rw [← List.length_map Prod.snd]
  refine length_le_heap_size (T.kids_nodup a) fun x hx => ?_
  obtain ⟨kc, hk, rfl⟩ := List.mem_map.mp hx
  exact T.mem_heap_of_mem_kids hk

/-- The preorder, entry by entry as it is sent, is a listing as well. -/
theorem map_listEntry_preorder (T : NodeTree heap) (a : Addr) :
    (T.preorder a).map (fun e => listEntry heap e.1 e.2.1 e.2.2) =
      listing (kids heap) (listEntry heap) T.rank_kids a :=
  map_listing _ _ T.rank_kids a

end NodeTree

/-! ## The loop of `fillToAddListFromTree` -/

namespace NodeTree

variable {heap : Std.ExtTreeMap Addr Node}

/-- `fillLoop` is the generic stack loop, as long as all levels refer to objects of the heap. -/
theorem fillLoop_eq_stackLoop (T : NodeTree heap) (pRecursive : Bool) (fuel : ℕ)
    (levels : List TraversalContext) (out : List NamedNode) (hne : levels ≠ [])
    (hlevels : ∀ level ∈ levels, level.parentNode ∈ heap ∧
      ∀ entry ∈ level.current, entry.2 ∈ heap) :
    fillLoop heap pRecursive fuel levels out =
      match stackLoop (kids heap) (listEntry heap) pRecursive fuel
        (levels.map fun level => (level.parentNode, level.current)) out with
      | none => .error .outOfFuel
      | some l => .ok l := by
  induction fuel generalizing levels out with
  | zero => simp [fillLoop, stackLoop]
  | succ fuel ih =>
    obtain ⟨⟨p, current⟩, levels, rfl⟩ := List.exists_cons_of_ne_nil hne
    have htail : ∀ level ∈ levels, level.parentNode ∈ heap ∧
        ∀ entry ∈ level.current, entry.2 ∈ heap :=
      fun level hl => hlevels level (List.mem_cons_of_mem _ hl)
    cases current with
    | nil =>
      simp only [fillLoop, List.map_cons, stackLoop, List.isEmpty_map]
      split
      · rfl
      · rename_i hempty
        exact ih levels out (by simpa using hempty) htail
    | cons entry current =>
      obtain ⟨name, a⟩ := entry
      obtain ⟨hp, hcur⟩ := hlevels ⟨p, (name, a) :: current⟩ List.mem_cons_self
      obtain ⟨node, hnode⟩ : ∃ n, heap[a]? = some n :=
        ⟨_, Std.ExtTreeMap.getElem?_eq_some_getElem (hcur _ List.mem_cons_self)⟩
      obtain ⟨parent, hparent⟩ : ∃ n, heap[p]? = some n :=
        ⟨_, Std.ExtTreeMap.getElem?_eq_some_getElem hp⟩
      have hrest : ∀ level ∈ (⟨p, current⟩ : TraversalContext) :: levels,
          level.parentNode ∈ heap ∧ ∀ entry ∈ level.current, entry.2 ∈ heap := by
        intro level hl
        rcases List.mem_cons.mp hl with rfl | hl
        · exact ⟨hp, fun e he => hcur e (List.mem_cons_of_mem _ he)⟩
        · exact htail level hl
      have hentry : (⟨name, node.uuid, parent.uuid⟩ : NamedNode) = listEntry heap p name a := by
        simp [listEntry, uuidAt_of_heap hnode, uuidAt_of_heap hparent]
      simp only [fillLoop, hnode, hparent, List.map_cons, stackLoop, hentry, kids_of_heap hnode,
        Std.ExtTreeMap.length_toList]
      split
      · refine ih (⟨a, node.children.toList⟩ :: ⟨p, current⟩ :: levels) _ (by simp) ?_
        intro level hl
        rcases List.mem_cons.mp hl with rfl | hl
        · refine ⟨hcur _ List.mem_cons_self, fun e he => ?_⟩
          obtain ⟨n, hn, -⟩ :=
            T.child hnode (Std.ExtTreeMap.mem_toList_iff_getElem?_eq_some.mp he)
          grind
        · exact hrest level hl
      · exact ih (⟨p, current⟩ :: levels) _ (by simp) hrest

/-- `fillToAddListFromTree` terminates without a fault, and appends the preorder listing of the
proper descendants, or the direct children in name order. -/
theorem fillToAddListFromTree_eq (T : NodeTree s.heap) {a : Addr} {node : Node}
    (ha : s.heap[a]? = some node) (nodeToAddList : List NamedNode) (pRecursive : Bool) :
    s.fillToAddListFromTree nodeToAddList a pRecursive =
      .ok (nodeToAddList ++
        if pRecursive then (T.preorder a).map fun e => listEntry s.heap e.1 e.2.1 e.2.2
        else (kids s.heap a).map fun kc => listEntry s.heap a kc.1 kc.2) := by
  have hlevel : ∀ level ∈ [(⟨a, node.children.toList⟩ : TraversalContext)],
      level.parentNode ∈ s.heap ∧ ∀ entry ∈ level.current, entry.2 ∈ s.heap := by
    intro level hl
    obtain rfl := List.mem_singleton.mp hl
    refine ⟨by grind, fun e he => T.mem_heap_of_mem_kids (p := a) (?_ : (e.1, e.2) ∈ _)⟩
    rwa [kids_of_heap ha]
  have hkids : node.children.toList = kids s.heap a := (kids_of_heap ha).symm
  simp only [fillToAddListFromTree, ha]
  rw [T.fillLoop_eq_stackLoop pRecursive _ _ _ (by simp) hlevel]
  simp only [List.map_singleton, hkids]
  cases pRecursive with
  | true =>
    have hlength := T.length_preorder_le a
    rw [← List.length_map fun e : Addr × Name × Addr => listEntry s.heap e.1 e.2.1 e.2.2,
      T.map_listEntry_preorder] at hlength
    rw [T.map_listEntry_preorder, stackLoop_eq_listing T.rank_kids (by omega)]
    rfl
  | false =>
    rw [stackLoop_eq_map T.rank_kids (by have := T.length_kids_le a; omega)]
    rfl

end NodeTree

/-! ## What is listed -/

/-- What makes a list of parents, names and children the listing of the proper descendants of a
node. -/
structure ListsDescendants (heap : Std.ExtTreeMap Addr Node) (a : Addr)
    (l : List (Addr × Name × Addr)) : Prop where
  /-- Exactly the proper descendants are listed. -/
  mem_iff : ∀ x, x ∈ l.map (fun e => e.2.2) ↔ Relation.TransGen (IsKid (kids heap)) a x
  /-- Each is listed once. -/
  nodup : (l.map fun e => e.2.2).Nodup
  /-- Each is listed with its own name and its own parent. -/
  entry : ∀ e ∈ l, ∃ pn n : Node, heap[e.1]? = some pn ∧ heap[e.2.2]? = some n ∧
    pn.children[e.2.1]? = some e.2.2 ∧ n.name = e.2.1
  /-- Each comes after its parent, unless the parent is the start node. -/
  parent_before : ∀ l₁ e l₂, l = l₁ ++ e :: l₂ → e.1 = a ∨ ∃ e' ∈ l₁, e'.2.2 = e.1

/-- The preorder lists the proper descendants. -/
theorem NodeTree.listsDescendants {heap : Std.ExtTreeMap Addr Node} (T : NodeTree heap) (a : Addr) :
    ListsDescendants heap a (T.preorder a) where
  mem_iff x := by
    simp only [List.mem_map, Prod.exists, exists_eq_right, T.mem_preorder_iff]
    constructor
    · rintro ⟨p, name, hreach, hk⟩
      exact .tail' hreach ⟨name, hk⟩
    · intro h
      obtain ⟨p, hreach, name, hk⟩ := Relation.TransGen.tail'_iff.mp h
      exact ⟨p, name, hreach, hk⟩
  nodup := T.preorder_nodup a
  entry := by
    rintro ⟨p, name, c⟩ he
    obtain ⟨pn, hp, hc⟩ := mem_kids_iff.mp (T.mem_preorder_iff.mp he).2
    obtain ⟨n, hn, hname⟩ := T.child hp hc
    exact ⟨pn, n, hp, hn, hc, hname⟩
  parent_before _ _ _ h := Library.parent_before T.rank_kids h

/-- The children of a node are in the order of their names. -/
theorem kids_ordered (heap : Std.ExtTreeMap Addr Node) (a : Addr) :
    (kids heap a).Pairwise fun x y => compare x.1 y.1 = .lt := by
  unfold kids
  split
  · exact .nil
  · exact Std.ExtTreeMap.ordered_keys_toList

/-- On every tree of node objects `fillToAddListFromTree` returns: when it recurses, with the
recursive preorder listing of the proper descendants of the start node, and otherwise with its
children in name order. -/
theorem fillToAddListFromTree_lists (T : NodeTree s.heap) {a : Addr} {node : Node}
    (ha : s.heap[a]? = some node) (nodeToAddList : List NamedNode) :
    s.fillToAddListFromTree nodeToAddList a true =
        .ok (nodeToAddList ++ (T.preorder a).map fun e => listEntry s.heap e.1 e.2.1 e.2.2) ∧
      T.preorder a = ((kids s.heap a).flatMap fun kc => (a, kc.1, kc.2) :: T.preorder kc.2) ∧
      ListsDescendants s.heap a (T.preorder a) ∧
      s.fillToAddListFromTree nodeToAddList a false =
        .ok (nodeToAddList ++ (kids s.heap a).map fun kc => listEntry s.heap a kc.1 kc.2) ∧
      kids s.heap a = node.children.toList ∧
      ∀ x, (kids s.heap x).Pairwise fun k k' => compare k.1 k'.1 = .lt := by
  refine ⟨?_, T.preorder_eq a, T.listsDescendants a, ?_, kids_of_heap ha,
    kids_ordered s.heap⟩
  · simpa using T.fillToAddListFromTree_eq ha nodeToAddList true
  · simpa using T.fillToAddListFromTree_eq ha nodeToAddList false

/-- Three creations, the last one below the first: the listing of the root visits the younger node of
the smaller name first. -/
theorem fillToAddListFromTree_lists_run :
    ∃ ls s, ServerRun .init ls s ∧
      s.fillToAddListFromTree [] 0 true =
        .ok [⟨[97], 2, 0⟩, ⟨[98], 1, 0⟩, ⟨[99], 3, 1⟩] ∧
      ∃ T : NodeTree s.heap, s.fillToAddListFromTree [] 0 true =
        .ok ((T.preorder 0).map fun e => listEntry s.heap e.1 e.2.1 e.2.2) := by
  have hrun : ∃ r, Library.execute step (fun _ _ => true) .init [.message 7 ⟨0, .signinRequest 0⟩,
      .message 7 ⟨1, .createRequest [98] 0⟩, .message 7 ⟨2, .createRequest [97] 0⟩,
      .message 7 ⟨3, .createRequest [99] 1⟩] = some r ∧
      r.1.fillToAddListFromTree [] 0 true =
        .ok [⟨[97], 2, 0⟩, ⟨[98], 1, 0⟩, ⟨[99], 3, 1⟩] :=
    ⟨_, rfl, rfl⟩
  obtain ⟨⟨s, ls⟩, hexec, hlist⟩ := hrun
  have hrun : ServerRun .init ls s := (run_of_execute step hexec).of_guarded
  have h := wellLinked_of_run hrun
  obtain ⟨root, hroot, -⟩ := h.root_heap
  exact ⟨ls, s, hrun, hlist, h.nodeTree, (fillToAddListFromTree_lists h.nodeTree hroot []).1⟩

/-! ## Listing a server state -/

namespace WellLinked

/-- The rank of an address: how far it is from the next one. -/
theorem rank_kids (h : WellLinked s) :
    ∀ a, ∀ kc ∈ kids s.heap a, s.nextAddr - kc.2 < s.nextAddr - a :=
  h.nodeTree.rank_kids

/-- The preorder listing below an address, as it is sent. -/
noncomputable def namedListing (h : WellLinked s) (a : Addr) : List NamedNode :=
  listing (kids s.heap) (listEntry s.heap) h.rank_kids a

/-- `fillToAddListFromTree` on a server state. -/
theorem fillToAddListFromTree_eq (h : WellLinked s) {a : Addr} {node : Node}
    (ha : s.heap[a]? = some node) (nodeToAddList : List NamedNode) (pRecursive : Bool) :
    s.fillToAddListFromTree nodeToAddList a pRecursive =
      .ok (nodeToAddList ++ if pRecursive then h.namedListing a
        else (kids s.heap a).map fun kc => listEntry s.heap a kc.1 kc.2) := by
  rw [h.nodeTree.fillToAddListFromTree_eq ha, h.nodeTree.map_listEntry_preorder]
  rfl

end WellLinked

end PropertyTree.Server
