import PropertyTree.Server.Safety

/-!
# The answer to a `TreeInfoRequest`

A `TreeInfoRequest` names a child of a live node, but the name `"."` stands for the node itself.  The
answer lists what is below the node it is about.
-/

namespace PropertyTree.Server

open ProtocolHandler Library

variable {s s' : ProtocolHandler}

/-- What is listed below a node: its descendants if the request is recursive, and its children
otherwise. -/
noncomputable def listedBelow (T : NodeTree s.heap) (a : Addr) (recursive : UInt8) :
    List NamedNode :=
  if recursive ≠ 0 then (T.preorder a).map fun e => listEntry s.heap e.1 e.2.1 e.2.2
  else (kids s.heap a).map fun kc => listEntry s.heap a kc.1 kc.2

/-- The handler's use of `fillToAddListFromTree`. -/
theorem fillToAddListFromTree_listedBelow (T : NodeTree s.heap) {a : Addr} {node : Node}
    (ha : s.heap[a]? = some node) (l : List NamedNode) (recursive : UInt8) :
    s.fillToAddListFromTree l a (recursive ≠ 0) = .ok (l ++ listedBelow T a recursive) := by
  rw [T.fillToAddListFromTree_eq ha, listedBelow]
  simp

/-- An entry listed below a node is one of a node that is reached from it. -/
theorem exists_of_mem_listedBelow {T : NodeTree s.heap} {a : Addr} {recursive : UInt8}
    {e : NamedNode} (he : e ∈ listedBelow T a recursive) :
    ∃ q name x, Relation.ReflTransGen (IsKid (kids s.heap)) a q ∧ (name, x) ∈ kids s.heap q ∧
      e = listEntry s.heap q name x := by
  unfold listedBelow at he
  split_ifs at he
  · obtain ⟨⟨q, name, x⟩, hx, rfl⟩ := List.mem_map.mp he
    obtain ⟨hreach, hk⟩ := T.mem_preorder_iff.mp hx
    exact ⟨q, name, x, hreach, hk, rfl⟩
  · obtain ⟨⟨name, x⟩, hk, rfl⟩ := List.mem_map.mp he
    exact ⟨a, name, x, .refl, hk, rfl⟩

/-- The children of a node are listed below it. -/
theorem mem_listedBelow {T : NodeTree s.heap} {p x : Addr} {name : Name} (recursive : UInt8)
    (hk : (name, x) ∈ kids s.heap p) : listEntry s.heap p name x ∈ listedBelow T p recursive := by
  unfold listedBelow
  split_ifs
  · exact List.mem_map.mpr ⟨(p, name, x), T.mem_preorder_iff.mpr ⟨.refl, hk⟩, rfl⟩
  · exact List.mem_map.mpr ⟨(name, x), hk, rfl⟩

section Request

variable {uuid : UInt64} {p a : Addr} {pn node : Node} {name : Name} {recursive : UInt8}
  {t : UInt16} {c : Conn}

/-- A `TreeInfoRequest` for the node itself. -/
theorem treeInfo_self (T : NodeTree s.heap) (hp : s.mTree[uuid]? = some p)
    (hpn : s.heap[p]? = some pn) :
    s.step (.message c ⟨t, .treeInfoRequest uuid selfName recursive⟩) =
      .ok (s, [.send c ⟨t, .treeInfoResponse (listedBelow T p recursive)⟩]) := by
  simp only [step, handle, handleTreeInfoRequest, hp, hpn, if_pos]
  rw [fillToAddListFromTree_listedBelow T hpn [] recursive]
  rfl

/-- A `TreeInfoRequest` for a child. -/
theorem treeInfo_child (T : NodeTree s.heap) (hp : s.mTree[uuid]? = some p)
    (hpn : s.heap[p]? = some pn) (ha : pn.children[name]? = some a) (hn : s.heap[a]? = some node)
    (hname : name ≠ selfName) :
    s.step (.message c ⟨t, .treeInfoRequest uuid name recursive⟩) =
      .ok (s, [.send c ⟨t, .treeInfoResponse
        (listEntry s.heap p name a :: listedBelow T a recursive)⟩]) := by
  simp only [step, handle, handleTreeInfoRequest, hp, hpn, if_neg hname, ha, hn]
  rw [fillToAddListFromTree_listedBelow T hn [⟨name, node.uuid, pn.uuid⟩] recursive]
  simp [listEntry, uuidAt_of_heap hpn, uuidAt_of_heap hn]

/-- A `TreeInfoRequest` for a name that no child has. -/
theorem treeInfo_unknown (hp : s.mTree[uuid]? = some p) (hpn : s.heap[p]? = some pn)
    (ha : pn.children[name]? = none) (hname : name ≠ selfName) :
    s.step (.message c ⟨t, .treeInfoRequest uuid name recursive⟩) =
      .ok (s, [.send c ⟨t, .treeInfoErrorResponse .notFound⟩]) := by
  simp [step, handle, handleTreeInfoRequest, hp, hpn, hname, ha]

end Request

end PropertyTree.Server
