import PropertyTree.Server.Encoding

/-!
# Looking a node up by name

A `CreateRequest` accepts the name `"."`, by which a `TreeInfoRequest` means the node itself, and the
child it makes is found by name only where it is all there is to list.  Any other child is found by its
name, unless there is more below it than fits into one message.
-/

namespace PropertyTree.Server

open ProtocolHandler Library

variable {lengthPrefix : ℕ → ℕ} {s s' : ProtocolHandler}

/-! ## The nodes with children -/

/-- A node object with children is registered in `mTree`.  After a wrap of the uuid counter an object
may not be, but then no request reaches it. -/
def ParentsIndexed (s : ProtocolHandler) : Prop :=
  ∀ (p : Addr) (pn : Node) (name : Name) (a : Addr), s.heap[p]? = some pn →
    pn.children[name]? = some a → s.mTree[pn.uuid]? = some p

/-- The constructor's root has no children. -/
theorem parentsIndexed_init : ParentsIndexed .init := by
  intro p pn name a hp ha
  simp only [init] at hp
  grind [rootNode]

/-- A step keeps the nodes with children registered. -/
theorem ParentsIndexed.stateChange (hi : ParentsIndexed s) (h : WellLinked s)
    (hstep : StateChange s s') : ParentsIndexed s' := by
  cases hstep with
  | create parentUuid p node name c sid hp hc hn ha =>
    intro q qn nm a hq hqa
    obtain ⟨n, hn', hnu⟩ := h.mTree_heap hp
    obtain rfl : node = n := by simpa [hn] using hn'
    rw [insertNode_heap] at hq
    have hold : s.mTree[qn.uuid]? = some q := by
      split_ifs at hq with h1 h2
      · cases hq
        simp at hqa
      · cases hq
        subst h2
        rwa [hnu]
      · exact hi q qn nm a hq hqa
    simp only [ProtocolHandler.insertNode]
    grind
  | delete uuid a node p parent ha hn hch hp hpn =>
    intro q qn nm x hq hqx
    have hmTree : (s.removeNode uuid a node p parent).mTree = s.mTree.erase uuid := by
      simp [ProtocolHandler.removeNode]
    rw [h.removeNode_heap ha hn hp hpn] at hq
    have hold : q ≠ a ∧ s.mTree[qn.uuid]? = some q := by
      split_ifs at hq with h1 h2
      · cases hq
        subst h2
        exact ⟨h1, hi q parent nm x hpn (show parent.children[nm]? = some x by grind)⟩
      · exact ⟨h1, hi q qn nm x hq hqx⟩
    rw [hmTree]
    grind
  | setNode uuid a node node' ha hn hsame =>
    intro q qn nm x hq hqx
    simp only [ProtocolHandler.setNode] at hq ⊢
    by_cases hqa : a = q
    · subst hqa
      obtain rfl : node' = qn := by simpa using hq
      rw [hsame.children] at hqx
      rw [hsame.uuid]
      exact hi a node nm x hn hqx
    · exact hi q qn nm x (show s.heap[q]? = some qn by grind) hqx
  | _ => exact hi

/-- In every reachable state the nodes with children are registered. -/
theorem parentsIndexed_of_run {ls : List (Event × List Output)} (h : ServerRun .init ls s) :
    ParentsIndexed s := by
  suffices hinv : WellLinked s ∧ ParentsIndexed s from hinv.2
  refine h.invariant (P := fun s => WellLinked s ∧ ParentsIndexed s) ?_
    ⟨wellLinked_init, parentsIndexed_init⟩
  rintro t e u ⟨hw, hi⟩ hstep
  have hchange := (step_cases hstep).stateChange
  exact ⟨hw.stateChange hchange, hi.stateChange hw hchange⟩

/-! ## Finding -/

/-- The answer finds the child `name` at `a` of the node at `p`: the child's entry comes first, the
others are, in some order, those that are listed below it, and all of it fits into the buffer that
`ProtocolHandler::send` encodes it into. -/
def Finds (lengthPrefix : ℕ → ℕ) (T : NodeTree s.heap) (c : Conn) (t : UInt16) (p : Addr)
    (name : Name) (a : Addr) (recursive : UInt8) (o : List Output) : Prop :=
  ∃ rest, o = [.send c ⟨t, .treeInfoResponse (listEntry s.heap p name a :: rest)⟩] ∧
    rest.Perm (listedBelow T a recursive) ∧
    Encodes lengthPrefix ⟨t, .treeInfoResponse (listEntry s.heap p name a :: rest)⟩

/-- The child is all there is below its parent that a request of this kind lists. -/
def IsAlone (parent : Node) (name : Name) (node : Node) (recursive : UInt8) : Prop :=
  (∀ other ∈ parent.children, other = name) ∧ (recursive ≠ 0 ∨ node.children.size = 0)

/-- The node at `a` and what a request of this kind lists below it can be listed in one message. -/
def AnswerFits (lengthPrefix : ℕ → ℕ) (s : ProtocolHandler) (a : Addr) (recursive : UInt8) : Prop :=
  responseSize lengthPrefix s (insert a (below s a recursive)) ≤ encodeSize - 2

/-- The order of the entries makes no difference to the size of an answer. -/
theorem encodes_iff_answerFits (T : NodeTree s.heap) {p a : Addr} {name : Name} {recursive : UInt8}
    {rest : List NamedNode} (hk : (name, a) ∈ kids s.heap p)
    (hrest : rest.Perm (listedBelow T a recursive)) (t : UInt16) :
    Encodes lengthPrefix ⟨t, .treeInfoResponse (listEntry s.heap p name a :: rest)⟩ ↔
      AnswerFits lengthPrefix s a recursive := by
  rw [encodes_iff, AnswerFits, ← encodedSize_child T recursive t hk]
  simp only [PropertyTreeProtocol.encodedSize, PropertyTreeMessage.encodedSize,
    PropertyTreeMessages.encodedSize, namedNodeListSize, List.map_cons, List.length_cons,
    List.sum_cons, hrest.length_eq, (hrest.map NamedNode.encodedSize).sum_eq]

section Request

variable {p a : Addr} {pn node : Node} {name : Name} {recursive : UInt8} {t : UInt16} {c : Conn}

/-- An only child is the only entry of the children map. -/
theorem kids_of_only (hpn : s.heap[p]? = some pn) (ha : pn.children[name]? = some a)
    (honly : ∀ other ∈ pn.children, other = name) : kids s.heap p = [(name, a)] := by
  rw [kids_of_heap hpn, ← List.perm_singleton]
  have hnodup : pn.children.toList.Nodup :=
    (Std.ExtTreeMap.distinct_keys_toList (t := pn.children)).imp fun hne heq =>
      hne (Std.compare_eq_iff_eq.mpr (congrArg Prod.fst heq))
  refine (List.perm_ext_iff_of_nodup hnodup (List.nodup_singleton _)).mpr fun x => ?_
  rw [Std.ExtTreeMap.mem_toList_iff_getElem?_eq_some, List.mem_singleton]
  constructor
  · intro hx
    have hkey : x.1 = name :=
      honly x.1 (Std.ExtTreeMap.mem_iff_isSome_getElem?.mpr (by rw [hx]; rfl))
    rw [hkey, ha] at hx
    exact Prod.ext hkey (Option.some.inj hx).symm
  · rintro rfl
    exact ha

/-- The listing of a node with one child finds that child if nothing but it is listed. -/
theorem finds_of_isAlone (T : NodeTree s.heap) (hpn : s.heap[p]? = some pn)
    (ha : pn.children[name]? = some a) (hn : s.heap[a]? = some node)
    (halone : IsAlone pn name node recursive) (hfits : AnswerFits lengthPrefix s a recursive) :
    Finds lengthPrefix T c t p name a recursive
      [.send c ⟨t, .treeInfoResponse (listedBelow T p recursive)⟩] := by
  obtain ⟨honly, hrest⟩ := halone
  have hkids := kids_of_only hpn ha honly
  have hk : (name, a) ∈ kids s.heap p := mem_kids_iff.mpr ⟨pn, hpn, ha⟩
  refine ⟨listedBelow T a recursive, ?_, .refl _, (encodes_iff_answerFits T hk (.refl _) t).mpr hfits⟩
  unfold listedBelow
  split_ifs with hr
  · simp [T.preorder_eq p, hkids]
  · have hleaf : kids s.heap a = [] := by
      rw [kids_of_heap hn, ← List.length_eq_zero_iff, Std.ExtTreeMap.length_toList]
      exact hrest.resolve_left hr
    simp [hkids, hleaf]

/-- The listing of a node finds its child `"."` only if nothing but it is listed: the entry of another
child bears the node's uuid as its parent's, and nothing below the child does. -/
theorem isAlone_of_finds (h : WellLinked s) (hi : ParentsIndexed s) (hpn : s.heap[p]? = some pn)
    (ha : pn.children[name]? = some a) (hn : s.heap[a]? = some node)
    (hfinds : Finds lengthPrefix h.nodeTree c t p name a recursive
      [.send c ⟨t, .treeInfoResponse (listedBelow h.nodeTree p recursive)⟩]) :
    IsAlone pn name node recursive := by
  obtain ⟨rest, heq, hperm, -⟩ := hfinds
  have hlist : listedBelow h.nodeTree p recursive = listEntry s.heap p name a :: rest := by
    simpa using heq
  have honly : ∀ other ∈ pn.children, other = name := by
    intro other hother
    by_contra hne
    obtain ⟨x, hx⟩ : ∃ x, pn.children[other]? = some x :=
      ⟨_, Std.ExtTreeMap.getElem?_eq_some_getElem hother⟩
    have hmem : listEntry s.heap p other x ∈ listedBelow h.nodeTree p recursive :=
      mem_listedBelow recursive (mem_kids_iff.mpr ⟨pn, hpn, hx⟩)
    rw [hlist] at hmem
    rcases List.mem_cons.mp hmem with hfirst | hmem
    · exact hne (congrArg NamedNode.name hfirst)
    · obtain ⟨q, m, y, hreach, hk, hentry⟩ := exists_of_mem_listedBelow (hperm.mem_iff.mp hmem)
      obtain ⟨qn, hq, hy⟩ := mem_kids_iff.mp hk
      -- both nodes have children, so their common uuid is registered for both
      have huuid : pn.uuid = qn.uuid := by
        have := congrArg NamedNode.parentUuid hentry
        simpa [listEntry, uuidAt_of_heap hpn, uuidAt_of_heap hq] using this
      have hpq : p = q := by
        have hreg := hi p pn name a hpn ha
        rw [huuid, hi q qn m y hq hy] at hreg
        exact (Option.some.inj hreg).symm
      subst hpq
      have hle := rank_le_of_reach h.nodeTree.rank_kids hreach
      exact absurd (h.nodeTree.height_lt hpn ha) (not_lt.mpr hle)
  refine ⟨honly, ?_⟩
  by_cases hr : recursive ≠ 0
  · exact .inl hr
  · refine .inr ?_
    have hkids := kids_of_only hpn ha honly
    have hnil : rest = [] := by
      simpa [listedBelow, hr, hkids] using hlist.symm
    have hleaf := (hnil ▸ hperm).symm.eq_nil
    simpa [listedBelow, hr, kids_of_heap hn, ← Std.ExtTreeMap.length_toList] using hleaf

end Request

/-- An answer that finds a child fits into the buffer. -/
theorem answerFits_of_finds {T : NodeTree s.heap} {c : Conn} {t : UInt16} {p a : Addr} {name : Name}
    {recursive : UInt8} {o : List Output} (hk : (name, a) ∈ kids s.heap p)
    (h : Finds lengthPrefix T c t p name a recursive o) : AnswerFits lengthPrefix s a recursive := by
  obtain ⟨rest, -, hperm, henc⟩ := h
  exact (encodes_iff_answerFits T hk hperm t).mp henc

/-- In every reachable state a child of a live node is found by its name exactly if the name is not
`"."` or there is nothing else to list, and if the answer is not too large to be sent; and any other
name but `"."` is answered with `NOT_FOUND`. -/
theorem treeInfo_finds_iff (lengthPrefix : ℕ → ℕ) {ls : List (Event × List Output)}
    (h : ServerRun .init ls s) {uuid : UInt64} {p : Addr} {pn : Node} (hp : s.mTree[uuid]? = some p)
    (hpn : s.heap[p]? = some pn) (c : Conn) (t : UInt16) (recursive : UInt8) :
    (∀ name a node, pn.children[name]? = some a → s.heap[a]? = some node →
      ((∃ o, s.step (.message c ⟨t, .treeInfoRequest uuid name recursive⟩) = .ok (s, o) ∧
          Finds lengthPrefix (wellLinked_of_run h).nodeTree c t p name a recursive o) ↔
        (name ≠ selfName ∨ IsAlone pn name node recursive) ∧
          AnswerFits lengthPrefix s a recursive)) ∧
    ∀ name, name ≠ selfName → pn.children[name]? = none →
      s.step (.message c ⟨t, .treeInfoRequest uuid name recursive⟩) =
          .ok (s, [.send c ⟨t, .treeInfoErrorResponse .notFound⟩]) ∧
        Encodes lengthPrefix ⟨t, .treeInfoErrorResponse .notFound⟩ := by
  have hw := wellLinked_of_run h
  refine ⟨fun name a node ha hn => ?_, fun name hname ha => ⟨treeInfo_unknown hp hpn ha hname, ?_⟩⟩
  · have hk : (name, a) ∈ kids s.heap p := mem_kids_iff.mpr ⟨pn, hpn, ha⟩
    by_cases hname : name = selfName
    · subst hname
      rw [treeInfo_self hw.nodeTree hp hpn]
      constructor
      · rintro ⟨o, ⟨⟩, hfinds⟩
        exact ⟨.inr (isAlone_of_finds hw (parentsIndexed_of_run h) hpn ha hn hfinds),
          answerFits_of_finds hk hfinds⟩
      · rintro ⟨hne | halone, hfits⟩
        · exact absurd rfl hne
        · exact ⟨_, rfl, finds_of_isAlone hw.nodeTree hpn ha hn halone hfits⟩
    · rw [treeInfo_child hw.nodeTree hp hpn ha hn hname]
      constructor
      · rintro ⟨o, -, hfinds⟩
        exact ⟨.inl hname, answerFits_of_finds hk hfinds⟩
      · rintro ⟨-, hfits⟩
        exact ⟨_, rfl, _, rfl, .refl _, (encodes_iff_answerFits hw.nodeTree hk (.refl _) t).mpr hfits⟩
  · rw [encodes_iff]
    simp [PropertyTreeProtocol.encodedSize, PropertyTreeMessage.encodedSize,
      PropertyTreeMessages.encodedSize, encodeSize]

/-- The requests by which a connection creates the nodes `"."` and `"a"` below the root. -/
def selfNamed : List Event :=
  [.message 7 ⟨0, .signinRequest 0⟩, .message 7 ⟨1, .createRequest selfName 0⟩,
    .message 7 ⟨2, .createRequest [97] 0⟩]

/-- Of these nodes `"a"` is found by its name. -/
theorem treeInfo_finds_a :
    ∃ ls s o, ∃ h : ServerRun .init ls s, ls.map Prod.fst = selfNamed ∧
      s.step (.message 9 ⟨3, .treeInfoRequest 0 [97] 0⟩) = .ok (s, o) ∧
      Finds (fun _ => 8) (wellLinked_of_run h).nodeTree 9 3 0 [97] 2 0 o := by
  have hrun : ∃ r, execute step (fun _ _ => true) .init selfNamed = some r ∧
      r.2.map Prod.fst = selfNamed ∧ ∃ pn node, r.1.mTree[(0 : UInt64)]? = some 0 ∧
      r.1.heap[(0 : Addr)]? = some pn ∧ pn.children[([97] : Name)]? = some 2 ∧
      r.1.heap[(2 : Addr)]? = some node ∧ node.children.toList = [] :=
    ⟨_, rfl, rfl, _, _, rfl, rfl, rfl, rfl, rfl⟩
  obtain ⟨⟨s, ls⟩, hexec, hls, pn, node, hp, hpn, ha, hn, hleaf⟩ := hrun
  have hrun : ServerRun .init ls s := (run_of_execute step hexec).of_guarded
  have hfits : AnswerFits (fun _ => 8) s 2 0 := by
    have hnil : ([] : List NamedNode).Perm (listedBelow (wellLinked_of_run hrun).nodeTree 2 0) := by
      simp [listedBelow, kids_of_heap hn, hleaf]
    refine (encodes_iff_answerFits _ (mem_kids_iff.mpr ⟨pn, hpn, ha⟩) hnil 3).mp ?_
    rw [encodes_iff]
    simp [PropertyTreeProtocol.encodedSize, PropertyTreeMessage.encodedSize,
      PropertyTreeMessages.encodedSize, namedNodeListSize, NamedNode.encodedSize, listEntry,
      stringSize, encodeSize]
  obtain ⟨o, hok, hfinds⟩ := ((treeInfo_finds_iff (fun _ => 8) hrun hp hpn 9 3 0).1 [97] 2 node ha
    hn).mpr ⟨.inl (by decide), hfits⟩
  exact ⟨ls, s, o, hrun, hls, hok, hfinds⟩

/-- The node `"."` is not. -/
theorem not_treeInfo_finds_self :
    ¬ ∀ lengthPrefix ls s, ∀ h : ServerRun .init ls s, ∀ uuid p pn name a node c t recursive,
      s.mTree[uuid]? = some p → s.heap[p]? = some pn → pn.children[name]? = some a →
      s.heap[a]? = some node →
      ∃ o, s.step (.message c ⟨t, .treeInfoRequest uuid name recursive⟩) = .ok (s, o) ∧
        Finds lengthPrefix (wellLinked_of_run h).nodeTree c t p name a recursive o := by
  intro hall
  have hrun : ∃ r, execute step (fun _ _ => true) .init selfNamed = some r ∧
      ∃ pn node, r.1.mTree[(0 : UInt64)]? = some 0 ∧ r.1.heap[(0 : Addr)]? = some pn ∧
      pn.children[selfName]? = some 1 ∧ r.1.heap[(1 : Addr)]? = some node ∧
      ([97] : Name) ∈ pn.children :=
    ⟨_, rfl, _, _, rfl, rfl, rfl, rfl, by decide⟩
  obtain ⟨⟨s, ls⟩, hexec, pn, node, hp, hpn, ha, hn, hother⟩ := hrun
  have hrun : ServerRun .init ls s := (run_of_execute step hexec).of_guarded
  obtain ⟨o, hok, hfinds⟩ := hall (fun _ => 8) ls s hrun 0 0 pn selfName 1 node 9 3 0 hp hpn ha hn
  rw [treeInfo_self (wellLinked_of_run hrun).nodeTree hp hpn] at hok
  cases hok
  have halone := isAlone_of_finds (wellLinked_of_run hrun) (parentsIndexed_of_run hrun) hpn ha hn
    hfinds
  exact absurd (halone.1 [97] hother) (by decide)

end PropertyTree.Server
