import PropertyTree.Server.Safety

/-!
# The representation invariant of the tree

While the 32-bit uuid counter has not wrapped, every insertion into `mTree` succeeds, so that the
flat index and the nested children maps describe one tree: `Indexed` adds this to the links of
`WellLinked`, and `RepresentationInvariant` is the agreement of the two indexes, spelled out.
-/

namespace PropertyTree.Server

open ProtocolHandler Library

variable {s s' : ProtocolHandler} {e : Event} {o : List Output}

/-! ## Outputs and the uuid counter -/

/-- A broadcast reaches the sessions that hold a connection. -/
theorem mem_broadcast_iff {m : PropertyTreeMessage} {x : Output} :
    x ∈ s.broadcast m ↔ ∃ (sid : UInt32) (c : Conn), s.mSessions[sid]? = some ⟨some c⟩ ∧
      x = .send c m := by
  simp only [broadcast, List.mem_flatMap, Prod.exists,
    Std.ExtTreeMap.mem_toList_iff_getElem?_eq_some]
  constructor
  · rintro ⟨sid, ⟨_ | c⟩, hs, hx⟩
    · cases hx
    · exact ⟨sid, c, hs, by simpa using hx⟩
  · rintro ⟨sid, c, hs, rfl⟩
    exact ⟨sid, ⟨some c⟩, hs, by simp⟩

/-- Whether an output is the answer to an accepted `CreateRequest`. -/
def isCreateAccept : Output → Bool
  | .send _ ⟨_, .createAccept _⟩ => true
  | _ => false

/-- The number of `CreateRequest`s accepted in a run. -/
def acceptedCreates (ls : List (Event × List Output)) : ℕ :=
  (ls.flatMap Prod.snd).countP isCreateAccept

@[simp] theorem acceptedCreates_nil : acceptedCreates [] = 0 := rfl

/-- The accepted creations of a run one step longer. -/
theorem acceptedCreates_concat (ls : List (Event × List Output)) (l : Event × List Output) :
    acceptedCreates (ls ++ [l]) = acceptedCreates ls + l.2.countP isCreateAccept := by
  simp [acceptedCreates]

/-- A broadcast of anything but a `CreateAccept` accepts no creation. -/
theorem countP_broadcast {m : PropertyTreeMessage} (hm : ∀ c, isCreateAccept (.send c m) = false) :
    (s.broadcast m).countP isCreateAccept = 0 := by
  rw [List.countP_eq_zero]
  intro x hx
  obtain ⟨sid, c, -, rfl⟩ := mem_broadcast_iff.mp hx
  simp [hm c]

/-- Sending accepts no creation unless a `CreateAccept` is sent. -/
theorem countP_send {m : PropertyTreeMessage} (hm : ∀ c, isCreateAccept (.send c m) = false)
    (c : Option Conn) : (send m c).countP isCreateAccept = 0 := by
  cases c <;> simp [hm]

/-- A step either creates a node, sends one `CreateAccept` and moves the counter on, or does none of
these. -/
theorem StepResult.createAccept_cases (h : StepResult s e s' o) :
    o.countP isCreateAccept = 1 ∧ s'.mUuidCtr = s.mUuidCtr + 1 ∨
      o.countP isCreateAccept = 0 ∧ s'.mUuidCtr = s.mUuidCtr := by
  cases h with
  | create c t name parentUuid p sid node =>
    refine .inl ⟨?_, rfl⟩
    rw [List.countP_cons, countP_broadcast fun _ => rfl]
    rfl
  | delete c t uuid a node p parent =>
    refine .inr ⟨?_, by simp [ProtocolHandler.removeNode]⟩
    rw [List.countP_cons, countP_broadcast fun _ => rfl]
    rfl
  | setValue c t uuid data a node =>
    refine .inr ⟨?_, rfl⟩
    rw [List.countP_cons, List.countP_flatMap]
    simp only [isCreateAccept, Bool.false_eq_true, if_false, add_zero]
    refine List.sum_eq_zero fun n hn => ?_
    obtain ⟨l, -, rfl⟩ := List.mem_map.mp hn
    exact countP_send (fun _ => rfl) _
  | reply c t m translation session hm =>
    refine .inr ⟨countP_send (fun _ => ?_) _, rfl⟩
    rcases hm with ⟨value, rfl⟩ | ⟨cause, rfl⟩ <;> rfl
  | _ => exact .inr ⟨rfl, rfl⟩

/-- The uuid counter counts the accepted creations, modulo its width. -/
theorem mUuidCtr_of_run {ls : List (Event × List Output)} (h : ServerRun .init ls s) :
    s.mUuidCtr.toNat = (acceptedCreates ls + 1) % 2 ^ 32 := by
  refine h.history (P := fun ls s => s.mUuidCtr.toNat = (acceptedCreates ls + 1) % 2 ^ 32) ?_ rfl
  intro ls t l u ih hstep
  rw [acceptedCreates_concat]
  rcases (step_cases hstep).createAccept_cases with ⟨hcount, hctr⟩ | ⟨hcount, hctr⟩
  · rw [hcount, hctr, UInt32.toNat_add, ih]
    simp
  · rw [hcount, hctr, ih, add_zero]

/-! ## The two indexes agree -/

/-- Every node object is registered in `mTree` under its uuid, and the uuids are below the
counter. -/
structure Indexed (s : ProtocolHandler) : Prop where
  heap_mTree : ∀ {a : Addr} {n : Node}, s.heap[a]? = some n → s.mTree[n.uuid]? = some a
  key_lt : ∀ {u : UInt64} {a : Addr}, s.mTree[u]? = some a → u.toNat < s.mUuidCtr.toNat

/-- The constructor registers the root. -/
theorem indexed_init : Indexed .init where
  heap_mTree := by
    intro a n h
    simp only [init] at h ⊢
    grind [rootNode]
  key_lt := by
    intro u a h
    simp only [init] at h ⊢
    obtain rfl : u = 0 := by grind
    decide

/-- The next uuid is not in use. -/
theorem Indexed.mTree_fresh (hi : Indexed s) : s.mTree[s.mUuidCtr.toUInt64]? = none := by
  by_contra hne
  obtain ⟨a, ha⟩ := Option.ne_none_iff_exists'.mp hne
  have := hi.key_lt ha
  simp at this

/-- A creation whose uuid does not wrap keeps the indexes in agreement. -/
theorem Indexed.insertNode (hi : Indexed s) {p : Addr} {node : Node} {name : Name} {sid : UInt32}
    (hn : s.heap[p]? = some node)
    (hctr : s.mUuidCtr.toNat + 1 < 2 ^ 32) : Indexed (s.insertNode p node name sid) := by
  have hfresh := hi.mTree_fresh
  have hsucc : (s.mUuidCtr + 1).toNat = s.mUuidCtr.toNat + 1 := by
    rw [UInt32.toNat_add]
    exact Nat.mod_eq_of_lt hctr
  constructor
  · intro a n ha
    rw [insertNode_heap] at ha
    simp only [ProtocolHandler.insertNode]
    have := hi.heap_mTree (a := a) (n := n)
    have := hi.heap_mTree hn
    grind
  · intro u a hu
    simp only [ProtocolHandler.insertNode] at hu ⊢
    rw [hsucc]
    by_cases hua : s.mUuidCtr.toUInt64 = u
    · subst hua
      simp
    · have := hi.key_lt (u := u) (a := a) (by grind)
      omega

/-- A deletion keeps the indexes in agreement. -/
theorem Indexed.removeNode (hi : Indexed s) (h : WellLinked s) {uuid : UInt64} {a p : Addr}
    {node parent : Node} (ha : s.mTree[uuid]? = some a) (hn : s.heap[a]? = some node)
    (hp : node.parent = some p) (hpn : s.heap[p]? = some parent) :
    Indexed (s.removeNode uuid a node p parent) := by
  have hmTree : (s.removeNode uuid a node p parent).mTree = s.mTree.erase uuid := by
    simp [ProtocolHandler.removeNode]
  constructor
  · intro x n hx
    rw [h.removeNode_heap ha hn hp hpn] at hx
    rw [hmTree]
    have := hi.heap_mTree (a := x) (n := n)
    have := hi.heap_mTree hpn
    grind
  · intro u x hu
    rw [hmTree] at hu
    have := hi.key_lt (u := u) (a := x) (by grind)
    simpa [ProtocolHandler.removeNode] using this

/-- A step keeps the indexes in agreement unless it creates a node and the counter wraps. -/
theorem Indexed.stateChange (hi : Indexed s) (h : WellLinked s) (hstep : StateChange s s')
    (hctr : s'.mUuidCtr ≠ s.mUuidCtr → s.mUuidCtr.toNat + 1 < 2 ^ 32) : Indexed s' := by
  cases hstep with
  | create _ _ _ _ _ _ hp hc hn ha =>
    refine hi.insertNode hn (hctr ?_)
    simp [ProtocolHandler.insertNode]
  | delete _ _ _ _ _ ha hn hch hp hpn => exact hi.removeNode h ha hn hp hpn
  | setNode _ a node node' ha hn hsame =>
    refine ⟨fun {x n} hx => ?_, hi.key_lt⟩
    simp only [ProtocolHandler.setNode] at hx ⊢
    have := hi.heap_mTree (a := x) (n := n)
    have := hi.heap_mTree hn
    have := hsame.uuid
    grind
  | _ => exact ⟨hi.heap_mTree, hi.key_lt⟩

/-- In a run with fewer than `2 ^ 32 - 1` accepted creations the indexes agree. -/
theorem indexed_of_run {ls : List (Event × List Output)} (h : ServerRun .init ls s)
    (hacc : acceptedCreates ls < 2 ^ 32 - 1) : Indexed s := by
  induction h with
  | nil => exact indexed_init
  | snoc run step ih =>
    rw [acceptedCreates_concat] at hacc
    have hlt : acceptedCreates _ < 2 ^ 32 - 1 := lt_of_le_of_lt (Nat.le_add_right _ _) hacc
    have hctr := mUuidCtr_of_run run
    refine (ih hlt).stateChange (wellLinked_of_run run) (step_cases step).stateChange fun hne => ?_
    rcases (step_cases step).createAccept_cases with ⟨hcount, -⟩ | ⟨-, hsame⟩
    · omega
    · exact absurd hsame hne

/-! ## The representation invariant -/

/-- `ParentLink s a p`: the object at `a` has the live object at `p` as its parent. -/
def ParentLink (s : ProtocolHandler) (a p : Addr) : Prop :=
  ∃ n pn : Node, s.heap[a]? = some n ∧ s.lock n.parent = some (p, pn)

/-- The agreement of `mTree` with the children maps and the parent links. -/
structure RepresentationInvariant (s : ProtocolHandler) : Prop where
  /-- A key of `mTree` is the uuid of its node and below the counter. -/
  key : ∀ {u : UInt64} {a : Addr}, s.mTree[u]? = some a →
    (∃ n : Node, s.heap[a]? = some n ∧ n.uuid = u) ∧ u.toNat < s.mUuidCtr.toNat
  /-- The root is present. -/
  root : (0 : UInt64) ∈ s.mTree
  /-- It is the only node without a live parent. -/
  no_parent_iff : ∀ {u : UInt64} {a : Addr} {n : Node}, s.mTree[u]? = some a →
    s.heap[a]? = some n → (s.lock n.parent = none ↔ u = 0)
  /-- Every other node has its parent in `mTree` and is the entry of the parent's children map
  under its name. -/
  parent : ∀ {u : UInt64} {a : Addr} {n : Node}, s.mTree[u]? = some a → s.heap[a]? = some n →
    u ≠ 0 → ∃ (p : Addr) (pn : Node), s.lock n.parent = some (p, pn) ∧
      s.mTree[pn.uuid]? = some p ∧ pn.children[n.name]? = some a
  /-- An entry of a live node's children map has the entry's name, that node as its parent, and is
  in `mTree` under its uuid. -/
  child : ∀ {p : Addr} {pn : Node} {name : Name} {a : Addr}, s.heap[p]? = some pn →
    pn.children[name]? = some a → ∃ n : Node, s.heap[a]? = some n ∧ n.name = name ∧
      s.lock n.parent = some (p, pn) ∧ s.mTree[n.uuid]? = some a
  /-- Following parent links from a node leads to the root. -/
  reaches_root : ∀ {u : UInt64} {a : Addr}, s.mTree[u]? = some a →
    ∃ r : Addr, s.mTree[(0 : UInt64)]? = some r ∧ Relation.ReflTransGen (ParentLink s) a r

/-- A parent that is in the heap can be locked. -/
theorem lock_eq {n pn : Node} {p : Addr} (hp : n.parent = some p) (hpn : s.heap[p]? = some pn) :
    s.lock n.parent = some (p, pn) := by
  simp [lock, hp, hpn]

/-- The root has no parent to lock. -/
theorem WellLinked.lock_root (h : WellLinked s) {n : Node} (hn : s.heap[(0 : Addr)]? = some n) :
    s.lock n.parent = none := by
  obtain ⟨r, hr, hr0, -⟩ := h.root_heap
  rw [hn] at hr
  cases hr
  rw [hr0]
  rfl

/-- Parent links lead to older objects, and so finally to the root. -/
theorem WellLinked.reaches_root (h : WellLinked s) {a : Addr} {n : Node}
    (ha : s.heap[a]? = some n) : Relation.ReflTransGen (ParentLink s) a 0 := by
  induction a using Nat.strong_induction_on generalizing n with
  | _ a ih =>
    by_cases h0 : a = 0
    · subst h0
      exact .refl
    · obtain ⟨p, pn, hp, hlt, hpn, -⟩ := h.parent ha h0
      exact .head ⟨n, pn, ha, lock_eq hp hpn⟩ (ih p hlt hpn)

/-- A state whose links are well formed and whose indexes agree satisfies the representation
invariant. -/
theorem Indexed.representation (hi : Indexed s) (h : WellLinked s) :
    RepresentationInvariant s where
  key hu := ⟨h.mTree_heap hu, hi.key_lt hu⟩
  root := by
    have := h.root_mTree
    grind
  no_parent_iff := by
    intro u a n hu hn
    by_cases h0 : a = 0
    · subst h0
      simp [h.lock_root hn, h.eq_zero_of_mTree hu]
    · obtain ⟨p, pn, hp, -, hpn, -⟩ := h.parent hn h0
      have hu0 : u ≠ 0 := by
        rintro rfl
        rw [h.root_mTree] at hu
        exact h0 (Option.some.inj hu).symm
      simp [lock_eq hp hpn, hu0]
  parent := by
    intro u a n hu hn hu0
    have h0 : a ≠ 0 := by
      rintro rfl
      exact hu0 (h.eq_zero_of_mTree hu)
    obtain ⟨p, pn, hp, -, hpn, hlink⟩ := h.parent hn h0
    exact ⟨p, pn, lock_eq hp hpn, hi.heap_mTree hpn, hlink⟩
  child := by
    intro p pn name a hp ha
    obtain ⟨n, hn, hpar, hname⟩ := h.child hp ha
    exact ⟨n, hn, hname, lock_eq hpar hp, hi.heap_mTree hn⟩
  reaches_root := by
    intro u a hu
    obtain ⟨n, hn⟩ := h.exists_heap hu
    exact ⟨0, h.root_mTree, h.reaches_root hn⟩

/-- In every state that completed steps reach from the constructor before the uuid counter wraps,
the flat index, the children maps and the parent links describe one tree. -/
theorem representationInvariant_of_run {ls : List (Event × List Output)}
    (h : ServerRun .init ls s) (hacc : acceptedCreates ls < 2 ^ 32 - 1) :
    RepresentationInvariant s :=
  (indexed_of_run h hacc).representation (wellLinked_of_run h)

/-- A run in which a client creates two nodes, deletes the inner one and creates it again under
another uuid ends in such a state. -/
theorem representationInvariant_recreate :
    ∃ ls s, ServerRun .init ls s ∧ s.mTree.toList.map Prod.fst = [0, 1, 3] ∧
      RepresentationInvariant s := by
  have hrun : ∃ r, execute step (fun _ _ => true) .init [.message 7 ⟨0, .signinRequest 0⟩,
      .message 7 ⟨1, .createRequest [97] 0⟩, .message 7 ⟨2, .createRequest [98] 1⟩,
      .message 7 ⟨3, .deleteRequest 2⟩, .message 7 ⟨4, .createRequest [98] 1⟩] = some r ∧
      acceptedCreates r.2 < 2 ^ 32 - 1 ∧ r.1.mTree.toList.map Prod.fst = [0, 1, 3] :=
    ⟨_, rfl, by decide, by decide⟩
  obtain ⟨⟨s, ls⟩, hexec, hacc, hkeys⟩ := hrun
  have hrun : ServerRun .init ls s := (run_of_execute step hexec).of_guarded
  exact ⟨ls, s, hrun, hkeys, representationInvariant_of_run hrun hacc⟩

end PropertyTree.Server
