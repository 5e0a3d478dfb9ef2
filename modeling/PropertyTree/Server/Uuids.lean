import PropertyTree.Server.Outputs

/-!
# The uuids of a run

A `CreateRequest` gives out the value of a 32-bit counter and registers the node by an insertion that
keeps an older entry.  The uuids are those of the nodes they are given to until the counter has come
round: the creation that draws 0 gives out the uuid of the root.
-/

namespace PropertyTree.Server

open ProtocolHandler Library

variable {s s' : ProtocolHandler} {e : Event} {o : List Output} {ls : List (Event × List Output)}

/-- The uuid `u` answered to a `CreateRequest` belongs to the new node alone, which is registered and
announced under it. -/
structure FreshNode (s : ProtocolHandler) (e : Event) (s' : ProtocolHandler) (o : List Output)
    (u : UInt64) : Prop where
  other_ne : ∀ {a : Addr} {n : Node}, s'.heap[a]? = some n → a ≠ s.nextAddr → n.uuid ≠ u
  mTree : s'.mTree[u]? = some s.nextAddr
  /-- The registered object has not been there before, and is the one asked for. -/
  created : s.heap[s.nextAddr]? = none ∧ ∃ c t pu n, s'.heap[s.nextAddr]? = some n ∧ n.uuid = u ∧
    e = .message c ⟨t, .createRequest n.name pu⟩
  announced : ∀ {d t adds dels}, .send d ⟨t, .treeUpdateNotification adds dels⟩ ∈ o →
    adds.map NamedNode.uuid = [u]

/-- Every accepted `CreateRequest` of the run gives out a fresh uuid. -/
def CreationsFresh (ls : List (Event × List Output)) : Prop :=
  ∀ ls₁ s₁ e o s₂ ls₂, ls = ls₁ ++ (e, o) :: ls₂ → ServerRun .init ls₁ s₁ →
    s₁.step e = .ok (s₂, o) → ∀ c t u, .send c ⟨t, .createAccept u⟩ ∈ o → FreshNode s₁ e s₂ o u

/-- A creation that does not draw a uuid in use gives out a fresh one. -/
theorem FreshNode.of_indexed (hw : WellLinked s) (hi : Indexed s) (hstep : StepResult s e s' o)
    {c : Conn} {t : UInt16} {u : UInt64} (hm : .send c ⟨t, .createAccept u⟩ ∈ o) :
    FreshNode s e s' o u := by
  obtain ⟨name, pu, p, sid, node, rfl, -, hn, rfl, rfl, rfl⟩ := hstep.create_of_accept hm
  have hunused : ∀ {a : Addr} {n : Node}, s.heap[a]? = some n → n.uuid ≠ s.mUuidCtr.toUInt64 := by
    intro a n ha huuid
    have hreg := hi.heap_mTree ha
    rw [huuid, hi.mTree_fresh] at hreg
    cases hreg
  refine ⟨fun {a n} ha hne => ?_, ?_, ⟨hw.heap_nextAddr, ?_⟩, fun {d t' adds dels} hadd => ?_⟩
  · rw [insertNode_heap, if_neg hne] at ha
    split_ifs at ha
    · cases ha
      exact hunused (n := node) hn
    · exact hunused ha
  · have := hi.mTree_fresh
    simp only [ProtocolHandler.insertNode]
    grind
  · refine ⟨c, t, pu, _, by rw [insertNode_heap, if_pos rfl], rfl, rfl⟩
  · rcases List.mem_cons.mp hadd with heq | hadd
    · cases heq
    · obtain ⟨sid', d', -, heq⟩ := mem_broadcast_iff.mp hadd
      cases heq
      rfl

/-- While the counter has not come round, every creation gives out a fresh uuid. -/
theorem creationsFresh_of_lt (hlt : acceptedCreates ls < 2 ^ 32) : CreationsFresh ls := by
  rintro ls₁ s₁ e o s₂ ls₂ rfl hrun hstep c t u hm
  have hcount : 0 < o.countP isCreateAccept := List.countP_pos_iff.mpr ⟨_, hm, rfl⟩
  rw [show ls₁ ++ (e, o) :: ls₂ = ls₁ ++ [(e, o)] ++ ls₂ by simp, acceptedCreates_append,
    acceptedCreates_concat] at hlt
  simp only at hlt
  exact .of_indexed (wellLinked_of_run hrun) (indexed_of_run hrun (by omega)) (step_cases hstep) hm

/-- A run with `2 ^ 32` accepted creations has one that draws 0 from the counter. -/
theorem exists_wrap (h : ServerRun .init ls s) (hge : 2 ^ 32 ≤ acceptedCreates ls) :
    ∃ ls₁ s₁ e o s₂ ls₂, ls = ls₁ ++ (e, o) :: ls₂ ∧ ServerRun .init ls₁ s₁ ∧
      s₁.step e = .ok (s₂, o) ∧ s₁.mUuidCtr = 0 ∧ 0 < o.countP isCreateAccept := by
  induction h with
  | nil => exact absurd hge (by decide)
  | @snoc t u ls l run step ih =>
    by_cases hprev : 2 ^ 32 ≤ acceptedCreates ls
    · obtain ⟨ls₁, s₁, e, o, s₂, ls₂, rfl, hrun, hstep, hctr, hpos⟩ := ih hprev
      exact ⟨ls₁, s₁, e, o, s₂, ls₂ ++ [l], by simp, hrun, hstep, hctr, hpos⟩
    · -- this step accepts the creation with the number `2 ^ 32`
      rw [acceptedCreates_concat] at hge
      have hctr := mUuidCtr_of_run run
      rcases (step_cases step).createAccept_cases with ⟨hcount, -⟩ | ⟨hcount, -⟩
      · refine ⟨ls, t, l.1, l.2, u, [], rfl, run, step, ?_, by omega⟩
        rw [← UInt32.toNat_inj, hctr]
        have : acceptedCreates ls + 1 = 2 ^ 32 := by omega
        rw [this]
        rfl
      · omega

/-- The creations of a run give out fresh uuids exactly if there are fewer than `2 ^ 32`: the last one
of so many would get the uuid of the root. -/
theorem creationsFresh_iff (h : ServerRun .init ls s) :
    CreationsFresh ls ↔ acceptedCreates ls < 2 ^ 32 := by
  refine ⟨fun hfresh => ?_, creationsFresh_of_lt⟩
  by_contra hge
  obtain ⟨ls₁, s₁, e, o, s₂, ls₂, heq, hrun, hstep, hctr, hpos⟩ := exists_wrap h (not_lt.mp hge)
  obtain ⟨x, hx, haccept⟩ := List.countP_pos_iff.mp hpos
  obtain ⟨d, t, u, rfl⟩ : ∃ d t u, x = .send d ⟨t, .createAccept u⟩ := by
    unfold isCreateAccept at haccept
    split at haccept
    · exact ⟨_, _, _, rfl⟩
    · cases haccept
  have hnode := hfresh ls₁ s₁ e o s₂ ls₂ heq hrun hstep d t u hx
  obtain ⟨-, -, -, -, -, -, -, -, -, hu, -⟩ := (step_cases hstep).create_of_accept hx
  have hu0 : u = 0 := by
    rw [hu, hctr]
    rfl
  -- the root is another node with this uuid
  have hw : WellLinked s₂ := wellLinked_of_run (hrun.snoc (e := (e, o)) hstep)
  obtain ⟨root, hroot, huuid⟩ := hw.mTree_heap hw.root_mTree
  refine hnode.other_ne hroot ?_ (huuid.trans hu0.symm)
  have hw₁ := wellLinked_of_run hrun
  obtain ⟨root₁, hroot₁, -⟩ := hw₁.root_heap
  exact ne_of_lt (hw₁.heap_lt hroot₁)

/-- A node is created, deleted, and created again under the same name. -/
def recreateEvents : List Event :=
  [.message 7 ⟨0, .signinRequest 0⟩, .message 7 ⟨1, .createRequest [97] 0⟩,
    .message 7 ⟨2, .deleteRequest 1⟩, .message 7 ⟨3, .createRequest [97] 0⟩]

/-- Both creations get a fresh uuid. -/
theorem creationsFresh_recreate : ∃ ls s, ServerRun .init ls s ∧
    ls.map Prod.fst = recreateEvents ∧ acceptedCreates ls = 2 ∧ CreationsFresh ls := by
  have hrun : ∃ r, execute step (fun _ _ => true) .init recreateEvents = some r ∧
      r.2.map Prod.fst = recreateEvents ∧ acceptedCreates r.2 = 2 :=
    ⟨_, rfl, rfl, by decide⟩
  obtain ⟨⟨s, ls⟩, hexec, hevents, hcount⟩ := hrun
  have hrun : ServerRun .init ls s := (run_of_execute step hexec).of_guarded
  exact ⟨ls, s, hrun, hevents, hcount, (creationsFresh_iff hrun).mpr (by rw [hcount]; decide)⟩

/-! ## A run in which the counter comes round -/

/-- Connection 7 is signed in, and the root has no children. -/
structure Cleared (s : ProtocolHandler) : Prop where
  signedIn : ∃ sid, s.mConnectionToSessionId[(7 : Conn)]? = some sid
  root : ∃ root : Node, s.heap[(0 : Addr)]? = some root ∧ ∀ name : Name, root.children[name]? = none

/-- In such a state connection 7 can create a node. -/
theorem Cleared.create (h : Cleared s) (hw : WellLinked s) (name : Name) :
    ∃ root sid o, s.heap[(0 : Addr)]? = some root ∧ (∀ name : Name, root.children[name]? = none) ∧
      s.step (.message 7 ⟨1, .createRequest name 0⟩) = .ok (s.insertNode 0 root name sid, o) ∧
      .send 7 ⟨1, .createAccept s.mUuidCtr.toUInt64⟩ ∈ o := by
  obtain ⟨⟨sid, hsid⟩, root, hroot, hnone⟩ := h
  refine ⟨root, sid, .send 7 ⟨1, .createAccept s.mUuidCtr.toUInt64⟩ ::
    (s.insertNode 0 root name sid).broadcast ⟨notificationId,
      .treeUpdateNotification [⟨name, s.mUuidCtr.toUInt64, root.uuid⟩] []⟩, hroot, hnone, ?_,
    List.mem_cons_self⟩
  simp only [step, handle, handleCreateRequest, hw.root_mTree, hsid, hroot, hnone]
  rfl

/-- It can create a node and delete it again. -/
theorem Cleared.round (h : Cleared s) (hw : WellLinked s) (hi : Indexed s) :
    ∃ ls s', ServerRun s ls s' ∧ acceptedCreates ls = 1 ∧ Cleared s' := by
  obtain ⟨root, sid, o, hroot, hnone, hcreate, haccept⟩ := h.create hw [97]
  set s₁ := s.insertNode 0 root [97] sid with hs₁
  have hw₁ : WellLinked s₁ := hw.stateChange (step_cases hcreate).stateChange
  have hlt : 0 < s.nextAddr := hw.heap_lt hroot
  have hreg : s₁.mTree[s.mUuidCtr.toUInt64]? = some s.nextAddr := by
    have := hi.mTree_fresh
    simp only [hs₁, ProtocolHandler.insertNode]
    grind
  obtain ⟨node, hnode, hleaf, hparent, hname⟩ : ∃ node, s₁.heap[s.nextAddr]? = some node ∧
      node.children.size = 0 ∧ node.parent = some 0 ∧ node.name = [97] :=
    ⟨_, by rw [hs₁, insertNode_heap, if_pos rfl], rfl, rfl, rfl⟩
  obtain ⟨root₁, hroot₁, hkids⟩ : ∃ root₁ : Node, s₁.heap[(0 : Addr)]? = some root₁ ∧
      root₁.children = root.children.insertIfNew [97] s.nextAddr :=
    ⟨_, by rw [hs₁, insertNode_heap, if_neg (ne_of_lt hlt), if_pos rfl], rfl⟩
  set s₂ := s₁.removeNode s.mUuidCtr.toUInt64 s.nextAddr node 0 root₁ with hs₂
  obtain ⟨o₂, hdelete⟩ : ∃ o₂,
      s₁.step (.message 7 ⟨2, .deleteRequest s.mUuidCtr.toUInt64⟩) = .ok (s₂, o₂) := by
    refine ⟨.send 7 ⟨2, .deleteResponse .ok⟩ :: s₂.broadcast ⟨notificationId,
      .treeUpdateNotification [] [s.mUuidCtr.toUInt64]⟩, ?_⟩
    simp only [step, handle, handleDeleteRequest, hreg, hnode, hleaf, ne_eq, not_true_eq_false,
      if_false, hparent, lock, hroot₁, Option.map_some, ← hs₂]
    rfl
  have hroot₂ := hw₁.removeNode_heap hreg hnode hparent hroot₁ 0
  rw [if_neg (ne_of_lt hlt), if_pos rfl, ← hs₂] at hroot₂
  have hrun : ServerRun s [(.message 7 ⟨1, .createRequest [97] 0⟩, o),
      (.message 7 ⟨2, .deleteRequest s.mUuidCtr.toUInt64⟩, o₂)] s₂ :=
    (Run.single (e := (Event.message 7 ⟨1, .createRequest [97] 0⟩, o)) hcreate).snoc
      (e := (Event.message 7 ⟨2, .deleteRequest s.mUuidCtr.toUInt64⟩, o₂)) hdelete
  refine ⟨_, s₂, hrun, ?_, ?_, _, hroot₂, ?_⟩
  · have hone : o.countP isCreateAccept = 1 := by
      rcases (step_cases hcreate).createAccept_cases with ⟨hcount, -⟩ | ⟨hcount, -⟩
      · exact hcount
      · exact absurd rfl (List.countP_eq_zero.mp hcount _ haccept)
    have hzero : o₂.countP isCreateAccept = 0 := by
      rcases (step_cases hdelete).createAccept_cases with ⟨-, hctr⟩ | ⟨hcount, -⟩
      · simp [hs₂, ProtocolHandler.removeNode] at hctr
      · exact hcount
    simp [acceptedCreates, hone, hzero]
  · obtain ⟨sid', hsid⟩ := h.signedIn
    exact ⟨sid', by simpa [hs₂, hs₁, ProtocolHandler.removeNode,
      ProtocolHandler.insertNode] using hsid⟩
  · intro name
    have := hnone name
    simp only [hkids, hname]
    grind

/-- After the sign-in of connection 7 there is such a state, before any creation. -/
theorem cleared_signin : ∃ ls s, ServerRun .init ls s ∧ acceptedCreates ls = 0 ∧ Cleared s := by
  refine ⟨[(.message 7 ⟨0, .signinRequest 0⟩, [.send 7 ⟨0, .signinAccept 0⟩])], _, .single rfl, rfl,
    ⟨0, by decide⟩, rootNode, by rfl, fun name => ?_⟩
  simp [rootNode]

/-- There is one after any number of creations below the bound. -/
theorem cleared_of_le (n : ℕ) (hn : n ≤ 2 ^ 32 - 1) :
    ∃ ls s, ServerRun .init ls s ∧ acceptedCreates ls = n ∧ Cleared s := by
  induction n with
  | zero => exact cleared_signin
  | succ n ih =>
    obtain ⟨ls, s, hrun, hcount, h⟩ := ih (Nat.le_of_succ_le hn)
    have hi := indexed_of_run hrun (by omega)
    obtain ⟨ls', s', hrun', hcount', h'⟩ := h.round (wellLinked_of_run hrun) hi
    exact ⟨ls ++ ls', s', hrun.append hrun', by rw [acceptedCreates_append]; omega, h'⟩

/-- A client that creates and deletes a node `2 ^ 32 - 1` times and then creates one is given the uuid
of the root. -/
theorem not_creationsFresh :
    ¬ ∀ ls s, ServerRun .init ls s → CreationsFresh ls := by
  intro hall
  obtain ⟨ls, s, hrun, hcount, h⟩ := cleared_of_le (2 ^ 32 - 1) le_rfl
  have hw := wellLinked_of_run hrun
  obtain ⟨root, sid, o, hroot, -, hcreate, haccept⟩ := h.create hw [97]
  have hrun' : ServerRun .init (ls ++ [(.message 7 ⟨1, .createRequest [97] 0⟩, o)]) _ :=
    hrun.snoc (e := (Event.message 7 ⟨1, .createRequest [97] 0⟩, o)) hcreate
  have hnode := hall _ _ hrun' ls s _ o _ [] rfl hrun hcreate _ _ _ haccept
  have hctr : s.mUuidCtr.toUInt64 = 0 := by
    have := mUuidCtr_of_run hrun
    rw [hcount] at this
    have h0 : s.mUuidCtr = 0 := by
      rw [← UInt32.toNat_inj, this]
      rfl
    rw [h0]
    rfl
  -- the root is another node with this uuid
  have hw' : WellLinked _ := wellLinked_of_run hrun'
  obtain ⟨root', hroot', huuid⟩ := hw'.mTree_heap hw'.root_mTree
  exact hnode.other_ne hroot' (ne_of_lt (hw.heap_lt hroot)) (huuid.trans hctr.symm)

end PropertyTree.Server
