import PropertyTree.Client.Transactions
import PropertyTree.Library.Transition

/-!
# The uuids a mirror is told of

A uuid comes into `mTree` when an entry names it as that of a node or of a parent, and goes when its
deletion is handled.  `mentionsOf` lists for a step which uuids it puts in and which it takes out, in
order, so that a uuid is registered exactly when the last step that mentions it has put it in.
-/

namespace PropertyTree.Client

open Library

/-- The uuids an entry puts into `mTree`. -/
def entryMentions (i : NamedNode) : List (UInt64 × Bool) :=
  [(i.parentUuid, true), (i.uuid, true)]

/-- The uuids that a step puts into `mTree`, with `true`, and takes out of it, with `false`. -/
def mentionsOf (k : Client) : Action → List (UInt64 × Bool)
  | .proceed i =>
    match k.threads[i]? with
    | some ⟨.signin, .answered _ ⟨_, .signinAccept _⟩⟩ => [(0, true)]
    | some ⟨.create _ _, .answered _ ⟨_, .createAccept uuid⟩⟩ => [(uuid, true)]
    | some ⟨_, .adding _ (j :: _)⟩ => entryMentions j
    | _ => []
  | .read =>
    match k.inbound with
    | ⟨_, trId, .treeUpdateNotification nodeToAddList nodeToDelete⟩ :: _ =>
      if trId ∈ k.mTransactions then []
      else nodeToAddList.flatMap entryMentions ++ nodeToDelete.map (·, false)
    | _ => []
  | _ => []

namespace Mirror

variable {m : Mirror} {v : UInt64}

theorem isSome_mTree_emplace (m : Mirror) (u : UInt64) (a : Addr) (v : UInt64) :
    ((m.emplace u a).mTree[v]?).isSome = (lastOf v [(u, true)]).getD (m.mTree[v]?).isSome := by
  rw [lastOf_singleton]
  simp only [emplace]
  grind

/-- A known uuid that is put in again. -/
theorem isSome_mTree_of_known {u : UInt64} {a : Addr} (hu : m.mTree[u]? = some a) (v : UInt64) :
    (m.mTree[v]?).isSome = (lastOf v [(u, true)]).getD (m.mTree[v]?).isSome := by
  rw [lastOf_singleton]
  split_ifs with huv
  · subst huv
    rw [hu]
    rfl
  · rfl

theorem isSome_mTree_parentOrGhost (m : Mirror) (u v : UInt64) :
    ((m.parentOrGhost u).1.mTree[v]?).isSome =
      (lastOf v [(u, true)]).getD (m.mTree[v]?).isSome := by
  unfold parentOrGhost
  split
  · exact isSome_mTree_of_known ‹_› v
  · exact isSome_mTree_emplace _ _ _ _

theorem isSome_mTree_addNode (m : Mirror) (i : NamedNode) (v : UInt64) :
    ((m.addNode i).mTree[v]?).isSome =
      (lastOf v (entryMentions i)).getD (m.mTree[v]?).isSome := by
  have hsplit : entryMentions i = [(i.parentUuid, true)] ++ [(i.uuid, true)] := rfl
  rw [hsplit, getD_lastOf_append, ← isSome_mTree_parentOrGhost]
  unfold addNode
  cases hu : m.mTree[i.uuid]? with
  | none =>
    simp only [insertNode, callTreeAdd_mTree, link_mTree]
    exact isSome_mTree_emplace _ _ _ _
  | some a =>
    have hfill : ∀ p, ((m.parentOrGhost i.parentUuid).1.fillNode a p i.name).mTree =
        (m.parentOrGhost i.parentUuid).1.mTree := by
      intro p
      unfold fillNode
      simp only
      split_ifs
      · rw [callTreeAdd_mTree, link_mTree, modifyNode_mTree]
      · rw [link_mTree, modifyNode_mTree]
    have hknown : ∃ b, (m.parentOrGhost i.parentUuid).1.mTree[i.uuid]? = some b := by
      rw [← Option.isSome_iff_exists, isSome_mTree_parentOrGhost, hu, lastOf_singleton]
      split_ifs <;> rfl
    obtain ⟨b, hb⟩ := hknown
    simp only [hfill]
    exact isSome_mTree_of_known hb v

theorem isSome_mTree_addNodes (m : Mirror) (l : List NamedNode) (v : UInt64) :
    ((m.addNodes l).mTree[v]?).isSome =
      (lastOf v (l.flatMap entryMentions)).getD (m.mTree[v]?).isSome := by
  induction l generalizing m with
  | nil => rfl
  | cons i l ih =>
    rw [List.flatMap_cons, getD_lastOf_append, ← isSome_mTree_addNode]
    exact ih (m.addNode i)

theorem isSome_mTree_removeNode (m : Mirror) (u v : UInt64) :
    ((m.removeNode u).mTree[v]?).isSome = (lastOf v [(u, false)]).getD (m.mTree[v]?).isSome := by
  rw [lastOf_singleton]
  cases hu : m.mTree[u]? with
  | none =>
    rw [removeNode_of_unknown hu]
    split_ifs with huv
    · exact huv ▸ (by rw [hu]; rfl)
    · rfl
  | some a =>
    cases hn : m.heap[a]? with
    | none =>
      simp only [removeNode, hu, callTreeRemove_heap, hn, callTreeRemove_mTree]
      grind
    | some node =>
      rw [(removeNode_of_known hu hn).mTree]
      grind

theorem isSome_mTree_removeNodes (m : Mirror) (l : List UInt64) (v : UInt64) :
    ((m.removeNodes l).mTree[v]?).isSome =
      (lastOf v (l.map (·, false))).getD (m.mTree[v]?).isSome := by
  induction l generalizing m with
  | nil => rfl
  | cons u l ih =>
    have hsplit : (u :: l).map (·, false) = [(u, false)] ++ l.map (·, false) := rfl
    rw [hsplit, getD_lastOf_append, ← isSome_mTree_removeNode]
    exact ih (m.removeNode u)

@[simp] theorem destroyNode_mTree (m : Mirror) (a : Addr) : (m.destroyNode a).mTree = m.mTree := by
  unfold destroyNode
  split
  · rfl
  · split <;> rfl

theorem isSome_mTree_createNode (m : Mirror) (p : Addr) (name : Name) (u v : UInt64) :
    ((m.createNode p name u).mTree[v]?).isSome =
      (lastOf v [(u, true)]).getD (m.mTree[v]?).isSome := by
  unfold createNode
  split
  · exact isSome_mTree_of_known ‹_› v
  · exact isSome_mTree_emplace _ _ _ _

theorem isSome_mTree_emplaceRoot (m : Mirror) (v : UInt64) :
    (m.emplaceRoot.mTree[v]?).isSome = (lastOf v [(0, true)]).getD (m.mTree[v]?).isSome := by
  unfold emplaceRoot
  split
  · exact isSome_mTree_of_known ‹_› v
  · exact isSome_mTree_emplace _ _ _ _

end Mirror

variable {k k' : Client} {number : ℕ} {a : Action} {sent : List Packet} {i : ThreadId}

/-- What a thread past its wait does to the uuids. -/
theorem isSome_mTree_of_proceed (h : k.proceed i = some k') (v : UInt64) :
    (k'.mirror.mTree[v]?).isSome =
      (lastOf v (k.mentionsOf (.proceed i))).getD (k.mirror.mTree[v]?).isSome := by
  unfold proceed at h
  unfold mentionsOf
  split at h
  · rename_i call r response ht
    obtain ⟨tag, q⟩ := response
    simp only [ht]
    cases call <;> cases q <;> try (cases h; rfl)
    case signin.signinAccept =>
      cases h
      exact Mirror.isSome_mTree_emplaceRoot _ v
    case create.createAccept =>
      cases h
      exact Mirror.isSome_mTree_createNode _ _ _ _ v
    case fetch.getAccept =>
      simp only [respond] at h
      split_ifs at h
      cases h
      rfl
    case destroy.deleteResponse =>
      simp only [respond] at h
      split_ifs at h <;> cases h
      · simp only [finish, Mirror.destroyNode_mTree]
        rfl
      · rfl
  · rename_i ht
    cases h
    simp only [ht]
    exact Mirror.isSome_mTree_addNode _ _ v
  · rename_i ht
    cases h
    simp only [ht]
    rfl
  · cases h

/-- After a step a uuid is registered as the step's last mention of it says, and as before the step
when it does not mention it. -/
theorem isSome_mTree_of_step (h : k.step number a = some (k', sent)) (v : UInt64) :
    (k'.mirror.mTree[v]?).isSome =
      (lastOf v (k.mentionsOf a)).getD (k.mirror.mTree[v]?).isSome := by
  have hres := (step_cases h).2
  cases a with
  | proceed i =>
    simp only [step] at h
    split_ifs at h
    obtain ⟨k₁, hk, heq⟩ := Option.map_eq_some_iff.mp h
    cases heq
    exact isSome_mTree_of_proceed hk v
  | read =>
    unfold mentionsOf
    cases hres with
    | treeUpdate tag trId add del inbound hr hin hx =>
      have hnot : trId ∉ k.mTransactions := by
        rw [← Std.ExtTreeMap.isSome_getElem?_iff_mem, hx]
        nofun
      simp only [hin, if_neg hnot, getD_lastOf_append]
      rw [← Mirror.isSome_mTree_addNodes, ← Mirror.isSome_mTree_removeNodes]
      rfl
    | satisfy p inbound x hr hin hx =>
      obtain ⟨tag, trId, q⟩ := p
      have hmem : trId ∈ k.mTransactions := by
        rw [← Std.ExtTreeMap.isSome_getElem?_iff_mem, hx]
        rfl
      rw [hin]
      cases q <;> first | rfl | simp [hmem]
    | updateNotification tag trId uuid data inbound hr hin hx =>
      rw [hin]
      rfl
    | rpcRequest tag trId uuid param inbound hr hin hx =>
      rw [hin]
      rfl
    | ignore p inbound hr hin hx hm =>
      obtain ⟨tag, trId, q⟩ := p
      rw [hin]
      cases q <;> first | rfl | cases hm
  | update =>
    cases hres with
    | update a data hr hl =>
      simp only [Mirror.callUpdate_mTree, Mirror.modifyNode_mTree]
      rfl
  | setup s =>
    cases hres with
    | setup _ hs => cases s <;> rfl
  | _ => cases hres <;> rfl

end PropertyTree.Client
