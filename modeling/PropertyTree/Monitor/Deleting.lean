import PropertyTree.Monitor.Paths

/-!
# Deleting a subtree

`onCmdList` with `action=delete` goes through a subtree with one loop: it prints in preorder and
deletes in postorder, on snapshots of the children maps which the deletions do not change and by
counts of children which they do.  The loop is followed on the server's tree as it is in the
beginning: what is left of the server is that tree without the nodes destroyed so far, and so are the
children maps of the mirror, wherever the reader stands in handling the notifications.
-/

namespace PropertyTree.Monitor

open Library Server Client

/-! ## What the server does -/

section Server

variable {s : ProtocolHandler} {u : UInt64} {e : Entry UInt64 Name Buffer}

/-- The server deletes a leaf. -/
theorem step_delete (hw : WellLinked s) (hi : Indexed s) (he : s.entry u = some e)
    (hparent : e.parent ≠ none) (hleaf : ∀ v e', s.entry v = some e' → e'.parent ≠ some u) :
    ∃ s', WellLinked s' ∧ Indexed s' ∧
      (∀ v, s'.entry v = if v = u then none else s.entry v) ∧
      ∀ c t, s.step (.message c ⟨t, .deleteRequest u⟩) =
        .ok (s', .send c ⟨t, .deleteResponse .ok⟩ ::
          s'.broadcast ⟨notificationId, .treeUpdateNotification [] [u]⟩) := by
  rcases hw.entry_cases u with ⟨-, hnone⟩ | ⟨a, n, ha, hn, -, hentry⟩
  · rw [hnone] at he
    cases he
  have hsize : n.children.size = 0 := by
    by_contra hne
    obtain ⟨v, e', he', hpar⟩ := (hw.exists_child_iff hi ha hn).mpr hne
    exact hleaf v e' he' hpar
  obtain ⟨p, hp⟩ : ∃ p, n.parent = some p := by
    rw [hentry, Option.some.injEq] at he
    subst he
    refine Option.ne_none_iff_exists'.mp fun hnone => hparent ?_
    simp [hnone]
  obtain ⟨pn, hpn, -⟩ := hw.parent_heap hn hp
  refine ⟨s.removeNode u a n p pn, hw.removeNode ha hn hsize hp hpn, hi.removeNode hw ha hn hp hpn,
    entry_removeNode hw ha hn hsize hp hpn, fun c t => ?_⟩
  simp [ProtocolHandler.step, ProtocolHandler.handle, ProtocolHandler.handleDeleteRequest, ha, hn,
    hsize, ProtocolHandler.lock, hp, hpn]

/-- The server answers with the data of a node it knows. -/
theorem step_get (hw : WellLinked s) (he : s.entry u ≠ none) : ∃ data, ∀ c t,
    s.step (.message c ⟨t, .getRequest u⟩) = .ok (s, [.send c ⟨t, .getAccept data⟩]) := by
  rcases hw.entry_cases u with ⟨-, hnone⟩ | ⟨a, n, ha, hn, -, -⟩
  · exact absurd hnone he
  · exact ⟨n.data, fun c t => by
      simp [ProtocolHandler.step, ProtocolHandler.handle, ProtocolHandler.handleGetRequest, ha, hn]⟩

/-- What a connection is sent of a broadcast is the message that is broadcast. -/
theorem eq_of_mem_sentTo_broadcast {c : Conn} {m p : PropertyTreeMessage}
    (h : p ∈ System.sentTo c (s.broadcast m)) : p = m := by
  obtain ⟨x, hx, hp⟩ := List.mem_filterMap.mp h
  obtain ⟨sid, d, -, rfl⟩ := mem_broadcast_iff.mp hx
  simp only at hp
  split_ifs at hp
  exact (Option.some.inj hp).symm

end Server

/-! ## What is left of the mirror -/

variable {s : ProtocolHandler} {b₀ : Addr} {obj : Addr → Addr} {gone dying : List Addr} {m m' : Mirror}
  {inbound : List PropertyTreeMessage}

/-- The node `b` is in the subtree of `b₀`. -/
abbrev Reached (s : ProtocolHandler) (b₀ b : Addr) : Prop :=
  Relation.ReflTransGen (IsKid (kids s.heap)) b₀ b

/-- The objects `obj b` of the mirror are what is left of the subtree of `b₀`: the nodes in `gone` are
out of the children maps, those in `dying` may be, and the reader's messages are about the ones and the
others. -/
structure Pruned (s : ProtocolHandler) (b₀ : Addr) (obj : Addr → Addr) (gone dying : List Addr)
    (m : Mirror) (inbound : List PropertyTreeMessage) : Prop where
  object : ∀ {b : Addr}, Reached s b₀ b →
    ∃ n : Client.Node, m.heap[obj b]? = some n ∧ n.uuid = uuidAt s.heap b
  parent : ∀ {p c : Addr} {name : Name} {n : Client.Node}, Reached s b₀ p →
    (name, c) ∈ kids s.heap p → m.heap[obj c]? = some n → n.name = name ∧ n.parent = some (obj p)
  listed : ∀ {b x : Addr} {n : Client.Node} {name : Name}, Reached s b₀ b →
    m.heap[obj b]? = some n → n.children[name]? = some x →
    ∃ c, (name, c) ∈ kids s.heap b ∧ c ∉ gone ∧ x = obj c
  present : ∀ {b c : Addr} {n : Client.Node} {name : Name}, Reached s b₀ b →
    m.heap[obj b]? = some n → (name, c) ∈ kids s.heap b → c ∉ gone → c ∉ dying →
    n.children[name]? = some (obj c)
  known : ∀ {b x : Addr}, Reached s b₀ b → m.mTree[uuidAt s.heap b]? = some x → x = obj b
  below : ∀ {c : Addr}, c ∈ gone ∨ c ∈ dying →
    ∃ p name, Reached s b₀ p ∧ (name, c) ∈ kids s.heap p
  notices : ∀ p ∈ inbound, ∃ c, (c ∈ gone ∨ c ∈ dying) ∧
    p.message = .treeUpdateNotification [] [uuidAt s.heap c]

/-- A name leads to one child. -/
theorem kids_inj {p c c' : Addr} {name : Name} (h : (name, c) ∈ kids s.heap p)
    (h' : (name, c') ∈ kids s.heap p) : c = c' := by
  obtain ⟨pn, hpn, hc⟩ := mem_kids_iff.mp h
  obtain ⟨pn', hpn', hc'⟩ := mem_kids_iff.mp h'
  grind

/-- The nodes of the subtree are in the heap. -/
theorem exists_of_reached (hw : WellLinked s) (hb₀ : ∃ n, s.heap[b₀]? = some n) {b : Addr}
    (hb : Reached s b₀ b) : ∃ n, s.heap[b]? = some n := by
  rcases hb.cases_tail with rfl | ⟨p, -, name, hk⟩
  · exact hb₀
  · exact Std.ExtTreeMap.mem_iff_isSome_getElem?.mp (hw.nodeTree.mem_heap_of_mem_kids hk) |>
      Option.isSome_iff_exists.mp

namespace Pruned

/-- What is left depends on the objects, and on what is still in `mTree`. -/
theorem congr (h : Pruned s b₀ obj gone dying m inbound)
    (hheap : ∀ x : Addr, m'.heap[x]? = m.heap[x]?)
    (hmTree : ∀ {u : UInt64} {x : Addr}, m'.mTree[u]? = some x → m.mTree[u]? = some x) :
    Pruned s b₀ obj gone dying m' inbound where
  object hb := by simpa only [hheap] using h.object hb
  parent hp hk hn := h.parent hp hk (hheap _ ▸ hn)
  listed hb hn hx := h.listed hb (hheap _ ▸ hn) hx
  present hb hn hk := h.present hb (hheap _ ▸ hn) hk
  known hb hx := h.known hb (hmTree hx)
  below := h.below
  notices := h.notices

/-- Fewer messages. -/
theorem tail {p : PropertyTreeMessage} (h : Pruned s b₀ obj gone dying m (p :: inbound)) :
    Pruned s b₀ obj gone dying m inbound :=
  { h with notices := fun q hq => h.notices q (List.mem_cons_of_mem _ hq) }

/-- Different nodes have different objects. -/
theorem obj_inj (h : Pruned s b₀ obj gone dying m inbound) (hw : WellLinked s) (hi : Indexed s)
    (hb₀ : ∃ n, s.heap[b₀]? = some n) {b b' : Addr} (hb : Reached s b₀ b) (hb' : Reached s b₀ b')
    (heq : obj b = obj b') : b = b' := by
  obtain ⟨n, hn, hu⟩ := h.object hb
  obtain ⟨n', hn', hu'⟩ := h.object hb'
  obtain ⟨k, hk⟩ := exists_of_reached hw hb₀ hb
  obtain ⟨k', hk'⟩ := exists_of_reached hw hb₀ hb'
  rw [heq, hn', Option.some.injEq] at hn
  subst hn
  have hreg := hi.heap_mTree hk
  have hreg' := hi.heap_mTree hk'
  rw [uuidAt_of_heap hk] at hu
  rw [uuidAt_of_heap hk'] at hu'
  rw [← hu, hu', hreg', Option.some.injEq] at hreg
  exact hreg.symm

/-- The object of a node with its children map changed. -/
theorem unlink_heap (p : Addr) (name : Name) (x : Addr) : (m.unlink p name).heap[x]? =
    if x = p then (m.heap[x]?).map fun n => { n with children := n.children.erase name }
    else m.heap[x]? :=
  Mirror.modifyNode_heap _ _ _

/-- Taking a node out of its parent's children map that is out of it already, or may be. -/
theorem unlink (h : Pruned s b₀ obj gone dying m inbound) (hw : WellLinked s) (hi : Indexed s)
    (hb₀ : ∃ n, s.heap[b₀]? = some n) {p c : Addr} {name : Name} (hp : Reached s b₀ p)
    (hk : (name, c) ∈ kids s.heap p) (hc : c ∈ gone ∨ c ∈ dying) :
    Pruned s b₀ obj gone dying (m.unlink (obj p) name) inbound := by
  -- every object keeps its fields, up to the entry that is erased
  have hback : ∀ {x : Addr} {n : Client.Node}, (m.unlink (obj p) name).heap[x]? = some n →
      ∃ n₀ : Client.Node, m.heap[x]? = some n₀ ∧ n.uuid = n₀.uuid ∧ n.name = n₀.name ∧
        n.parent = n₀.parent ∧
        n.children = if x = obj p then n₀.children.erase name else n₀.children := by
    intro x n hn
    rw [unlink_heap] at hn
    split_ifs at hn with hx
    · obtain ⟨n₀, hn₀, rfl⟩ := Option.map_eq_some_iff.mp hn
      exact ⟨n₀, hn₀, rfl, rfl, rfl, (if_pos hx).symm⟩
    · exact ⟨n, hn, rfl, rfl, rfl, (if_neg hx).symm⟩
  constructor
  · intro b hb
    obtain ⟨n, hn, hu⟩ := h.object hb
    rw [unlink_heap, hn]
    split_ifs
    · exact ⟨_, rfl, hu⟩
    · exact ⟨n, rfl, hu⟩
  · intro q c' nm n hq hk' hn
    obtain ⟨n₀, hn₀, -, hname, hparent, -⟩ := hback hn
    rw [hname, hparent]
    exact h.parent hq hk' hn₀
  · intro b x n nm hb hn hx
    obtain ⟨n₀, hn₀, -, -, -, hch⟩ := hback hn
    refine h.listed hb hn₀ ?_
    rw [hch] at hx
    split_ifs at hx
    · rw [Std.ExtTreeMap.getElem?_erase] at hx
      split_ifs at hx
      exact hx
    · exact hx
  · intro b c' n nm hb hn hk' hgone hdying
    obtain ⟨n₀, hn₀, -, -, -, hch⟩ := hback hn
    have hold := h.present hb hn₀ hk' hgone hdying
    rw [hch]
    split_ifs with hx
    · obtain rfl := h.obj_inj hw hi hb₀ hb hp hx
      have hne : name ≠ nm := by
        rintro rfl
        obtain rfl := kids_inj hk hk'
        exact hc.elim hgone hdying
      grind
    · exact hold
  · exact h.known
  · exact h.below
  · exact h.notices

/-- A node that is out of its parent's children map. -/
theorem unlink_dying {c : Addr} (h : Pruned s b₀ obj gone [c] m inbound) (hw : WellLinked s)
    (hi : Indexed s) (hb₀ : ∃ n, s.heap[b₀]? = some n) {p : Addr} {name : Name}
    (hp : Reached s b₀ p) (hk : (name, c) ∈ kids s.heap p) :
    Pruned s b₀ obj (gone ++ [c]) [] (m.unlink (obj p) name) inbound := by
  have h' := h.unlink hw hi hb₀ hp hk (.inr List.mem_cons_self)
  have hiff : ∀ x : Addr, x ∈ gone ++ [c] ∨ x ∈ ([] : List Addr) ↔ x ∈ gone ∨ x ∈ [c] := by simp
  refine { h' with
    listed := fun {b x n nm} hb hn hx => ?_
    present := fun hb hn hk' hgone _ => ?_
    below := fun hc => h'.below ((hiff _).mp hc)
    notices := fun q hq => ?_ }
  · obtain ⟨c', hk', hgone, rfl⟩ := h'.listed hb hn hx
    refine ⟨c', hk', ?_, rfl⟩
    rw [List.mem_append, not_or]
    refine ⟨hgone, fun hc => ?_⟩
    -- the only entry that leads to the node has been erased
    obtain rfl := List.mem_singleton.mp hc
    obtain rfl := hw.nodeTree.isKid_unique ⟨nm, hk'⟩ ⟨name, hk⟩
    obtain ⟨bn, hbn, hlink⟩ := mem_kids_iff.mp hk'
    obtain ⟨bn', hbn', hlink'⟩ := mem_kids_iff.mp hk
    obtain ⟨-, rfl⟩ := hw.child_unique hbn hlink hbn' hlink'
    rw [unlink_heap, if_pos rfl] at hn
    obtain ⟨n₀, -, rfl⟩ := Option.map_eq_some_iff.mp hn
    simp at hx
  · rw [List.mem_append, not_or] at hgone
    exact h'.present hb hn hk' hgone.1 hgone.2
  · obtain ⟨c', hc', hq'⟩ := h'.notices q hq
    exact ⟨c', (hiff _).mpr hc', hq'⟩

/-- The reader removes a node that is gone, or about to be. -/
theorem removeNode (h : Pruned s b₀ obj gone dying m inbound) (hw : WellLinked s) (hi : Indexed s)
    (hb₀ : ∃ n, s.heap[b₀]? = some n) {c : Addr} (hc : c ∈ gone ∨ c ∈ dying) :
    Pruned s b₀ obj gone dying (m.removeNode (uuidAt s.heap c)) inbound := by
  obtain ⟨p, name, hp, hk⟩ := h.below hc
  have hreach : Reached s b₀ c := hp.tail ⟨name, hk⟩
  cases hx : m.mTree[uuidAt s.heap c]? with
  | none =>
    rw [Mirror.removeNode_of_unknown hx]
    exact h
  | some x =>
    obtain rfl := h.known hreach hx
    obtain ⟨n, hn, -⟩ := h.object hreach
    obtain ⟨hname, hparent⟩ := h.parent hp hk hn
    have hdet := Mirror.removeNode_of_known hx hn
    refine (h.unlink hw hi hb₀ hp hk hc).congr (fun x => ?_) fun {u x} hu => ?_
    · rw [hdet.heap, unlink_heap, hparent, hname]
      simp only [Option.some.injEq, eq_comm]
    · rw [hdet.mTree] at hu
      split_ifs at hu
      exact hu

/-- What is left does not depend on how far the reader is. -/
theorem stable (hw : WellLinked s) (hi : Indexed s) (hb₀ : ∃ n, s.heap[b₀]? = some n) :
    Stable (Pruned s b₀ obj gone dying) := by
  intro m p inbound h
  obtain ⟨c, hc, hp⟩ := h.notices p List.mem_cons_self
  have hdispatch : dispatch m p = m.removeNode (uuidAt s.heap c) := by
    rw [dispatch, hp]
    rfl
  rw [hdispatch]
  exact h.tail.removeNode hw hi hb₀ hc

/-- Values do not matter. -/
theorem modifyData (h : Pruned s b₀ obj gone dying m inbound) (a : Addr) (data : Buffer) :
    Pruned s b₀ obj gone dying (m.modifyNode a fun node => { node with data := data }) inbound := by
  have hback : ∀ {x : Addr} {n : Client.Node},
      (m.modifyNode a fun node => { node with data := data }).heap[x]? = some n →
      ∃ n₀ : Client.Node, m.heap[x]? = some n₀ ∧ n.uuid = n₀.uuid ∧ n.name = n₀.name ∧
        n.parent = n₀.parent ∧ n.children = n₀.children := by
    intro x n hn
    rw [Mirror.modifyNode_heap] at hn
    split_ifs at hn
    · obtain ⟨n₀, hn₀, rfl⟩ := Option.map_eq_some_iff.mp hn
      exact ⟨n₀, hn₀, rfl, rfl, rfl, rfl⟩
    · exact ⟨n, hn, rfl, rfl, rfl, rfl⟩
  constructor
  · intro b hb
    obtain ⟨n, hn, hu⟩ := h.object hb
    rw [Mirror.modifyNode_heap, hn]
    split_ifs
    · exact ⟨_, rfl, hu⟩
    · exact ⟨n, rfl, hu⟩
  · intro p c name n hp hk hn
    obtain ⟨n₀, hn₀, -, hname, hparent, -⟩ := hback hn
    rw [hname, hparent]
    exact h.parent hp hk hn₀
  · intro b x n name hb hn hx
    obtain ⟨n₀, hn₀, -, -, -, hch⟩ := hback hn
    exact h.listed hb hn₀ (hch ▸ hx)
  · intro b c n name hb hn hk hgone hdying
    obtain ⟨n₀, hn₀, -, -, -, hch⟩ := hback hn
    rw [hch]
    exact h.present hb hn₀ hk hgone hdying
  · exact h.known
  · exact h.below
  · exact h.notices

/-- `Client::destroy` takes the node out of its parent's children map. -/
theorem destroyNode_eq (h : Pruned s b₀ obj gone dying m inbound) {p c : Addr} {name : Name}
    (hp : Reached s b₀ p) (hk : (name, c) ∈ kids s.heap p) :
    m.destroyNode (obj c) = m.unlink (obj p) name := by
  obtain ⟨n, hn, -⟩ := h.object (hp.tail ⟨name, hk⟩)
  obtain ⟨hname, hparent⟩ := h.parent hp hk hn
  obtain ⟨pn, hpn, -⟩ := h.object hp
  have hlock : m.lock n.parent = some (obj p) := Mirror.lock_eq_some_iff.mpr ⟨hparent, pn, hpn⟩
  simp only [Mirror.destroyNode, hn, hlock, hname]

/-- The children of a node none of which is gone. -/
theorem children_toList (h : Pruned s b₀ obj gone [] m inbound) {b : Addr} {n : Client.Node}
    (hb : Reached s b₀ b) (hn : m.heap[obj b]? = some n) (hall : ∀ kc ∈ kids s.heap b, kc.2 ∉ gone) :
    n.children.toList = (kids s.heap b).map fun kc => (kc.1, obj kc.2) := by
  have hmem : ∀ (name : Name) (x : Addr), n.children[name]? = some x ↔
      ∃ c, (name, c) ∈ kids s.heap b ∧ x = obj c := by
    intro name x
    constructor
    · intro hx
      obtain ⟨c, hk, -, rfl⟩ := h.listed hb hn hx
      exact ⟨c, hk, rfl⟩
    · rintro ⟨c, hk, rfl⟩
      exact h.present hb hn hk (hall _ hk) (by simp)
  cases hbn : s.heap[b]? with
  | none =>
    have hempty : n.children = ∅ := by
      refine Std.ExtTreeMap.ext_getElem? fun name => ?_
      rw [Std.ExtTreeMap.getElem?_empty, Option.eq_none_iff_forall_ne_some]
      intro x hx
      obtain ⟨c, hk, -⟩ := (hmem name x).mp hx
      simp [kids, hbn] at hk
    simp [hempty, kids, hbn]
  | some bn =>
    have hmap : n.children = bn.children.map fun _ c => obj c := by
      refine Std.ExtTreeMap.ext_getElem? fun name => Option.ext fun x => ?_
      rw [hmem, Std.ExtTreeMap.getElem?_map, Option.map_eq_some_iff]
      simp only [mem_kids_iff, hbn, Option.some.injEq, exists_eq_left', eq_comm]
    rw [hmap, Std.ExtTreeMap.toList_map, kids_of_heap hbn]

/-- A node all of whose children are gone. -/
theorem children_size_eq_zero (h : Pruned s b₀ obj gone dying m inbound) {b : Addr}
    {n : Client.Node} (hb : Reached s b₀ b) (hn : m.heap[obj b]? = some n)
    (hall : ∀ kc ∈ kids s.heap b, kc.2 ∈ gone) : n.children.size = 0 := by
  rw [← Std.ExtTreeMap.eq_empty_iff_size_eq_zero]
  refine Std.ExtTreeMap.ext_getElem? fun name => ?_
  rw [Std.ExtTreeMap.getElem?_empty, Option.eq_none_iff_forall_ne_some]
  intro x hx
  obtain ⟨c, hk, hgone, -⟩ := h.listed hb hn hx
  exact hgone (hall _ hk)

end Pruned

/-! ## One node -/

/-- The server holds its tree without the nodes in `gone`. -/
structure Remaining (s : ProtocolHandler) (gone : List Addr) (t : ProtocolHandler) : Prop where
  wellLinked : WellLinked t
  indexed : Indexed t
  entry : ∀ v, t.entry v = if v ∈ gone.map (uuidAt s.heap) then none else s.entry v

/-- The nodes in `gone` have been destroyed, in this order and after those in `destroyed`. -/
structure Pruning (s : ProtocolHandler) (b₀ : Addr) (obj : Addr → Addr)
    (destroyed : List (UInt64 × Bool)) (gone : List Addr) (σ : Session) : Prop where
  holds : Holds σ.outside (Pruned s b₀ obj gone []) σ
  remaining : Remaining s gone σ.server
  destroyed : σ.destroyed = destroyed ++ gone.map fun c => (uuidAt s.heap c, true)

section Node

variable {destroyed : List (UInt64 × Bool)} {σ : Session} {b p c : Addr} {name : Name}

/-- A session that differs only by what it has requested. -/
theorem Pruning.of_holds (h : Pruning s b₀ obj destroyed gone σ) {τ : Session}
    {qs : List PropertyTreeMessages}
    (hτ : Holds { σ.outside with requests := qs } (Pruned s b₀ obj gone []) τ) :
    Pruning s b₀ obj destroyed gone τ := by
  have hserver : τ.server = σ.server := congrArg Outside.server hτ.outside
  have hdestroyed : τ.destroyed = σ.destroyed := congrArg Outside.destroyed hτ.outside
  exact ⟨{ hτ with outside := rfl }, hserver ▸ h.remaining, hdestroyed ▸ h.destroyed⟩

/-- Different nodes of the heap have different uuids. -/
theorem uuidAt_inj (hi : Indexed s) {x y : Addr} (hx : ∃ n, s.heap[x]? = some n)
    (hy : ∃ n, s.heap[y]? = some n) (h : uuidAt s.heap x = uuidAt s.heap y) : x = y := by
  obtain ⟨n, hn⟩ := hx
  obtain ⟨k, hk⟩ := hy
  rw [uuidAt_of_heap hn, uuidAt_of_heap hk] at h
  have hreg := hi.heap_mTree hn
  rw [h, hi.heap_mTree hk, Option.some.injEq] at hreg
  exact hreg.symm

/-- A node that is not gone keeps its entry. -/
theorem Pruning.entry_eq (h : Pruning s b₀ obj destroyed gone σ) (hw : WellLinked s)
    (hi : Indexed s) (hb₀ : ∃ n, s.heap[b₀]? = some n) (hb : Reached s b₀ b) (hgone : b ∉ gone) :
    σ.server.entry (uuidAt s.heap b) = s.entry (uuidAt s.heap b) ∧
      s.entry (uuidAt s.heap b) ≠ none := by
  obtain ⟨n, hn⟩ := exists_of_reached hw hb₀ hb
  refine ⟨?_, ?_⟩
  · rw [h.remaining.entry, if_neg]
    rintro hmem
    obtain ⟨c, hc, heq⟩ := List.mem_map.mp hmem
    obtain ⟨p, name, hp, hk⟩ := h.holds.known.below (.inl hc)
    obtain rfl := uuidAt_inj hi (exists_of_reached hw hb₀ (hp.tail ⟨name, hk⟩)) ⟨n, hn⟩ heq
    exact hgone hc
  · rw [uuidAt_of_heap hn, entry_of_some (hi.heap_mTree hn) hn]
    simp

variable (hw : WellLinked s) (hi : Indexed s) (hb₀ : ∃ n, s.heap[b₀]? = some n)

include hw hi hb₀

/-- The object of a node of the subtree. -/
theorem Pruning.returns_object (h : Pruning s b₀ obj destroyed gone σ) (hb : Reached s b₀ b) :
    Returns (object (obj b)) σ fun n τ => τ.mirror.heap[obj b]? = some n ∧
      n.uuid = uuidAt s.heap b ∧ Pruning s b₀ obj destroyed gone τ := by
  refine (Monitor.returns_object (Pruned.stable hw hi hb₀) h.holds fun m inbound hm => ?_).mono ?_
  · obtain ⟨n, hn, -⟩ := hm.object hb
    simp [hn]
  · rintro n τ ⟨hn, hτ⟩
    obtain ⟨n', hn', hu⟩ := hτ.known.object hb
    rw [hn, Option.some.injEq] at hn'
    subst hn'
    exact ⟨hn, hu, h.of_holds hτ⟩

/-- `fetch` of a node that is not gone. -/
theorem Pruning.returns_fetch (h : Pruning s b₀ obj destroyed gone σ) (hb : Reached s b₀ b)
    (hgone : b ∉ gone) :
    Returns (fetch (obj b)) σ fun _ τ => Pruning s b₀ obj destroyed gone τ := by
  obtain ⟨heq, hne⟩ := h.entry_eq hw hi hb₀ hb hgone
  obtain ⟨data, hstep⟩ := step_get h.remaining.wellLinked (heq ▸ hne)
  exact (Monitor.returns_fetch (Pruned.stable hw hi hb₀) h.holds (fun m inbound hm => hm.object hb)
    (fun m inbound hm => hm.modifyData _ data) fun t => hstep _ t).mono fun _ τ hτ => h.of_holds hτ

/-- The visit of a node that is not gone, when there is nothing to subscribe to. -/
theorem Pruning.returns_visit (h : Pruning s b₀ obj destroyed gone σ) (hb : Reached s b₀ b)
    (hgone : b ∉ gone) (levels : ℕ) :
    Returns (visit DEL levels name (obj b)) σ fun line τ => line.uuid = uuidAt s.heap b ∧
      Pruning s b₀ obj destroyed gone τ := by
  refine (h.returns_fetch hw hi hb₀ hb hgone).bind fun _ σ₁ h₁ => ?_
  rw [if_neg (by decide), if_neg (by decide)]
  refine Returns.bind ((h₁.returns_object hw hi hb₀ hb).bind fun n σ₂ ⟨_, _, h₂⟩ =>
    returns_pure (Q := fun _ τ => Pruning s b₀ obj destroyed gone τ) h₂) fun data σ₂ h₂ => ?_
  refine (h₂.returns_object hw hi hb₀ hb).bind fun n σ₃ ⟨_, hu, h₃⟩ => ?_
  exact returns_pure ⟨hu, h₃⟩

/-- The children of a node none of which is gone. -/
theorem Pruning.returns_children (h : Pruning s b₀ obj destroyed gone σ) (hb : Reached s b₀ b)
    (hall : ∀ kc ∈ kids s.heap b, kc.2 ∉ gone) :
    Returns (children (obj b)) σ fun l τ =>
      l = (kids s.heap b).map (fun kc => (kc.1, obj kc.2)) ∧
        Pruning s b₀ obj destroyed gone τ := by
  refine (h.returns_object hw hi hb₀ hb).bind fun n σ₁ ⟨hn, _, h₁⟩ => ?_
  exact returns_pure ⟨h₁.holds.known.children_toList hb hn hall, h₁⟩

/-- Their number. -/
theorem Pruning.returns_childrenSize (h : Pruning s b₀ obj destroyed gone σ) (hb : Reached s b₀ b)
    (hall : ∀ kc ∈ kids s.heap b, kc.2 ∉ gone) :
    Returns (childrenSize (obj b)) σ fun k τ => k = (kids s.heap b).length ∧
      Pruning s b₀ obj destroyed gone τ := by
  refine (h.returns_object hw hi hb₀ hb).bind fun n σ₁ ⟨hn, _, h₁⟩ => ?_
  refine returns_pure ⟨?_, h₁⟩
  rw [← Std.ExtTreeMap.length_toList, h₁.holds.known.children_toList hb hn hall, List.length_map]

/-- When all of them are gone, there are none. -/
theorem Pruning.returns_childrenSize_zero (h : Pruning s b₀ obj destroyed gone σ)
    (hb : Reached s b₀ b) (hall : ∀ kc ∈ kids s.heap b, kc.2 ∈ gone) :
    Returns (childrenSize (obj b)) σ fun k τ => k = 0 ∧
      Pruning s b₀ obj destroyed gone τ := by
  refine (h.returns_object hw hi hb₀ hb).bind fun n σ₁ ⟨hn, _, h₁⟩ => ?_
  exact returns_pure ⟨h₁.holds.known.children_size_eq_zero hb hn hall, h₁⟩

/-- `destroy` of a node whose children are gone returns true, and then the node is gone. -/
theorem Pruning.returns_destroy (h : Pruning s b₀ obj destroyed gone σ) (hp : Reached s b₀ p)
    (hk : (name, c) ∈ kids s.heap p) (hgone : c ∉ gone)
    (hall : ∀ kc ∈ kids s.heap c, kc.2 ∈ gone) :
    Returns (destroy (obj c)) σ fun r τ => r = true ∧
      Pruning s b₀ obj destroyed (gone ++ [c]) τ := by
  have hc : Reached s b₀ c := hp.tail ⟨name, hk⟩
  obtain ⟨e, he, hpar, -⟩ := entry_of_mem_kids hw hi hk
  refine (h.returns_object hw hi hb₀ hc).bind fun n σ₁ ⟨_, hu, h₁⟩ => ?_
  have hentry := (h₁.entry_eq hw hi hb₀ hc hgone).1.trans he
  obtain ⟨s', hw', hi', hentry', hstep⟩ := step_delete h₁.remaining.wellLinked h₁.remaining.indexed
    hentry (by simp [hpar]) (by
      intro v e' he' hv
      rw [h₁.remaining.entry] at he'
      split_ifs at he' with hmem
      -- a child of the node among the entries is one in the heap, which is gone
      obtain ⟨cn, hcn⟩ := exists_of_reached hw hb₀ hc
      obtain ⟨x, hx, nm, hkx⟩ := exists_kid_of_childOf hw hi
        (uuidAt_of_heap hcn ▸ hi.heap_mTree hcn) ⟨e', he', hv⟩
      obtain ⟨xn, hxn, rfl⟩ := hw.mTree_heap hx
      exact hmem (List.mem_map.mpr ⟨x, hall _ hkx, uuidAt_of_heap hxn⟩))
  rw [hu]
  have hterm : Server.Output.terminate ∉ s'.broadcast
      ⟨notificationId, .treeUpdateNotification [] [uuidAt s.heap c]⟩ := by
    intro hterm
    obtain ⟨_, _, -, heq⟩ := mem_broadcast_iff.mp hterm
    cases heq
  -- the node is about to leave the mirror, by the call or by the notification
  have hdying : ∀ m, Pruned s b₀ obj gone [] m [] → Pruned s b₀ obj gone [c] m
      (System.sentTo σ₁.connection (s'.broadcast
        ⟨notificationId, .treeUpdateNotification [] [uuidAt s.heap c]⟩)) := by
    intro m hm
    refine { hm with
      present := fun hb hn hk' hgone' _ => hm.present hb hn hk' hgone' (by simp)
      below := ?_
      notices := fun q hq => ⟨c, .inr List.mem_cons_self, ?_⟩ }
    · rintro x (hx | hx)
      · exact hm.below (.inl hx)
      · obtain rfl := List.mem_singleton.mp hx
        exact ⟨p, name, hp, hk⟩
    · rw [eq_of_mem_sentTo_broadcast hq]
  refine (returns_transact (Pruned.stable hw hi hb₀) (Pruned.stable hw hi hb₀) h₁.holds
    (fun t => hstep _ t) hterm (fun q hq => ?_) hdying).bind ?_
  · rw [eq_of_mem_sentTo_broadcast hq]
  rintro r σ₂ ⟨rfl, h₂⟩
  change Returns (modify (fun σ => { σ with mirror := σ.mirror.destroyNode (obj c) }) >>=
    fun _ => recordDestroy (uuidAt s.heap c) true) σ₂ _
  refine returns_modify_bind (returns_modify_bind (returns_pure ⟨rfl, ?_⟩))
  have hserver : σ₂.server = s' := congrArg Outside.server h₂.outside
  have hdestroyed : σ₂.destroyed = σ₁.destroyed := congrArg Outside.destroyed h₂.outside
  constructor
  · refine { h₂ with outside := rfl, known := ?_ }
    rw [h₂.known.destroyNode_eq hp hk]
    exact h₂.known.unlink_dying hw hi hb₀ hp hk
  · refine ⟨hserver ▸ hw', hserver ▸ hi', fun v => ?_⟩
    change σ₂.server.entry v = _
    rw [hserver, hentry', h₁.remaining.entry]
    simp only [List.map_append, List.map_cons, List.map_nil, List.mem_append, List.mem_singleton]
    by_cases hv : v = uuidAt s.heap c
    · rw [if_pos hv, if_pos (.inr hv)]
    · simp only [hv, or_false, if_false]
  · change σ₂.destroyed ++ _ = _
    rw [hdestroyed, h₁.destroyed]
    simp

end Node

end PropertyTree.Monitor
