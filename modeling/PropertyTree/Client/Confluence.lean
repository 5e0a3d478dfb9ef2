import PropertyTree.Client.Snapshot

/-!
# Adding entries in any order

`addNodes` may be given the entries of a tree in any order, with repetitions, and split over any
number of calls.  What it makes of a mirror that agrees with the tree is said here without an order:
`Adding` describes the mirror by the set of entries added so far and the set of uuids asked for, one
entry at a time keeps it, and two mirrors it describes by the same sets look the same.
-/

namespace PropertyTree.Client

open Library Server

/-- The entry `i` is one of the tree's. -/
def EntryOf (ent : Entries) (i : NamedNode) : Prop :=
  ∃ e, ent i.uuid = some e ∧ e.name = i.name ∧ e.parent = some i.parentUuid

/-- An entry of the tree is determined by its uuid. -/
theorem EntryOf.eq {ent : Entries} {i j : NamedNode} (hi : EntryOf ent i) (hj : EntryOf ent j)
    (h : i.uuid = j.uuid) : i = j := by
  obtain ⟨e, he, hname, hparent⟩ := hi
  obtain ⟨e', he', hname', hparent'⟩ := hj
  rw [h, he', Option.some.injEq] at he
  subst he
  cases i
  cases j
  simp_all

/-! ## Mirrors without addresses -/

/-- What a node shows without the addresses of the objects: uuids stand for them. -/
structure NodeView where
  name : Name
  data : Buffer
  children : Std.ExtTreeMap Name (Option UInt64)
  rcpHandler : Option (Buffer → Buffer)
  updateHandler : Bool
  parent : Option UInt64

namespace Mirror

/-- The uuid of the object at `a`. -/
def uuidOf (m : Mirror) (a : Addr) : Option UInt64 :=
  (m.heap[a]?).map Node.uuid

/-- The node the uuid `u` stands for. -/
def view (m : Mirror) (u : UInt64) : Option NodeView :=
  (m.mTree[u]?).bind fun a => (m.heap[a]?).map fun n =>
    { name := n.name
      data := n.data
      children := n.children.map fun _ c => m.uuidOf c
      rcpHandler := n.rcpHandler
      updateHandler := n.updateHandler
      parent := n.parent.bind m.uuidOf }

/-- The parent link of the node of `u`. -/
def parentOf (m : Mirror) (u : UInt64) : Option Addr :=
  (m.mTree[u]?).bind fun a => m.lock ((m.heap[a]?).bind Node.parent)

/-- How often `mTreeAddHandler` has been called for the node of `u` since the mirror was `m₀`. -/
def treeAddsSince (m₀ m : Mirror) (u : UInt64) : Nat :=
  (m.mTree[u]?).elim 0 fun a => (m.calls.drop m₀.calls.length).count (.treeAdd a)

variable {m m' : Mirror} {i : NamedNode} {a p : Addr}

theorem lock_congr (h : ∀ x : Addr, m'.heap[x]? = none ↔ m.heap[x]? = none) (w : Option Addr) :
    m'.lock w = none ↔ m.lock w = none := by
  simp only [lock_eq_none_iff, h]

@[simp] theorem callTreeAdd_mTreeAddHandler (a : Addr) :
    (m.callTreeAdd a).mTreeAddHandler = m.mTreeAddHandler := by
  unfold callTreeAdd; split <;> rfl

@[simp] theorem callTreeAdd_mTreeRemoveHandler (a : Addr) :
    (m.callTreeAdd a).mTreeRemoveHandler = m.mTreeRemoveHandler := by
  unfold callTreeAdd; split <;> rfl

/-- The calls after a call of the handler. -/
theorem callTreeAdd_calls (a : Addr) : (m.callTreeAdd a).calls =
    if m.mTreeAddHandler = true then m.calls ++ [.treeAdd a] else m.calls := by
  unfold callTreeAdd; split <;> rfl

/-- Adding an entry leaves the handlers as they are. -/
theorem addNode_handlers (m : Mirror) (i : NamedNode) :
    (m.addNode i).mTreeAddHandler = m.mTreeAddHandler ∧
      (m.addNode i).mTreeRemoveHandler = m.mTreeRemoveHandler := by
  cases hp : m.mTree[i.parentUuid]? <;> cases hu : m.mTree[i.uuid]? <;>
    simp only [addNode, parentOrGhost, hp, hu, fillNode, insertNode] <;> (try split) <;>
    simp [ghost, link, modifyNode, emplace, makeNode]

/-- An entry whose parent is known leads to a call when the node had no parent link. -/
theorem addNode_calls (hp : m.mTree[i.parentUuid]? = some p) :
    (m.addNode i).calls =
      if m.mTreeAddHandler = true ∧ m.parentOf i.uuid = none then
        m.calls ++ [.treeAdd ((m.mTree[i.uuid]?).getD m.nextAddr)]
      else m.calls := by
  cases hu : m.mTree[i.uuid]? with
  | none =>
    have hnone : m.parentOf i.uuid = none := by rw [parentOf, hu, Option.bind_none]
    simp only [addNode, parentOrGhost, hp, hu, insertNode, callTreeAdd_calls, hnone, and_true]
    rfl
  | some a =>
    have hlock : ((m.modifyNode a fun node => { node with name := i.name, parent := some p }).link p
        i.name a).lock ((m.heap[a]?).bind Node.parent) = none ↔ m.parentOf i.uuid = none := by
      rw [parentOf, hu, Option.bind_some]
      refine lock_congr (fun x => ?_) _
      simp only [link, modifyNode_heap]
      grind
    simp only [addNode, parentOrGhost, hp, hu, fillNode, Option.getD_some]
    by_cases hnone : m.parentOf i.uuid = none
    · rw [if_pos (hlock.mpr hnone)]
      simp only [callTreeAdd_calls, hnone, and_true]
      rfl
    · rw [if_neg (hlock.not.mpr hnone), if_neg fun h => hnone h.2]
      rfl

end Mirror

/-! ## One entry -/

/-- What adding entries leaves as it is in a node. -/
def Node.rest (n : Node) : Buffer × Option (Buffer → Buffer) × Bool × UInt64 :=
  (n.data, n.rcpHandler, n.updateHandler, n.uuid)

/-- The mirror `m'` is what becomes of `m` when the entries of the uuids in `listed` are added, which
makes the uuids in `asked` known. -/
structure Adding (ent : Entries) (listed asked : UInt64 → Prop) (m m' : Mirror) : Prop where
  agrees : Agrees (fun _ => True) ent m'
  asked_of_listed : ∀ {u : UInt64}, listed u → asked u
  known_iff : ∀ {u : UInt64}, m'.mTree[u]? ≠ none ↔ m.mTree[u]? ≠ none ∨ asked u
  same_object : ∀ {u : UInt64} {a : Addr}, m.mTree[u]? = some a → m'.mTree[u]? = some a
  /-- A listed node has a parent. -/
  parent_of_listed : ∀ {u : UInt64} {a : Addr} {n : Node}, m'.mTree[u]? = some a →
    m'.heap[a]? = some n → listed u → n.parent ≠ none
  /-- A new node that is not listed is a placeholder. -/
  placeholder : ∀ {u : UInt64} {a : Addr} {n : Node}, m'.mTree[u]? = some a →
    m'.heap[a]? = some n → ¬ listed u → m.mTree[u]? = none → Placeholder n
  /-- A known node that is not listed keeps its name and parent. -/
  unlisted : ∀ {u : UInt64} {a : Addr} {n n₀ : Node}, m.mTree[u]? = some a →
    m'.heap[a]? = some n → ¬ listed u → m.heap[a]? = some n₀ → n.name = n₀.name ∧ n.parent = n₀.parent
  /-- The objects of `m` are kept, with the rest of what they hold. -/
  kept : ∀ {a : Addr} {n : Node}, m.heap[a]? = some n → ∃ n' : Node, m'.heap[a]? = some n' ∧
    n'.rest = n.rest
  /-- A new object stands in `mTree` under its uuid, which was unknown. -/
  new : ∀ {a : Addr} {n : Node}, m'.heap[a]? = some n → m.heap[a]? = none →
    m'.mTree[n.uuid]? = some a ∧ m.mTree[n.uuid]? = none ∧ n.rest = ([], none, false, n.uuid)
  /-- An unknown uuid gets a new object. -/
  fresh : ∀ {u : UInt64} {a : Addr}, m'.mTree[u]? = some a → m.mTree[u]? = none → m.heap[a]? = none
  /-- Objects that are not in `mTree` do not change. -/
  outside : ∀ {a : Addr}, (∀ u : UInt64, m'.mTree[u]? ≠ some a) → m'.heap[a]? = m.heap[a]?
  handlers : m'.mTreeAddHandler = m.mTreeAddHandler ∧ m'.mTreeRemoveHandler = m.mTreeRemoveHandler
  /-- The handler is called once for each listed node that had no parent. -/
  calls : ∃ as : List Addr, m'.calls = m.calls ++ as.map .treeAdd ∧ as.Nodup ∧
    ∀ a, a ∈ as ↔ m.mTreeAddHandler = true ∧
      ∃ u, listed u ∧ m'.mTree[u]? = some a ∧ m.parentOf u = none

/-- In a mirror that agrees with a tree a node without a parent link has no parent. -/
theorem Agrees.parentOf_eq_none_iff {linked : UInt64 → Prop} {ent : Entries} {m : Mirror}
    (h : Agrees linked ent m) {u : UInt64} {a : Addr} {n : Node} (hu : m.mTree[u]? = some a)
    (hn : m.heap[a]? = some n) : m.parentOf u = none ↔ n.parent = none := by
  rw [Mirror.parentOf, hu, Option.bind_some, hn, Option.bind_some, Mirror.lock_eq_none_iff]
  constructor
  · intro hgone
    by_contra hne
    obtain ⟨p, hp⟩ := Option.ne_none_iff_exists'.mp hne
    obtain ⟨-, -, pn, -, -, -, -, hpn, -⟩ := h.filled hu hn hp
    rw [hgone p hp] at hpn
    cases hpn
  · intro hnone a ha
    rw [hnone] at ha
    cases ha

namespace Adding

variable {ent : Entries} {listed asked : UInt64 → Prop} {m m' m'' : Mirror}

/-- Nothing has been added. -/
theorem refl (h : Agrees (fun _ => True) ent m) :
    Adding ent (fun _ => False) (fun _ => False) m m where
  agrees := h
  asked_of_listed := id
  known_iff := by simp
  same_object := id
  parent_of_listed _ _ := False.elim
  placeholder hu _ _ hnone := by simp [hu] at hnone
  unlisted _ hn _ hn₀ := by
    rw [hn] at hn₀
    cases hn₀
    exact ⟨rfl, rfl⟩
  kept hn := ⟨_, hn, rfl⟩
  new hn hnone := by simp [hn] at hnone
  fresh hu hnone := by simp [hu] at hnone
  outside _ := rfl
  handlers := ⟨rfl, rfl⟩
  calls := ⟨[], by simp, List.nodup_nil, by simp⟩

/-- A node has no parent link when it had none before and is not listed. -/
theorem parentOf_iff (h : Adding ent listed asked m m') (hm : Agrees (fun _ => True) ent m)
    (u : UInt64) : m'.parentOf u = none ↔ m.parentOf u = none ∧ ¬ listed u := by
  cases hu : m'.mTree[u]? with
  | none =>
    have hknown := h.known_iff.not.mp (not_not_intro hu)
    push Not at hknown
    simp only [Mirror.parentOf, hu, hknown.1, Option.bind_none, true_and, true_iff]
    exact fun hl => hknown.2 (h.asked_of_listed hl)
  | some a =>
    obtain ⟨n, hn, -⟩ := h.agrees.mTree_heap hu
    rw [h.agrees.parentOf_eq_none_iff hu hn]
    by_cases hl : listed u
    · exact iff_of_false (h.parent_of_listed hu hn hl) fun hboth => hboth.2 hl
    · rw [and_iff_left hl]
      cases hu₀ : m.mTree[u]? with
      | none =>
        rw [Mirror.parentOf, hu₀]
        exact iff_of_true (h.placeholder hu hn hl hu₀).2 rfl
      | some b =>
        have hu' := h.same_object hu₀
        rw [hu, Option.some.injEq] at hu'
        subst hu'
        obtain ⟨n₀, hn₀, -⟩ := hm.mTree_heap hu₀
        rw [hm.parentOf_eq_none_iff hu₀ hn₀, (h.unlisted hu₀ hn hl hn₀).2]

/-- The next object is none of `m`. -/
theorem heap_nextAddr (h : Adding ent listed asked m m') : m.heap[m'.nextAddr]? = none := by
  by_contra hne
  obtain ⟨n, hn⟩ := Option.ne_none_iff_exists'.mp hne
  obtain ⟨n', hn', -⟩ := h.kept hn
  exact lt_irrefl _ (h.agrees.heap_lt hn')

/-- A placeholder for the unknown parent of an entry. -/
theorem ghost (h : Adding ent listed asked m m') {i : NamedNode}
    (hu : m'.mTree[i.parentUuid]? = none) (hent : ent i.parentUuid ≠ none) :
    Adding ent listed (fun u => asked u ∨ u = i.parentUuid) m (m'.ghost i.parentUuid) := by
  have hmTree := Mirror.ghost_mTree hu
  have hheap := Mirror.ghost_heap (m := m') i.parentUuid
  have hold : ∀ {a : Addr}, a ≠ m'.nextAddr →
      (m'.ghost i.parentUuid).heap[a]? = m'.heap[a]? := fun ha => by rw [hheap, if_neg ha]
  have hlt : ∀ {u : UInt64} {a : Addr}, m'.mTree[u]? = some a → a ≠ m'.nextAddr := by
    intro u a hu
    obtain ⟨n, hn, -⟩ := h.agrees.mTree_heap hu
    exact (h.agrees.heap_lt hn).ne
  have hnone : m.mTree[i.parentUuid]? = none := by
    by_contra hne
    exact h.known_iff.mpr (.inl hne) hu
  have hunlisted : ¬ listed i.parentUuid := fun hl =>
    h.known_iff.mpr (.inr (h.asked_of_listed hl)) hu
  have hne : ∀ {u : UInt64}, u ≠ i.parentUuid ∨ listed u ∨ m.mTree[u]? ≠ none →
      (m'.ghost i.parentUuid).mTree[u]? = m'.mTree[u]? := by
    intro u hor
    rw [hmTree, if_neg]
    rintro rfl
    simp [hunlisted, hnone] at hor
  constructor
  · exact h.agrees.ghost hu hent
  · exact fun hl => .inl (h.asked_of_listed hl)
  · intro u
    rw [hmTree]
    split_ifs with hup
    · simp [hup]
    · rw [h.known_iff]
      simp [hup]
  · intro u a ha
    rw [hne (.inr (.inr (by simp [ha]))), h.same_object ha]
  · intro u a n ha hn hl
    rw [hne (.inr (.inl hl))] at ha
    rw [hold (hlt ha)] at hn
    exact h.parent_of_listed ha hn hl
  · intro u a n ha hn hl hu₀
    rw [hmTree] at ha
    split_ifs at ha with hup
    · cases ha
      rw [hheap, if_pos rfl] at hn
      cases hn
      exact ⟨rfl, rfl⟩
    · rw [hold (hlt ha)] at hn
      exact h.placeholder ha hn hl hu₀
  · intro u a n n₀ ha hn
    rw [hold (hlt (h.same_object ha))] at hn
    exact h.unlisted ha hn
  · intro a n hn
    obtain ⟨n', hn', heq⟩ := h.kept hn
    exact ⟨n', by rw [hold (h.agrees.heap_lt hn').ne, hn'], heq⟩
  · intro a n hn hnew
    rw [hheap] at hn
    split_ifs at hn with ha
    · cases hn
      subst ha
      exact ⟨by rw [hmTree]; exact if_pos rfl, hnone, rfl⟩
    · obtain ⟨hin, hout, heq⟩ := h.new hn hnew
      refine ⟨?_, hout, heq⟩
      rw [hne (.inl ?_), hin]
      intro hup
      rw [hup, hu] at hin
      cases hin
  · intro u a ha hu₀
    rw [hmTree] at ha
    split_ifs at ha with hup
    · cases ha
      exact h.heap_nextAddr
    · exact h.fresh ha hu₀
  · intro a ha
    have hfresh : a ≠ m'.nextAddr := by
      rintro rfl
      exact ha i.parentUuid (by rw [hmTree, if_pos rfl])
    rw [hold hfresh]
    refine h.outside fun u hua => ha u ?_
    rw [hne (.inl ?_), hua]
    rintro rfl
    rw [hu] at hua
    cases hua
  · exact h.handlers
  · obtain ⟨as, hcalls, hnodup, hmem⟩ := h.calls
    refine ⟨as, hcalls, hnodup, fun a => (hmem a).trans (and_congr_right fun _ => ?_)⟩
    refine exists_congr fun u => and_congr_right fun hl => ?_
    rw [hne (.inr (.inl hl))]

/-- An entry whose parent is known. -/
theorem attach (h : Adding ent listed asked m m') (hm : Agrees (fun _ => True) ent m)
    (ht : NamedTree 0 ent) {i : NamedNode} (hi : EntryOf ent i) {p : Addr}
    (hp : m'.mTree[i.parentUuid]? = some p) :
    Adding ent (fun u => listed u ∨ u = i.uuid) (fun u => asked u ∨ u = i.uuid) m
      (m'.addNode i) := by
  obtain ⟨e, he, hname, hpar⟩ := hi
  obtain ⟨pn, a, n, hpn, ha, hatt⟩ := h.agrees.exists_attached ht he hpar hp
  have hagrees := h.agrees.attach ht he hpar hname hp hpn ha hatt
  have hmTree := hatt.mTree
  have hheap := hatt.heap
  have hu : (m'.addNode i).mTree[i.uuid]? = some a := by rw [hmTree, if_pos rfl]
  have hold : ∀ {u : UInt64} {b : Addr}, m'.mTree[u]? = some b →
      (m'.addNode i).mTree[u]? = some b := by
    intro u b hb
    rw [hmTree]
    split_ifs with hui
    · subst hui
      rcases ha with ⟨ha, -⟩ | ⟨ha, -⟩ <;> rw [hb] at ha <;> cases ha
      rfl
    · exact hb
  have hother : ∀ {u : UInt64} {b : Addr}, u ≠ i.uuid → m'.mTree[u]? = some b → b ≠ a := by
    rintro u b hui hb rfl
    exact hui (hagrees.inj (hold hb) hu)
  have huuid : n.uuid = i.uuid := by
    obtain ⟨n', hn', hnu⟩ := hagrees.mTree_heap hu
    rw [hheap, if_pos rfl] at hn'
    cases hn'
    exact hnu
  -- the object at `a` gets its name and parent, and any other one keeps all but its children map
  have hat : (m'.addNode i).heap[a]? = some { n with name := i.name, parent := some p } := by
    rw [hheap, if_pos rfl]
  have hrest : ∀ {b : Addr} {nb : Node}, b ≠ a → (m'.addNode i).heap[b]? = some nb →
      ∃ nb₀ : Node, m'.heap[b]? = some nb₀ ∧ nb.rest = nb₀.rest ∧ nb.name = nb₀.name ∧
        nb.parent = nb₀.parent := by
    intro b nb hb hnb
    rw [hheap, if_neg hb] at hnb
    split_ifs at hnb with hbp
    · cases hnb
      subst hbp
      exact ⟨pn, hpn, rfl, rfl, rfl⟩
    · exact ⟨nb, hnb, rfl, rfl, rfl⟩
  have hkeep : ∀ {b : Addr} {nb : Node}, m'.heap[b]? = some nb → ∃ nb' : Node,
      (m'.addNode i).heap[b]? = some nb' ∧ nb'.rest = nb.rest := by
    intro b nb hnb
    by_cases hba : b = a
    · subst hba
      rcases ha with ⟨-, hn⟩ | ⟨-, rfl, -⟩
      · rw [hn, Option.some.injEq] at hnb
        subst hnb
        exact ⟨_, hat, rfl⟩
      · exact absurd (h.agrees.heap_lt hnb) (lt_irrefl _)
    · rw [hheap, if_neg hba]
      split_ifs with hbp
      · subst hbp
        rw [hpn, Option.some.injEq] at hnb
        subst hnb
        exact ⟨_, rfl, rfl⟩
      · exact ⟨nb, hnb, rfl⟩
  constructor
  · exact hagrees
  · exact fun hl => hl.imp_left h.asked_of_listed
  · intro u
    rw [hmTree]
    split_ifs with hui
    · simp [hui]
    · rw [h.known_iff]
      simp [hui]
  · exact fun hb => hold (h.same_object hb)
  · intro u b nb hb hnb hl
    by_cases hui : u = i.uuid
    · rw [hui, hu, Option.some.injEq] at hb
      subst hb
      rw [hat] at hnb
      cases hnb
      exact Option.some_ne_none p
    · rw [hmTree, if_neg hui] at hb
      obtain ⟨nb₀, hnb₀, -, -, hparent⟩ := hrest (hother hui hb) hnb
      rw [hparent]
      exact h.parent_of_listed hb hnb₀ (hl.resolve_right hui)
  · intro u b nb hb hnb hl hnew
    obtain ⟨hl, hui⟩ := not_or.mp hl
    rw [hmTree, if_neg hui] at hb
    obtain ⟨nb₀, hnb₀, -, hname', hparent⟩ := hrest (hother hui hb) hnb
    obtain ⟨hghost, hnone⟩ := h.placeholder hb hnb₀ hl hnew
    exact ⟨hname'.trans hghost, hparent.trans hnone⟩
  · intro u b nb nb₀ hb hnb hl hnb₀
    obtain ⟨hl, hui⟩ := not_or.mp hl
    obtain ⟨nb₁, hnb₁, -, hname', hparent⟩ := hrest (hother hui (h.same_object hb)) hnb
    obtain ⟨hname₁, hparent₁⟩ := h.unlisted hb hnb₁ hl hnb₀
    exact ⟨hname'.trans hname₁, hparent.trans hparent₁⟩
  · intro b nb hb
    obtain ⟨nb₁, hnb₁, heq⟩ := h.kept hb
    obtain ⟨nb₂, hnb₂, heq₂⟩ := hkeep hnb₁
    exact ⟨nb₂, hnb₂, heq₂.trans heq⟩
  · intro b nb hb hnew
    by_cases hba : b = a
    · subst hba
      rw [hat] at hb
      cases hb
      change (m'.addNode i).mTree[n.uuid]? = some b ∧ m.mTree[n.uuid]? = none ∧
        n.rest = ([], none, false, n.uuid)
      rw [huuid]
      rcases ha with ⟨hu₀, hn⟩ | ⟨hu₀, -, rfl⟩
      · obtain ⟨-, hout, heq⟩ := h.new hn hnew
        rw [huuid] at hout heq
        exact ⟨hu, hout, heq⟩
      · refine ⟨hu, ?_, rfl⟩
        by_contra hne
        exact h.known_iff.mpr (.inl hne) hu₀
    · obtain ⟨nb₀, hnb₀, heq, -, -⟩ := hrest hba hb
      obtain ⟨hin, hout, heq₀⟩ := h.new hnb₀ hnew
      have hnu : nb.uuid = nb₀.uuid := congrArg (fun r => r.2.2.2) heq
      rw [hnu]
      exact ⟨hold hin, hout, heq.trans heq₀⟩
  · intro u b hb hu₀
    by_cases hui : u = i.uuid
    · subst hui
      rw [hu, Option.some.injEq] at hb
      subst hb
      rcases ha with ⟨hua, -⟩ | ⟨-, rfl, -⟩
      · exact h.fresh hua hu₀
      · exact h.heap_nextAddr
    · rw [hmTree, if_neg hui] at hb
      exact h.fresh hb hu₀
  · intro b hb
    have hba : b ≠ a := by
      rintro rfl
      exact hb i.uuid hu
    have hbp : b ≠ p := by
      rintro rfl
      exact hb i.parentUuid (hold hp)
    rw [hheap, if_neg hba, if_neg hbp]
    exact h.outside fun u hub => hb u (hold hub)
  · obtain ⟨hadd, hremove⟩ := m'.addNode_handlers i
    exact ⟨hadd.trans h.handlers.1, hremove.trans h.handlers.2⟩
  · have haddr : (m'.mTree[i.uuid]?).getD m'.nextAddr = a := by
      rcases ha with ⟨ha, -⟩ | ⟨ha, rfl, -⟩ <;> rw [ha] <;> rfl
    obtain ⟨as, hcalls, hnodup, hmem⟩ := h.calls
    -- the entries listed before are called for as before
    have hbefore : ∀ b, (∃ u, listed u ∧ m'.mTree[u]? = some b ∧ m.parentOf u = none) ↔
        ∃ u, listed u ∧ (m'.addNode i).mTree[u]? = some b ∧ m.parentOf u = none := by
      intro b
      refine exists_congr fun u => and_congr_right fun hl => and_congr_left fun _ => ?_
      obtain ⟨c, hc⟩ := Option.ne_none_iff_exists'.mp (h.known_iff.mpr (.inr (h.asked_of_listed hl)))
      rw [hold hc, hc]
    rw [Mirror.addNode_calls hp, haddr, h.handlers.1, hcalls]
    split_ifs with hcall <;> rw [h.parentOf_iff hm] at hcall
    · obtain ⟨hset, hnone, hl⟩ := hcall
      have hfresh : a ∉ as := by
        intro hin
        obtain ⟨-, u, hlu, hua, -⟩ := (hmem a).mp hin
        exact hl (hagrees.inj (hold hua) hu ▸ hlu)
      refine ⟨as ++ [a], by simp, List.nodup_append.mpr ⟨hnodup, by simp, by grind⟩, fun b => ?_⟩
      rw [List.mem_append, List.mem_singleton, hmem, hbefore]
      constructor
      · rintro (⟨-, u, hlu, hub, hu₀⟩ | rfl)
        · exact ⟨hset, u, .inl hlu, hub, hu₀⟩
        · exact ⟨hset, i.uuid, .inr rfl, hu, hnone⟩
      · rintro ⟨-, u, hlu | rfl, hub, hu₀⟩
        · exact .inl ⟨hset, u, hlu, hub, hu₀⟩
        · rw [hu, Option.some.injEq] at hub
          exact .inr hub.symm
    · refine ⟨as, rfl, hnodup, fun b => ?_⟩
      rw [hmem, hbefore]
      refine and_congr_right fun hset => exists_congr fun u => ?_
      constructor
      · exact fun hall => ⟨.inl hall.1, hall.2⟩
      · rintro ⟨hlu | rfl, hub, hu₀⟩
        · exact ⟨hlu, hub, hu₀⟩
        · refine ⟨?_, hub, hu₀⟩
          by_contra hl
          exact hcall ⟨hset, hu₀, hl⟩

/-- One entry. -/
theorem addNode (h : Adding ent listed asked m m') (hm : Agrees (fun _ => True) ent m)
    (ht : NamedTree 0 ent) {i : NamedNode} (hi : EntryOf ent i) :
    Adding ent (fun u => listed u ∨ u = i.uuid)
      (fun u => asked u ∨ u = i.uuid ∨ u = i.parentUuid) m (m'.addNode i) := by
  obtain ⟨e, he, -, hpar⟩ := id hi
  obtain ⟨hne, hent⟩ := ht.parent he hpar
  cases hp : m'.mTree[i.parentUuid]? with
  | some p =>
    have hknown := h.known_iff.mp (show m'.mTree[i.parentUuid]? ≠ none by simp [hp])
    have h' := h.attach hm ht hi hp
    refine { h' with
      asked_of_listed := fun hl => hl.imp h.asked_of_listed .inl
      known_iff := fun {u} => h'.known_iff.trans ⟨fun hu => ?_, fun hu => ?_⟩ }
    · exact hu.imp_right fun hu => hu.imp_right .inl
    · rcases hu with hu | hu | hu | rfl
      · exact .inl hu
      · exact .inr (.inl hu)
      · exact .inr (.inr hu)
      · exact hknown.imp_right .inl
  | none =>
    have hp' : (m'.ghost i.parentUuid).mTree[i.parentUuid]? = some m'.nextAddr := by
      rw [Mirror.ghost_mTree hp, if_pos rfl]
    rw [Mirror.addNode_of_ghost hp hne]
    have h' := (h.ghost hp hent).attach hm ht hi hp'
    refine { h' with
      asked_of_listed := fun hl => hl.imp h.asked_of_listed .inl
      known_iff := fun {u} => h'.known_iff.trans (or_congr_right ?_) }
    rw [or_assoc, or_comm (a := u = i.parentUuid)]

/-- Any entries. -/
theorem addNodes (hm : Agrees (fun _ => True) ent m) (ht : NamedTree 0 ent)
    {nodeList : List NamedNode} (hentries : ∀ i ∈ nodeList, EntryOf ent i) :
    Adding ent (fun u => ∃ i ∈ nodeList, u = i.uuid)
      (fun u => ∃ i ∈ nodeList, u = i.uuid ∨ u = i.parentUuid) m (m.addNodes nodeList) := by
  induction nodeList using List.reverseRecOn with
  | nil => simpa [Mirror.addNodes] using refl hm
  | append_singleton nodeList i ih =>
    have h := (ih fun j hj => hentries j (List.mem_append_left _ hj)).addNode hm ht
      (hentries i (by simp))
    simpa [Mirror.addNodes, or_and_right, exists_or] using h

end Adding

/-! ## The result -/

section View

variable {linked : UInt64 → Prop} {ent : Entries} {m : Mirror} {u : UInt64} {a : Addr} {n : Node}
  {e : Entry UInt64 Name Buffer}

/-- The parent a node shows. -/
theorem Agrees.parent_view (h : Agrees linked ent m) (hu : m.mTree[u]? = some a)
    (hn : m.heap[a]? = some n) (he : ent u = some e) :
    n.parent.bind m.uuidOf = if n.parent = none then none else e.parent := by
  cases hp : n.parent with
  | none => rfl
  | some p =>
    obtain ⟨e', pu, pn, he', hpu, -, hpp, hpn, -⟩ := h.filled hu hn hp
    rw [he, Option.some.injEq] at he'
    subst he'
    obtain ⟨pn', hpn', hnu⟩ := h.mTree_heap hpp
    rw [if_neg (Option.some_ne_none p), hpu, Option.bind_some, Mirror.uuidOf, hpn', Option.map_some,
      hnu]

/-- The children a node shows: the nodes that have it as their parent. -/
theorem Agrees.children_view (h : Agrees (fun _ => True) ent m) (hu : m.mTree[u]? = some a)
    (hn : m.heap[a]? = some n) (name : Name) (c : Option UInt64) :
    (n.children.map fun _ x => m.uuidOf x)[name]? = some c ↔
      ∃ v e, c = some v ∧ ent v = some e ∧ e.parent = some u ∧ e.name = name ∧
        m.parentOf v ≠ none := by
  rw [Std.ExtTreeMap.getElem?_map, Option.map_eq_some_iff]
  constructor
  · rintro ⟨x, hx, rfl⟩
    obtain ⟨v, nx, hv, hnx, hpx, hname⟩ := h.child hu hn hx
    obtain ⟨e, pu, -, he, hpu, hname', hpp, -, -⟩ := h.filled hv hnx hpx
    obtain rfl := h.inj hpp hu
    obtain ⟨nx', hnx', hnv⟩ := h.mTree_heap hv
    refine ⟨v, e, ?_, he, hpu, hname' ▸ hname, ?_⟩
    · rw [Mirror.uuidOf, hnx', Option.map_some, hnv]
    · rw [ne_eq, h.parentOf_eq_none_iff hv hnx, hpx]
      exact Option.some_ne_none a
  · rintro ⟨v, e, rfl, he, hpu, rfl, hpv⟩
    cases hv : m.mTree[v]? with
    | none => simp [Mirror.parentOf, hv] at hpv
    | some x =>
      obtain ⟨nx, hnx, hnv⟩ := h.mTree_heap hv
      rw [ne_eq, h.parentOf_eq_none_iff hv hnx] at hpv
      obtain ⟨p, hp⟩ := Option.ne_none_iff_exists'.mp hpv
      obtain ⟨e', pu, pn, he', hpu', hname, hpp, hpn, hlink⟩ := h.filled hv hnx hp
      rw [he, Option.some.injEq] at he'
      subst he'
      rw [hpu, Option.some.injEq] at hpu'
      subst hpu'
      rw [hu, Option.some.injEq] at hpp
      subst hpp
      rw [hn, Option.some.injEq] at hpn
      subst hpn
      exact ⟨x, hname ▸ hlink trivial, by rw [Mirror.uuidOf, hnx, Option.map_some, hnv]⟩

/-- A listed node has the name of its entry. -/
theorem Adding.name_of_listed {listed asked : UInt64 → Prop} {m' : Mirror}
    (h : Adding ent listed asked m m') (hu : m'.mTree[u]? = some a) (hn : m'.heap[a]? = some n)
    (he : ent u = some e) (hl : listed u) : n.name = e.name := by
  obtain ⟨p, hp⟩ := Option.ne_none_iff_exists'.mp (h.parent_of_listed hu hn hl)
  obtain ⟨e', -, -, he', -, hname, -⟩ := h.agrees.filled hu hn hp
  rw [he, Option.some.injEq] at he'
  subst he'
  exact hname

/-- A known node keeps what adding entries leaves as it is. -/
theorem Adding.rest_of_known {listed asked : UInt64 → Prop} {m' : Mirror} {a₀ : Addr} {n₀ : Node}
    (h : Adding ent listed asked m m') (hu₀ : m.mTree[u]? = some a₀) (hn₀ : m.heap[a₀]? = some n₀)
    (hu : m'.mTree[u]? = some a) (hn : m'.heap[a]? = some n) : n.rest = n₀.rest := by
  rw [h.same_object hu₀, Option.some.injEq] at hu
  subst hu
  obtain ⟨n', hn', heq⟩ := h.kept hn₀
  rw [hn, Option.some.injEq] at hn'
  rw [hn', heq]

/-- What a mirror shows after entries have been added depends on their set only. -/
theorem Adding.view_eq {listed asked : UInt64 → Prop} {m₁ m₂ : Mirror}
    (hm : Agrees (fun _ => True) ent m) (h₁ : Adding ent listed asked m m₁)
    (h₂ : Adding ent listed asked m m₂) : m₁.view = m₂.view := by
  funext u
  have hparentOf : ∀ v, m₁.parentOf v = none ↔ m₂.parentOf v = none := fun v =>
    (h₁.parentOf_iff hm v).trans (h₂.parentOf_iff hm v).symm
  have hknown : m₁.mTree[u]? ≠ none ↔ m₂.mTree[u]? ≠ none := h₁.known_iff.trans h₂.known_iff.symm
  unfold Mirror.view
  cases hu₁ : m₁.mTree[u]? with
  | none =>
    rw [not_ne_iff.mp (hknown.not.mp (not_not_intro hu₁))]
    rfl
  | some a₁ =>
    obtain ⟨a₂, hu₂⟩ := Option.ne_none_iff_exists'.mp (hknown.mp (by simp [hu₁]))
    obtain ⟨n₁, hn₁, hnu₁⟩ := h₁.agrees.mTree_heap hu₁
    obtain ⟨n₂, hn₂, hnu₂⟩ := h₂.agrees.mTree_heap hu₂
    obtain ⟨e, he, -⟩ := h₁.agrees.node hu₁ hn₁
    have hnone : n₁.parent = none ↔ n₂.parent = none := by
      rw [← h₁.agrees.parentOf_eq_none_iff hu₁ hn₁, ← h₂.agrees.parentOf_eq_none_iff hu₂ hn₂]
      exact hparentOf u
    have hparent : n₁.parent.bind m₁.uuidOf = n₂.parent.bind m₂.uuidOf := by
      rw [h₁.agrees.parent_view hu₁ hn₁ he, h₂.agrees.parent_view hu₂ hn₂ he]
      simp only [hnone]
    have hchildren : (n₁.children.map fun _ x => m₁.uuidOf x) =
        n₂.children.map fun _ x => m₂.uuidOf x := by
      refine Std.ExtTreeMap.ext_getElem? fun name => Option.ext fun c => ?_
      rw [h₁.agrees.children_view hu₁ hn₁, h₂.agrees.children_view hu₂ hn₂]
      simp only [ne_eq, hparentOf]
    have hrest : n₁.rest = n₂.rest := by
      cases hu : m.mTree[u]? with
      | some a =>
        obtain ⟨n₀, hn₀, -⟩ := hm.mTree_heap hu
        rw [h₁.rest_of_known hu hn₀ hu₁ hn₁, h₂.rest_of_known hu hn₀ hu₂ hn₂]
      | none =>
        obtain ⟨-, -, hnew₁⟩ := h₁.new hn₁ (h₁.fresh hu₁ hu)
        obtain ⟨-, -, hnew₂⟩ := h₂.new hn₂ (h₂.fresh hu₂ hu)
        rw [hnew₁, hnew₂, hnu₁, hnu₂]
    have hname : n₁.name = n₂.name := by
      by_cases hl : listed u
      · rw [h₁.name_of_listed hu₁ hn₁ he hl, h₂.name_of_listed hu₂ hn₂ he hl]
      · cases hu : m.mTree[u]? with
        | some a =>
          obtain ⟨n₀, hn₀, -⟩ := hm.mTree_heap hu
          have hsame₁ := h₁.same_object hu
          have hsame₂ := h₂.same_object hu
          rw [hu₁, Option.some.injEq] at hsame₁
          rw [hu₂, Option.some.injEq] at hsame₂
          subst hsame₁ hsame₂
          rw [(h₁.unlisted hu hn₁ hl hn₀).1, (h₂.unlisted hu hn₂ hl hn₀).1]
        | none => rw [(h₁.placeholder hu₁ hn₁ hl hu).1, (h₂.placeholder hu₂ hn₂ hl hu).1]
    simp only [Node.rest, Prod.mk.injEq] at hrest
    simp only [hu₂, hn₁, hn₂, Option.bind_some, Option.map_some, Option.some.injEq,
      NodeView.mk.injEq]
    exact ⟨hname, hrest.1, hchildren, hrest.2.1, hrest.2.2.1, hparent⟩

/-- The handler has been called once for every listed node that had no parent. -/
theorem Adding.treeAddsSince_eq {listed asked : UInt64 → Prop} {m' : Mirror}
    (h : Adding ent listed asked m m') {v : UInt64}
    [Decidable (m.mTreeAddHandler = true ∧ listed v ∧ m.parentOf v = none)] :
    Mirror.treeAddsSince m m' v =
      if m.mTreeAddHandler = true ∧ listed v ∧ m.parentOf v = none then 1 else 0 := by
  obtain ⟨as, hcalls, hnodup, hmem⟩ := h.calls
  rw [Mirror.treeAddsSince, hcalls, List.drop_left]
  cases hv : m'.mTree[v]? with
  | none =>
    rw [if_neg, Option.elim_none]
    rintro ⟨-, hl, -⟩
    exact h.known_iff.mpr (.inr (h.asked_of_listed hl)) hv
  | some a =>
    have hiff : a ∈ as ↔ m.mTreeAddHandler = true ∧ listed v ∧ m.parentOf v = none := by
      rw [hmem]
      refine and_congr_right fun _ => ⟨?_, fun hlv => ⟨v, hlv.1, hv, hlv.2⟩⟩
      rintro ⟨u, hl, hu, hnone⟩
      obtain rfl := h.agrees.inj hu hv
      exact ⟨hl, hnone⟩
    rw [Option.elim_some, List.count_map_of_injective _ _ fun _ _ h => HandlerCall.treeAdd.inj h]
    split_ifs with hlv
    · exact List.count_eq_one_of_mem hnodup (hiff.mpr hlv)
    · exact List.count_eq_zero.mpr (hiff.not.mpr hlv)

/-- What adding the entries of `nodeList` makes of the mirror `m`. -/
structure Added (ent : Entries) (m : Mirror) (nodeList : List NamedNode) (m' : Mirror) : Prop where
  agrees : Agrees (fun _ => True) ent m'
  /-- Every listed node has its name and parent and is listed below that. -/
  listed : ∀ i ∈ nodeList, ∃ (a : Addr) (n : Node) (p : Addr) (pn : Node),
    m'.mTree[i.uuid]? = some a ∧ m'.heap[a]? = some n ∧ n.uuid = i.uuid ∧ n.name = i.name ∧
      m'.mTree[i.parentUuid]? = some p ∧ n.parent = some p ∧ m'.heap[p]? = some pn ∧
      pn.children[i.name]? = some a
  /-- An unknown parent that is not listed itself is a placeholder. -/
  placeholder : ∀ i ∈ nodeList, m.mTree[i.parentUuid]? = none →
    (∀ j ∈ nodeList, j.uuid ≠ i.parentUuid) →
      ∃ (a : Addr) (n : Node), m'.mTree[i.parentUuid]? = some a ∧ m'.heap[a]? = some n ∧ Placeholder n
  /-- A uuid has one object from the moment it is known. -/
  same_object : ∀ {l₁ l₂ : List NamedNode}, nodeList = l₁ ++ l₂ → ∀ {u : UInt64} {a : Addr},
    (m.addNodes l₁).mTree[u]? = some a → m'.mTree[u]? = some a
  one_object : ∀ {a : Addr} {n : Node}, m'.heap[a]? = some n → m.heap[a]? = none →
    m'.mTree[n.uuid]? = some a ∧ m.mTree[n.uuid]? = none
  /-- No other uuid becomes known. -/
  known : ∀ {u : UInt64}, m'.mTree[u]? ≠ none →
    m.mTree[u]? ≠ none ∨ ∃ i ∈ nodeList, u = i.uuid ∨ u = i.parentUuid
  /-- The objects of `m` are kept, and those that are not listed keep their name and parent. -/
  kept : ∀ {a : Addr} {n : Node}, m.heap[a]? = some n → ∃ n' : Node, m'.heap[a]? = some n' ∧
    n'.rest = n.rest ∧
      ((∀ i ∈ nodeList, m.mTree[i.uuid]? ≠ some a) → n'.name = n.name ∧ n'.parent = n.parent)
  handlers : m'.mTreeAddHandler = m.mTreeAddHandler ∧ m'.mTreeRemoveHandler = m.mTreeRemoveHandler
  /-- The calls are one for each listed node that had no parent link. -/
  treeAdds : ∀ u : UInt64, Mirror.treeAddsSince m m' u =
    if m.mTreeAddHandler = true ∧ (∃ i ∈ nodeList, u = i.uuid) ∧ m.parentOf u = none then 1 else 0
  calls : ∃ as : List Addr, m'.calls = m.calls ++ as.map .treeAdd ∧
    ∀ a ∈ as, ∃ i ∈ nodeList, m'.mTree[i.uuid]? = some a

/-- Adding entries in any order. -/
theorem added_addNodes (hm : Agrees (fun _ => True) ent m) (ht : NamedTree 0 ent)
    {nodeList : List NamedNode} (hentries : ∀ i ∈ nodeList, EntryOf ent i) :
    Added ent m nodeList (m.addNodes nodeList) := by
  have h := Adding.addNodes hm ht hentries
  constructor
  · exact h.agrees
  · intro i hi
    obtain ⟨e, he, hname, hpar⟩ := hentries i hi
    obtain ⟨a, ha⟩ := Option.ne_none_iff_exists'.mp (h.known_iff.mpr (.inr ⟨i, hi, .inl rfl⟩))
    obtain ⟨n, hn, hnu⟩ := h.agrees.mTree_heap ha
    obtain ⟨p, hp⟩ := Option.ne_none_iff_exists'.mp (h.parent_of_listed ha hn ⟨i, hi, rfl⟩)
    obtain ⟨e', pu, pn, he', hpu, hname', hpp, hpn, hlink⟩ := h.agrees.filled ha hn hp
    rw [he, Option.some.injEq] at he'
    subst he'
    rw [hpar, Option.some.injEq] at hpu
    subst hpu
    rw [hname'.trans hname] at hlink
    exact ⟨a, n, p, pn, ha, hn, hnu, hname'.trans hname, hpp, hp, hpn, hlink trivial⟩
  · intro i hi hu hother
    obtain ⟨a, ha⟩ := Option.ne_none_iff_exists'.mp (h.known_iff.mpr (.inr ⟨i, hi, .inr rfl⟩))
    obtain ⟨n, hn, -⟩ := h.agrees.mTree_heap ha
    refine ⟨a, n, ha, hn, h.placeholder ha hn ?_ hu⟩
    rintro ⟨j, hj, hju⟩
    exact hother j hj hju.symm
  · rintro l₁ l₂ rfl u a ha
    have h₁ := Adding.addNodes hm ht fun i hi => hentries i (List.mem_append_left _ hi)
    have h₂ := Adding.addNodes h₁.agrees ht fun i hi => hentries i (List.mem_append_right _ hi)
    rw [show m.addNodes (l₁ ++ l₂) = (m.addNodes l₁).addNodes l₂ from List.foldl_append ..]
    exact h₂.same_object ha
  · intro a n hn hnew
    exact ⟨(h.new hn hnew).1, (h.new hn hnew).2.1⟩
  · exact fun hu => h.known_iff.mp hu
  · intro a n hn
    obtain ⟨n', hn', hrest⟩ := h.kept hn
    refine ⟨n', hn', hrest, fun hother => ?_⟩
    by_cases hin : ∃ u : UInt64, (m.addNodes nodeList).mTree[u]? = some a
    · obtain ⟨u, hu⟩ := hin
      cases hu₀ : m.mTree[u]? with
      | none =>
        rw [h.fresh hu hu₀] at hn
        cases hn
      | some b =>
        have hsame := h.same_object hu₀
        rw [hu, Option.some.injEq] at hsame
        subst hsame
        refine h.unlisted hu₀ hn' ?_ hn
        rintro ⟨i, hi, rfl⟩
        exact hother i hi hu₀
    · rw [h.outside (not_exists.mp hin), hn] at hn'
      cases hn'
      exact ⟨rfl, rfl⟩
  · exact h.handlers
  · exact fun u => h.treeAddsSince_eq
  · obtain ⟨as, hcalls, -, hmem⟩ := h.calls
    refine ⟨as, hcalls, fun a ha => ?_⟩
    obtain ⟨-, u, ⟨i, hi, rfl⟩, hu, -⟩ := (hmem a).mp ha
    exact ⟨i, hi, hu⟩

/-- Adding entries is insensitive to order and repetition.  The entries of a tree may be added to a
mirror that agrees with it in any order, repeated and split over any number of calls: every listed
node gets its name and parent and is listed there, every unknown parent gets one placeholder, which
is filled in place, the known objects are kept, and the handler is called once for each listed node
that had no parent link.  Any other way of adding the same entries leaves the same mirror, up to the
addresses of the new objects and the order of the calls. -/
theorem addNodes_insensitive (ht : NamedTree 0 ent) (hm : Agrees (fun _ => True) ent m)
    {lists : List (List NamedNode)} (hentries : ∀ i ∈ lists.flatten, EntryOf ent i) :
    Added ent m lists.flatten (lists.foldl Mirror.addNodes m) ∧
      ∀ lists' : List (List NamedNode), (∀ i, i ∈ lists'.flatten ↔ i ∈ lists.flatten) →
        (lists'.foldl Mirror.addNodes m).view = (lists.foldl Mirror.addNodes m).view ∧
          ∀ u, Mirror.treeAddsSince m (lists'.foldl Mirror.addNodes m) u =
            Mirror.treeAddsSince m (lists.foldl Mirror.addNodes m) u := by
  have hflat : ∀ ls : List (List NamedNode),
      ls.foldl Mirror.addNodes m = m.addNodes ls.flatten := fun ls => List.foldl_flatten.symm
  refine ⟨hflat lists ▸ added_addNodes hm ht hentries, fun lists' hset => ?_⟩
  have h := Adding.addNodes hm ht hentries
  have h' := Adding.addNodes hm ht fun i hi => hentries i ((hset i).mp hi)
  simp only [hset] at h'
  rw [hflat, hflat]
  refine ⟨Adding.view_eq hm h' h, fun u => ?_⟩
  rw [h.treeAddsSince_eq, h'.treeAddsSince_eq]

end View

/-- A node is announced twice before its parent, in a call of its own. -/
theorem addNodes_insensitive_childFirst : ∃ (ent : Entries) (m m' : Mirror),
    Added ent m [⟨[98], 2, 1⟩, ⟨[98], 2, 1⟩, ⟨[97], 1, 0⟩] m' ∧
      m'.calls = [.treeAdd 2, .treeAdd 1] ∧ m'.mTree.toList = [(0, 0), (1, 1), (2, 2)] ∧
      (m.addNodes [⟨[97], 1, 0⟩, ⟨[98], 2, 1⟩]).calls = [.treeAdd 1, .treeAdd 2] ∧
      (m.addNodes [⟨[97], 1, 0⟩, ⟨[98], 2, 1⟩]).view = m'.view := by
  have hrun : ∃ r, execute ProtocolHandler.step (fun _ _ => true) .init
      [.message 8 ⟨0, .signinRequest 0⟩, .message 8 ⟨1, .createRequest [97] 0⟩,
        .message 8 ⟨2, .createRequest [98] 1⟩] = some r ∧
      acceptedCreates r.2 < 2 ^ 32 - 1 ∧
      (r.1.entry 1).map (fun e => (e.name, e.parent)) = some ([97], some 0) ∧
      (r.1.entry 2).map (fun e => (e.name, e.parent)) = some ([98], some 1) :=
    ⟨_, rfl, by decide, by decide, by decide⟩
  obtain ⟨⟨s, ls⟩, hexec, hacc, h1, h2⟩ := hrun
  have hrun := (run_of_execute _ hexec).of_guarded
  have hentry : ∀ {u : UInt64} {name : Name} {pu : UInt64},
      (s.entry u).map (fun e => (e.name, e.parent)) = some (name, some pu) →
        EntryOf s.entry ⟨name, u, pu⟩ := by
    intro u name pu h
    obtain ⟨e, he, heq⟩ := Option.map_eq_some_iff.mp h
    exact ⟨e, he, congrArg Prod.fst heq, congrArg Prod.snd heq⟩
  have hroot : RootOnly { Mirror.empty.emplaceRoot with mTreeAddHandler := true } :=
    ⟨rootOnly_emplaceRoot.mTree, rootOnly_emplaceRoot.heap_lt⟩
  have hentries : ∀ i ∈ List.flatten [[⟨[98], 2, 1⟩, ⟨[98], 2, 1⟩], [⟨[97], 1, 0⟩]],
      EntryOf s.entry i := by
    intro i hi
    simp only [List.flatten_cons, List.flatten_nil, List.append_nil, List.cons_append,
      List.nil_append, List.mem_cons, List.not_mem_nil, or_false] at hi
    rcases hi with rfl | rfl | rfl
    · exact hentry h2
    · exact hentry h2
    · exact hentry h1
  obtain ⟨hadded, hsame⟩ := addNodes_insensitive
    ((wellLinked_of_run hrun).namedTree (indexed_of_run hrun hacc)) (hroot.replica hrun hacc).agrees
    hentries
  refine ⟨s.entry, _, _, hadded, by decide, by decide, by decide,
    (hsame [[⟨[97], 1, 0⟩, ⟨[98], 2, 1⟩]] fun i => ?_).1⟩
  simp
  tauto

end PropertyTree.Client
