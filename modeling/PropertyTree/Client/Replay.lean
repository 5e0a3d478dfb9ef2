import PropertyTree.Client.Agreement
import PropertyTree.Server.ChangeLog

/-!
# Replaying the change log

A mirror that starts with the root only and is fed the notifications of a session, in order, holds
exactly the nodes created since the sign-in that are still live, and placeholders for older nodes
that are their parents.  `Replica` is the invariant that one change keeps.
-/

namespace PropertyTree.Client

open Library Server

/-- One step of a replay: a notification is handled, or an object the mirror no longer refers to
comes to its end. -/
inductive ReplayStep : Mirror → Option TreeUpdate → Mirror → Prop
  | update (m : Mirror) (add del) :
    ReplayStep m (some (add, del)) (m.handleTreeUpdateNotification add del)
  | free (m : Mirror) (a) (ha : m.isReferenced a = false) : ReplayStep m none (m.free a)

/-- The mirror `m'` results from `m` by handling the notifications of `log` in order. -/
def Replays (m : Mirror) (log : List TreeUpdate) (m' : Mirror) : Prop :=
  ∃ ls, Run ReplayStep m ls m' ∧ ls.reduceOption = log

/-- The mirror holds the root only. -/
structure RootOnly (m : Mirror) : Prop where
  mTree : ∃ r : Addr, (∀ u : UInt64, m.mTree[u]? = if u = 0 then some r else none) ∧
    ∃ n : Node, m.heap[r]? = some n ∧ n.name = [] ∧ n.parent = none ∧ n.uuid = 0 ∧ n.children = ∅
  heap_lt : ∀ {a : Addr} {n : Node}, m.heap[a]? = some n → a < m.nextAddr

namespace Replays

variable {m m' : Mirror} {log log' : List TreeUpdate}

/-- A replay of two logs one after the other. -/
theorem exists_of_append (h : Replays m (log ++ log') m') :
    ∃ m₁, Replays m log m₁ ∧ Replays m₁ log' m' := by
  obtain ⟨ls, hrun, hls⟩ := h
  obtain ⟨l₁, l₂, rfl, h₁, h₂⟩ := List.filterMap_eq_append_iff.mp hls
  obtain ⟨m₁, hrun₁, hrun₂⟩ := hrun.exists_of_append
  exact ⟨m₁, ⟨l₁, hrun₁, h₁⟩, ⟨l₂, hrun₂, h₂⟩⟩

/-- What the end of unreferenced objects keeps survives the replay of an empty log. -/
theorem of_nil {P : Mirror → Prop} (hfree : ∀ {m a}, P m → m.isReferenced a = false → P (m.free a))
    (h : Replays m [] m') (hP : P m) : P m' := by
  obtain ⟨ls, hrun, hls⟩ := h
  induction hrun with
  | nil => exact hP
  | snoc run step ih =>
    rw [List.reduceOption_append] at hls
    obtain ⟨hes, he⟩ := List.append_eq_nil_iff.mp hls
    cases step with
    | update add del => simp [List.reduceOption] at he
    | free a ha => exact hfree (ih hes) ha

/-- The first notification of a log is handled after the end of some objects. -/
theorem exists_of_cons {add : List NamedNode} {del : List UInt64}
    (h : Replays m ((add, del) :: log) m') :
    ∃ m₁, Replays m [] m₁ ∧ Replays (m₁.handleTreeUpdateNotification add del) log m' := by
  obtain ⟨ls, hrun, hls⟩ := h
  obtain ⟨l₁, x, l₂, rfl, hnone, rfl, h₂⟩ := List.filterMap_eq_cons_iff.mp hls
  obtain ⟨m₁, hrun₁, hrun₂⟩ := hrun.exists_of_append
  obtain ⟨m₂, hstep, hrun₃⟩ := hrun₂.exists_of_cons
  cases hstep
  exact ⟨m₁, ⟨l₁, hrun₁, List.filterMap_eq_nil_iff.mpr hnone⟩, ⟨l₂, hrun₃, h₂⟩⟩

end Replays

/-! ## The invariant -/

/-- The mirror is the replica of the entries `ent` since the tree `T₀`: it agrees with them, knows
every entry that is not in `T₀`, and has only placeholders for those that are. -/
structure Replica (T₀ : UInt64 → Prop) (ent : Entries) (m : Mirror) : Prop where
  agrees : Agrees (fun _ => True) ent m
  complete : ∀ {u : UInt64}, ent u ≠ none → ¬ T₀ u → ∃ a, m.mTree[u]? = some a
  placeholder_iff : ∀ {u : UInt64} {a : Addr} {n : Node}, m.mTree[u]? = some a →
    m.heap[a]? = some n → (Placeholder n ↔ T₀ u)

namespace Replica

variable {T₀ : UInt64 → Prop} {ent ent' : Entries} {m m' : Mirror}

/-- The end of an unreferenced object. -/
theorem free (h : Replica T₀ ent m) {a : Addr} (ha : m.isReferenced a = false) :
    Replica T₀ ent (m.free a) where
  agrees := h.agrees.free ha
  complete := h.complete
  placeholder_iff := by
    intro u b n hu hn
    simp only [Mirror.free] at hn
    exact h.placeholder_iff hu (by grind)

/-- A placeholder for an older node. -/
theorem ghost (h : Replica T₀ ent m) {i : NamedNode} (hu : m.mTree[i.parentUuid]? = none)
    (hent : ent i.parentUuid ≠ none) : Replica T₀ ent (m.ghost i.parentUuid) := by
  have hmTree := Mirror.ghost_mTree hu
  refine ⟨h.agrees.ghost hu hent, ?_, ?_⟩
  · intro v hv hT
    obtain ⟨a, ha⟩ := h.complete hv hT
    rw [hmTree]
    split_ifs
    · exact ⟨_, rfl⟩
    · exact ⟨a, ha⟩
  · intro v a n hv hn
    rw [hmTree] at hv
    rw [Mirror.ghost_heap] at hn
    split_ifs at hv with hvu
    · cases hv
      subst hvu
      rw [if_pos rfl] at hn
      cases hn
      have hT : T₀ i.parentUuid := by
        by_contra hT
        obtain ⟨a, ha⟩ := h.complete hent hT
        rw [hu] at ha
        cases ha
      exact iff_of_true ⟨rfl, rfl⟩ hT
    · obtain ⟨n', hn', -⟩ := h.agrees.mTree_heap hv
      have := h.agrees.heap_lt hn'
      rw [if_neg (by grind)] at hn
      exact h.placeholder_iff hv hn

/-- A creation below a known parent. -/
theorem add_of_known (h : Replica T₀ ent m) (ht : NamedTree 0 ent') {name : Name} {uuid pu : UInt64}
    (hfresh : ent uuid = none) (hT : ¬ T₀ uuid)
    (hent : ∀ v, ent' v = if v = uuid then some ⟨some pu, name, []⟩ else ent v) {p : Addr}
    (hp : m.mTree[pu]? = some p) : Replica T₀ ent' (m.addNode ⟨name, uuid, pu⟩) := by
  obtain ⟨pn, hpn, -⟩ := h.agrees.mTree_heap hp
  have hu : m.mTree[uuid]? = none := by
    by_contra hne
    obtain ⟨a, ha⟩ := Option.ne_none_iff_exists'.mp hne
    obtain ⟨n, hn, -⟩ := h.agrees.mTree_heap ha
    obtain ⟨e, he, -⟩ := h.agrees.node ha hn
    rw [hfresh] at he
    cases he
  have hagrees : Agrees (fun _ => True) ent' m := h.agrees.mono (fun {v a e} hv he =>
    ⟨e, by rw [hent, if_neg (by grind), he], rfl, rfl⟩) fun _ hl => hl
  have hatt := Mirror.addNode_of_unknown (i := ⟨name, uuid, pu⟩) hu hp hpn (h.agrees.heap_lt hpn)
  have hmTree := hatt.mTree
  have hheap := hatt.heap
  refine ⟨hagrees.attach ht (i := ⟨name, uuid, pu⟩) (by rw [hent, if_pos rfl]) rfl rfl hp hpn
    (.inr ⟨hu, rfl, rfl⟩) hatt, ?_, ?_⟩
  · intro v hv hTv
    rw [hmTree]
    split_ifs with hvu
    · exact ⟨_, rfl⟩
    · rw [hent, if_neg hvu] at hv
      exact h.complete hv hTv
  · intro v a n hv hn
    rw [hmTree] at hv
    rw [hheap] at hn
    split_ifs at hv with hvu
    · cases hv
      obtain rfl : v = uuid := hvu
      rw [if_pos rfl] at hn
      cases hn
      refine iff_of_false ?_ hT
      rintro ⟨-, hnone⟩
      cases hnone
    · obtain ⟨n', hn', -⟩ := h.agrees.mTree_heap hv
      have := h.agrees.heap_lt hn'
      have hiff := h.placeholder_iff hv hn'
      simp only [Placeholder] at hiff ⊢
      grind

/-- A creation. -/
theorem add (h : Replica T₀ ent m) (ht : NamedTree 0 ent') {name : Name} {uuid pu : UInt64}
    (hfresh : ent uuid = none) (hT : ¬ T₀ uuid) (hp : ent pu ≠ none)
    (hent : ∀ v, ent' v = if v = uuid then some ⟨some pu, name, []⟩ else ent v) :
    Replica T₀ ent' (m.addNode ⟨name, uuid, pu⟩) := by
  cases hpu : m.mTree[pu]? with
  | some p => exact h.add_of_known ht hfresh hT hent hpu
  | none =>
    have hne : uuid ≠ pu := by
      rintro rfl
      exact hp hfresh
    rw [Mirror.addNode_of_ghost (i := ⟨name, uuid, pu⟩) hpu hne]
    refine (h.ghost (i := ⟨name, uuid, pu⟩) hpu hp).add_of_known ht hfresh hT hent
      (p := m.nextAddr) ?_
    rw [Mirror.ghost_mTree (i := ⟨name, uuid, pu⟩) hpu, if_pos rfl]

/-- A deletion. -/
theorem del (h : Replica T₀ ent m) (ht : NamedTree 0 ent) {uuid : UInt64}
    (hleaf : ∀ {v e}, ent v = some e → e.parent ≠ some uuid)
    (hent : ∀ v, ent' v = if v = uuid then none else ent v) :
    Replica T₀ ent' (m.removeNode uuid) := by
  cases hu : m.mTree[uuid]? with
  | none =>
    rw [Mirror.removeNode_of_unknown hu]
    refine ⟨h.agrees.mono (fun {v a e} hv he =>
      ⟨e, by rw [hent, if_neg (by grind), he], rfl, rfl⟩) fun _ hl => hl,
      fun {v} hv hT => h.complete (u := v) (by grind) hT, h.placeholder_iff⟩
  | some a =>
    obtain ⟨n, hn, -⟩ := h.agrees.mTree_heap hu
    have hdet := Mirror.removeNode_of_known hu hn
    have hmTree := hdet.mTree
    have hheap := hdet.heap
    refine ⟨(h.agrees.detach ht hu hn hleaf hdet).mono (fun {v b e} hv he => ⟨e, ?_, rfl, rfl⟩)
      fun _ hl => hl,
      ?_, ?_⟩
    · rw [hmTree] at hv
      rw [hent, if_neg (by grind), he]
    · intro v hv hT
      rw [hent] at hv
      split_ifs at hv with hvu
      · exact absurd rfl hv
      · rw [hmTree, if_neg hvu]
        exact h.complete hv hT
    · intro v b nb hv hnb
      rw [hmTree] at hv
      rw [hheap] at hnb
      split_ifs at hv with hvu
      obtain ⟨nb', hnb', -⟩ := h.agrees.mTree_heap hv
      have hiff := h.placeholder_iff hv hnb'
      simp only [Placeholder] at hiff ⊢
      grind

/-- What a change of the server's tree does to its replica. -/
theorem change {s s' : ProtocolHandler} {log : List TreeUpdate} (h : Replica T₀ s.entry m)
    (ht : NamedTree 0 s.entry) (ht' : NamedTree 0 s'.entry) (hch : TreeChange s s' log)
    (hT : ∀ {u : UInt64}, T₀ u → u.toNat < s.mUuidCtr.toNat) (hreplay : Replays m log m') :
    Replica T₀ s'.entry m' := by
  cases hch with
  | none hsame =>
    refine hreplay.of_nil (fun hP ha => hP.free ha) ⟨h.agrees.mono (fun {u a e} hu he => ?_) fun _ hl => hl,
      fun {u} hu hTu => h.complete (u := u) ?_ hTu, h.placeholder_iff⟩
    · have := hsame u
      rw [he] at this
      obtain ⟨e', he', heq⟩ := Option.map_eq_some_iff.mp this
      cases e
      cases e'
      simp only [Prod.mk.injEq] at heq
      exact ⟨_, he', heq.2, heq.1⟩
    · have := hsame u
      intro hnone
      rw [hnone] at this
      exact hu (Option.map_eq_none_iff.mp this)
  | add name uuid pu hctr hfresh hp hname hent =>
    obtain ⟨m₁, hnil, hrest⟩ := hreplay.exists_of_cons
    have h₁ := hnil.of_nil (fun hP ha => hP.free ha) h
    have hTu : ¬ T₀ uuid := fun hT' => absurd (hT hT') (by omega)
    exact hrest.of_nil (fun hP ha => hP.free ha) (h₁.add ht' hfresh hTu hp hent)
  | del uuid hu h0 hleaf hent =>
    obtain ⟨m₁, hnil, hrest⟩ := hreplay.exists_of_cons
    have h₁ := hnil.of_nil (fun hP ha => hP.free ha) h
    exact hrest.of_nil (fun hP ha => hP.free ha) (h₁.del ht hleaf hent)

end Replica

/-! ## Replaying a run -/

/-- What a mirror holds when the changes of a part `ls` of a run have been replayed, which went from
the server state `s₁` to `s`: the root, every created node that is still live, linked below its
parent and listed there, and otherwise only placeholders for older nodes that are still live. -/
structure HoldsChanges (s₁ s : ProtocolHandler) (ls : List (Event × List Output)) (m : Mirror) :
    Prop where
  root : ∃ (a : Addr) (n : Node), m.mTree[(0 : UInt64)]? = some a ∧ m.heap[a]? = some n ∧
    n.name = [] ∧ n.parent = none
  created : ∀ {u : UInt64} {e}, Created ls u → s.entry u = some e →
    ∃ (a : Addr) (n : Node) (pu : UInt64) (p : Addr) (pn : Node), m.mTree[u]? = some a ∧
      m.heap[a]? = some n ∧ n.uuid = u ∧ n.name = e.name ∧ e.parent = some pu ∧
      m.mTree[pu]? = some p ∧ n.parent = some p ∧ m.heap[p]? = some pn ∧
      pn.children[e.name]? = some a
  known : ∀ {u : UInt64} {a : Addr}, m.mTree[u]? = some a → u ≠ 0 → s.entry u ≠ none ∧
    ∃ n : Node, m.heap[a]? = some n ∧ (Created ls u ∨ s₁.entry u ≠ none ∧ Placeholder n)
  child : ∀ {pu : UInt64} {p : Addr} {pn : Node} {name : Name} {a : Addr},
    m.mTree[pu]? = some p → m.heap[p]? = some pn → pn.children[name]? = some a →
    ∃ u e, Created ls u ∧ m.mTree[u]? = some a ∧ s.entry u = some e ∧ e.parent = some pu ∧
      e.name = name

section Run

variable {s₀ s₁ s : ProtocolHandler} {ls₀ ls : List (Event × List Output)} {m m' : Mirror}

/-- A mirror that holds the root only is the replica of any server's tree. -/
theorem RootOnly.replica (h : RootOnly m) (h₁ : ServerRun .init ls₀ s₁)
    (hacc : acceptedCreates ls₀ < 2 ^ 32 - 1) :
    Replica (fun u => u ≠ 0 ∧ s₁.entry u ≠ none) s₁.entry m := by
  obtain ⟨r, hmTree, n, hn, hname, hparent, huuid, hchildren⟩ := h.mTree
  obtain ⟨e, he, hename⟩ := root_name_of_run h₁ hacc
  have hroot := ((wellLinked_of_run h₁).namedTree (indexed_of_run h₁ hacc)).parent_eq_none_iff he
  have hzero : ∀ {u : UInt64} {a : Addr}, m.mTree[u]? = some a → u = 0 ∧ a = r := by
    intro u a hu
    rw [hmTree] at hu
    grind
  refine ⟨⟨?_, h.heap_lt, ?_, ?_⟩, ?_, ?_⟩
  · intro u a hu
    obtain ⟨rfl, rfl⟩ := hzero hu
    exact ⟨n, hn, huuid⟩
  · intro u a n' hu hn'
    obtain ⟨rfl, rfl⟩ := hzero hu
    rw [hn] at hn'
    cases hn'
    exact ⟨e, he, .inl ⟨hname.trans hename.symm, .inl ⟨hroot.mpr rfl, hparent⟩⟩⟩
  · intro u p pn name a hu hpn ha
    obtain ⟨rfl, rfl⟩ := hzero hu
    rw [hn] at hpn
    cases hpn
    rw [hchildren] at ha
    simp at ha
  · intro u hu hT
    obtain rfl : u = 0 := by
      by_contra h0
      exact hT ⟨h0, hu⟩
    exact ⟨r, by rw [hmTree, if_pos rfl]⟩
  · intro u a n' hu hn'
    obtain ⟨rfl, rfl⟩ := hzero hu
    rw [hn, Option.some.injEq] at hn'
    subst hn'
    refine iff_of_false ?_ fun hT => hT.1 rfl
    rintro ⟨hghost, -⟩
    rw [hname] at hghost
    cases hghost

/-- Replaying the change log of a part of a run gives a replica of the server's tree at its end. -/
theorem Replica.of_run {log : List TreeUpdate} (h₁ : ServerRun .init ls₀ s₁)
    (hrun : ServerRun s₁ ls s) (hacc : acceptedCreates (ls₀ ++ ls) < 2 ^ 32 - 1) (hm : RootOnly m)
    (hlog : log = ls.flatMap changeOf) (hreplay : Replays m log m') :
    Replica (fun u => u ≠ 0 ∧ s₁.entry u ≠ none) s.entry m' := by
  have hacc₀ : acceptedCreates ls₀ < 2 ^ 32 - 1 := by
    rw [acceptedCreates_append] at hacc
    exact lt_of_le_of_lt (Nat.le_add_right _ _) hacc
  subst hlog
  induction hrun generalizing m' with
  | nil => exact hreplay.of_nil (fun hP ha => hP.free ha) (hm.replica h₁ hacc₀)
  | @snoc t v ls l run step ih =>
    obtain ⟨e, o⟩ := l
    rw [← List.append_assoc] at hacc
    have hafter := (h₁.append run).snoc step
    have hi' := indexed_of_run hafter hacc
    rw [acceptedCreates_concat] at hacc
    have hlt := lt_of_le_of_lt (Nat.le_add_right _ _) hacc
    have hbefore := h₁.append run
    have hi := indexed_of_run hbefore hlt
    have hw := wellLinked_of_run hbefore
    rw [List.flatMap_append] at hreplay
    obtain ⟨m₁, hpast, hlast⟩ := hreplay.exists_of_append
    rw [List.flatMap_cons, List.flatMap_nil, List.append_nil] at hlast
    refine (ih hlt hpast).change (hw.namedTree hi) ((wellLinked_of_run hafter).namedTree hi')
      ((Server.step_cases step).treeChange hw hi) (fun {u} hu => ?_) hlast
    exact ((indexed_of_run h₁ hacc₀).entry_lt hu.2).trans_le (mUuidCtr_le_of_run h₁ run hlt)

/-- What a replica of the server's tree since the state `s₁` holds. -/
theorem Replica.holdsChanges (h : Replica (fun u => u ≠ 0 ∧ s₁.entry u ≠ none) s.entry m')
    (h₁ : ServerRun .init ls₀ s₁) (hrun : ServerRun s₁ ls s)
    (hacc : acceptedCreates (ls₀ ++ ls) < 2 ^ 32 - 1) : HoldsChanges s₁ s ls m' := by
  have hall := h₁.append hrun
  have ht := (wellLinked_of_run hall).namedTree (indexed_of_run hall hacc)
  obtain ⟨e₀, he₀, hname₀⟩ := root_name_of_run hall hacc
  have hcreated := fun u => created_iff_of_run h₁ hrun hacc (u := u)
  -- a created node is known, and not as a placeholder
  have hfilled : ∀ {u : UInt64} {a : Addr} {n : Node} {e}, m'.mTree[u]? = some a →
      m'.heap[a]? = some n → s.entry u = some e →
      Filled (fun _ => True) m' u e a n ∨ u ≠ 0 ∧ s₁.entry u ≠ none := by
    intro u a n e hu hn he
    obtain ⟨e', he', hfill | hplace⟩ := h.agrees.node hu hn
    · rw [he] at he'
      cases he'
      exact .inl hfill
    · exact .inr ((h.placeholder_iff hu hn).mp hplace)
  constructor
  · obtain ⟨a, ha⟩ := h.complete (u := 0) (by simp [he₀]) fun hT => hT.1 rfl
    obtain ⟨n, hn, -⟩ := h.agrees.mTree_heap ha
    rcases hfilled ha hn he₀ with ⟨hname, hpar⟩ | ⟨h0, -⟩
    · refine ⟨a, n, ha, hn, hname.trans hname₀, ?_⟩
      rcases hpar with ⟨-, hnone⟩ | ⟨pu, -, -, hpu, -⟩
      · exact hnone
      · rw [(ht.parent_eq_none_iff he₀).mpr rfl] at hpu
        cases hpu
    · exact absurd rfl h0
  · intro u e hc he
    have hnew := (hcreated u (by simp [he])).mp hc
    obtain ⟨a, ha⟩ := h.complete (u := u) (by simp [he]) fun hT => hT.2 hnew
    obtain ⟨n, hn, hnu⟩ := h.agrees.mTree_heap ha
    rcases hfilled ha hn he with ⟨hname, ⟨hnone, -⟩ | ⟨pu, p, pn, hpu, hp, hnp, hpn, hlink⟩⟩ | hold
    · obtain rfl := (ht.parent_eq_none_iff he).mp hnone
      obtain ⟨e₁, he₁, -⟩ := root_name_of_run h₁ (by rw [acceptedCreates_append] at hacc; omega)
      rw [hnew] at he₁
      cases he₁
    · exact ⟨a, n, pu, p, pn, ha, hn, hnu, hname, hpu, hp, hnp, hpn, hname ▸ hlink trivial⟩
    · exact absurd hnew hold.2
  · intro u a hu h0
    obtain ⟨n, hn, -⟩ := h.agrees.mTree_heap hu
    obtain ⟨e, he, -⟩ := h.agrees.node hu hn
    refine ⟨by simp [he], n, hn, ?_⟩
    by_cases hold : s₁.entry u = none
    · exact .inl ((hcreated u (by simp [he])).mpr hold)
    · exact .inr ⟨hold, (h.placeholder_iff hu hn).mpr ⟨h0, hold⟩⟩
  · intro pu p pn name a hp hpn ha
    obtain ⟨u, n, hu, hn, hnp, hname⟩ := h.agrees.child hp hpn ha
    obtain ⟨e, pu', -, he, hpar, hname', hp', -⟩ := h.agrees.filled hu hn hnp
    obtain rfl := h.agrees.inj hp hp'
    have h0 : u ≠ 0 := by
      rintro rfl
      rw [(ht.parent_eq_none_iff he).mpr rfl] at hpar
      cases hpar
    refine ⟨u, e, (hcreated u (by simp [he])).mpr ?_, hu, he, hpar, by rw [← hname', hname]⟩
    by_contra hold
    obtain ⟨-, hnone⟩ := (h.placeholder_iff hu hn).mpr ⟨h0, hold⟩
    rw [hnp] at hnone
    cases hnone

/-- The notification stream of a session is a faithful change log.  After its first sign-in and while
it stays connected, a connection is sent one `TreeUpdateNotification` for every accepted creation
and every OK deletion, in the order of their processing; replaying them from a mirror that holds the
root only yields exactly the created nodes that are still live, and placeholders for older nodes. -/
theorem changeLog_faithful {c : Conn} {t : UInt16} {spare : UInt8} {o : List Output}
    (h₀ : ServerRun .init ls₀ s₀)
    (hsignin : s₀.step (.message c ⟨t, .signinRequest spare⟩) = .ok (s₁, o))
    (hrun : ServerRun s₁ ls s) (hfirst : ∀ l ∈ ls₀, isSigninOf c l.1 = false)
    (hstay : ∀ l ∈ ls, isSigninOf c l.1 = false ∧ l.1 ≠ .disconnect c)
    (hacc : acceptedCreates (ls₀ ++ (.message c ⟨t, .signinRequest spare⟩, o) :: ls) < 2 ^ 32 - 1)
    (hsign : signins (ls₀ ++ (.message c ⟨t, .signinRequest spare⟩, o) :: ls) < 2 ^ 32 - 1) :
    treeUpdatesTo c (ls.flatMap Prod.snd) = ls.flatMap changeOf ∧
      ∀ m m', RootOnly m → Replays m (treeUpdatesTo c (ls.flatMap Prod.snd)) m' →
        HoldsChanges s₁ s ls m' := by
  rw [List.append_cons] at hacc hsign
  have h₁ : ServerRun .init (ls₀ ++ [(.message c ⟨t, .signinRequest spare⟩, o)]) s₁ :=
    h₀.snoc hsignin
  have hlog : treeUpdatesTo c (ls.flatMap Prod.snd) = ls.flatMap changeOf := by
    obtain ⟨hconn, hsess⟩ := unknown_of_run h₀ hfirst
    have hfresh := sessionsFresh_of_run h₀ (by
      rw [signins, List.countP_append, List.countP_append] at hsign
      unfold signins
      omega)
    have hin : SignedIn s₁ c s₀.mSessionIdCtr := by
      cases hsignin
      exact signedIn_signin hfresh hconn hsess
    exact (hin.treeUpdates_of_run h₁ hrun (by omega) hstay).2
  refine ⟨hlog, fun m m' hm hreplay => ?_⟩
  exact (Replica.of_run h₁ hrun hacc hm hlog hreplay).holdsChanges h₁ hrun hacc

end Run

/-- The mirror the constructor leaves holds the root only. -/
theorem rootOnly_emplaceRoot : RootOnly Mirror.empty.emplaceRoot where
  mTree := by
    refine ⟨0, fun u => ?_, .make [] none 0, ?_, rfl, rfl, rfl, rfl⟩ <;>
      simp only [Mirror.emplaceRoot, Mirror.empty, Mirror.emplace, Mirror.makeNode] <;> grind
  heap_lt := by
    intro a n h
    simp only [Mirror.emplaceRoot, Mirror.empty, Mirror.emplace, Mirror.makeNode] at h ⊢
    grind

/-- Handling the notifications one after the other is a replay. -/
theorem replays_foldl (m : Mirror) (log : List TreeUpdate) :
    Replays m log (log.foldl (fun m u => m.handleTreeUpdateNotification u.1 u.2) m) := by
  induction log generalizing m with
  | nil => exact ⟨[], .nil _, rfl⟩
  | cons u log ih =>
    obtain ⟨ls, hrun, hls⟩ := ih (m.handleTreeUpdateNotification u.1 u.2)
    exact ⟨some u :: ls, .cons (.update m u.1 u.2) hrun, by simp [List.reduceOption_cons_of_some, hls]⟩

/-- A client signs in when another has already created a node.  It is told of a node below that one,
of a node below the root, and of the end of the first, and is left with a placeholder and the
second. -/
theorem changeLog_faithful_ghost :
    ∃ (s₁ s : ProtocolHandler) (ls : List (Event × List Output)) (m' : Mirror),
      treeUpdatesTo 7 (ls.flatMap Prod.snd) =
        [([⟨[98], 2, 1⟩], []), ([⟨[99], 3, 0⟩], []), ([], [2])] ∧
      m'.mTree.toList.map Prod.fst = [0, 1, 3] ∧ HoldsChanges s₁ s ls m' := by
  have hrun₀ : ∃ r, execute ProtocolHandler.step (fun _ _ => true) .init
      [.message 8 ⟨0, .signinRequest 0⟩, .message 8 ⟨1, .createRequest [97] 0⟩] = some r ∧
      (∀ l ∈ r.2, isSigninOf 7 l.1 = false) ∧ ∃ q, r.1.step (.message 7 ⟨0, .signinRequest 0⟩) =
        .ok q ∧ ∃ p, execute ProtocolHandler.step (fun _ _ => true) q.1
      [.message 8 ⟨2, .createRequest [98] 1⟩, .message 7 ⟨1, .createRequest [99] 0⟩,
        .message 8 ⟨3, .deleteRequest 2⟩] = some p ∧
      (∀ l ∈ p.2, isSigninOf 7 l.1 = false ∧ l.1 ≠ .disconnect 7) ∧
      acceptedCreates (r.2 ++ (.message 7 ⟨0, .signinRequest 0⟩, q.2) :: p.2) < 2 ^ 32 - 1 ∧
      signins (r.2 ++ (.message 7 ⟨0, .signinRequest 0⟩, q.2) :: p.2) < 2 ^ 32 - 1 ∧
      treeUpdatesTo 7 (p.2.flatMap Prod.snd) =
        [([⟨[98], 2, 1⟩], []), ([⟨[99], 3, 0⟩], []), ([], [2])] :=
    ⟨_, rfl, by decide, _, rfl, _, rfl, by decide, by decide, by decide, by decide⟩
  obtain ⟨⟨s₀, ls₀⟩, hexec₀, hfirst, ⟨s₁, o⟩, hsignin, ⟨s, ls⟩, hexec, hstay, hacc, hsign, hlog⟩ :=
    hrun₀
  obtain ⟨-, hreplay⟩ := changeLog_faithful (run_of_execute _ hexec₀).of_guarded hsignin
    (run_of_execute _ hexec).of_guarded hfirst hstay hacc hsign
  refine ⟨s₁, s, ls, _, hlog, ?_, hreplay _ _ rootOnly_emplaceRoot (replays_foldl _ _)⟩
  rw [hlog]
  decide

end PropertyTree.Client
