import PropertyTree.Server.Outputs

/-!
# The creations of a run

A uuid is given out once as long as the counter does not wrap, and its node keeps the name and the
parent it has been created with.  `History` collects what the creations of a run say about the state
at its end, and `Content` what a message of the server says about the step in which it is sent.
-/

namespace PropertyTree

namespace PropertyTreeMessages

/-- The uuids that a message of the server tells of as those of nodes in the tree. -/
def announced : PropertyTreeMessages → List UInt64
  | createAccept uuid => [uuid]
  | treeInfoResponse l | treeUpdateNotification l _ => l.flatMap fun i => [i.uuid, i.parentUuid]
  | _ => []

/-- The uuids whose deletion a message tells of. -/
def deletions : PropertyTreeMessages → List UInt64
  | treeUpdateNotification _ nodeToDelete => nodeToDelete
  | _ => []

/-- An entry of a list tells of its node and of the parent. -/
theorem mem_announced_iff {l : List NamedNode} {u : UInt64} :
    (u ∈ l.flatMap fun i => [i.uuid, i.parentUuid]) ↔ ∃ i ∈ l, u = i.uuid ∨ u = i.parentUuid := by
  simp only [List.mem_flatMap, List.mem_cons, List.not_mem_nil, or_false]

end PropertyTreeMessages

namespace Server

open ProtocolHandler Library

variable {s s' : ProtocolHandler} {e : Event} {o : List Output} {ls : List (Event × List Output)}

/-- The nodes created in a run, in order. -/
def creations (ls : List (Event × List Output)) : List NamedNode :=
  (ls.flatMap changeOf).flatMap Prod.fst

/-- The creations of a run one step longer. -/
theorem creations_concat (ls : List (Event × List Output)) (l : Event × List Output) :
    creations (ls ++ [l]) = creations ls ++ (changeOf l).flatMap Prod.fst := by
  simp [creations]

/-- The uuid has been given out, and its node is not there any more. -/
def Dead (s : ProtocolHandler) (u : UInt64) : Prop :=
  s.entry u = none ∧ u.toNat < s.mUuidCtr.toNat

/-- What is dead is not in the tree. -/
theorem Dead.not_mem (h : Dead s u) (hw : WellLinked s) : u ∉ s.mTree := by
  rcases hw.entry_cases u with ⟨hu, -⟩ | ⟨a, n, -, -, -, he⟩
  · grind
  · rw [h.1] at he
    cases he

/-- The uuids in the tree are those of the entries. -/
theorem WellLinked.mem_mTree_iff (h : WellLinked s) {u : UInt64} :
    u ∈ s.mTree ↔ s.entry u ≠ none := by
  rcases h.entry_cases u with ⟨hu, he⟩ | ⟨a, n, hu, -, -, he⟩
  · simp only [he, ne_eq, not_true_eq_false, iff_false]
    grind
  · simp only [he, ne_eq, reduceCtorEq, not_false_eq_true, iff_true]
    grind

/-! ## What the creations say -/

/-- The nodes created in a run, and the state at its end. -/
structure History (ls : List (Event × List Output)) (s : ProtocolHandler) : Prop where
  lt : ∀ {i}, i ∈ creations ls → i.uuid.toNat < s.mUuidCtr.toNat
  /-- A node is younger than its parent. -/
  parent_lt : ∀ {i}, i ∈ creations ls → i.parentUuid.toNat < i.uuid.toNat
  /-- No uuid is given out twice. -/
  inj : ∀ {i j}, i ∈ creations ls → j ∈ creations ls → j.uuid = i.uuid → j = i
  /-- What is in the tree has been created as it is there. -/
  live : ∀ {u pu e}, s.entry u = some e → e.parent = some pu → ⟨e.name, u, pu⟩ ∈ creations ls
  /-- Of two nodes created with the same name and parent the older one is not there any more. -/
  sibling : ∀ {i j}, i ∈ creations ls → j ∈ creations ls → i.parentUuid = j.parentUuid →
    i.name = j.name → i.uuid.toNat < j.uuid.toNat → s.entry i.uuid = none

/-- The root is older than any node that is created. -/
theorem History.uuid_ne_zero (h : History ls s) {i : NamedNode} (hi : i ∈ creations ls) :
    i.uuid ≠ 0 := by
  have := h.parent_lt hi
  intro h0
  rw [h0] at this
  exact absurd this (Nat.not_lt_zero _)

/-- A node is not its own parent. -/
theorem History.uuid_ne_parentUuid (h : History ls s) {i : NamedNode} (hi : i ∈ creations ls) :
    i.uuid ≠ i.parentUuid := by
  intro heq
  have := h.parent_lt hi
  rw [heq] at this
  exact lt_irrefl _ this

/-- A part of a run has at most as many accepted creations. -/
theorem acceptedCreates_lt_of_concat {l : Event × List Output} {n : ℕ}
    (h : acceptedCreates (ls ++ [l]) < n) : acceptedCreates ls < n := by
  rw [acceptedCreates_append] at h
  exact lt_of_le_of_lt (Nat.le_add_right _ _) h

section Step

variable (hrun : ServerRun .init ls s) (hacc : acceptedCreates (ls ++ [(e, o)]) < 2 ^ 32 - 1)
  (hstep : StepOf step s (e, o) s')

include hrun hacc hstep

/-- The counter does not fall in a step that does not wrap it. -/
theorem mUuidCtr_le_of_step : s.mUuidCtr.toNat ≤ s'.mUuidCtr.toNat :=
  mUuidCtr_le_of_run hrun (.single hstep) hacc

/-- What is dead stays dead. -/
theorem Dead.step {u : UInt64} (h : Dead s u) : Dead s' u := by
  have hlt := acceptedCreates_lt_of_concat hacc
  have hch := (step_cases hstep).treeChange (wellLinked_of_run hrun) (indexed_of_run hrun hlt)
  have hle := mUuidCtr_le_of_step hrun hacc hstep
  obtain ⟨hnone, hctr⟩ := h
  refine ⟨?_, lt_of_lt_of_le hctr hle⟩
  generalize changeOf (e, o) = log at hch
  cases hch with
  | none hsame =>
    have := hsame u
    rw [hnone, Option.map_none] at this
    exact Option.map_eq_none_iff.mp this
  | add name uuid pu hctr' hfresh hp hname hent =>
    rw [hent, if_neg, hnone]
    rintro rfl
    omega
  | del uuid hu h0 hleaf hent =>
    rw [hent]
    split_ifs
    · rfl
    · exact hnone

/-- A step keeps the history. -/
theorem History.step (h : History ls s) : History (ls ++ [(e, o)]) s' := by
  have hlt := acceptedCreates_lt_of_concat hacc
  have hix := indexed_of_run hrun hlt
  have hix' := indexed_of_run (hrun.snoc hstep) hacc
  have hch := (step_cases hstep).treeChange (wellLinked_of_run hrun) hix
  have hle := mUuidCtr_le_of_step hrun hacc hstep
  have hcr := creations_concat ls (e, o)
  generalize changeOf (e, o) = log at hch hcr
  cases hch with
  | none hsame =>
    have hcr' : creations (ls ++ [(e, o)]) = creations ls := by simpa using hcr
    have hentry : ∀ {u}, s.entry u = none → s'.entry u = none := by
      intro u hu
      have := hsame u
      rw [hu, Option.map_none] at this
      exact Option.map_eq_none_iff.mp this
    refine ⟨fun hi => ?_, ?_, ?_, fun {u pu e} hu hpu => ?_, fun {i j} hi hj hp hn hij => ?_⟩ <;>
      rw [hcr'] at *
    · exact lt_of_lt_of_le (h.lt hi) hle
    · exact h.parent_lt
    · exact h.inj
    · have := hsame u
      rw [hu, Option.map_some] at this
      obtain ⟨e', he', heq⟩ := Option.map_eq_some_iff.mp this.symm
      obtain ⟨hpar, hname⟩ := Prod.mk.inj heq
      exact hname ▸ h.live he' (hpar.trans hpu)
    · exact hentry (h.sibling hi hj hp hn hij)
  | add name uuid pu hctr hfresh hp hname hent =>
    have hmem : ∀ {i}, i ∈ creations (ls ++ [(e, o)]) ↔ i ∈ creations ls ∨ i = ⟨name, uuid, pu⟩ := by
      intro i
      rw [hcr]
      simp
    have hold : ∀ {i}, i ∈ creations ls → i.uuid ≠ uuid := by
      rintro i hi rfl
      exact absurd (h.lt hi) (by omega)
    refine ⟨fun {i} hi => ?_, fun {i} hi => ?_, fun {i j} hi hj hu => ?_,
      fun {u pu' e'} hu hpu => ?_, fun {i j} hi hj hpar hnm hij => ?_⟩
    · rcases hmem.mp hi with hi | rfl
      · exact lt_of_lt_of_le (h.lt hi) hle
      · exact hix'.entry_lt (by rw [hent, if_pos rfl]; simp)
    · rcases hmem.mp hi with hi | rfl
      · exact h.parent_lt hi
      · have := hix.entry_lt hp
        simp only
        omega
    · rcases hmem.mp hi with hi | rfl <;> rcases hmem.mp hj with hj | rfl
      · exact h.inj hi hj hu
      · exact absurd hu.symm (hold hi)
      · exact absurd hu (hold hj)
      · rfl
    · rw [hent] at hu
      split_ifs at hu with huu
      · cases hu
        cases hpu
        exact hmem.mpr (.inr (by rw [huu]))
      · exact hmem.mpr (.inl (h.live hu hpu))
    · rw [hent]
      rcases hmem.mp hi with hi | rfl
      · rw [if_neg (hold hi)]
        rcases hmem.mp hj with hj | rfl
        · exact h.sibling hi hj hpar hnm hij
        · -- the older node would be in the way of the creation
          cases he : s.entry i.uuid with
          | none => rfl
          | some ei =>
            obtain ⟨q, hq⟩ := Option.ne_none_iff_exists'.mp fun hnone =>
              h.uuid_ne_zero hi ((((wellLinked_of_run hrun).namedTree hix).parent_eq_none_iff he).mp
                hnone)
            have heq := h.inj hi (h.live he hq) rfl
            have hq' : q = pu := (congrArg NamedNode.parentUuid heq).trans hpar
            exact absurd ((congrArg NamedNode.name heq).trans hnm) (hname he (hq.trans (hq' ▸ rfl)))
      · rcases hmem.mp hj with hj | rfl
        · have := h.lt hj
          simp only at hij
          omega
        · exact absurd hij (lt_irrefl _)
  | del uuid hu h0 hleaf hent =>
    have hcr' : creations (ls ++ [(e, o)]) = creations ls := by simpa using hcr
    refine ⟨fun hi => ?_, ?_, ?_, fun {u pu e} hu hpu => ?_, fun {i j} hi hj hp hn hij => ?_⟩ <;>
      rw [hcr'] at *
    · exact lt_of_lt_of_le (h.lt hi) hle
    · exact h.parent_lt
    · exact h.inj
    · rw [hent] at hu
      split_ifs at hu
      exact h.live hu hpu
    · rw [hent, h.sibling hi hj hp hn hij, ite_self]

end Step

/-- The creations of a run with fewer than `2 ^ 32 - 1` of them. -/
theorem history_of_run (hrun : ServerRun .init ls s) (hacc : acceptedCreates ls < 2 ^ 32 - 1) :
    History ls s := by
  induction hrun with
  | nil =>
    have hnil : creations [] = [] := rfl
    refine ⟨fun h => ?_, fun h => ?_, fun h => ?_, fun {u pu e} he hp => ?_, fun h => ?_⟩
    · cases h
    · cases h
    · cases h
    · have hi := indexed_init
      rcases wellLinked_init.entry_cases u with ⟨-, hnone⟩ | ⟨a, n, hu, hn, -, hue⟩
      · rw [hnone] at he
        cases he
      · rw [hue] at he
        cases he
        obtain rfl : n = rootNode := by
          simp only [init] at hu hn
          grind
        cases hp
    · cases h
  | @snoc s s' ls l run step ih =>
    obtain ⟨e, o⟩ := l
    have hlt := acceptedCreates_lt_of_concat hacc
    exact (ih hlt).step run hacc step

/-! ## What the messages say -/

/-- What a message sent to `d` under the id `t` says about the step on `e` in which it is sent: an
accepted creation and an OK deletion answer the request for it, a notification announces the change
of the tree, and a listing lists what is in the tree. -/
def Content (s : ProtocolHandler) (e : Event) (o : List Output) (d : Conn) (t : UInt16) :
    PropertyTreeMessages → Prop
  | .createAccept u => ∃ name pu, e = .message d ⟨t, .createRequest name pu⟩ ∧
      changeOf (e, o) = [([⟨name, u, pu⟩], [])]
  | .deleteResponse .ok => ∃ u, e = .message d ⟨t, .deleteRequest u⟩ ∧
      changeOf (e, o) = [([], [u])]
  | .treeUpdateNotification add del => changeOf (e, o) = [(add, del)]
  | .treeInfoResponse l => changeOf (e, o) = [] ∧ ∀ i ∈ l, ∃ ent, s.entry i.uuid = some ent ∧
      ent.parent = some i.parentUuid ∧ ent.name = i.name
  | _ => True

/-- What `fillToAddListFromTree` appends is in the tree. -/
theorem entry_of_mem_filled (h : WellLinked s) (hi : Indexed s) {a : Addr} {node : Node}
    (ha : s.heap[a]? = some node) {l l' : List NamedNode} {recursive : Bool}
    (hl : s.fillToAddListFromTree l a recursive = .ok l')
    (hmem : ∀ i ∈ l, ∃ ent, s.entry i.uuid = some ent ∧ ent.parent = some i.parentUuid ∧
      ent.name = i.name) :
    ∀ i ∈ l', ∃ ent, s.entry i.uuid = some ent ∧ ent.parent = some i.parentUuid ∧
      ent.name = i.name := by
  have hkid : ∀ {p b : Addr} {name : Name}, (name, b) ∈ kids s.heap p →
      ∃ ent, s.entry (listEntry s.heap p name b).uuid = some ent ∧
        ent.parent = some (listEntry s.heap p name b).parentUuid ∧
          ent.name = (listEntry s.heap p name b).name :=
    fun hk => entry_of_mem_kids h hi hk
  rw [h.fillToAddListFromTree_eq ha, Except.ok.injEq] at hl
  subst hl
  intro i hi'
  rcases List.mem_append.mp hi' with hi' | hi'
  · exact hmem i hi'
  · split_ifs at hi' with hrec
    · obtain ⟨p, name, b, -, hk, rfl⟩ := mem_listing_iff.mp hi'
      exact hkid hk
    · obtain ⟨⟨name, b⟩, hk, rfl⟩ := List.mem_map.mp hi'
      exact hkid hk

/-- What the messages of a step say. -/
theorem StepResult.content (h : StepResult s e s' o) (hw : WellLinked s) (hi : Indexed s) {d : Conn}
    {t : UInt16} {m : PropertyTreeMessages} (hm : .send d ⟨t, m⟩ ∈ o) : Content s e o d t m := by
  have huuid : ∀ {u : UInt64} {a : Addr} {n : Node}, s.mTree[u]? = some a → s.heap[a]? = some n →
      n.uuid = u := by
    intro u a n ha hn
    obtain ⟨n', hn', hnu⟩ := hw.mTree_heap ha
    rw [hn] at hn'
    cases hn'
    exact hnu
  cases h with
  | create c t' name parentUuid p sid node hp hc hn ha =>
    obtain rfl := huuid hp hn
    rcases List.mem_cons.mp hm with hm | hm
    · cases hm
      exact ⟨_, _, rfl, rfl⟩
    · obtain ⟨sid', c', -, heq⟩ := mem_broadcast_iff.mp hm
      cases heq
      rfl
  | delete c t' uuid a node p parent ha hn hch hp hpn =>
    rcases List.mem_cons.mp hm with hm | hm
    · cases hm
      exact ⟨_, rfl, rfl⟩
    · obtain ⟨sid', c', -, heq⟩ := mem_broadcast_iff.mp hm
      cases heq
      rfl
  | treeInfoSelf c t' parentUuid recursive p node l hp hn hl =>
    cases List.mem_singleton.mp hm
    exact ⟨rfl, entry_of_mem_filled hw hi hn hl (by simp)⟩
  | treeInfoChild c t' parentUuid name recursive p parent a node l hp hn hname ha hna hl =>
    cases List.mem_singleton.mp hm
    refine ⟨rfl, entry_of_mem_filled hw hi hna hl fun i hi' => ?_⟩
    obtain rfl := List.mem_singleton.mp hi'
    have hkid := entry_of_mem_kids hw hi (mem_kids_iff.mpr ⟨parent, hn, ha⟩)
    rwa [uuidAt_of_heap hna, uuidAt_of_heap hn] at hkid
  | setValue c t' uuid data a node hterm ha hn =>
    rcases List.mem_cons.mp hm with hm | hm
    · cases hm
      trivial
    · obtain ⟨l, -, hm⟩ := List.mem_flatMap.mp hm
      cases hl : s.listenerConnection c l.1 l.2 with
      | none =>
        rw [hl] at hm
        cases hm
      | some d' =>
        rw [hl] at hm
        cases List.mem_singleton.mp hm
        trivial
  | reply c t' m' translation session hm' ht hs =>
    obtain ⟨x⟩ := session
    cases x with
    | none => cases hm
    | some x =>
      cases List.mem_singleton.mp hm
      rcases hm' with ⟨value, rfl⟩ | ⟨cause, rfl⟩ <;> trivial
  | _ =>
    first
      | (cases hm; done)
      | (cases List.mem_singleton.mp hm; trivial)
      | simp at hm

/-- What is told of as in the tree is there after the step. -/
theorem Content.announced {d : Conn} {t : UInt16} {m : PropertyTreeMessages}
    (h : Content s e o d t m) (ht : NamedTree 0 s.entry) (hch : TreeChange s s' (changeOf (e, o))) :
    ∀ u ∈ m.announced, s'.entry u ≠ none := by
  generalize hlog : changeOf (e, o) = log at hch
  intro u hu
  cases m with
  | createAccept v =>
    obtain rfl := List.mem_singleton.mp hu
    obtain ⟨name, pu, -, hc⟩ := h
    rw [hlog] at hc
    cases hch with
    | none => cases hc
    | add name uuid pu hctr hfresh hp hname hent =>
      cases hc
      rw [hent, if_pos rfl]
      simp
    | del => simp at hc
  | treeUpdateNotification add del =>
    obtain ⟨i, hi, hu⟩ := PropertyTreeMessages.mem_announced_iff.mp hu
    have hc : changeOf (e, o) = [(add, del)] := h
    rw [hlog] at hc
    subst hc
    cases hch with
    | add name uuid pu hctr hfresh hp hname hent =>
      obtain rfl := List.mem_singleton.mp hi
      rw [hent]
      rcases hu with rfl | rfl
      · simp
      · split_ifs
        · simp
        · exact hp
    | del => cases hi
  | treeInfoResponse l =>
    obtain ⟨i, hi, hu⟩ := PropertyTreeMessages.mem_announced_iff.mp hu
    obtain ⟨hc, hl⟩ := h
    rw [hlog] at hc
    subst hc
    cases hch with
    | none hsame =>
      obtain ⟨ent, hent, hpar, -⟩ := hl i hi
      have hne : s.entry u ≠ none := by
        rcases hu with rfl | rfl
        · simp [hent]
        · exact (ht.parent hent hpar).2
      intro hnone
      have := hsame u
      rw [hnone, Option.map_none] at this
      exact hne (Option.map_eq_none_iff.mp this.symm)
  | _ => cases hu

/-- What is told of as deleted is dead after the step. -/
theorem Content.deletions {d : Conn} {t : UInt16} {m : PropertyTreeMessages}
    (h : Content s e o d t m) (hi : Indexed s) (hch : TreeChange s s' (changeOf (e, o)))
    (hle : s.mUuidCtr.toNat ≤ s'.mUuidCtr.toNat) : ∀ u ∈ m.deletions, u ≠ 0 ∧ Dead s' u := by
  intro u hu
  cases m with
  | treeUpdateNotification add del =>
    have hc : changeOf (e, o) = [(add, del)] := h
    rw [hc] at hch
    cases hch with
    | add => cases hu
    | del uuid hent h0 hleaf hent' =>
      obtain rfl := List.mem_singleton.mp hu
      exact ⟨h0, by rw [hent', if_pos rfl], lt_of_lt_of_le (hi.entry_lt hent) hle⟩
  | _ => cases hu

/-- The creation that is told of is one of the run. -/
theorem mem_creations_of_change {add : List NamedNode} {del : List UInt64} {i : NamedNode}
    (h : changeOf (e, o) = [(add, del)]) (hi : i ∈ add) : i ∈ creations (ls ++ [(e, o)]) := by
  rw [creations_concat, h]
  exact List.mem_append_right _ (by simpa using hi)

end Server

end PropertyTree
