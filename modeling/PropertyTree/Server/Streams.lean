import PropertyTree.Server.Creations

/-!
# The messages sent to a signed-in connection

What the messages that a connection has been sent say of the tree, in the order in which they were
sent.  A deleted node is not told of again; a node that is not told of as deleted is still there; its
deletion is told of before that of its parent, and before anything is told of a younger node of the
same name below the same parent.  A step of the server keeps all of this for what it sends.
-/

namespace PropertyTree.Server

open ProtocolHandler Library PropertyTreeMessages

variable {s s' : ProtocolHandler} {e : Event} {o : List Output} {ls : List (Event × List Output)}
  {T ms : List PropertyTreeMessages} {u v : UInt64}

/-- One of the messages tells of the node `u`. -/
def Announced (T : List PropertyTreeMessages) (u : UInt64) : Prop :=
  ∃ m ∈ T, u ∈ m.announced

/-- One of the messages tells of the deletion of `u`. -/
def Deleted (T : List PropertyTreeMessages) (u : UInt64) : Prop :=
  ∃ m ∈ T, u ∈ m.deletions

/-- The node `i` was there before the node `j`, with the same name below the same parent. -/
structure Precedes (ls : List (Event × List Output)) (i j : NamedNode) : Prop where
  left : i ∈ creations ls
  right : j ∈ creations ls
  parentUuid : i.parentUuid = j.parentUuid
  name : i.name = j.name
  lt : i.uuid.toNat < j.uuid.toNat

/-- What the messages `T` that a connection has been sent say of the nodes. -/
structure Stream (ls : List (Event × List Output)) (s : ProtocolHandler)
    (T : List PropertyTreeMessages) : Prop where
  dead : ∀ {u}, Deleted T u → u ≠ 0 ∧ Dead s u
  live : ∀ {u}, Announced T u → s.entry u ≠ none ∨ Deleted T u
  /-- A deleted node is not told of again. -/
  once : T.Pairwise fun p q => ∀ u ∈ p.deletions, u ∉ q.announced
  /-- A node is told of as deleted before its parent. -/
  children : ∀ {l₁ q l₂ i}, T = l₁ ++ q :: l₂ → i ∈ creations ls → i.parentUuid ∈ q.deletions →
    Announced T i.uuid → Deleted l₁ i.uuid
  /-- A node is told of as deleted before a younger node of its name and parent is told of. -/
  siblings : ∀ {l₁ q l₂ i j}, T = l₁ ++ q :: l₂ → Precedes ls i j → i.uuid ∈ q.deletions →
    ¬ Announced l₁ j.uuid

theorem Announced.append_iff : Announced (T ++ ms) u ↔ Announced T u ∨ Announced ms u := by
  simp [Announced, or_and_right, exists_or]

theorem Deleted.append_iff : Deleted (T ++ ms) u ↔ Deleted T u ∨ Deleted ms u := by
  simp [Deleted, or_and_right, exists_or]

/-- Messages that tell of no node say nothing. -/
theorem Stream.of_silent (hT : ∀ m ∈ T, m.announced = [] ∧ m.deletions = []) : Stream ls s T := by
  have hann : ∀ {u}, ¬ Announced T u := by
    rintro u ⟨m, hm, hu⟩
    rw [(hT m hm).1] at hu
    cases hu
  have hdel : ∀ {q u}, q ∈ T → u ∉ q.deletions := by
    intro q u hq hu
    rw [(hT q hq).2] at hu
    cases hu
  refine ⟨?_, fun h => absurd h hann, ?_, fun _ _ _ h => absurd h hann, fun h _ hu => ?_⟩
  · rintro u ⟨m, hm, hu⟩
    exact absurd hu (hdel hm)
  · exact List.pairwise_of_forall_mem_list fun p hp q _ u hu => absurd hu (hdel hp)
  · exact absurd hu (hdel (h ▸ List.mem_append_right _ List.mem_cons_self))

/-- A position in two lists is one in the first or one in the second. -/
theorem split_append {α : Type*} {l l' l₁ l₂ : List α} {x : α} (h : l ++ l' = l₁ ++ x :: l₂) :
    (∃ l₃, l = l₁ ++ x :: l₃) ∨ ∃ l₃, l₁ = l ++ l₃ ∧ l' = l₃ ++ x :: l₂ := by
  rcases List.append_eq_append_iff.mp h with ⟨as, rfl, rfl⟩ | ⟨as, rfl, has⟩
  · exact .inr ⟨as, rfl, rfl⟩
  · cases as with
    | nil => exact .inr ⟨[], by simp, by simpa using has.symm⟩
    | cons y as =>
      obtain ⟨rfl, -⟩ := List.cons.inj has
      exact .inl ⟨as, rfl⟩

/-! ## A step of the server -/

/-- A node in the tree is the only thing a step deletes, and it tells of the deletion. -/
theorem entry_ne_none_of_treeChange {log : List TreeUpdate} (h : TreeChange s s' log)
    (hu : s.entry u ≠ none) : s'.entry u ≠ none ∨ log = [([], [u])] := by
  cases h with
  | none hsame =>
    refine .inl fun hnone => hu ?_
    have := hsame u
    rw [hnone, Option.map_none] at this
    exact Option.map_eq_none_iff.mp this.symm
  | add name uuid pu hctr hfresh hp hname hent =>
    rw [hent]
    split_ifs
    · exact .inl nofun
    · exact .inl hu
  | del uuid hent h0 hleaf hent' =>
    rw [hent']
    split_ifs with huu
    · exact .inr (huu ▸ rfl)
    · exact .inl hu

/-- A node of the run that is in the tree has its parent there. -/
theorem History.parent_ne_none (h : History ls s) (ht : NamedTree 0 s.entry) {i : NamedNode}
    (hi : i ∈ creations ls) (hlive : s.entry i.uuid ≠ none) :
    ∃ ent, s.entry i.uuid = some ent ∧ ent.parent = some i.parentUuid ∧
      s.entry i.parentUuid ≠ none := by
  obtain ⟨ent, hent⟩ := Option.ne_none_iff_exists'.mp hlive
  obtain ⟨pu, hpu⟩ := Option.ne_none_iff_exists'.mp fun hnone =>
    h.uuid_ne_zero hi ((ht.parent_eq_none_iff hent).mp hnone)
  obtain rfl : pu = i.parentUuid :=
    congrArg NamedNode.parentUuid (h.inj hi (h.live hent hpu) rfl)
  exact ⟨ent, hent, hpu, (ht.parent hent hpu).2⟩

/-- What a step creates has a uuid that was not given out before, and a parent in the tree. -/
theorem mem_creations_of_treeChange {i : NamedNode} (h : TreeChange s s' (changeOf (e, o)))
    (hi : i ∈ creations (ls ++ [(e, o)])) : i ∈ creations ls ∨
      s.mUuidCtr.toNat ≤ i.uuid.toNat ∧ s.entry i.parentUuid ≠ none := by
  rw [creations_concat, List.mem_append] at hi
  refine hi.imp_right fun hi => ?_
  generalize changeOf (e, o) = log at h hi
  cases h with
  | none => cases hi
  | add name uuid pu hctr hfresh hp hname hent =>
    obtain rfl : i = ⟨name, uuid, pu⟩ := by simpa using hi
    exact ⟨hctr.ge, hp⟩
  | del => simp at hi

/-- A notification tells of a deletion as the change of the step. -/
theorem Content.change_of_deletions {d : Conn} {t : UInt16} {m : PropertyTreeMessages}
    (h : Content s e o d t m) (hch : TreeChange s s' (changeOf (e, o))) (hu : u ∈ m.deletions) :
    changeOf (e, o) = [([], [u])] := by
  cases m with
  | treeUpdateNotification add del =>
    have hc : changeOf (e, o) = [(add, del)] := h
    rw [hc] at hch ⊢
    cases hch with
    | add => cases hu
    | del uuid => rw [List.mem_singleton.mp hu]
  | _ => cases hu

/-- What is sent in a step extends the stream. -/
theorem Stream.step (h : Stream ls s T) (hrun : ServerRun .init ls s)
    (hacc : acceptedCreates (ls ++ [(e, o)]) < 2 ^ 32 - 1) (hstep : StepOf step s (e, o) s') {c : Conn}
    (hms : ∀ m ∈ ms, ∃ t, .send c ⟨t, m⟩ ∈ o)
    (hdel : ∀ u, changeOf (e, o) = [([], [u])] → Deleted ms u) :
    Stream (ls ++ [(e, o)]) s' (T ++ ms) := by
  have hlt := acceptedCreates_lt_of_concat hacc
  have hw := wellLinked_of_run hrun
  have hi := indexed_of_run hrun hlt
  have ht := hw.namedTree hi
  have ht' := (wellLinked_of_run (hrun.snoc hstep)).namedTree (indexed_of_run (hrun.snoc hstep) hacc)
  have hch := (step_cases hstep).treeChange hw hi
  have hhist := history_of_run hrun hlt
  have hhist' := history_of_run (hrun.snoc hstep) hacc
  have hcontent : ∀ {m}, m ∈ ms → ∃ t, Content s e o c t m := fun hm =>
    (hms _ hm).imp fun t hsend => (step_cases hstep).content hw hi hsend
  -- what the new messages say
  have hnewLive : ∀ {u}, Announced ms u → s'.entry u ≠ none := by
    rintro u ⟨m, hm, hu⟩
    obtain ⟨t, hcm⟩ := hcontent hm
    exact hcm.announced ht hch u hu
  have hnewDead : ∀ {u}, Deleted ms u → u ≠ 0 ∧ Dead s' u := by
    rintro u ⟨m, hm, hu⟩
    obtain ⟨t, hcm⟩ := hcontent hm
    exact hcm.deletions hi hch (mUuidCtr_le_of_step hrun hacc hstep) u hu
  have hnewDel : ∀ {q u}, q ∈ ms → u ∈ q.deletions → changeOf (e, o) = [([], [u])] := by
    intro q u hq hu
    obtain ⟨t, hcm⟩ := hcontent hq
    exact hcm.change_of_deletions hch hu
  have holdDead : ∀ {u}, Deleted T u → u ≠ 0 ∧ Dead s' u := fun hu =>
    (h.dead hu).imp_right fun hdead => hdead.step hrun hacc hstep
  refine ⟨fun {u} hu => ?_, fun {u} hu => ?_, ?_, fun {l₁ q l₂ i} hT hi' hp hann => ?_,
    fun {l₁ q l₂ i j} hT hij hdi hann => ?_⟩
  · exact (Deleted.append_iff.mp hu).elim holdDead hnewDead
  · rw [Deleted.append_iff]
    rcases Announced.append_iff.mp hu with hu | hu
    · rcases h.live hu with hlive | hdead
      · exact (entry_ne_none_of_treeChange hch hlive).imp_right fun hc => .inr (hdel u hc)
      · exact .inr (.inl hdead)
    · exact .inl (hnewLive hu)
  · have hpair : ∀ {p q}, (∃ u ∈ p.deletions, u ∈ q.announced) → p ∈ T ++ ms → q ∉ ms := by
      rintro p q ⟨u, hp, hq⟩ hpm hqm
      refine hnewLive ⟨q, hqm, hq⟩ ?_
      rcases List.mem_append.mp hpm with hpm | hpm
      · exact (holdDead ⟨p, hpm, hp⟩).2.1
      · exact (hnewDead ⟨p, hpm, hp⟩).2.1
    refine List.pairwise_append.mpr ⟨h.once, ?_, fun p hp q hq u hu huq => ?_⟩
    · exact List.pairwise_of_forall_mem_list fun p hp q hq u hu huq =>
        hpair ⟨u, hu, huq⟩ (List.mem_append_right _ hp) hq
    · exact hpair ⟨u, hu, huq⟩ (List.mem_append_left _ hp) hq
  · rcases split_append hT with ⟨l₃, hold⟩ | ⟨l₃, rfl, hnew⟩
    · -- the parent had been deleted before
      have hmem : q ∈ T := hold ▸ List.mem_append_right _ List.mem_cons_self
      have hpdead := h.dead ⟨q, hmem, hp⟩
      have hic : i ∈ creations ls := (mem_creations_of_treeChange hch hi').resolve_right fun hn =>
        hn.2 hpdead.2.1
      rcases Announced.append_iff.mp hann with hann | hann
      · exact h.children hold hic hp hann
      · obtain ⟨-, -, -, hlive⟩ := hhist'.parent_ne_none ht' hi' (hnewLive hann)
        exact absurd (hpdead.2.step hrun hacc hstep).1 hlive
    · -- the parent is deleted in this step, so that no child of it is left
      have hc := hnewDel (hnew ▸ List.mem_append_right _ List.mem_cons_self) hp
      have hcr := creations_concat ls (e, o)
      have hann' : s'.entry i.uuid ≠ none ∨ Announced T i.uuid :=
        (Announced.append_iff.mp hann).symm.imp_left hnewLive
      rw [hc] at hch hcr
      cases hch with
      | del uuid hent h0 hleaf hent' =>
        have hic : i ∈ creations ls := by simpa [hcr] using hi'
        have hdead : s.entry i.uuid = none := by
          by_contra hlive
          obtain ⟨ent, hie, hpar, -⟩ := hhist.parent_ne_none ht hic hlive
          exact hleaf hie hpar
        rw [Deleted.append_iff]
        rcases hann' with hlive | hann
        · rw [hent', hdead, ite_self] at hlive
          exact absurd rfl hlive
        · exact .inl ((h.live hann).resolve_left fun hlive => hlive hdead)
  · rcases split_append hT with ⟨l₃, hold⟩ | ⟨l₃, rfl, hnew⟩
    · have hmem : q ∈ T := hold ▸ List.mem_append_right _ List.mem_cons_self
      have hannT : Announced T j.uuid := by
        obtain ⟨m, hm, hu⟩ := hann
        exact ⟨m, hold ▸ List.mem_append_left _ hm, hu⟩
      have hlti := (h.dead ⟨q, hmem, hdi⟩).2.2
      have hltj : j.uuid.toNat < s.mUuidCtr.toNat :=
        (h.live hannT).elim (fun hlive => hi.entry_lt hlive) fun hdead => (h.dead hdead).2.2
      have hic : i ∈ creations ls :=
        (mem_creations_of_treeChange hch hij.left).resolve_right fun hn => by omega
      have hjc : j ∈ creations ls :=
        (mem_creations_of_treeChange hch hij.right).resolve_right fun hn => by omega
      exact h.siblings hold ⟨hic, hjc, hij.parentUuid, hij.name, hij.lt⟩ hdi hann
    · -- the older node was in the tree, where the younger one could not be created
      have hc := hnewDel (hnew ▸ List.mem_append_right _ List.mem_cons_self) hdi
      have hcr := creations_concat ls (e, o)
      rw [hc] at hch hcr
      cases hch with
      | del uuid hent h0 hleaf hent' =>
        have hic : i ∈ creations ls := by simpa [hcr] using hij.left
        have hjc : j ∈ creations ls := by simpa [hcr] using hij.right
        exact hent (hhist.sibling hic hjc hij.parentUuid hij.name hij.lt)

/-- Once a younger node of its name and parent has been told of, the deletion of a node has been. -/
theorem Stream.sibling_deleted {l : List PropertyTreeMessages} (h : Stream ls s (T ++ l))
    (hhist : History ls s) {i j : NamedNode} (hij : Precedes ls i j) (hi : Announced T i.uuid)
    (hj : Announced T j.uuid) : Deleted T i.uuid := by
  have hdead := hhist.sibling hij.left hij.right hij.parentUuid hij.name hij.lt
  rcases h.live (Announced.append_iff.mpr (.inl hi)) with hlive | ⟨q, hq, hdel⟩
  · exact absurd hdead hlive
  · rcases List.mem_append.mp hq with hq | hq
    · exact ⟨q, hq, hdel⟩
    · obtain ⟨l₁, l₂, rfl⟩ := List.append_of_mem hq
      exact absurd (Announced.append_iff.mpr (.inl hj))
        (h.siblings (List.append_assoc T l₁ (q :: l₂)).symm hij hdel)

/-- Of the nodes that have been told of, and not told of as deleted, no two have the same name and
parent. -/
theorem Stream.eq_of_sibling {l : List PropertyTreeMessages} (h : Stream ls s (T ++ l))
    (hhist : History ls s) {i j : NamedNode} (hi : i ∈ creations ls) (hj : j ∈ creations ls)
    (hai : Announced T i.uuid ∧ ¬ Deleted T i.uuid) (haj : Announced T j.uuid ∧ ¬ Deleted T j.uuid)
    (hparent : i.parentUuid = j.parentUuid) (hname : i.name = j.name) : i.uuid = j.uuid := by
  rcases lt_trichotomy i.uuid.toNat j.uuid.toNat with hlt | heq | hlt
  · exact absurd (h.sibling_deleted hhist ⟨hi, hj, hparent, hname, hlt⟩ hai.1 haj.1) hai.2
  · exact UInt64.toNat_inj.mp heq
  · exact absurd (h.sibling_deleted hhist ⟨hj, hi, hparent.symm, hname.symm, hlt⟩ haj.1 hai.1) haj.2

end PropertyTree.Server
