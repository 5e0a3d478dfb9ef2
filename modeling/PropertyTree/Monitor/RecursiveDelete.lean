import PropertyTree.Monitor.Traversal

/-!
# `onCmdList` with `action=delete`

The command loads the subtree of its start node and goes through it.  It returns, for every tree, with
a line for every proper descendant of the start node and the server's tree without all of them.
-/

namespace PropertyTree.Monitor

open Library Server Client

variable {s : ProtocolHandler} {u : UInt64} {b₀ : Addr}

/-! ## The subtree -/

/-- A node of the subtree in the heap is one among the entries. -/
theorem below_of_reached (hw : WellLinked s) (hi : Indexed s) {b : Addr} (hb : Reached s b₀ b) :
    Below s.entry (uuidAt s.heap b₀) (uuidAt s.heap b) := by
  induction hb with
  | refl => exact .refl
  | tail _ hkid ih =>
    obtain ⟨name, hk⟩ := hkid
    obtain ⟨e, he, hpar, -⟩ := entry_of_mem_kids hw hi hk
    exact ih.tail ⟨e, he, hpar⟩

/-- The uuid of a registered node. -/
theorem uuidAt_of_mTree (hw : WellLinked s) (hb₀ : s.mTree[u]? = some b₀) :
    uuidAt s.heap b₀ = u := by
  obtain ⟨n, hn, hu⟩ := hw.mTree_heap hb₀
  rw [uuidAt_of_heap hn, hu]

/-- The nodes of the listing are the proper descendants. -/
theorem mem_listing_uuidAt_iff (hw : WellLinked s) (hi : Indexed s) (hb₀ : s.mTree[u]? = some b₀)
    {v : UInt64} :
    v ∈ (listing (kids s.heap) (fun _ _ c => c) hw.rank_kids b₀).map (uuidAt s.heap) ↔
      Below s.entry u v ∧ v ≠ u := by
  have hu := uuidAt_of_mTree hw hb₀
  rw [List.mem_map]
  constructor
  · rintro ⟨c, hc, rfl⟩
    obtain ⟨p, name, c, hp, hk, rfl⟩ := mem_listing_iff.mp hc
    have hreach : Reached s b₀ c := hp.tail ⟨name, hk⟩
    refine ⟨hu ▸ below_of_reached hw hi hreach, fun heq => ?_⟩
    -- the node is lower than the start, so it is not the start
    obtain ⟨n, hn, -⟩ := hw.mTree_heap hb₀
    obtain rfl := uuidAt_inj hi (exists_of_reached hw ⟨n, hn⟩ hreach) ⟨n, hn⟩ (heq.trans hu.symm)
    exact absurd (rank_le_of_reach hw.rank_kids hp) (not_le.mpr (hw.rank_kids p _ hk))
  · rintro ⟨hbelow, hne⟩
    obtain ⟨c, hc, hreach⟩ := exists_reach_of_below hw hi hb₀ hbelow
    rcases hreach.cases_tail with rfl | ⟨p, hp, name, hk⟩
    · exact absurd ((uuidAt_of_mTree hw hc).symm.trans hu) hne
    · exact ⟨c, mem_listing_iff.mpr ⟨p, name, c, hp, hk, rfl⟩, uuidAt_of_mTree hw hc⟩

/-- Different nodes of the listing have different uuids. -/
theorem nodup_map_uuidAt (hw : WellLinked s) (hi : Indexed s) (hb₀ : s.mTree[u]? = some b₀) :
    ((listing (kids s.heap) (fun _ _ c => c) hw.rank_kids b₀).map (uuidAt s.heap)).Nodup := by
  obtain ⟨n, hn, -⟩ := hw.mTree_heap hb₀
  refine List.Nodup.map_on (fun x hx y hy heq => ?_) (listing_nodup hw.rank_kids
    (fun h h' => hw.nodeTree.isKid_unique h h') hw.nodeTree.kids_nodup b₀)
  obtain ⟨p, name, x, hp, hk, rfl⟩ := mem_listing_iff.mp hx
  obtain ⟨q, name', y, hq, hk', rfl⟩ := mem_listing_iff.mp hy
  exact uuidAt_inj hi (exists_of_reached hw ⟨n, hn⟩ (hp.tail ⟨name, hk⟩))
    (exists_of_reached hw ⟨n, hn⟩ (hq.tail ⟨name', hk'⟩)) heq

/-! ## The start of the loop -/

/-- The objects of a mirror for the nodes of the server's heap. -/
def objectOf (s : ProtocolHandler) (m : Mirror) (b : Addr) : Addr :=
  (m.mTree[uuidAt s.heap b]?).getD 0

/-- In a loaded subtree nothing is gone. -/
theorem pruned_of_loaded (hw : WellLinked s) (hi : Indexed s) (hb₀ : s.mTree[u]? = some b₀)
    {m m₁ : Mirror} (h : Loaded s.entry u m m₁) :
    Pruned s b₀ (objectOf s m₁) [] [] m₁ [] := by
  have hu := uuidAt_of_mTree hw hb₀
  obtain ⟨n₀, hn₀, -⟩ := hw.mTree_heap hb₀
  -- the object of a node of the subtree, with what `Loaded` says about it
  have hnode : ∀ {b : Addr}, Reached s b₀ b → ∃ e n, s.entry (uuidAt s.heap b) = some e ∧
      m₁.mTree[uuidAt s.heap b]? = some (objectOf s m₁ b) ∧
      m₁.heap[objectOf s m₁ b]? = some n ∧ n.uuid = uuidAt s.heap b ∧
      Filled (fun _ => True) m₁ (uuidAt s.heap b) e (objectOf s m₁ b) n ∧
      ∀ (name : Name) (x : Addr), n.children[name]? = some x ↔ ∃ w e', s.entry w = some e' ∧
        e'.parent = some (uuidAt s.heap b) ∧ e'.name = name ∧ m₁.mTree[w]? = some x := by
    intro b hb
    obtain ⟨k, hk⟩ := exists_of_reached hw ⟨n₀, hn₀⟩ hb
    have he := entry_of_some (hi.heap_mTree hk) hk
    rw [← uuidAt_of_heap hk] at he
    obtain ⟨a, n, ha, hn, hun, hfill, hch⟩ := h.node (hu ▸ below_of_reached hw hi hb) he
    obtain rfl : objectOf s m₁ b = a := by rw [objectOf, ha, Option.getD_some]
    exact ⟨_, n, he, ha, hn, hun, hfill, hch⟩
  constructor
  · intro b hb
    obtain ⟨-, n, -, -, hn, hun, -⟩ := hnode hb
    exact ⟨n, hn, hun⟩
  · intro p c name n hp hk hn
    obtain ⟨e, n', he, -, hn', -, ⟨hname, hpar⟩, -⟩ := hnode (hp.tail ⟨name, hk⟩)
    rw [hn, Option.some.injEq] at hn'
    subst hn'
    obtain ⟨e', he', hpar', hname'⟩ := entry_of_mem_kids hw hi hk
    rw [he, Option.some.injEq] at he'
    subst he'
    refine ⟨hname.trans hname', ?_⟩
    rcases hpar with ⟨hnone, -⟩ | ⟨pu, a, pn, hpu, ha, hna, -⟩
    · rw [hnone] at hpar'
      cases hpar'
    · rw [hpar', Option.some.injEq] at hpu
      rw [hna, objectOf, hpu, ha, Option.getD_some]
  · intro b x n name hb hn hx
    obtain ⟨-, n', -, -, hn', -, -, hch⟩ := hnode hb
    rw [hn, Option.some.injEq] at hn'
    subst hn'
    obtain ⟨w, e', he', hpar, hname, hw'⟩ := (hch name x).mp hx
    obtain ⟨k, hk⟩ := exists_of_reached hw ⟨n₀, hn₀⟩ hb
    obtain ⟨c, hc, name', hkid⟩ := exists_kid_of_childOf hw hi
      (uuidAt_of_heap hk ▸ hi.heap_mTree hk) ⟨e', he', hpar⟩
    have hcw := uuidAt_of_mTree hw hc
    obtain ⟨e'', he'', -, hname''⟩ := entry_of_mem_kids hw hi hkid
    rw [hcw, he', Option.some.injEq] at he''
    subst he''
    exact ⟨c, hname ▸ hname'' ▸ hkid, by simp, by rw [objectOf, hcw, hw', Option.getD_some]⟩
  · intro b c n name hb hn hk _ _
    obtain ⟨-, n', -, -, hn', -, -, hch⟩ := hnode hb
    rw [hn, Option.some.injEq] at hn'
    subst hn'
    obtain ⟨-, -, -, hc, -⟩ := hnode (hb.tail ⟨name, hk⟩)
    obtain ⟨e, he, hpar, hname⟩ := entry_of_mem_kids hw hi hk
    exact (hch name _).mpr ⟨_, e, he, hpar, hname, hc⟩
  · intro b x _ hx
    rw [objectOf, hx, Option.getD_some]
  · simp
  · simp

variable {σ : Session}

/-- The start node is registered at the server. -/
theorem InSync.exists_start (h : InSync σ) {names : List Name}
    (hu : Leads σ.server.entry 0 names u) : ∃ b₀, σ.server.mTree[u]? = some b₀ := by
  have hentry : ∃ e, σ.server.entry u = some e := by
    rcases List.eq_nil_or_concat' names with rfl | ⟨names, name, rfl⟩
    · obtain rfl : 0 = u := hu
      obtain ⟨a, n, ha, hn, -⟩ := h.rooted
      obtain ⟨e, he, -⟩ := h.agrees.node ha hn
      exact ⟨e, he⟩
    · obtain ⟨w, e, -, he, -⟩ := leads_concat.mp hu
      exact ⟨e, he⟩
  obtain ⟨e, he⟩ := hentry
  rcases h.wellLinked.entry_cases u with ⟨-, hnone⟩ | ⟨b, bn, hb, -⟩
  · rw [hnone] at he
    cases he
  · exact ⟨b, hb⟩

/-- `onCmdList` up to its loop. -/
def firstLevel (args : ArgsMap) : Command (List (Name × Addr)) := do
  let root ← startNode args
  loadChildren root true
  children root

/-- `onCmdList` is its loop on the children of the start node. -/
theorem onCmdList_eq (fuel : ℕ) (initial : UInt32) (args : ArgsMap) :
    onCmdList fuel initial args = (do
      let l ← firstLevel args
      return .listing (← listLoop (assignAction args initial) fuel [⟨[], l, 0⟩] [])) := by
  simp only [onCmdList, firstLevel, bind_assoc]

/-- In a session with a loaded subtree nothing is gone. -/
theorem InSync.pruning_of_loaded (h : InSync σ) (hb₀ : σ.server.mTree[u]? = some b₀) {τ : Session}
    {qs : List PropertyTreeMessages} {m m₁ : Mirror} {a : Addr}
    (hτ : Holds { σ.outside with requests := qs } (Exactly m₁) τ)
    (hloaded : Loaded σ.server.entry u m m₁) (ha : m₁.mTree[u]? = some a) :
    Pruning σ.server b₀ (objectOf σ.server m₁) σ.destroyed [] τ ∧
      objectOf σ.server m₁ b₀ = a := by
  have hserver : τ.server = σ.server := congrArg Outside.server hτ.outside
  refine ⟨⟨{ hτ with outside := rfl, known := ?_ }, ⟨?_, ?_, ?_⟩, ?_⟩, ?_⟩
  · rw [hτ.known.1, hτ.known.2]
    exact pruned_of_loaded h.wellLinked h.indexed hb₀ hloaded
  · exact hserver ▸ h.wellLinked
  · exact hserver ▸ h.indexed
  · simp [hserver]
  · rw [List.map_nil, List.append_nil]
    exact congrArg Outside.destroyed hτ.outside
  · rw [objectOf, uuidAt_of_mTree h.wellLinked hb₀, ha, Option.getD_some]

/-- What the server lists below a node are its proper descendants. -/
theorem exists_listed_iff (hw : WellLinked s) (hi : Indexed s) (hb₀ : s.mTree[u]? = some b₀)
    {v : UInt64} : (∃ i ∈ listedBelow hw.nodeTree b₀ 1, v = i.uuid) ↔ Below s.entry u v ∧ v ≠ u := by
  rw [← mem_listing_uuidAt_iff hw hi hb₀, List.mem_map]
  constructor
  · rintro ⟨i, hmem, rfl⟩
    obtain ⟨q, name, x, hq, hk, rfl⟩ := exists_of_mem_listedBelow hmem
    exact ⟨x, mem_listing_iff.mpr ⟨q, name, x, hq, hk, rfl⟩, rfl⟩
  · rintro ⟨c, hc, rfl⟩
    obtain ⟨q, name, c, hq, hk, rfl⟩ := mem_listing_iff.mp hc
    refine ⟨listEntry s.heap q name c, ?_, rfl⟩
    rw [listedBelow, if_pos (by decide)]
    exact List.mem_map.mpr ⟨(q, name, c), hw.nodeTree.mem_preorder_iff.mpr ⟨hq, hk⟩, rfl⟩

/-- The nodes `onCmdList` comes by when the names lead to its start node `u`: those on the way and
those below. -/
def ComesBy (ent : Entries) (names : List Name) (u v : UInt64) : Prop :=
  OnWay ent 0 names v ∨ Below ent u v ∧ v ≠ u

/-- The mirror `m'` is what `m` has become when the start node has been looked up and what is below it
has been loaded. -/
structure Listed (ent : Entries) (names : List Name) (u : UInt64) (m m' : Mirror) : Prop where
  grown : Grown ent m m'
  parentOf : ∀ v, ComesBy ent names u v → m'.parentOf v ≠ none
  same : (∀ v, ComesBy ent names u v → m.parentOf v ≠ none) →
    ∀ v, m.parentOf v = none → m'.parentOf v = none

/-- No node has got a parent exactly if all nodes the command has come by had theirs. -/
theorem Listed.parentOf_iff {ent : Entries} {names : List Name} {m m' : Mirror}
    (h : Listed ent names u m m') :
    (∀ v, m.parentOf v = none → m'.parentOf v = none) ↔
      ∀ v, ComesBy ent names u v → m.parentOf v ≠ none :=
  ⟨fun hall v hv hnone => h.parentOf v hv (hall v hnone), h.same⟩

/-- The start node has been looked up, and what is below it is loaded. -/
theorem InSync.listed (h : InSync σ) {names : List Name} {m : Mirror} {a : Addr}
    (hlooked : Looked σ.server.entry 0 names σ.mirror m (some a))
    (hb₀ : σ.server.mTree[u]? = some b₀) :
    Listed σ.server.entry names u σ.mirror
      (m.addNodes (listedBelow h.wellLinked.nodeTree b₀ 1)) := by
  have ht := h.wellLinked.namedTree h.indexed
  have hm := hlooked.grown
  have hentries : ∀ i ∈ listedBelow h.wellLinked.nodeTree b₀ 1, EntryOf σ.server.entry i :=
    fun i hmem => entryOf_of_mem_listedBelow h.wellLinked h.indexed hmem
  have hadd := (Adding.addNodes hm.agrees ht hentries).parentOf_iff hm.agrees
  have hlisted := fun v => exists_listed_iff h.wellLinked h.indexed hb₀ (v := v)
  have hgrown := Grown.addNodes hm.agrees ht hentries
  refine ⟨hm.trans hgrown, fun v hv => ?_, fun hall v hnone => ?_⟩
  · rcases hv with hway | hbelow
    · exact hgrown.parentOf (hlooked.way v hway)
    · rw [ne_eq, hadd]
      exact fun hboth => hboth.2 ((hlisted v).mpr hbelow)
  · obtain rfl := hlooked.same fun v hv => hall v (.inl hv)
    exact (hadd v).mpr ⟨hnone, fun hl => hall v (.inr ((hlisted v).mp hl)) hnone⟩

/-- The loop starts from the children of the start node, of which none is gone. -/
theorem InSync.returns_firstLevel (h : InSync σ) {args : ArgsMap}
    (hu : Leads σ.server.entry 0 (startNames args) u) (hb₀ : σ.server.mTree[u]? = some b₀) :
    Returns (firstLevel args) σ fun l τ => ∃ obj,
      l = (kids σ.server.heap b₀).map (fun kc => (kc.1, obj kc.2)) ∧
        Pruning σ.server b₀ obj σ.destroyed [] τ ∧ τ.inbound = [] ∧
        Listed σ.server.entry (startNames args) u σ.mirror τ.mirror := by
  refine (h.returns_startNode hu).bind ?_
  rintro a σ₁ ⟨qs, m, h₁, -, hlooked⟩
  have hm := hlooked.grown
  obtain ⟨v, hv, ha, hfill⟩ := hlooked.found a rfl
  obtain rfl := hu.node_eq (h.wellLinked.namedTree h.indexed) hv
  obtain ⟨n, hn, hnu⟩ := hm.agrees.mTree_heap ha
  obtain ⟨n₀, hn₀, -⟩ := h.wellLinked.mTree_heap hb₀
  have hstep : ∀ c t, σ.server.step (.message c ⟨t, .treeInfoRequest u selfName 1⟩) =
      .ok (σ.server, [.send c ⟨t, .treeInfoResponse (listedBelow h.wellLinked.nodeTree b₀ 1)⟩]) :=
    fun c t => treeInfo_self h.wellLinked.nodeTree hb₀ hn₀
  -- the server's answer is the list that loads the subtree
  obtain ⟨l, hl, hloaded⟩ := snapshot_roundtrip h.wellLinked h.indexed hm.agrees hfill
    (show (1 : UInt8) ≠ 0 by decide) 0 σ.connection
  obtain rfl : listedBelow h.wellLinked.nodeTree b₀ 1 = l := by
    have := (hstep σ.connection 0).symm.trans hl
    simpa using this
  have hrequest : treeInfoRequest n selfName true = .treeInfoRequest u selfName 1 := by
    rw [treeInfoRequest, hnu]
    rfl
  refine (returns_loadChildren h₁ hn (.inl rfl)
    (fun t => hrequest ▸ hstep σ.connection t)).bind fun _ σ₂ h₂ => ?_
  have ha' := hloaded.same_object ha
  obtain ⟨hpruning, rfl⟩ := h.pruning_of_loaded hb₀ h₂ hloaded ha'
  obtain ⟨n', hn', -⟩ := hpruning.holds.known.object .refl
  rw [h₂.known.1] at hn'
  refine (returns_object_exactly h₂ hn').bind ?_
  rintro _ τ ⟨rfl, hτ⟩
  obtain ⟨hpruning', -⟩ := h.pruning_of_loaded hb₀ hτ hloaded ha'
  refine returns_pure ⟨_, ?_, hpruning', hτ.known.2, hτ.known.1 ▸ h.listed hlooked hb₀⟩
  exact hpruning'.holds.known.children_toList .refl (hτ.known.1 ▸ hn') (by simp)

/-! ## The command -/

/-- `onCmdList` has printed the `lines` and deleted what is below the node `u`. -/
structure DeletesBelow (u : UInt64) (σ : Session) (lines : List Line) (τ : Session) : Prop where
  /-- Every proper descendant has been visited once. -/
  visited_nodup : (lines.map Line.uuid).Nodup
  visited : ∀ v, v ∈ lines.map Line.uuid ↔ Below σ.server.entry u v ∧ v ≠ u
  /-- Each has been destroyed once, with success, and after its children. -/
  destroyed : ∃ uuids : List UInt64, τ.destroyed = σ.destroyed ++ uuids.map (fun v => (v, true)) ∧
    uuids.Nodup ∧ (∀ v, v ∈ uuids ↔ Below σ.server.entry u v ∧ v ≠ u) ∧
    ∀ l₁ v l₂, uuids = l₁ ++ v :: l₂ → ∀ w, ChildOf σ.server.entry v w → w ∈ l₁
  /-- The server's tree is what it was, without the descendants. -/
  entry_eq : ∀ v, ¬ (Below σ.server.entry u v ∧ v ≠ u) → τ.server.entry v = σ.server.entry v
  live : τ.server.entry u ≠ none
  empty : ∀ w, ¬ ChildOf τ.server.entry u w

/-- When the loop is through, everything below the start is gone. -/
theorem Pruning.deletesBelow {obj : Addr → Addr} {τ : Session} {lines : List Line}
    (hw : WellLinked σ.server) (hi : Indexed σ.server) (hb₀ : σ.server.mTree[u]? = some b₀)
    (hlines : lines.map Line.uuid = (listing (kids σ.server.heap) (fun _ _ c => c) hw.rank_kids
      b₀).map (uuidAt σ.server.heap))
    (h : Pruning σ.server b₀ obj σ.destroyed (postorder (kids σ.server.heap) hw.rank_kids b₀) τ) :
    DeletesBelow u σ lines τ := by
  have hperm := (postorder_perm hw.rank_kids b₀).map (uuidAt σ.server.heap)
  have hmem : ∀ v, v ∈ (postorder (kids σ.server.heap) hw.rank_kids b₀).map
      (uuidAt σ.server.heap) ↔ Below σ.server.entry u v ∧ v ≠ u :=
    fun v => hperm.mem_iff.trans (mem_listing_uuidAt_iff hw hi hb₀)
  have hentry : ∀ v, ¬ (Below σ.server.entry u v ∧ v ≠ u) →
      τ.server.entry v = σ.server.entry v := by
    intro v hv
    rw [h.remaining.entry, if_neg fun hgone => hv ((hmem v).mp hgone)]
  refine ⟨?_, ?_, ⟨_, by simpa [Function.comp_def] using h.destroyed, ?_, hmem, ?_⟩, hentry, ?_, ?_⟩
  · rw [hlines]
    exact nodup_map_uuidAt hw hi hb₀
  · intro v
    rw [hlines]
    exact mem_listing_uuidAt_iff hw hi hb₀
  · exact hperm.nodup_iff.mpr (nodup_map_uuidAt hw hi hb₀)
  · intro l₁ v l₂ hsplit w hchild
    obtain ⟨k₁, k₂, hk, rfl, hk₂⟩ := List.map_eq_append_iff.mp hsplit
    obtain ⟨c, k₃, rfl, rfl, -⟩ := List.map_eq_cons_iff.mp hk₂
    have hc : c ∈ listing (kids σ.server.heap) (fun _ _ c => c) hw.rank_kids b₀ :=
      (postorder_perm hw.rank_kids b₀).mem_iff.mp (by simp [hk])
    obtain ⟨p, name, c, -, hkc, rfl⟩ := mem_listing_iff.mp hc
    obtain ⟨n, hn⟩ := Option.isSome_iff_exists.mp
      (Std.ExtTreeMap.mem_iff_isSome_getElem?.mp (hw.nodeTree.mem_heap_of_mem_kids hkc))
    obtain ⟨x, hx, name', hkx⟩ := exists_kid_of_childOf hw hi
      (uuidAt_of_heap hn ▸ hi.heap_mTree hn) hchild
    exact List.mem_map.mpr ⟨x, childrenFirst_postorder hw.rank_kids b₀ _ _ _ hk _ hkx,
      uuidAt_of_mTree hw hx⟩
  · obtain ⟨n, hn, -⟩ := hw.mTree_heap hb₀
    rw [hentry u (by simp), entry_of_some hb₀ hn]
    simp
  · rintro w ⟨e, he, hpar⟩
    rw [h.remaining.entry] at he
    split_ifs at he with hgone
    refine hgone ((hmem w).mpr ⟨.tail .refl ⟨e, he, hpar⟩, ?_⟩)
    exact ((hw.namedTree hi).parent he hpar).1

/-- When the variable `action` holds `DEL`, `onCmdList` returns and deletes what is below the start. -/
theorem InSync.onCmdList_deletesBelow (h : InSync σ) {args : ArgsMap} {initial : UInt32}
    (hassign : assignAction args initial = DEL)
    (hu : Leads σ.server.entry 0 (startNames args) u) :
    ∃ fuel₀, ∀ fuel, fuel₀ ≤ fuel → ∃ lines τ,
      (onCmdList fuel initial args).result σ = (.ok (.listing lines), τ) ∧
        DeletesBelow u σ lines τ := by
  obtain ⟨b₀, hb₀⟩ := h.exists_start hu
  obtain ⟨n₀, hn₀, -⟩ := h.wellLinked.mTree_heap hb₀
  obtain ⟨n, hempties⟩ := exists_empties h.wellLinked h.indexed ⟨n₀, hn₀⟩
    (p := b₀) Relation.ReflTransGen.refl
  refine ⟨n + 1, fun fuel hfuel => ?_⟩
  obtain ⟨k, rfl⟩ := Nat.exists_eq_add_of_le' hfuel
  suffices hreturns : Returns (onCmdList (k + (n + 1)) initial args) σ fun r τ =>
      ∃ lines, r = .listing lines ∧ DeletesBelow u σ lines τ by
    obtain ⟨_, τ, hres, lines, rfl, hdeletes⟩ := hreturns
    exact ⟨lines, τ, hres, hdeletes⟩
  rw [onCmdList_eq]
  refine (h.returns_firstLevel hu hb₀).bind ?_
  rintro l σ₁ ⟨obj, rfl, h₁, -⟩
  rw [hassign, Nat.add_comm n 1, ← Nat.add_assoc]
  -- the loop from the level of the start node to its end
  refine Returns.bind (P := fun lines τ => DeletesBelow u σ lines τ) ?_ fun lines τ hτ =>
    returns_pure ⟨lines, rfl, hτ⟩
  refine hempties h₁ (by simp) fun lines τ hlines hτ => ?_
  rw [List.nil_append, List.nil_append, listLoop_of_last (levelOf_end [])]
  rw [preBlocks_kids] at hlines
  rw [postBlocks_kids, List.nil_append] at hτ
  exact returns_pure (hτ.deletesBelow h.wellLinked h.indexed hb₀ hlines)

/-- Recursive delete is complete: from every session in sync and for every start node `onCmdList`
with `action=delete` returns, has visited every proper descendant once, has destroyed each once, with
success and after its children, and leaves the start node at the server without children. -/
theorem onCmdList_deletes (h : InSync σ) {args : ArgsMap}
    (haction : args[actionArg]? = some deleteAction)
    (hu : Leads σ.server.entry 0 (startNames args) u) (initial : UInt32) :
    ∃ fuel₀, ∀ fuel, fuel₀ ≤ fuel → ∃ lines τ,
      (onCmdList fuel initial args).result σ = (.ok (.listing lines), τ) ∧
        DeletesBelow u σ lines τ :=
  h.onCmdList_deletesBelow (if_pos haction) hu

/-- The arguments `action=delete`. -/
def deleteArgs : ArgsMap := (∅ : ArgsMap).insert actionArg deleteAction

/-- On the server with the nodes `"/a"` and `"/a/b"` this deletes both. -/
theorem onCmdList_deletes_smallTree : ∃ σ, InSync σ ∧ ChildOf σ.server.entry 0 1 ∧
    ∃ fuel lines τ, (onCmdList fuel 0 deleteArgs).result σ = (.ok (.listing lines), τ) ∧
      DeletesBelow 0 σ lines τ := by
  have hrun : ∃ r, execute ProtocolHandler.step (fun _ _ => true) .init smallTree = some r ∧
      acceptedCreates r.2 < 2 ^ 32 - 1 ∧ (r.1.entry 1).any fun e => e.parent = some 0 :=
    ⟨_, rfl, by decide, by decide +kernel⟩
  obtain ⟨⟨s, ls⟩, hexec, hacc, hentry⟩ := hrun
  have hsync := inSync_fresh 7 (run_of_execute _ hexec).of_guarded hacc
  have hstart : Leads (Session.fresh 7 s).server.entry 0 (startNames deleteArgs) 0 := by
    rw [show startNames deleteArgs = [] by decide]
    rfl
  obtain ⟨fuel, hfuel⟩ := onCmdList_deletes hsync (show deleteArgs[actionArg]? = _ by decide)
    hstart 0
  obtain ⟨lines, τ, hres, hdeletes⟩ := hfuel fuel le_rfl
  obtain ⟨e, he, hpar⟩ := (Option.any_eq_true _ _).mp hentry
  exact ⟨_, hsync, ⟨e, he, by simpa using hpar⟩, fuel, lines, τ, hres, hdeletes⟩

end PropertyTree.Monitor
