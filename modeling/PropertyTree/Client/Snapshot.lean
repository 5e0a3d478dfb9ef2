import PropertyTree.Client.Replay

/-!
# Loading a subtree

The answer to a recursive `TreeInfoRequest` for `"."` lists the subtree of a node in preorder.
Adding the list to a mirror that agrees with the server's tree makes the mirror's subtree equal to
the server's: an entry is added when its parent has been filled, so that no new placeholder is made,
and every entry fills a placeholder in place or attaches a new node.
-/

namespace PropertyTree.Client

open Library Server

variable {s : ProtocolHandler}

/-! ## The listing in terms of entries -/

/-- A child among the entries is a child in the heap. -/
theorem exists_kid_of_childOf (h : WellLinked s) (hi : Indexed s) {u v : UInt64} {a : Addr}
    (ha : s.mTree[u]? = some a) (hchild : ChildOf s.entry u v) :
    ∃ c, s.mTree[v]? = some c ∧ IsKid (kids s.heap) a c := by
  obtain ⟨e, he, hpar⟩ := hchild
  rcases h.entry_cases v with ⟨-, hnone⟩ | ⟨c, cn, hv, hcn, -, hve⟩
  · rw [hnone] at he
    cases he
  · rw [hve] at he
    cases he
    obtain ⟨p, hp, hpu⟩ := Option.bind_eq_some_iff.mp hpar
    obtain ⟨pn, hpn, hlink⟩ := h.parent_heap hcn hp
    rw [hpn, Option.map_some, Option.some.injEq] at hpu
    have hpt := hi.heap_mTree hpn
    rw [hpu, ha, Option.some.injEq] at hpt
    subst hpt
    exact ⟨c, hv, cn.name, mem_kids_iff.mpr ⟨pn, hpn, hlink⟩⟩

/-- A uuid in the subtree of `u` is reached from the object of `u` in the heap. -/
theorem exists_reach_of_below (h : WellLinked s) (hi : Indexed s) {u v : UInt64} {a : Addr}
    (ha : s.mTree[u]? = some a) (hbelow : Below s.entry u v) :
    ∃ c, s.mTree[v]? = some c ∧ Relation.ReflTransGen (IsKid (kids s.heap)) a c := by
  induction hbelow with
  | refl => exact ⟨a, ha, .refl⟩
  | tail _ hchild ih =>
    obtain ⟨b, hb, hreach⟩ := ih
    obtain ⟨c, hc, hkid⟩ := exists_kid_of_childOf h hi hb hchild
    exact ⟨c, hc, hreach.tail hkid⟩

/-! ## Loading -/

/-- `IsChild m a b`: the object at `b` is listed in the children map of the object at `a`. -/
def IsChild (m : Mirror) (a b : Addr) : Prop :=
  ∃ (n : Node) (name : Name), m.heap[a]? = some n ∧ n.children[name]? = some b

/-- The mirror `m'` is `m` with the subtree of `pu` loaded. -/
structure Loaded (ent : Entries) (pu : UInt64) (m m' : Mirror) : Prop where
  /-- Every node of the subtree is there, filled from its entry, and its children map lists exactly
  its children. -/
  node : ∀ {v : UInt64} {e}, Below ent pu v → ent v = some e → ∃ (a : Addr) (n : Node),
    m'.mTree[v]? = some a ∧ m'.heap[a]? = some n ∧ n.uuid = v ∧ Filled (fun _ => True) m' v e a n ∧
      ∀ (name : Name) (x : Addr), n.children[name]? = some x ↔
        ∃ w e', ent w = some e' ∧ e'.parent = some v ∧ e'.name = name ∧ m'.mTree[w]? = some x
  /-- Nothing else is reached from its root. -/
  reach : ∀ {a x : Addr}, m'.mTree[pu]? = some a →
    (Relation.ReflTransGen (IsChild m') a x ↔ ∃ v, Below ent pu v ∧ m'.mTree[v]? = some x)
  /-- The known uuids keep their objects. -/
  same_object : ∀ {v : UInt64} {a : Addr}, m.mTree[v]? = some a → m'.mTree[v]? = some a
  /-- A placeholder is one that was there before, and it is not in the subtree. -/
  placeholder : ∀ {v : UInt64} {a : Addr} {n : Node}, m'.mTree[v]? = some a →
    m'.heap[a]? = some n → Placeholder n →
    m.mTree[v]? = some a ∧ m.heap[a]? = some n ∧ ¬ Below ent pu v
  /-- Outside the subtree nothing has changed. -/
  outside : ∀ {v : UInt64}, ¬ Below ent pu v → m'.mTree[v]? = m.mTree[v]? ∧
    ∀ {a : Addr}, m.mTree[v]? = some a → m'.heap[a]? = m.heap[a]?

/-- The node of `v` is known and is not a placeholder. -/
def KnownFilled (m : Mirror) (v : UInt64) : Prop :=
  ∃ (a : Addr) (n : Node), m.mTree[v]? = some a ∧ m.heap[a]? = some n ∧ ¬ Placeholder n

/-- What holds while the entries of the subtree of `pu` are being added to `m`. -/
structure Loading (ent : Entries) (pu : UInt64) (m m' : Mirror) : Prop where
  agrees : Agrees (fun _ => True) ent m'
  same_object : ∀ {v : UInt64} {a : Addr}, m.mTree[v]? = some a → m'.mTree[v]? = some a
  placeholder : ∀ {v : UInt64} {a : Addr} {n : Node}, m'.mTree[v]? = some a →
    m'.heap[a]? = some n → Placeholder n → m.mTree[v]? = some a ∧ m.heap[a]? = some n
  outside : ∀ {v : UInt64}, ¬ Below ent pu v → m'.mTree[v]? = m.mTree[v]? ∧
    ∀ {a : Addr}, m.mTree[v]? = some a → m'.heap[a]? = m.heap[a]?

variable {linked : UInt64 → Prop} {ent : Entries} {m m' : Mirror} {pu : UInt64}

/-- An entry whose parent is known attaches the node of its uuid, an old or a new one. -/
theorem Agrees.exists_attached (h : Agrees linked ent m) (ht : NamedTree 0 ent) {i : NamedNode}
    {e : Entry UInt64 Name Buffer} (he : ent i.uuid = some e) (hpar : e.parent = some i.parentUuid)
    {p : Addr} (hp : m.mTree[i.parentUuid]? = some p) :
    ∃ (pn : Node) (a : Addr) (n : Node), m.heap[p]? = some pn ∧
      (m.mTree[i.uuid]? = some a ∧ m.heap[a]? = some n ∨
        m.mTree[i.uuid]? = none ∧ a = m.nextAddr ∧ n = .make i.name (some p) i.uuid) ∧
      Mirror.Attached m i.name i.uuid p pn a n (m.addNode i) := by
  obtain ⟨pn, hpn, -⟩ := h.mTree_heap hp
  cases hu : m.mTree[i.uuid]? with
  | none =>
    exact ⟨pn, _, _, hpn, .inr ⟨rfl, rfl, rfl⟩,
      Mirror.addNode_of_unknown hu hp hpn (h.heap_lt hpn)⟩
  | some a =>
    obtain ⟨n, hn, -⟩ := h.mTree_heap hu
    have hap : a ≠ p := by
      rintro rfl
      exact (ht.parent he hpar).1 (h.inj hu hp)
    exact ⟨pn, a, n, hpn, .inl ⟨rfl, hn⟩,
      Mirror.addNode_of_known hu hn hp hpn hap (h.heap_lt hn)⟩

/-- Adding an entry of the subtree whose parent is filled. -/
theorem Loading.addNode (h : Loading ent pu m m') (ht : NamedTree 0 ent) {i : NamedNode}
    {e : Entry UInt64 Name Buffer} (he : ent i.uuid = some e) (hpar : e.parent = some i.parentUuid)
    (hname : e.name = i.name) (hbelow : Below ent pu i.parentUuid)
    (hp : KnownFilled m' i.parentUuid) :
    Loading ent pu m (m'.addNode i) ∧ KnownFilled (m'.addNode i) i.uuid ∧
      ∀ v, KnownFilled m' v → KnownFilled (m'.addNode i) v := by
  obtain ⟨p, pn₀, hp, hpn₀, hfilled⟩ := hp
  obtain ⟨pn, a, n, hpn, ha, hatt⟩ := h.agrees.exists_attached ht he hpar hp
  rw [hpn₀, Option.some.injEq] at hpn
  subst hpn
  have hagrees := h.agrees.attach ht he hpar hname hp hpn₀ ha hatt
  have hmTree := hatt.mTree
  have hheap := hatt.heap
  have hu' : (m'.addNode i).mTree[i.uuid]? = some a := by rw [hmTree, if_pos rfl]
  have hne := (ht.parent he hpar).1
  have hp' : (m'.addNode i).mTree[i.parentUuid]? = some p := by
    rw [hmTree, if_neg (Ne.symm hne), hp]
  have hap : p ≠ a := by
    rintro rfl
    exact hne (hagrees.inj hu' hp')
  have hother : ∀ {v : UInt64} {b : Addr}, v ≠ i.uuid → m'.mTree[v]? = some b → b ≠ a := by
    rintro v b hv hb rfl
    exact hv (hagrees.inj (by rw [hmTree, if_neg hv, hb]) hu')
  have hotherp : ∀ {v : UInt64} {b : Addr}, v ≠ i.parentUuid → m'.mTree[v]? = some b → b ≠ p := by
    rintro v b hv hb rfl
    exact hv (h.agrees.inj hb hp)
  have hbelow' : Below ent pu i.uuid := hbelow.tail ⟨e, he, hpar⟩
  refine ⟨⟨hagrees, ?_, ?_, ?_⟩, ?_, ?_⟩
  · intro v b hv
    have hv' := h.same_object hv
    rw [hmTree]
    split_ifs with hvu
    · subst hvu
      rcases ha with ⟨hu, -⟩ | ⟨hu, -⟩ <;> rw [hv'] at hu <;> cases hu
      rfl
    · exact hv'
  · intro v b nb hv hnb hplace
    rw [hmTree] at hv
    rw [hheap] at hnb
    split_ifs at hv with hvu
    · cases hv
      rw [if_pos rfl] at hnb
      cases hnb
      cases hplace.2
    · rw [if_neg (hother hvu hv)] at hnb
      split_ifs at hnb with hbp
      · cases hnb
        subst hbp
        obtain rfl := h.agrees.inj hv hp
        exact absurd hplace hfilled
      · exact h.placeholder hv hnb hplace
  · intro v hv
    have hvu : v ≠ i.uuid := by
      rintro rfl
      exact hv hbelow'
    have hvp : v ≠ i.parentUuid := by
      rintro rfl
      exact hv hbelow
    refine ⟨by rw [hmTree, if_neg hvu, (h.outside hv).1], fun {b} hb => ?_⟩
    have hb' := h.same_object hb
    rw [hheap, if_neg (hother hvu hb'), if_neg (hotherp hvp hb'), (h.outside hv).2 hb]
  · refine ⟨a, _, hu', (hheap a).trans (if_pos rfl), ?_⟩
    rintro ⟨-, hnone⟩
    cases hnone
  · rintro v ⟨b, nb, hv, hnb, hfill⟩
    by_cases hvu : v = i.uuid
    · subst hvu
      refine ⟨a, _, hu', (hheap a).trans (if_pos rfl), ?_⟩
      rintro ⟨-, hnone⟩
      cases hnone
    · have hba := hother hvu hv
      by_cases hbp : b = p
      · subst hbp
        rw [hpn₀] at hnb
        cases hnb
        exact ⟨b, _, by rw [hmTree, if_neg hvu, hv],
          (hheap b).trans ((if_neg hba).trans (if_pos rfl)), hfill⟩
      · exact ⟨b, nb, by rw [hmTree, if_neg hvu, hv], by rw [hheap, if_neg hba, if_neg hbp, hnb],
          hfill⟩

/-- When all nodes of the subtree have been filled, it is loaded. -/
theorem Loading.loaded (h : Loading ent pu m m')
    (hall : ∀ {v : UInt64}, Below ent pu v → KnownFilled m' v) : Loaded ent pu m m' := by
  -- a child among the entries is an entry of the children map, and conversely
  have hchildren : ∀ {v : UInt64} {a : Addr} {n : Node}, Below ent pu v → m'.mTree[v]? = some a →
      m'.heap[a]? = some n → ∀ (name : Name) (x : Addr), n.children[name]? = some x ↔
        ∃ w e', ent w = some e' ∧ e'.parent = some v ∧ e'.name = name ∧ m'.mTree[w]? = some x := by
    intro v a n hv ha hn name x
    constructor
    · intro hx
      obtain ⟨w, nw, hw, hnw, hnp, hname⟩ := h.agrees.child ha hn hx
      obtain ⟨e', pw, -, he', hpw, hname', hpa, -⟩ := h.agrees.filled hw hnw hnp
      obtain rfl := h.agrees.inj ha hpa
      exact ⟨w, e', he', hpw, hname'.symm.trans hname, hw⟩
    · rintro ⟨w, e', he', hpw, rfl, hw⟩
      obtain ⟨x', nw, hx', hnw, hfill⟩ := hall (hv.tail ⟨e', he', hpw⟩)
      rw [hw, Option.some.injEq] at hx'
      subst hx'
      obtain ⟨e'', he'', hor⟩ := h.agrees.node hw hnw
      rw [he', Option.some.injEq] at he''
      subst he''
      rcases hor with ⟨hname, ⟨hnone, -⟩ | ⟨pw, p, pn, hpw', hp, hnp, hpn, hlink⟩⟩ | hplace
      · rw [hpw] at hnone
        cases hnone
      · rw [hpw, Option.some.injEq] at hpw'
        subst hpw'
        rw [ha, Option.some.injEq] at hp
        subst hp
        rw [hn, Option.some.injEq] at hpn
        subst hpn
        exact hname ▸ hlink trivial
      · exact absurd hplace hfill
  constructor
  · intro v e hv he
    obtain ⟨a, n, ha, hn, hfill⟩ := hall hv
    obtain ⟨n', hn', hnv⟩ := h.agrees.mTree_heap ha
    rw [hn, Option.some.injEq] at hn'
    subst hn'
    obtain ⟨e', he', hor⟩ := h.agrees.node ha hn
    rw [he, Option.some.injEq] at he'
    subst he'
    exact ⟨a, n, ha, hn, hnv, hor.resolve_right hfill, hchildren hv ha hn⟩
  · intro a x ha
    constructor
    · intro hreach
      induction hreach with
      | refl => exact ⟨pu, .refl, ha⟩
      | tail _ hchild ih =>
        obtain ⟨v, hv, hvb⟩ := ih
        obtain ⟨n, name, hn, hx⟩ := hchild
        obtain ⟨w, e', he', hpw, -, hw⟩ := (hchildren hv hvb hn name _).mp hx
        exact ⟨w, hv.tail ⟨e', he', hpw⟩, hw⟩
    · rintro ⟨v, hv, hx⟩
      induction hv generalizing x with
      | refl =>
        rw [ha, Option.some.injEq] at hx
        subst hx
        exact .refl
      | tail hb hchild ih =>
        obtain ⟨b, n, hbb, hbn, -⟩ := hall hb
        obtain ⟨e', he', hpw⟩ := hchild
        exact (ih hbb).tail ⟨n, e'.name, hbn,
          (hchildren hb hbb hbn e'.name x).mpr ⟨_, e', he', hpw, rfl, hx⟩⟩
  · exact h.same_object
  · intro v a n ha hn hplace
    obtain ⟨ha', hn'⟩ := h.placeholder ha hn hplace
    refine ⟨ha', hn', fun hv => ?_⟩
    obtain ⟨a', n', ha'', hn'', hfill⟩ := hall hv
    rw [ha, Option.some.injEq] at ha''
    subst ha''
    rw [hn, Option.some.injEq] at hn''
    subst hn''
    exact hfill hplace
  · exact h.outside

/-- The snapshot round trip: the server answers a recursive `TreeInfoRequest` for the node `pu`
itself with a list whose entries, added to any mirror that agrees with the server's tree and has
that node filled, load its subtree. -/
theorem snapshot_roundtrip (h : WellLinked s) (hi : Indexed s) (hm : Agrees (fun _ => True) s.entry m)
    (hp : KnownFilled m pu) {recursive : UInt8} (hrec : recursive ≠ 0) (t : UInt16) (c : Conn) :
    ∃ nodeToAddList, s.handleTreeInfoRequest t pu selfName recursive c =
        .ok (s, [.send c ⟨t, .treeInfoResponse nodeToAddList⟩]) ∧
      Loaded s.entry pu m (m.addNodes nodeToAddList) := by
  have ht := h.namedTree hi
  obtain ⟨a, n, ha, hn, hfill⟩ := hp
  obtain ⟨e, he, -⟩ := hm.node ha hn
  rcases h.entry_cases pu with ⟨-, hnone⟩ | ⟨b, bn, hb, hbn, hbu, -⟩
  · rw [hnone] at he
    cases he
  refine ⟨h.namedListing b, ?_, ?_⟩
  · simp only [ProtocolHandler.handleTreeInfoRequest, hb, hbn, if_true,
      h.fillToAddListFromTree_eq hbn, hrec, ne_eq, not_false_eq_true, decide_true, List.nil_append]
    rfl
  · -- an object of the heap is known when its uuid is below `pu` and filled in the mirror
    obtain ⟨hload, -, hreach⟩ := foldl_listing (kids s.heap) (listEntry s.heap) h.rank_kids
      Mirror.addNode (Loading s.entry pu m)
      (fun x m' => Below s.entry pu (uuidAt s.heap x) ∧ KnownFilled m' (uuidAt s.heap x))
      (a := b) (b := m)
      (fun {m' x name y} hI hx hk => by
        obtain ⟨e', he', hpar, hname⟩ := entry_of_mem_kids h hi hk
        obtain ⟨hI', hy, hmono⟩ := hI.addNode ht (i := listEntry s.heap x name y) he' hpar hname
          hx.1 hx.2
        exact ⟨hI', ⟨hx.1.tail ⟨e', he', hpar⟩, hy⟩, fun z hz => ⟨hz.1, hmono _ hz.2⟩⟩)
      ⟨hm, fun h => h, fun hv hnv _ => ⟨hv, hnv⟩, fun _ => ⟨rfl, fun _ => rfl⟩⟩
      (by
        rw [uuidAt_of_heap hbn, hbu]
        exact ⟨.refl, a, n, ha, hn, hfill⟩)
    refine hload.loaded fun {v} hv => ?_
    obtain ⟨x, hx, hpath⟩ := exists_reach_of_below h hi hb hv
    obtain ⟨xn, hxn, hxu⟩ := h.mTree_heap hx
    have := (hreach x hpath).2
    rwa [uuidAt_of_heap hxn, hxu] at this

/-- A mirror that holds a node below a placeholder loads the whole tree. -/
theorem snapshot_roundtrip_ghost :
    ∃ (s : ProtocolHandler) (m : Mirror),
      s.handleTreeInfoRequest 5 0 selfName 1 7 =
        .ok (s, [.send 7 ⟨5, .treeInfoResponse [⟨[97], 1, 0⟩, ⟨[98], 2, 1⟩]⟩]) ∧
      (m.mTree[(1 : UInt64)]?.bind fun a => (m.heap[a]?).map Node.name) = some ghostName ∧
      Loaded s.entry 0 m (m.addNodes [⟨[97], 1, 0⟩, ⟨[98], 2, 1⟩]) := by
  have hrun : ∃ r, execute ProtocolHandler.step (fun _ _ => true) .init
      [.message 8 ⟨0, .signinRequest 0⟩, .message 8 ⟨1, .createRequest [97] 0⟩,
        .message 7 ⟨0, .signinRequest 0⟩] = some r ∧
      ∃ p, execute ProtocolHandler.step (fun _ _ => true) r.1
        [.message 8 ⟨2, .createRequest [98] 1⟩] = some p ∧
      acceptedCreates (r.2 ++ p.2) < 2 ^ 32 - 1 ∧ p.2.flatMap changeOf = [([⟨[98], 2, 1⟩], [])] ∧
      (p.1.handleTreeInfoRequest 5 0 selfName 1 7).toOption.map Prod.snd =
        some [.send 7 ⟨5, .treeInfoResponse [⟨[97], 1, 0⟩, ⟨[98], 2, 1⟩]⟩] :=
    ⟨_, rfl, _, rfl, by decide, by decide, by decide⟩
  obtain ⟨⟨s₁, ls₀⟩, hexec₀, ⟨s, ls⟩, hexec, hacc, hlog, hres⟩ := hrun
  have h₁ := (run_of_execute _ hexec₀).of_guarded
  have hrun := (run_of_execute _ hexec).of_guarded
  have hall := h₁.append hrun
  have hagrees := (Replica.of_run h₁ hrun hacc rootOnly_emplaceRoot hlog.symm
    (replays_foldl _ _)).agrees
  obtain ⟨nodeToAddList, hhandle, hload⟩ := snapshot_roundtrip (wellLinked_of_run hall)
    (indexed_of_run hall hacc) hagrees
    (show KnownFilled _ 0 from ⟨0, _, rfl, rfl, fun hplace => by cases hplace.1⟩) (show (1 : UInt8) ≠ 0 by decide) 5 7
  obtain rfl : nodeToAddList = [⟨[97], 1, 0⟩, ⟨[98], 2, 1⟩] := by
    rw [hhandle] at hres
    simpa [Except.toOption] using hres
  exact ⟨s, _, hhandle, by decide, hload⟩

end PropertyTree.Client
