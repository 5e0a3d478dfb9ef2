import PropertyTree.Monitor.Calls
import PropertyTree.Monitor.Commands
import PropertyTree.Server.Lookup

/-!
# Resolving a path

`Monitor::getByPath` searches the path for `/([A-Za-z0-9]+)` and goes down from the root by what it
finds.  What stands between the matches it does not see, so that the node it returns is the one the
path names exactly if the path consists of matches only, or the matches lead nowhere.
-/

namespace PropertyTree.Monitor

open Library Server Client

/-! ## The text of a path -/

/-- The text `"/" + n1 + "/" + ... + "/" + nk`. -/
def joined (names : List Name) : Name :=
  names.flatMap fun name => slash :: name

/-- The path is a sequence of components, at least one, each a slash with letters and digits. -/
def IsPath (path : Name) : Prop :=
  ∃ names, names ≠ [] ∧ (∀ name ∈ names, name ≠ [] ∧ ∀ b ∈ name, isAlnum b = true) ∧
    path = joined names

/-- A match is a non-empty sequence of letters and digits. -/
theorem nextMatch_isAlnum {path name rest : Name} (h : nextMatch path = some (name, rest)) :
    name ≠ [] ∧ ∀ b ∈ name, isAlnum b = true := by
  induction path with
  | nil => cases h
  | cons b path ih =>
    rw [nextMatch] at h
    split_ifs at h with hb
    · cases h
      exact ⟨hb.2, fun c hc => by simpa using List.mem_takeWhile_imp hc⟩
    · exact ih h

/-- All matches are. -/
theorem isAlnum_of_mem_matchesUpTo {n : ℕ} {path name : Name} (h : name ∈ matchesUpTo n path) :
    name ≠ [] ∧ ∀ b ∈ name, isAlnum b = true := by
  induction n generalizing path with
  | zero => cases h
  | succ n ih =>
    rw [matchesUpTo] at h
    split at h
    · cases h
    · rename_i first rest hnext
      rcases List.mem_cons.mp h with rfl | h
      · exact nextMatch_isAlnum hnext
      · exact ih h

/-- The name `"."` is not matched. -/
theorem ne_selfName_of_mem_pathMatches {path name : Name} (h : name ∈ pathMatches path) :
    name ≠ selfName := by
  rintro rfl
  have := (isAlnum_of_mem_matchesUpTo h).2 46 (by simp [selfName])
  exact absurd this (by decide)

/-- The first match of a sequence of components is the first component. -/
theorem nextMatch_joined {name : Name} {names : List Name} (hne : name ≠ [])
    (halnum : ∀ b ∈ name, isAlnum b = true) :
    nextMatch (joined (name :: names)) = some (name, joined names) := by
  have hstop : (joined names).takeWhile isAlnum = [] ∧
      (joined names).dropWhile isAlnum = joined names := by
    cases names with
    | nil => exact ⟨rfl, rfl⟩
    | cons name names =>
      have hslash : isAlnum slash = false := by decide
      simp [joined, hslash]
  have htake : (name ++ joined names).takeWhile isAlnum = name := by
    rw [List.takeWhile_append_of_pos halnum, hstop.1, List.append_nil]
  have hdrop : (name ++ joined names).dropWhile isAlnum = joined names := by
    rw [List.dropWhile_append_of_pos halnum, hstop.2]
  change nextMatch (slash :: (name ++ joined names)) = _
  rw [nextMatch, htake, hdrop, if_pos ⟨rfl, hne⟩]

/-- The matches of a sequence of components are its components. -/
theorem matchesUpTo_joined {names : List Name} {n : ℕ}
    (halnum : ∀ name ∈ names, name ≠ [] ∧ ∀ b ∈ name, isAlnum b = true)
    (hn : names.length ≤ n) : matchesUpTo n (joined names) = names := by
  induction names generalizing n with
  | nil => cases n <;> rfl
  | cons name names ih =>
    obtain ⟨n, rfl⟩ := Nat.exists_eq_succ_of_ne_zero (n := n) (by
      rintro rfl
      simp at hn)
    obtain ⟨hne, hname⟩ := halnum name List.mem_cons_self
    have hrest := ih (n := n) (fun name' h => halnum name' (List.mem_cons_of_mem _ h))
      (by simpa using hn)
    rw [matchesUpTo, nextMatch_joined hne hname]
    exact congrArg (name :: ·) hrest

/-- There are at most as many components as characters. -/
theorem length_le_length_joined (names : List Name) : names.length ≤ (joined names).length := by
  induction names with
  | nil => rfl
  | cons name names ih =>
    simp only [joined, List.flatMap_cons, List.length_append, List.length_cons] at ih ⊢
    omega

/-- A path is a sequence of components when nothing stands between its matches. -/
theorem isPath_iff {path : Name} :
    IsPath path ↔ pathMatches path ≠ [] ∧ path = joined (pathMatches path) := by
  constructor
  · rintro ⟨names, hne, halnum, rfl⟩
    rw [pathMatches, matchesUpTo_joined halnum (length_le_length_joined names)]
    exact ⟨hne, rfl⟩
  · rintro ⟨hne, heq⟩
    exact ⟨pathMatches path, hne, fun name h => isAlnum_of_mem_matchesUpTo h, heq⟩

/-! ## The way to a node -/

/-- `Leads ent u names v`: from the node `u` the names lead down to the node `v`. -/
def Leads (ent : Entries) : UInt64 → List Name → UInt64 → Prop
  | u, [], v => u = v
  | u, name :: names, v =>
    ∃ w e, ent w = some e ∧ e.parent = some u ∧ e.name = name ∧ Leads ent w names v

variable {ent : Entries}

/-- The last name on a way. -/
theorem leads_concat {u v : UInt64} {names : List Name} {name : Name} :
    Leads ent u (names ++ [name]) v ↔
      ∃ w e, Leads ent u names w ∧ ent v = some e ∧ e.parent = some w ∧ e.name = name := by
  induction names generalizing u with
  | nil =>
    constructor
    · rintro ⟨w, e, he, hp, hname, rfl⟩
      exact ⟨u, e, rfl, he, hp, hname⟩
    · rintro ⟨w, e, rfl, he, hp, hname⟩
      exact ⟨v, e, he, hp, hname, rfl⟩
  | cons first names ih =>
    constructor
    · rintro ⟨w, e, he, hp, hname, hleads⟩
      obtain ⟨w', e', hleads', he'⟩ := ih.mp hleads
      exact ⟨w', e', ⟨w, e, he, hp, hname, hleads'⟩, he'⟩
    · rintro ⟨w', e', ⟨w, e, he, hp, hname, hleads'⟩, he'⟩
      exact ⟨w, e, he, hp, hname, ih.mpr ⟨w', e', hleads', he'⟩⟩

/-- There is one way from the root to a node. -/
theorem Leads.eq (ht : NamedTree 0 ent) {names names' : List Name} {v : UInt64}
    (h : Leads ent 0 names v) (h' : Leads ent 0 names' v) : names = names' := by
  -- the last steps of the two ways go to the same node, hence come from the same parent
  induction names using List.reverseRecOn generalizing names' v with
  | nil =>
    obtain rfl : 0 = v := h
    rcases List.eq_nil_or_concat' names' with rfl | ⟨names', name, rfl⟩
    · rfl
    · obtain ⟨w, e, -, he, hp, -⟩ := leads_concat.mp h'
      rw [(ht.parent_eq_none_iff he).mpr rfl] at hp
      cases hp
  | append_singleton names name ih =>
    obtain ⟨w, e, hw, he, hp, hname⟩ := leads_concat.mp h
    rcases List.eq_nil_or_concat' names' with rfl | ⟨names', name', rfl⟩
    · obtain rfl : 0 = v := h'
      rw [(ht.parent_eq_none_iff he).mpr rfl] at hp
      cases hp
    · obtain ⟨w', e', hw', he', hp', hname'⟩ := leads_concat.mp h'
      rw [he, Option.some.injEq] at he'
      subst he'
      rw [hp, Option.some.injEq] at hp'
      subst hp'
      rw [ih hw hw', ← hname, hname']

/-- A way leads to one node. -/
theorem Leads.node_eq (ht : NamedTree 0 ent) {names : List Name} {u v w : UInt64}
    (h : Leads ent u names v) (h' : Leads ent u names w) : v = w := by
  induction names generalizing u with
  | nil => exact h.symm.trans h'
  | cons name names ih =>
    obtain ⟨x, e, he, hp, hname, hleads⟩ := h
    obtain ⟨x', e', he', hp', hname', hleads'⟩ := h'
    obtain rfl := ht.sibling he he' hp hp' (hname.trans hname'.symm)
    exact ih hleads hleads'

/-- The nodes on the way from the node `u` along the names, without `u` itself. -/
def OnWay (ent : Entries) (u : UInt64) (names : List Name) (v : UInt64) : Prop :=
  ∃ before, before ≠ [] ∧ before <+: names ∧ Leads ent u before v

/-- A way without names passes no node. -/
theorem not_onWay_nil {u v : UInt64} : ¬ OnWay ent u [] v := by
  rintro ⟨before, hne, hprefix, -⟩
  exact hne (List.prefix_nil.mp hprefix)

/-- The first node on a way is the child with the first name, and the others come after it. -/
theorem onWay_cons {u v : UInt64} {name : Name} {names : List Name} :
    OnWay ent u (name :: names) v ↔
      ∃ w e, ent w = some e ∧ e.parent = some u ∧ e.name = name ∧ (v = w ∨ OnWay ent w names v) := by
  constructor
  · rintro ⟨_ | ⟨first, before⟩, hne, hprefix, hleads⟩
    · exact absurd rfl hne
    obtain ⟨rfl, hrest⟩ := List.cons_prefix_cons.mp hprefix
    obtain ⟨w, e, he, hp, hname, hleads⟩ := hleads
    refine ⟨w, e, he, hp, hname, ?_⟩
    cases before with
    | nil => exact .inl (show w = v from hleads).symm
    | cons second before => exact .inr ⟨_, List.cons_ne_nil second before, hrest, hleads⟩
  · rintro ⟨w, e, he, hp, hname, rfl | ⟨before, -, hprefix, hleads⟩⟩
    · exact ⟨[name], by simp, by simp, v, e, he, hp, hname, rfl⟩
    · exact ⟨name :: before, by simp, List.cons_prefix_cons.mpr ⟨rfl, hprefix⟩, w, e, he, hp, hname,
        hleads⟩

/-! ## The mirror while nothing else happens -/

/-- The monitor's mirror agrees with the server, its root is there, and the reader has nothing to
handle. -/
structure InSync (σ : Session) : Prop where
  wellLinked : WellLinked σ.server
  indexed : Indexed σ.server
  running : σ.terminated = false
  unlocked : σ.dataMutex = none
  drained : σ.inbound = []
  agrees : Agrees (fun _ => True) σ.server.entry σ.mirror
  rooted : KnownFilled σ.mirror 0

/-- The mirror `m'` agrees with the entries and holds at least what `m` holds; the tree-add handler has
been called for the nodes that have got a parent. -/
structure Grown (ent : Entries) (m m' : Mirror) : Prop where
  agrees : Agrees (fun _ => True) ent m'
  same_object : ∀ {u : UInt64} {a : Addr}, m.mTree[u]? = some a → m'.mTree[u]? = some a
  filled : ∀ {u : UInt64}, KnownFilled m u → KnownFilled m' u
  parentOf : ∀ {u : UInt64}, m.parentOf u ≠ none → m'.parentOf u ≠ none
  mTreeAddHandler : m'.mTreeAddHandler = m.mTreeAddHandler
  calls : ∃ as : List Addr, m'.calls = m.calls ++ as.map .treeAdd ∧
    (as = [] ↔ m.mTreeAddHandler = true → ∀ u, m.parentOf u = none → m'.parentOf u = none)

namespace Grown

variable {m m' m'' : Mirror}

/-- A mirror that agrees holds what it holds. -/
theorem refl (h : Agrees (fun _ => True) ent m) : Grown ent m m where
  agrees := h
  same_object := id
  filled := id
  parentOf := id
  mTreeAddHandler := rfl
  calls := ⟨[], by simp, by simp⟩

/-- Mirrors that grow one after the other. -/
theorem trans (h : Grown ent m m') (h' : Grown ent m' m'') : Grown ent m m'' where
  agrees := h'.agrees
  same_object hu := h'.same_object (h.same_object hu)
  filled hu := h'.filled (h.filled hu)
  parentOf hu := h'.parentOf (h.parentOf hu)
  mTreeAddHandler := h'.mTreeAddHandler.trans h.mTreeAddHandler
  calls := by
    obtain ⟨as, hcalls, hnil⟩ := h.calls
    obtain ⟨as', hcalls', hnil'⟩ := h'.calls
    refine ⟨as ++ as', by rw [hcalls', hcalls, List.map_append, List.append_assoc], ?_⟩
    rw [List.append_eq_nil_iff, hnil, hnil', h.mTreeAddHandler]
    constructor
    · exact fun ⟨hfirst, hsecond⟩ hset u hu => hsecond hset u (hfirst hset u hu)
    · -- who has a parent keeps it, so that none without one at the end had one before
      intro hall
      refine ⟨fun hset u hu => ?_, fun hset u hu => hall hset u ?_⟩
      · exact not_ne_iff.mp fun hne => h'.parentOf hne (hall hset u hu)
      · exact not_ne_iff.mp fun hne => h.parentOf hne hu

/-- Adding entries of the tree. -/
theorem addNodes (h : Agrees (fun _ => True) ent m) (ht : NamedTree 0 ent)
    {nodeToAddList : List NamedNode} (hentries : ∀ i ∈ nodeToAddList, EntryOf ent i) :
    Grown ent m (m.addNodes nodeToAddList) := by
  have hadd := Adding.addNodes h ht hentries
  obtain ⟨as, hcalls, -, hmem⟩ := hadd.calls
  refine ⟨hadd.agrees, hadd.same_object, ?_, fun {u} hu hnone => hu
    ((hadd.parentOf_iff h u).mp hnone).1, hadd.handlers.1, as, hcalls, ?_⟩
  · rintro u ⟨a, n, hu, hn, hfill⟩
    have hu' := hadd.same_object hu
    obtain ⟨n', hn', -⟩ := hadd.agrees.mTree_heap hu'
    refine ⟨a, n', hu', hn', fun hplace => ?_⟩
    by_cases hl : ∃ i ∈ nodeToAddList, u = i.uuid
    · exact hadd.parent_of_listed hu' hn' hl hplace.2
    · obtain ⟨hname, hparent⟩ := hadd.unlisted hu hn' hl hn
      exact hfill ⟨hname ▸ hplace.1, hparent ▸ hplace.2⟩
  · rw [List.eq_nil_iff_forall_not_mem]
    constructor
    · intro hall hset u hu
      refine (hadd.parentOf_iff h u).mpr ⟨hu, fun hl => ?_⟩
      -- a listed node without a parent is one the handler is called with
      obtain ⟨i, hi, rfl⟩ := hl
      obtain ⟨a, ha⟩ := Option.ne_none_iff_exists'.mp
        (hadd.known_iff.mpr (.inr ⟨i, hi, .inl rfl⟩))
      exact hall a ((hmem a).mpr ⟨hset, _, ⟨i, hi, rfl⟩, ha, hu⟩)
    · intro hall a ha
      obtain ⟨hset, u, hl, -, hu⟩ := (hmem a).mp ha
      exact ((hadd.parentOf_iff h u).mp (hall hset u hu)).2 hl

end Grown

/-- A listed node is known and filled. -/
theorem knownFilled_of_listed {m : Mirror} (h : Agrees (fun _ => True) ent m) (ht : NamedTree 0 ent)
    {nodeToAddList : List NamedNode} (hentries : ∀ i ∈ nodeToAddList, EntryOf ent i)
    {i : NamedNode} (hi : i ∈ nodeToAddList) : KnownFilled (m.addNodes nodeToAddList) i.uuid := by
  obtain ⟨a, n, p, pn, ha, hn, -, -, -, hp, -⟩ := (added_addNodes h ht hentries).listed i hi
  exact ⟨a, n, ha, hn, fun hplace => Option.some_ne_none p (hp.symm.trans hplace.2)⟩

variable {s : ProtocolHandler}

/-- A child of a node is an entry of the tree. -/
theorem entryOf_of_kid (hw : WellLinked s) (hi : Indexed s) {p x : Addr} {name : Name}
    (hk : (name, x) ∈ kids s.heap p) : EntryOf s.entry (listEntry s.heap p name x) := by
  obtain ⟨e, he, hpar, hname⟩ := entry_of_mem_kids hw hi hk
  exact ⟨e, he, hname, hpar⟩

/-- What the server lists below a node are entries of its tree. -/
theorem entryOf_of_mem_listedBelow (hw : WellLinked s) (hi : Indexed s) {a : Addr}
    {recursive : UInt8} {i : NamedNode} (h : i ∈ listedBelow hw.nodeTree a recursive) :
    EntryOf s.entry i := by
  obtain ⟨q, name, x, -, hx, rfl⟩ := exists_of_mem_listedBelow h
  exact entryOf_of_kid hw hi hx

/-- What the server lists for a child are entries of its tree. -/
theorem entryOf_of_listed (hw : WellLinked s) (hi : Indexed s) {p a : Addr} {name : Name}
    (hk : (name, a) ∈ kids s.heap p) {recursive : UInt8} {i : NamedNode}
    (h : i ∈ listEntry s.heap p name a :: listedBelow hw.nodeTree a recursive) :
    EntryOf s.entry i := by
  rcases List.mem_cons.mp h with rfl | h
  · exact entryOf_of_kid hw hi hk
  · exact entryOf_of_mem_listedBelow hw hi h

/-- The requests that only read. -/
def isRead : PropertyTreeMessages → Bool
  | .treeInfoRequest _ _ _ | .getRequest _ => true
  | _ => false

section Walk

/-- The names have been looked up from the node `u`, with the result `r`: the mirror has grown from `m`
to `m'`, in which the nodes on the way have their parents. -/
structure Looked (ent : Entries) (u : UInt64) (names : List Name) (m m' : Mirror)
    (r : Option Addr) : Prop where
  grown : Grown ent m m'
  found : ∀ b, r = some b → ∃ v, Leads ent u names v ∧ m'.mTree[v]? = some b ∧ KnownFilled m' v
  missing : r = none → ∀ v, ¬ Leads ent u names v
  way : ∀ v, OnWay ent u names v → m'.parentOf v ≠ none
  /-- Nothing has been asked for when they had them before. -/
  same : (∀ v, OnWay ent u names v → m.parentOf v ≠ none) → m' = m

/-- The only node that one name can lead to. -/
theorem onWay_singleton_iff (ht : NamedTree 0 ent) {u v w : UInt64} {name : Name}
    (hw : Leads ent u [name] w) : OnWay ent u [name] v ↔ v = w := by
  obtain ⟨w, e, he, hp, hname, rfl⟩ := hw
  rw [onWay_cons]
  constructor
  · rintro ⟨w', e', he', hp', hname', rfl | hno⟩
    · exact ht.sibling he' he hp' hp (hname'.trans hname.symm)
    · exact absurd hno not_onWay_nil
  · rintro rfl
    exact ⟨_, e, he, hp, hname, .inl rfl⟩

/-- Nor is a node passed on a way that leads nowhere at once. -/
theorem not_onWay_singleton {u v : UInt64} {name : Name} (h : ∀ w, ¬ Leads ent u [name] w) :
    ¬ OnWay ent u [name] v := by
  rw [onWay_cons]
  rintro ⟨w, e, he, hp, hname, -⟩
  exact h w ⟨w, e, he, hp, hname, rfl⟩

variable {out : Outside} {σ : Session} {m : Mirror} {a : Addr} {u : UInt64}

/-- A child that is in the children map has been found. -/
theorem looked_of_cached (ht : NamedTree 0 ent) (hm : Agrees (fun _ => True) ent m)
    (ha : m.mTree[u]? = some a) {n : Client.Node} (hn : m.heap[a]? = some n) {name : Name} {b : Addr}
    (hb : n.children[name]? = some b) : Looked ent u [name] m m (some b) := by
  obtain ⟨w, nb, hw, hnb, hpar, hnm⟩ := hm.child ha hn hb
  obtain ⟨e, pu, pn, he, hpu, hen, hpa, -⟩ := hm.filled hw hnb hpar
  obtain rfl := hm.inj ha hpa
  have hleads : Leads ent u [name] w := ⟨w, e, he, hpu, hen.symm.trans hnm, rfl⟩
  refine ⟨.refl hm, ?_, nofun, ?_, fun _ => rfl⟩
  · rintro _ ⟨⟩
    exact ⟨w, hleads, hw, b, nb, hw, hnb,
      fun hplace => Option.some_ne_none a (hpar.symm.trans hplace.2)⟩
  · intro v hv
    obtain rfl := (onWay_singleton_iff ht hleads).mp hv
    rw [ne_eq, hm.parentOf_eq_none_iff hw hnb, hpar]
    exact Option.some_ne_none a

/-- Where there is no child of the name, none has been found. -/
theorem looked_of_missing (hm : Agrees (fun _ => True) ent m) {name : Name}
    (hmissing : ∀ w, ¬ Leads ent u [name] w) : Looked ent u [name] m m none :=
  ⟨.refl hm, nofun, fun _ => hmissing, fun _ hv => absurd hv (not_onWay_singleton hmissing),
    fun _ => rfl⟩

/-- A child that was not in the children map has been found once its listing is added. -/
theorem looked_of_listed (ht : NamedTree 0 ent) (hm : Agrees (fun _ => True) ent m)
    (ha : m.mTree[u]? = some a) {n : Client.Node} (hn : m.heap[a]? = some n) {name : Name}
    (hno : n.children[name]? = none) {j : NamedNode} {l : List NamedNode} {b : Addr}
    (hentries : ∀ i ∈ j :: l, EntryOf ent i) (hleads : Leads ent u [name] j.uuid)
    (hb : (m.addNodes (j :: l)).mTree[j.uuid]? = some b) :
    Looked ent u [name] m (m.addNodes (j :: l)) (some b) := by
  refine ⟨.addNodes hm ht hentries, ?_, nofun, fun v hv => ?_, fun hall => ?_⟩
  · rintro _ ⟨⟩
    exact ⟨_, hleads, hb, knownFilled_of_listed hm ht hentries List.mem_cons_self⟩
  · obtain rfl := (onWay_singleton_iff ht hleads).mp hv
    rw [ne_eq, (Adding.addNodes hm ht hentries).parentOf_iff hm]
    exact fun hboth => hboth.2 ⟨_, List.mem_cons_self, rfl⟩
  · -- a child that has its parent is in the children map
    have hparent := hall _ ((onWay_singleton_iff ht hleads).mpr rfl)
    obtain ⟨w, e, he, hpar, hname, rfl⟩ := hleads
    have hmap := (hm.children_view ha hn name _).mpr ⟨_, e, rfl, he, hpar, hname, hparent⟩
    rw [Std.ExtTreeMap.getElem?_map, hno] at hmap
    cases hmap

/-- Looking a child up by a name other than `"."`: it is found if there is one. -/
theorem returns_get (hw : WellLinked out.server) (hi : Indexed out.server)
    (hm : Agrees (fun _ => True) out.server.entry m) (h : Holds out (Exactly m) σ)
    (ha : m.mTree[u]? = some a) {name : Name} (hname : name ≠ selfName) :
    Returns (get a name false) σ fun r τ => ∃ qs m',
      Holds { out with requests := out.requests ++ qs } (Exactly m') τ ∧
      (∀ q ∈ qs, isRead q = true) ∧ Looked out.server.entry u [name] m m' r := by
  have ht := hw.namedTree hi
  obtain ⟨n, hn, hnu⟩ := hm.mTree_heap ha
  cases hb : n.children[name]? with
  | some b =>
    refine (returns_get_of_found h hn hb).mono ?_
    rintro r τ ⟨rfl, hτ⟩
    exact ⟨[], m, by simpa using hτ, by simp, looked_of_cached ht hm ha hn hb⟩
  | none =>
    obtain ⟨e, he, -⟩ := hm.node ha hn
    rcases hw.entry_cases u with ⟨-, hnone⟩ | ⟨p, pn, hp, hpn, -, -⟩
    · rw [hnone] at he
      cases he
    cases hx : pn.children[name]? with
    | none =>
      have hstep : ∀ t, out.server.step
          (.message out.connection ⟨t, treeInfoRequest n name false⟩) =
            .ok (out.server, [.send out.connection ⟨t, .treeInfoErrorResponse .notFound⟩]) := by
        rw [treeInfoRequest, hnu]
        exact fun t => treeInfo_unknown hp hpn hx hname
      have hmissing : ∀ w, ¬ Leads out.server.entry u [name] w := by
        rintro w ⟨w', e', he', hpar, heq, rfl⟩
        obtain ⟨x, hx'⟩ := (hw.exists_entry_iff hi hp hpn name).mp ⟨w', e', he', hpar, heq⟩
        rw [hx] at hx'
        cases hx'
      refine (returns_get_of_error h hn hb hstep).mono ?_
      rintro r τ ⟨rfl, hτ⟩
      exact ⟨_, m, hτ, by simp [treeInfoRequest, isRead], looked_of_missing hm hmissing⟩
    | some x =>
      obtain ⟨node, hnode, -, -⟩ := hw.child hpn hx
      have hk : (name, x) ∈ kids out.server.heap p := mem_kids_iff.mpr ⟨pn, hpn, hx⟩
      have hentries : ∀ i ∈ listEntry out.server.heap p name x :: listedBelow hw.nodeTree x 0,
          EntryOf out.server.entry i := fun i hmem => entryOf_of_listed hw hi hk hmem
      obtain ⟨b, -, hb', -⟩ := knownFilled_of_listed hm ht hentries List.mem_cons_self
      obtain ⟨e', he', hpar, hnm⟩ := entry_of_mem_kids hw hi hk
      obtain ⟨pn', hpn', hpu⟩ := hw.mTree_heap hp
      rw [uuidAt_of_heap hpn', hpu] at hpar
      refine (returns_get_of_response h hn hb hname (fun t => ?_) hb').mono ?_
      · rw [treeInfoRequest, hnu]
        exact treeInfo_child hw.nodeTree hp hpn hx hnode hname
      · rintro r τ ⟨rfl, hτ⟩
        exact ⟨_, _, hτ, by simp [treeInfoRequest, isRead],
          looked_of_listed ht hm ha hn hb hentries ⟨_, e', he', hpar, hnm, rfl⟩ hb'⟩

/-- Going down from a node by names other than `"."` ends at the node they lead to, if there is
one. -/
theorem returns_walk (hw : WellLinked out.server) (hi : Indexed out.server)
    (hm : Agrees (fun _ => True) out.server.entry m) (h : Holds out (Exactly m) σ)
    (ha : m.mTree[u]? = some a) (hfill : KnownFilled m u) {names : List Name}
    (hnames : ∀ name ∈ names, name ≠ selfName) :
    Returns (walk a names) σ fun r τ => ∃ qs m',
      Holds { out with requests := out.requests ++ qs } (Exactly m') τ ∧
      (∀ q ∈ qs, isRead q = true) ∧ Looked out.server.entry u names m m' r := by
  have ht := hw.namedTree hi
  induction names generalizing out σ m a u with
  | nil =>
    refine returns_pure ⟨[], m, by simpa using h, by simp, .refl hm, ?_, nofun,
      fun v hv => absurd hv not_onWay_nil, fun _ => rfl⟩
    rintro _ ⟨⟩
    exact ⟨u, rfl, ha, hfill⟩
  | cons name names ih =>
    refine (returns_get hw hi hm h ha (hnames name List.mem_cons_self)).bind ?_
    rintro r σ₁ ⟨qs, m₁, h₁, hqs, hlooked⟩
    have hfirst : ∀ {v}, OnWay out.server.entry u [name] v →
        OnWay out.server.entry u (name :: names) v := by
      rintro v ⟨before, hne, hprefix, hleads⟩
      exact ⟨before, hne, hprefix.trans (by simp), hleads⟩
    cases r with
    | none =>
      have hno : ∀ {w e}, out.server.entry w = some e → e.parent = some u → e.name ≠ name :=
        fun {w e} he hpar hname => hlooked.missing rfl w ⟨w, e, he, hpar, hname, rfl⟩
      refine returns_pure ⟨qs, m₁, h₁, hqs, hlooked.grown, nofun, fun _ v hleads => ?_, fun v hv => ?_,
        fun hall => hlooked.same fun v hv => hall v (hfirst hv)⟩
      · obtain ⟨w, e, he, hpar, hname, -⟩ := hleads
        exact hno he hpar hname
      · obtain ⟨w, e, he, hpar, hname, -⟩ := onWay_cons.mp hv
        exact absurd hname (hno he hpar)
    | some b =>
      obtain ⟨w, hleads, hb, hfill'⟩ := hlooked.found b rfl
      obtain ⟨w, e, he, hpar, hname, rfl⟩ := hleads
      refine (@ih { out with requests := out.requests ++ qs } σ₁ m₁ b w hw hi hlooked.grown.agrees h₁
        hb hfill' (fun nm hmem => hnames nm (List.mem_cons_of_mem _ hmem)) ht).mono ?_
      rintro r τ ⟨qs', m₂, h₂, hqs', hrest⟩
      have hother : ∀ {w' e'}, out.server.entry w' = some e' → e'.parent = some u →
          e'.name = name → w' = w := fun he' hpar' hname' =>
        ht.sibling he' he hpar' hpar (hname'.trans hname.symm)
      refine ⟨qs ++ qs', m₂, by simpa using h₂, ?_, hlooked.grown.trans hrest.grown, ?_, ?_, ?_, ?_⟩
      · intro q hq
        exact (List.mem_append.mp hq).elim (hqs q) (hqs' q)
      · intro b' hb'
        obtain ⟨v, hleads, hv⟩ := hrest.found b' hb'
        exact ⟨v, ⟨w, e, he, hpar, hname, hleads⟩, hv⟩
      · rintro hr v ⟨w', e', he', hpar', hname', hleads⟩
        obtain rfl := hother he' hpar' hname'
        exact hrest.missing hr v hleads
      · intro v hv
        obtain ⟨w', e', he', hpar', hname', rfl | hv⟩ := onWay_cons.mp hv
        · exact hrest.grown.parentOf
            (hlooked.way v (onWay_cons.mpr ⟨v, e', he', hpar', hname', .inl rfl⟩))
        · obtain rfl := hother he' hpar' hname'
          exact hrest.way v hv
      · intro hall
        obtain rfl := hlooked.same fun v hv => hall v (hfirst hv)
        exact hrest.same fun v hv => hall v (onWay_cons.mpr ⟨w, e, he, hpar, hname, .inr hv⟩)

end Walk

/-! ## `getByPath` -/

section GetByPath

variable {σ : Session} {path : Name}

/-- A session in sync has nothing for its reader to change. -/
theorem InSync.holds (h : InSync σ) : Holds σ.outside (Exactly σ.mirror) σ where
  outside := rfl
  running := h.running
  unlocked := h.unlocked
  notices := by simp [h.drained]
  known := ⟨rfl, h.drained⟩

/-- Looking nodes up keeps a session in sync. -/
theorem InSync.grown (h : InSync σ) {τ : Session} {qs : List PropertyTreeMessages} {m : Mirror}
    (hτ : Holds { σ.outside with requests := σ.outside.requests ++ qs } (Exactly m) τ)
    (hm : Grown σ.server.entry σ.mirror m) : InSync τ ∧ τ.server = σ.server := by
  have hs : τ.server = σ.server := congrArg Outside.server hτ.outside
  obtain ⟨hmirror, hdrained⟩ := hτ.known
  refine ⟨⟨hs ▸ h.wellLinked, hs ▸ h.indexed, hτ.running, hτ.unlocked, hdrained, ?_, ?_⟩, hs⟩
  · rw [hs, hmirror]
    exact hm.agrees
  · rw [hmirror]
    exact hm.filled h.rooted

/-- The root of a session in sync. -/
theorem InSync.returns_root (h : InSync σ) : Returns root σ fun a τ =>
    σ.mirror.mTree[(0 : UInt64)]? = some a ∧ Holds σ.outside (Exactly σ.mirror) τ := by
  obtain ⟨a, n, ha, -⟩ := h.rooted
  refine (returns_pause stable_exactly h.holds).bind fun _ σ₁ h₁ => returns_get_bind ?_
  rw [h₁.known.1, ha]
  exact returns_pure ⟨rfl, h₁⟩

/-- Without names the root is found. -/
theorem InSync.looked_nil (h : InSync σ) {a : Addr} (ha : σ.mirror.mTree[(0 : UInt64)]? = some a) :
    Looked σ.server.entry 0 [] σ.mirror σ.mirror (some a) where
  grown := .refl h.agrees
  found := by
    rintro _ ⟨⟩
    exact ⟨0, rfl, ha, h.rooted⟩
  missing := nofun
  way v hv := absurd hv not_onWay_nil
  same _ := rfl

/-- `getByPath` returns the node the matches lead to, if there is one. -/
theorem InSync.returns_getByPath (h : InSync σ) (path : Name) :
    Returns (getByPath path) σ fun r τ => ∃ qs m,
      Holds { σ.outside with requests := σ.requests ++ qs } (Exactly m) τ ∧
      (∀ q ∈ qs, isRead q = true) ∧
      Looked σ.server.entry 0 (pathMatches path) σ.mirror m r := by
  rw [getByPath]
  split_ifs with hroot
  · subst hroot
    refine h.returns_root.bind fun a σ₁ ⟨ha, h₁⟩ => returns_pure
      ⟨[], σ.mirror, by rw [List.append_nil]; exact h₁, by simp, h.looked_nil ha⟩
  · refine h.returns_root.bind fun a σ₁ ⟨ha, h₁⟩ => ?_
    exact returns_walk h.wellLinked h.indexed h.agrees h₁ ha h.rooted
      fun name hmem => ne_selfName_of_mem_pathMatches hmem

/-- The names that lead to the node `onCmdList` starts from. -/
def startNames (args : ArgsMap) : List Name :=
  match args[pathArg]? with
  | none => []
  | some path => pathMatches path

/-- `onCmdList` starts from the node its path leads to. -/
theorem InSync.returns_startNode (h : InSync σ) {args : ArgsMap} {u : UInt64}
    (hu : Leads σ.server.entry 0 (startNames args) u) :
    Returns (startNode args) σ fun a τ => ∃ qs m,
      Holds { σ.outside with requests := σ.requests ++ qs } (Exactly m) τ ∧
      (∀ q ∈ qs, isRead q = true) ∧ Looked σ.server.entry 0 (startNames args) σ.mirror m (some a) := by
  refine h.returns_root.bind fun a σ₁ ⟨ha, h₁⟩ => ?_
  rw [startNames] at hu ⊢
  cases hpath : args[pathArg]? with
  | none =>
    exact returns_pure ⟨[], σ.mirror, by rw [List.append_nil]; exact h₁, by simp, h.looked_nil ha⟩
  | some path =>
    rw [hpath] at hu
    have h₁' : Holds { σ.outside with requests := σ.outside.requests ++ [] } (Exactly σ.mirror) σ₁ := by
      rw [List.append_nil]
      exact h₁
    obtain ⟨hsync, hs⟩ := h.grown h₁' (.refl h.agrees)
    have hrequests : σ₁.requests = σ.requests := congrArg Outside.requests h₁.outside
    refine (hsync.returns_getByPath path).bind ?_
    rintro r τ ⟨qs, m, hτ, hqs, hlooked⟩
    rw [hs, h₁.known.1] at hlooked
    rw [h₁.outside, hrequests] at hτ
    cases r with
    | none => exact absurd hu (hlooked.missing rfl u)
    | some b => exact returns_pure ⟨qs, m, hτ, hqs, hlooked⟩

/-- The node a valid result holds is the one the path names: the path is the text of the names on
the way from the root to it, of which there is at least one. -/
def Resolves (ent : Entries) (m : Mirror) (path : Name) (r : Option Addr) : Prop :=
  ∀ a, r = some a → ∃ names v, names ≠ [] ∧ path = joined names ∧ Leads ent 0 names v ∧
    m.mTree[v]? = some a

/-- In every session in sync `getByPath` returns a `Property` that is not valid or holds the node the
path names exactly if the path is a sequence of components of letters and digits, or the components
that are found in it lead to no node.  The path `"/"`, which has no component, stands for the root. -/
theorem getByPath_resolves_iff (h : InSync σ) (path : Name) :
    ∃ r τ, (getByPath path).result σ = (.ok r, τ) ∧ τ.server = σ.server ∧ InSync τ ∧
      (Resolves σ.server.entry τ.mirror path r ↔
        IsPath path ∨ ∀ v, ¬ Leads σ.server.entry 0 (pathMatches path) v) := by
  obtain ⟨r, τ, hres, qs, m, hτ, -, hlooked⟩ := h.returns_getByPath path
  have hm := hlooked.grown
  obtain ⟨hsync, hs⟩ := h.grown hτ hm
  have ht := h.wellLinked.namedTree h.indexed
  refine ⟨r, τ, hres, hs, hsync, ?_⟩
  rw [hτ.known.1]
  cases r with
  | none => exact iff_of_true nofun (.inr (hlooked.missing rfl))
  | some a =>
    obtain ⟨v, hleads, ha, -⟩ := hlooked.found a rfl
    constructor
    · intro hnames
      obtain ⟨names, w, hne, htext, hleads', hw⟩ := hnames a rfl
      obtain rfl := hm.agrees.inj ha hw
      obtain rfl := hleads.eq ht hleads'
      exact .inl (isPath_iff.mpr ⟨hne, htext⟩)
    · rintro (hispath | hno)
      · obtain ⟨hne, htext⟩ := isPath_iff.mp hispath
        rintro _ ⟨⟩
        exact ⟨_, v, hne, htext, hleads, ha⟩
      · exact absurd hleads (hno v)

/-- The monitor when it has just signed in, to a server whose tree it does not know, and has set its
handlers. -/
def Session.fresh (connection : Conn) (server : ProtocolHandler) : Session where
  connection := connection
  server := server
  terminated := false
  mirror := { Mirror.empty.emplaceRoot with mTreeAddHandler := true, mTreeRemoveHandler := true }
  mTransactioIdCtr := 1
  inbound := []
  dataMutex := none
  reader := fun _ => 0
  mAutowatch := false
  mToSubscribe := []
  requests := []
  destroyed := []

/-- It is in sync. -/
theorem inSync_fresh {s : ProtocolHandler} {ls : List (Event × List Server.Output)} (c : Conn)
    (h : ServerRun .init ls s) (hacc : acceptedCreates ls < 2 ^ 32 - 1) : InSync (.fresh c s) where
  wellLinked := wellLinked_of_run h
  indexed := indexed_of_run h hacc
  running := rfl
  unlocked := rfl
  drained := rfl
  agrees := by
    have hroot : RootOnly (Session.fresh c s).mirror :=
      ⟨rootOnly_emplaceRoot.mTree, rootOnly_emplaceRoot.heap_lt⟩
    exact (hroot.replica h hacc).agrees
  rooted := ⟨0, _, rfl, rfl, fun hplace => by cases hplace.1⟩

/-- A server with a node `"a"` below the root, which has a child `"b"`. -/
def smallTree : List Event :=
  [.message 7 ⟨0, .signinRequest 0⟩, .message 8 ⟨0, .signinRequest 0⟩,
    .message 8 ⟨1, .createRequest [97] 0⟩, .message 8 ⟨2, .createRequest [98] 1⟩]

/-- In this tree the path `"/a/b"` leads to the node it names. -/
theorem getByPath_resolves_ab : ∃ σ r τ, InSync σ ∧
    (getByPath [47, 97, 47, 98]).result σ = (.ok r, τ) ∧ r ≠ none ∧
    Resolves σ.server.entry τ.mirror [47, 97, 47, 98] r := by
  have hrun : ∃ r, execute ProtocolHandler.step (fun _ _ => true) .init smallTree = some r ∧
      acceptedCreates r.2 < 2 ^ 32 - 1 ∧
      ((getByPath [47, 97, 47, 98]).result (.fresh 7 r.1)).1.toOption ≠ some none :=
    ⟨_, rfl, by decide, by decide +kernel⟩
  obtain ⟨⟨s, ls⟩, hexec, hacc, hvalid⟩ := hrun
  have hsync := inSync_fresh 7 (run_of_execute _ hexec).of_guarded hacc
  obtain ⟨r, τ, hres, -, -, hiff⟩ := getByPath_resolves_iff hsync [47, 97, 47, 98]
  refine ⟨_, r, τ, hsync, hres, ?_, hiff.mpr (.inl ⟨[[97], [98]], by simp, by simp [isAlnum], rfl⟩)⟩
  rintro rfl
  rw [hres] at hvalid
  exact hvalid rfl

/-- The path `"foo/a"` leads to the node `"a"`, too. -/
theorem not_getByPath_resolves : ¬ ∀ σ path, InSync σ → path ≠ [slash] →
    ∀ r τ, (getByPath path).result σ = (.ok r, τ) → Resolves σ.server.entry τ.mirror path r := by
  intro hall
  have hrun : ∃ r, execute ProtocolHandler.step (fun _ _ => true) .init smallTree = some r ∧
      acceptedCreates r.2 < 2 ^ 32 - 1 ∧
      ((getByPath [102, 111, 111, 47, 97]).result (.fresh 7 r.1)).1.toOption.any Option.isSome :=
    ⟨_, rfl, by decide, by decide +kernel⟩
  obtain ⟨⟨s, ls⟩, hexec, hacc, hvalid⟩ := hrun
  have hsync := inSync_fresh 7 (run_of_execute _ hexec).of_guarded hacc
  obtain ⟨r, τ, hres, -⟩ := hsync.returns_getByPath [102, 111, 111, 47, 97]
  rw [hres] at hvalid
  obtain ⟨a, rfl⟩ := Option.isSome_iff_exists.mp hvalid
  obtain ⟨names, v, hne, htext, -⟩ := hall _ _ hsync (by decide) _ _ hres a rfl
  -- a text of names starts with a slash
  cases names with
  | nil => exact hne rfl
  | cons name names => cases htext

end GetByPath

end PropertyTree.Monitor
