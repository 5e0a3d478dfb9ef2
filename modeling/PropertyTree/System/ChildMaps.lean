import PropertyTree.Client.ChildMaps
import PropertyTree.System.Deletions

/-!
# The children maps of the clients

The server never has two nodes of one name below one parent, and a client is told of the deletion of
the older one before it is told of the younger one.  So the entries that `addNodes`, `removeNodes` and
`create` write and erase by name are those of their own nodes.  `destroy` erases by name as well, but
only when its thread goes on: by then the reader may have put a younger node in that place.
-/

namespace PropertyTree

namespace Client

open Library Server

variable {k k' : Client} {number : ℕ} {a : Action} {sent : List Packet}

/-- What stands in the place of the node at `a`, in the children map of its parent, is that node. -/
def Mirror.ownsPlace (m : Mirror) (a : Addr) : Bool :=
  (m.heap[a]?).all fun node => (m.lock node.parent).all fun p =>
    ((m.heap[p]?).bind fun parent => parent.children[node.name]?).all (· == a)

/-- The confirmation that a thread of `destroy` has in hand is the response to its own request, and the
entry that it erases is that of its own node. -/
def Thread.unlinksOwn (m : Mirror) : Thread → Bool
  | ⟨.destroy a, .answered r ⟨tag, .deleteResponse .ok⟩⟩ => tag == r && m.ownsPlace a
  | _ => true

theorem Mirror.ownsPlace_iff {m : Mirror} {a : Addr} : m.ownsPlace a = true ↔
    ∀ (n : Node) (p : Addr) (pn : Node) (b : Addr), m.heap[a]? = some n → n.parent = some p →
      m.heap[p]? = some pn → pn.children[n.name]? = some b → b = a := by
  constructor
  · intro h n p pn b hn hp hpn hb
    have hlock : m.lock n.parent = some p := Mirror.lock_eq_some_iff.mpr ⟨hp, pn, hpn⟩
    simpa [ownsPlace, hn, hlock, hpn, hb] using h
  · intro h
    cases hn : m.heap[a]? with
    | none => simp [ownsPlace, hn]
    | some n =>
      cases hp : m.lock n.parent with
      | none => simp [ownsPlace, hn, hp]
      | some p =>
        obtain ⟨hpar, pn, hpn⟩ := Mirror.lock_eq_some_iff.mp hp
        cases hb : pn.children[n.name]? with
        | none => simp [ownsPlace, hn, hp, hpn, hb]
        | some b => simp [ownsPlace, hn, hp, hpn, hb, h n p pn b hn hpar hpn hb]

end Client

namespace System

open Library Server Client PropertyTreeMessages

variable {s s' : System} {act : System.Action} {c d : Conn} {k k' : Client} {u : UInt64}
  {past rest : List PropertyTreeMessages}

/-- No thread of `destroy` erases the entry of another node. -/
def OwnUnlinked (s : System) : System.Action → Prop
  | .client c (.proceed i) => ∀ th ∈ (s.client c).threads[i]?,
      th.unlinksOwn (s.client c).mirror = true
  | _ => True

instance (s : System) (act : System.Action) : Decidable (OwnUnlinked s act) :=
  match act with
  | .client c (.proceed i) => inferInstanceAs (Decidable (∀ th ∈ (s.client c).threads[i]?,
      th.unlinksOwn (s.client c).mirror = true))
  | .client _ (.start _ _) | .client _ (.fetchId _) | .client _ (.send _) | .client _ .read
  | .client _ (.take _) | .client _ (.timeout _) | .client _ (.erase _) | .client _ .update
  | .client _ (.setup _) | .client _ (.free _) | .client _ .close | .connect _ | .serve _
  | .disconnect _ => .isTrue trivial

/-- The conditions under which the children maps agree with the tree. -/
structure KeepsPlaces (s : System) (act : System.Action) : Prop where
  stays : StaysDeleted s act
  unlinked : OwnUnlinked s act

instance (s : System) (act : System.Action) : Decidable (KeepsPlaces s act) :=
  decidable_of_iff (StaysDeleted s act ∧ OwnUnlinked s act) ⟨fun h => ⟨h.1, h.2⟩, fun h => ⟨h.1, h.2⟩⟩

/-- The root, and what a client has been told of and not told of as deleted. -/
def KnownFrom (past : List PropertyTreeMessages) (u : UInt64) : Prop :=
  u = 0 ∨ Announced past u ∧ ¬ Deleted past u

/-- No two nodes that a client knows of have the same name and parent. -/
theorem distinct_of_stream (hhist : History s.log s.server)
    (hstream : Stream s.log s.server (past ++ rest)) :
    Distinct (· ∈ creations s.log) (KnownFrom past) :=
  fun _ _ hi hj hki hkj hparent hname =>
    hstream.eq_of_sibling hhist hi hj (hki.resolve_left (hhist.uuid_ne_zero hi))
      (hkj.resolve_left (hhist.uuid_ne_zero hj)) hparent hname

/-- The mirror knows of nothing but what the client has been told of. -/
theorem knownIn_of_heard (hheard : Heard k past) (hkept : KeptClean s k) :
    KnownIn (KnownFrom past) k.mirror := fun _ hu =>
  (hheard.mTree hu).imp_right fun hann =>
    ⟨hann, fun hdel => hu (hkept.absent (hheard.deleted.mpr hdel))⟩

/-- A notification tells of a creation or of a deletion. -/
def OneSided (m : PropertyTreeMessages) : Prop :=
  ∀ add del, m = .treeUpdateNotification add del → add = [] ∨ del = []

/-- The changes of the tree that the server notifies of are single ones. -/
theorem oneSided_of_run {C : System → System.Action → Prop} (hC : ∀ {s a}, C s a → FewCreates s a)
    {as : List System.Action} (h : Run (Guarded C Step) .init as s) (c : Conn) :
    ∀ p ∈ (s.client c).inbound, OneSided p.message.message := by
  generalize hinit : System.init = s₀ at h
  induction h generalizing c with
  | nil =>
    subst hinit
    simp [client, init, Client.new]
  | @snoc t v as a run step ih =>
    subst hinit
    have hrun := log_of_run run.of_guarded
    have hacc := creates_of_run hC run
    cases step_cases step.2 with
    | connect d hd =>
      rw [client_connect hd]
      exact ih c
    | client d a k k' sent hk hopen hres =>
      rw [client_of_clients rfl c]
      split_ifs with hcd
      · subst hcd
        have hold := ih c
        rw [client_of_some hk] at hold
        intro p hp
        rcases inbound_of_change hres.transactionChange with hin | ⟨q, hin⟩
        · exact hold p (hin ▸ hp)
        · exact hold p (hin ▸ List.mem_cons_of_mem q hp)
      · exact ih c
    | serve d k p outbound server o hk hout ht hok =>
      obtain ⟨ms, hms, hcl⟩ := exists_client_afterServe hk p outbound server o c
      change ∀ q ∈ ((afterServe t d k p outbound server o).client c).inbound,
        OneSided q.message.message
      rw [hcl]
      intro q hq
      rcases List.mem_append.mp hq with hq | hq
      · exact ih c q hq
      · obtain ⟨m, hm, rfl⟩ := List.mem_map.mp hq
        intro add del hadd
        have hi := indexed_of_run hrun hacc
        have hw := wellLinked_of_run hrun
        have hcontent := (Server.step_cases hok).content hw hi (mem_sentTo (hms.subset hm))
        rw [hadd] at hcontent
        have hch := (Server.step_cases hok).treeChange hw hi
        rw [show changeOf (Event.message d p.message, o) = [(add, del)] from hcontent] at hch
        cases hch with
        | add => exact .inr rfl
        | del => exact .inl rfl
    | disconnect d k server o hk hclosed hok =>
      rw [client_disconnect hk rfl c]
      exact ih c

/-- What a handled notification, whose deletion is that of no node it adds, leaves listed. -/
theorem listed_of_treeUpdate {tag : ℕ} {trId : UInt16} {add : List NamedNode} {del : List UInt64}
    {inbound : List Packet} (h : Listed (Dead s.server) k.mirror) (hkept : KeptClean s k)
    (hhist : History s.log s.server) (hheard : Heard k past)
    (hstream : Stream s.log s.server (past ++ k.coming)) (htold : ∀ i ∈ add, i ∈ creations s.log)
    (hin : k.inbound = ⟨tag, trId, .treeUpdateNotification add del⟩ :: inbound)
    (hside : add = [] ∨ del = []) :
    Listed (Dead s.server) (k.mirror.handleTreeUpdateNotification add del) := by
  rcases hside with rfl | rfl
  · exact h.removeNodes hkept (distinct_of_stream hhist hstream) (knownIn_of_heard hheard hkept) del
  · have hcoming : past ++ k.coming = (past ++ [.treeUpdateNotification add []]) ++
        inbound.map (fun p => p.message.message) := by
      simp [coming, hin]
    have hlive := live_of_treeUpdate hheard hstream hin
    -- the notification deletes nothing
    have hdel : ∀ {u}, Deleted (past ++ [.treeUpdateNotification add []]) u → Deleted past u := by
      intro u hu
      refine (Deleted.append_iff.mp hu).resolve_right ?_
      rintro ⟨m, hm, hum⟩
      rw [List.mem_singleton.mp hm] at hum
      cases hum
    have hann : ∀ {u}, u ∉ k.deleted → u ∈ (treeUpdateNotification add []).announced →
        KnownFrom (past ++ [.treeUpdateNotification add []]) u := by
      intro u hud hu
      refine .inr ⟨⟨_, List.mem_append_right _ List.mem_cons_self, hu⟩, fun hd => ?_⟩
      exact hud (hheard.deleted.mpr (hdel hd))
    have hknown : KnownIn (KnownFrom (past ++ [.treeUpdateNotification add []])) k.mirror :=
      fun _ hu => (knownIn_of_heard hheard hkept _ hu).imp_right fun hk =>
        ⟨Announced.append_iff.mpr (.inl hk.1), fun hd => hk.2 (hdel hd)⟩
    refine (h.addNodes hkept (distinct_of_stream hhist (hcoming ▸ hstream)) hknown htold
      (fun hi hj => hhist.inj hi hj) (fun hi => hhist.uuid_ne_parentUuid hi) hlive fun i hi => ?_).1
    exact ⟨hann (hlive i hi).1 (mem_announced_iff.mpr ⟨i, hi, .inl rfl⟩),
      hann (hlive i hi).2 (mem_announced_iff.mpr ⟨i, hi, .inr rfl⟩)⟩

/-- The node whose destruction has been confirmed is dead. -/
theorem dead_of_destroyed (hinf : Informed s c k)
    (hth : ThreadsSound s.requests c k.mirror k.threads) {i : ThreadId} {a : Addr} {r : ℕ}
    (ht : k.threads[i]? = some ⟨.destroy a, .answered r ⟨r, .deleteResponse .ok⟩⟩) :
    ∃ n : Client.Node, k.mirror.heap[a]? = some n ∧ Dead s.server n.uuid := by
  obtain ⟨t, u, hreq, hdead⟩ := hinf.held (.inHand i _ ht rfl)
  obtain ⟨t', q, hreq', node, rfl, hnode⟩ := (hth i _ ht).sent rfl
  obtain ⟨n, hn, hu⟩ := hnode a rfl
  rw [hreq] at hreq'
  cases hreq'
  exact ⟨n, hn, hu ▸ hdead⟩

/-- A step of a client that is not closed keeps every node listed that is not dead. -/
theorem listed_of_stepResult {a : Client.Action} {sent : List Packet}
    (h : Listed (Dead s.server) k.mirror) (hkept : KeptClean s k) (hhist : History s.log s.server)
    (hheard : Heard k past) (hstream : Stream s.log s.server (past ++ k.coming))
    (hinf : Informed s c k) (hth : ThreadsSound s.requests c k.mirror k.threads)
    (hside : ∀ p ∈ k.inbound, OneSided p.message.message)
    (happ : ∀ i, a = .proceed i → k.AppliesLive i)
    (hown : ∀ i, a = .proceed i → ∀ th ∈ k.threads[i]?, th.unlinksOwn k.mirror = true)
    (hres : Client.StepResult k s.requests.length a k' sent) :
    Listed (Dead s.server) k'.mirror := by
  have hdist := distinct_of_stream hhist hstream
  have hknown := knownIn_of_heard hheard hkept
  have hlive : ∀ {u}, u ∉ k.deleted → Announced past u → KnownFrom past u :=
    fun hu hann => .inr ⟨hann, fun hd => hu (hheard.deleted.mpr hd)⟩
  cases hres.mirrorChange with
  | same a hm hd hr => exact h.sameShape hm
  | signin i hm hd hin =>
    rw [hm]
    exact h.emplaceRoot hkept
  | create i a name r tag uuid ht hm hd hin =>
    obtain ⟨htakes, hgone⟩ := happ i rfl
    obtain rfl : tag = r := by simpa [Thread.takesOwn] using htakes _ ht
    have hgone : uuid ∉ k.deleted := hgone (uuid, true) (by simp [mentionsOf, ht])
    obtain ⟨n, hn, hmem⟩ := created_of_accept hinf hth ht
    rw [hm]
    exact h.createNode hkept hdist hknown hmem
      (hlive hgone (hheard.announced ht rfl List.mem_cons_self)) hn rfl
  | add i call l j todo ht hm hd hin =>
    have hgone := (happ i rfl).2
    simp only [mentionsOf, ht] at hgone
    have hj := hinf.held (.inHand i _ ht rfl) j List.mem_cons_self
    have hu : j.uuid ∉ k.deleted := hgone (j.uuid, true) (by simp [entryMentions])
    have hp : j.parentUuid ∉ k.deleted := hgone (j.parentUuid, true) (by simp [entryMentions])
    rw [hm]
    refine h.addNode hkept hdist hknown hj (hhist.uuid_ne_parentUuid hj)
      (hlive hu (hheard.announced ht rfl ?_)) (hlive hp (hheard.announced ht rfl ?_)) hp
    · exact mem_announced_iff.mpr ⟨j, List.mem_cons_self, .inl rfl⟩
    · exact mem_announced_iff.mpr ⟨j, List.mem_cons_self, .inr rfl⟩
  | destroy i a r tag ht hm hd hin =>
    have hth' := hown i rfl _ ht
    simp only [Thread.unlinksOwn, Bool.and_eq_true, beq_iff_eq] at hth'
    obtain ⟨rfl, hplace⟩ := hth'
    obtain ⟨n, hn, hdead⟩ := dead_of_destroyed hinf hth ht
    rw [hm]
    refine h.destroyNode hkept fun n' p pn b hn' hp hpn hb => ?_
    rw [hn] at hn'
    cases hn'
    exact ⟨Mirror.ownsPlace_iff.mp hplace n p pn b hn hp hpn hb, hdead⟩
  | treeUpdate tag trId add del hin hx hm hd =>
    have htold : Told s c ⟨tag, .treeUpdateNotification add del⟩ :=
      hinf.inbound (p := ⟨tag, trId, .treeUpdateNotification add del⟩) (hin ▸ List.mem_cons_self)
    rw [hm]
    exact listed_of_treeUpdate h hkept hhist hheard hstream htold.1 hin
      (hside ⟨tag, trId, .treeUpdateNotification add del⟩ (hin ▸ List.mem_cons_self) add del rfl)
  | free a ha hu hm hd hin =>
    rw [hm]
    exact h.free a

/-- Under the condition every node that is not dead is listed in every mirror. -/
theorem listed_of_run {as : List System.Action} (h : Run (Guarded KeepsPlaces Step) .init as s)
    (c : Conn) : Listed (Dead s.server) (s.client c).mirror := by
  refine mirror_of_run (C := KeepsPlaces) (fun h => h.stays.creates)
    (P := fun s m _ => Listed (Dead s.server) m) (.nil _) h ?_ (fun hgrown hold => ?_)
    fun {as t a k k' sent} run hguard hk hopen hres hold => ?_
  · intro u a p n pn hu
    simp [client, init, Client.new, Mirror.empty] at hu
  · exact hold.mono fun u hu => hgrown.dead hu
  · have hkc := client_of_some hk
    obtain ⟨past, hheard, hstream⟩ := streamed_of_run (fun h => h.stays.signins)
      (fun h => h.stays.creates) (fun h => h.stays.updates) run c (by rwa [hkc])
    have hinf := informed_of_run (fun h => h.stays.creates) run c
    have hkept := kept_of_run (fun h => h.stays) run c
    have hside := oneSided_of_run (fun h => h.stays.creates) run c
    have hhist := history_of_run (log_of_run run.of_guarded) (creates_of_run (fun h => h.stays.creates) run)
    have happ : ∀ i, a = .proceed i → k.AppliesLive i := by
      rintro i rfl
      have happ := hguard.stays.applied
      simpa only [LiveApplied, hkc] using happ
    have hown : ∀ i, a = .proceed i → ∀ th ∈ k.threads[i]?, th.unlinksOwn k.mirror = true := by
      rintro i rfl
      have hown := hguard.unlinked
      simpa only [OwnUnlinked, hkc] using hown
    rw [hkc] at hheard hstream hinf hkept hside
    exact listed_of_stepResult hold hkept hhist hheard hstream hinf
      ((sound_of_run run.of_guarded).threads hk) hside happ hown hres

/-- The indices of a mirror agree when no message is on its way to its client, as long as nothing is
applied whose deletion has been handled, and `destroy` erases no entry but its own: every node in
`mTree` whose parent is there stands in the children map of the parent, and every entry of a children
map is a node in `mTree`. -/
theorem places_agree {as : List System.Action} (h : Run (Guarded KeepsPlaces Step) .init as s)
    (hk : s.clients[c]? = some k) (hopen : k.status ≠ .closed) (hin : k.inbound = []) :
    (∀ (u v : UInt64) (a p : Addr) (n pn : Client.Node), k.mirror.mTree[u]? = some a →
      k.mirror.heap[a]? = some n → n.parent = some p → k.mirror.mTree[v]? = some p →
        k.mirror.heap[p]? = some pn → pn.children[n.name]? = some a) ∧
    ∀ (v : UInt64) (p a : Addr) (pn : Client.Node) (name : Name), k.mirror.mTree[v]? = some p →
      k.mirror.heap[p]? = some pn → pn.children[name]? = some a →
        ∃ n : Client.Node, k.mirror.heap[a]? = some n ∧ k.mirror.mTree[n.uuid]? = some a := by
  have hkc := client_of_some hk
  refine ⟨fun u v a p n pn hu hn hp hv hpn => ?_, fun v p a pn name hv hpn ha => ?_⟩
  · have hlisted := listed_of_run h c
    rw [hkc] at hlisted
    refine (hlisted u a p n pn hu hn hp hpn).resolve_right fun hdead => ?_
    -- with nothing on its way, the deletion of a dead node has been handled
    have hmem : u ∈ s.server.mTree := by
      refine mem_server_of_run (fun h => h.stays) h c (by rwa [hkc]) (by rwa [hkc]) ?_
      rw [hkc]
      exact Std.ExtTreeMap.mem_iff_isSome_getElem?.mpr (by rw [hu]; rfl)
    exact (wellLinked_of_run (log_of_run h.of_guarded)).mem_mTree_iff.mp hmem hdead.1
  · have hkept := kept_of_run (fun h => h.stays) h c
    rw [hkc] at hkept
    obtain ⟨n, hn, -, -, hreg⟩ := hkept.mTree_of_child hpn ha
    exact ⟨n, hn, hreg⟩

/-- The first client creates a node and destroys it again, and the second one creates another of the
same name when it has been told of the deletion.  The first client applies the confirmation of its
`destroy` after the messages `before`, and handles those of `after` then. -/
def recreatedActions (before after : List System.Action) : List System.Action :=
  signinActions 1 ++ signinActions 2 ++ askActions 1 (.create 0 [97]) ++
    [.client 1 .read, .client 1 .read] ++ takeActions 1 ++ askActions 1 (.destroy 1) ++
    [.client 2 .read, .client 2 .read] ++ askActions 2 (.create 0 [97]) ++ before ++ takeActions 1 ++
    after

/-- The confirmation is applied before the younger node is there. -/
theorem places_agree_recreated : ∃ s k n pn, s.clients[(1 : Conn)]? = some k ∧
    Run (Guarded KeepsPlaces Step) .init
      (recreatedActions [.client 1 .read] [.client 1 .read, .client 1 .read]) s ∧
    k.mirror.mTree[(2 : UInt64)]? = some 2 ∧ k.mirror.heap[(2 : Addr)]? = some n ∧
    n.parent = some 0 ∧ k.mirror.heap[(0 : Addr)]? = some pn ∧ pn.children[n.name]? = some 2 := by
  obtain ⟨s, hs, h⟩ := (Option.any_eq_true _ _).mp (show (follow System.step
      (fun s a => decide (KeepsPlaces s a)) .init
        (recreatedActions [.client 1 .read] [.client 1 .read, .client 1 .read])).any (fun s =>
      (s.clients[(1 : Conn)]?).any fun k => decide (k.status ≠ .closed) && decide (k.inbound = []) &&
        decide (k.mirror.mTree[(2 : UInt64)]? = some 2) &&
        decide (k.mirror.mTree[(0 : UInt64)]? = some 0) &&
        (k.mirror.heap[(2 : Addr)]?).any (fun n => decide (n.parent = some 0)) &&
        (k.mirror.heap[(0 : Addr)]?).isSome) = true by decide +kernel)
  obtain ⟨k, hk, h⟩ := (Option.any_eq_true _ _).mp h
  simp only [Bool.and_eq_true, decide_eq_true_eq] at h
  obtain ⟨⟨⟨⟨⟨hopen, hin⟩, hu⟩, hv⟩, hn⟩, hpn⟩ := h
  obtain ⟨n, hn, hp⟩ := (Option.any_eq_true _ _).mp hn
  obtain ⟨pn, hpn⟩ := Option.isSome_iff_exists.mp hpn
  have hp := of_decide_eq_true hp
  have hrun := (run_of_follow System.step hs).mono fun s a t hst =>
    (⟨of_decide_eq_true hst.1, hst.2⟩ : Guarded KeepsPlaces Step s a t)
  exact ⟨s, k, n, pn, hk, hrun, hu, hn, hp, hpn,
    (places_agree hrun hk hopen hin).1 2 0 2 0 n pn hu hn hp hv hpn⟩

/-- The confirmation is applied last, and erases the entry of the younger node.  Nothing is left to be
done, and the younger node is in `mTree` but not in the children map of the root. -/
theorem not_places_agree : ∃ s k n pn, Run Step .init
      (recreatedActions [.client 1 .read, .client 1 .read, .client 1 .read] []) s ∧
    s.clients[(1 : Conn)]? = some k ∧ k.threads.isEmpty = true ∧ k.reader = none ∧ k.inbound = [] ∧
    k.status = .running ∧ k.mirror.mTree[(2 : UInt64)]? = some 2 ∧
    k.mirror.heap[(2 : Addr)]? = some n ∧ n.parent = some 0 ∧
    k.mirror.mTree[(0 : UInt64)]? = some 0 ∧ k.mirror.heap[(0 : Addr)]? = some pn ∧
    pn.children[n.name]? = none := by
  obtain ⟨s, hs, h⟩ := (Option.any_eq_true _ _).mp (show (follow System.step (fun _ _ => true) .init
        (recreatedActions [.client 1 .read, .client 1 .read, .client 1 .read] [])).any (fun s =>
      (s.clients[(1 : Conn)]?).any fun k => k.threads.isEmpty && decide (k.reader = none) &&
        decide (k.inbound = []) && decide (k.status = .running) &&
        decide (k.mirror.mTree[(2 : UInt64)]? = some 2) &&
        decide (k.mirror.mTree[(0 : UInt64)]? = some 0) &&
        (k.mirror.heap[(2 : Addr)]?).any fun n => decide (n.parent = some 0) &&
          (k.mirror.heap[(0 : Addr)]?).any fun pn => decide (pn.children[n.name]? = none)) = true
            by decide +kernel)
  obtain ⟨k, hk, h⟩ := (Option.any_eq_true _ _).mp h
  simp only [Bool.and_eq_true, decide_eq_true_eq] at h
  obtain ⟨⟨⟨⟨⟨⟨hidle, hreader⟩, hin⟩, hrunning⟩, hu⟩, hv⟩, hn⟩ := h
  obtain ⟨n, hn, h⟩ := (Option.any_eq_true _ _).mp hn
  obtain ⟨hp, h⟩ := Bool.and_eq_true_iff.mp h
  obtain ⟨pn, hpn, h⟩ := (Option.any_eq_true _ _).mp h
  exact ⟨s, k, n, pn, (run_of_follow System.step hs).of_guarded, hk, hidle, hreader, hin, hrunning,
    hu, hn, of_decide_eq_true hp, hv, hpn, of_decide_eq_true h⟩

end System

end PropertyTree
