import PropertyTree.Client.Deletions
import PropertyTree.System.Streams

/-!
# What stays deleted

The reader handles the notification of a deletion in the order in which the server sent it, whereas
`create` and `get` apply their responses when their threads go on.  So a node comes back into the
mirror when its deletion is handled before a response that tells of it is applied, and only then.
-/

namespace PropertyTree

namespace Client

open Library Server

variable {k k' : Client} {number : ℕ} {a : Action} {sent : List Packet}
  {past : List PropertyTreeMessages}

/-- The acceptance that a thread of `create` has in hand is the response to its own request. -/
def Thread.takesOwn : Thread → Bool
  | ⟨.create _ _, .answered r ⟨tag, .createAccept _⟩⟩ => tag == r
  | _ => true

/-- What thread `i` puts into `mTree` next has not been handled as deleted, and is what its own request
has led to. -/
def AppliesLive (k : Client) (i : ThreadId) : Prop :=
  (∀ th ∈ k.threads[i]?, th.takesOwn = true) ∧
    ∀ x ∈ k.mentionsOf (.proceed i), x.1 ∉ k.deleted

instance (k : Client) (i : ThreadId) : Decidable (k.AppliesLive i) :=
  @instDecidableAnd _ _ inferInstance (List.decidableBAll _ _)

end Client

namespace System

open Library Server Client

variable {s s' : System} {act : System.Action} {c d : Conn} {k k' : Client}

/-- No thread puts anything into the mirror whose deletion the client has handled. -/
def LiveApplied (s : System) : System.Action → Prop
  | .client c (.proceed i) => (s.client c).AppliesLive i
  | _ => True

/-- The conditions under which what is deleted stays deleted. -/
structure StaysDeleted (s : System) (act : System.Action) : Prop where
  signins : FewSignins s act
  creates : FewCreates s act
  updates : UpdatesHandled s act
  applied : LiveApplied s act

instance (s : System) (act : System.Action) : Decidable (LiveApplied s act) :=
  match act with
  | .client c (.proceed i) => inferInstanceAs (Decidable ((s.client c).AppliesLive i))
  | .client _ (.start _ _) | .client _ (.fetchId _) | .client _ (.send _) | .client _ .read
  | .client _ (.take _) | .client _ (.timeout _) | .client _ (.erase _) | .client _ .update
  | .client _ (.setup _) | .client _ (.free _) | .client _ .close | .connect _ | .serve _
  | .disconnect _ => .isTrue trivial

instance (s : System) (act : System.Action) : Decidable (StaysDeleted s act) :=
  decidable_of_iff
    (FewSignins s act ∧ FewCreates s act ∧ UpdatesHandled s act ∧ LiveApplied s act)
    ⟨fun h => ⟨h.1, h.2.1, h.2.2.1, h.2.2.2⟩, fun h => ⟨h.1, h.2, h.3, h.4⟩⟩

/-- The mirror of the client knows nothing whose deletion it has handled, and knows everything else
as it has been created. -/
abbrev KeptClean (s : System) (k : Client) : Prop :=
  Kept (· ∈ creations s.log) (· ∈ k.deleted) k.mirror

/-- The acceptance of a call's own request names the node that the call asks for. -/
theorem created_of_accept (hinf : Informed s c k) (hth : ThreadsSound s.requests c k.mirror k.threads)
    {i : ThreadId} {a : Addr} {name : Name} {r : ℕ} {uuid : UInt64}
    (ht : k.threads[i]? = some ⟨.create a name, .answered r ⟨r, .createAccept uuid⟩⟩) :
    ∃ n : Client.Node, k.mirror.heap[a]? = some n ∧ ⟨name, uuid, n.uuid⟩ ∈ creations s.log := by
  obtain ⟨t, name', pu, hreq, hmem⟩ := hinf.held (.inHand i _ ht rfl)
  obtain ⟨t', q, hreq', node, rfl, hnode⟩ := (hth i _ ht).sent rfl
  obtain ⟨n, hn, hu⟩ := hnode a rfl
  rw [hreq] at hreq'
  cases hreq'
  exact ⟨n, hn, hu ▸ hmem⟩

/-- A notification tells of nothing whose deletion has been told of before. -/
theorem live_of_treeUpdate {past : List PropertyTreeMessages} {tag : ℕ} {trId : UInt16}
    {add : List NamedNode} {del : List UInt64} {inbound : List Packet} (hheard : Heard k past)
    (hstream : Stream s.log s.server (past ++ k.coming))
    (hin : k.inbound = ⟨tag, trId, .treeUpdateNotification add del⟩ :: inbound) :
    ∀ i ∈ add, i.uuid ∉ k.deleted ∧ i.parentUuid ∉ k.deleted := by
  have hlive : ∀ u ∈ (PropertyTreeMessages.treeUpdateNotification add del).announced,
      u ∉ k.deleted := by
    intro u hu hd
    obtain ⟨m, hm, hum⟩ := hheard.deleted.mp hd
    refine (List.pairwise_append.mp hstream.once).2.2 m hm _ ?_ u hum hu
    simp [coming, hin]
  intro i hi
  exact ⟨hlive _ (PropertyTreeMessages.mem_announced_iff.mpr ⟨i, hi, .inl rfl⟩),
    hlive _ (PropertyTreeMessages.mem_announced_iff.mpr ⟨i, hi, .inr rfl⟩)⟩

/-- A step of a client that is not closed keeps its mirror clean. -/
theorem kept_of_stepResult {a : Client.Action} {sent : List Packet} {past : List PropertyTreeMessages}
    (h : KeptClean s k) (hhist : History s.log s.server) (hheard : Heard k past)
    (hstream : Stream s.log s.server (past ++ k.coming)) (hinf : Informed s c k)
    (hth : ThreadsSound s.requests c k.mirror k.threads) (happ : ∀ i, a = .proceed i → k.AppliesLive i)
    (hres : Client.StepResult k s.requests.length a k' sent) : KeptClean s k' := by
  have honce : ∀ {i j}, i ∈ creations s.log → j ∈ creations s.log → j.uuid = i.uuid → j = i :=
    fun hi hj => hhist.inj hi hj
  have hne : ∀ {i}, i ∈ creations s.log → i.uuid ≠ i.parentUuid := fun hi =>
    hhist.uuid_ne_parentUuid hi
  cases hres.mirrorChange with
  | same a hm hd hr => exact (h.sameShape hm).mono id fun u => by rw [hd]
  | signin i hm hd hin =>
    rw [KeptClean, hm, hd]
    refine h.emplaceRoot fun h0 => ?_
    exact (hstream.dead (Deleted.append_iff.mpr (.inl (hheard.deleted.mp h0)))).1 rfl
  | create i a name r tag uuid ht hm hd hin =>
    obtain ⟨hown, hlive⟩ := happ i rfl
    obtain rfl : tag = r := by simpa [Thread.takesOwn] using hown _ ht
    have hgone : uuid ∉ k.deleted := hlive (uuid, true) (by simp [mentionsOf, ht])
    obtain ⟨n, hn, hmem⟩ := created_of_accept hinf hth ht
    rw [KeptClean, hm, hd]
    exact h.createNode hmem (fun hi => honce hmem hi) hgone hn rfl
  | add i call l j todo ht hm hd hin =>
    have hlive := (happ i rfl).2
    simp only [mentionsOf, ht] at hlive
    have hj := hinf.held (.inHand i _ ht rfl) j List.mem_cons_self
    rw [KeptClean, hm, hd]
    exact h.addNode hj (fun hi => honce hj hi) (hne hj) (hlive (j.uuid, true) (by simp [entryMentions]))
      (hlive (j.parentUuid, true) (by simp [entryMentions]))
  | destroy i a r tag ht hm hd hin =>
    rw [KeptClean, hm, hd]
    exact h.destroyNode a
  | treeUpdate tag trId add del hin hx hm hd =>
    have htold : Told s c ⟨tag, .treeUpdateNotification add del⟩ :=
      hinf.inbound (p := ⟨tag, trId, .treeUpdateNotification add del⟩) (hin ▸ List.mem_cons_self)
    have hadd := htold.1
    rw [KeptClean, hm, hd]
    exact ((h.addNodes hadd honce hne (live_of_treeUpdate hheard hstream hin)).removeNodes del).mono
      id fun u => List.mem_append
  | free a ha hu hm hd hin =>
    rw [KeptClean, hm, hd]
    exact h.free ha

/-- Under the condition every mirror stays clean. -/
theorem kept_of_run {C : System → System.Action → Prop} (hC : ∀ {s a}, C s a → StaysDeleted s a)
    {as : List System.Action} (h : Run (Guarded C Step) .init as s) (c : Conn) :
    KeptClean s (s.client c) := by
  refine mirror_of_run (fun h => (hC h).creates)
    (P := fun s m del => Kept (· ∈ creations s.log) (· ∈ del) m) (.nil _) h ?_
    (fun hgrown hold => hold.mono (fun hi => hgrown.creations hi) fun _ => .rfl)
    fun {as t a k k' sent} run hguard hk hopen hres hold => ?_
  · have hnew : System.init.client c = .new := by simp [client, init]
    rw [hnew]
    exact (Kept.empty _).mono id fun u => by simp [Client.new]
  · have hkc := client_of_some hk
    obtain ⟨past, hheard, hstream⟩ := streamed_of_run (fun h => (hC h).signins)
      (fun h => (hC h).creates) (fun h => (hC h).updates) run c (by rwa [hkc])
    have hinf := informed_of_run (fun h => (hC h).creates) run c
    have hhist := history_of_run (log_of_run run.of_guarded)
      (creates_of_run (fun h => (hC h).creates) run)
    have happ : ∀ i, a = .proceed i → k.AppliesLive i := by
      rintro i rfl
      have happ := (hC hguard).applied
      simpa only [LiveApplied, hkc] using happ
    rw [hkc] at hheard hstream hinf
    exact kept_of_stepResult hold hhist hheard hstream hinf
      ((sound_of_run run.of_guarded).threads hk) happ hres

/-- When no message is on its way to a client that is not closed, what it knows of is in the tree of
the server. -/
theorem mem_server_of_run {C : System → System.Action → Prop} (hC : ∀ {s a}, C s a → StaysDeleted s a)
    {as : List System.Action} (h : Run (Guarded C Step) .init as s) (c : Conn)
    (hopen : (s.client c).status ≠ .closed) (hin : (s.client c).inbound = []) {u : UInt64}
    (hu : u ∈ (s.client c).mirror.mTree) : u ∈ s.server.mTree := by
  obtain ⟨past, hheard, hstream⟩ := streamed_of_run (fun h => (hC h).signins)
    (fun h => (hC h).creates) (fun h => (hC h).updates) h c hopen
  have hw := wellLinked_of_run (log_of_run h.of_guarded)
  have hmem : (s.client c).mirror.mTree[u]? ≠ none := by
    rwa [← Option.isSome_iff_ne_none, Std.ExtTreeMap.isSome_getElem?_iff_mem]
  rw [coming, hin, List.map_nil, List.append_nil] at hstream
  rcases hheard.mTree hmem with rfl | hann
  · exact Std.ExtTreeMap.mem_iff_isSome_getElem?.mpr (by
      rw [hw.root_mTree]
      rfl)
  · rw [hw.mem_mTree_iff]
    exact (hstream.live hann).resolve_right fun hdel =>
      hmem ((kept_of_run hC h c).absent (hheard.deleted.mpr hdel))

/-- As long as nothing is applied to a mirror whose deletion its client has handled, a deleted node is
neither in `mTree` nor in the children map of any object there; and when no message is on its way to
the client, every uuid in `mTree` is in the tree of the server. -/
theorem stays_deleted {as : List System.Action} (h : Run (Guarded StaysDeleted Step) .init as s)
    (hk : s.clients[c]? = some k) :
    (∀ u ∈ k.deleted, k.mirror.mTree[u]? = none ∧
      ∀ (v : UInt64) (p a : Addr) (parent node : Client.Node) (name : Name),
        k.mirror.mTree[v]? = some p → k.mirror.heap[p]? = some parent →
          parent.children[name]? = some a → k.mirror.heap[a]? = some node → node.uuid ≠ u) ∧
    (k.status ≠ .closed → k.inbound = [] →
      ∀ u : UInt64, u ∈ k.mirror.mTree → u ∈ s.server.mTree) := by
  have hkept := kept_of_run (C := StaysDeleted) id h c
  have hkc := client_of_some hk
  rw [hkc] at hkept
  refine ⟨fun u hu => ⟨hkept.absent hu, ?_⟩, fun hopen hin u hu => ?_⟩
  · rintro v p a parent node name - hp ha hnode rfl
    obtain ⟨n, hn, -, -, hgone⟩ := hkept.child hp ha
    rw [hnode] at hn
    cases hn
    exact hgone hu
  · exact mem_server_of_run (C := StaysDeleted) id h c (by rwa [hkc]) (by rwa [hkc]) (by rwa [hkc])

/-- The second client destroys the node that the first one creates, whose reader handles all messages
before or after the response is applied. -/
def destroyedActions (before after : List System.Action) : List System.Action :=
  signinActions 1 ++ signinActions 2 ++ askActions 1 (.create 0 [97]) ++ [.client 2 .read] ++
    askActions 2 (.destroy 1) ++ before ++ [.client 1 .read] ++ takeActions 1 ++ after

/-- A node that is created and deleted is forgotten. -/
theorem stays_deleted_destroyed : ∃ s k, s.clients[(1 : Conn)]? = some k ∧ 1 ∈ k.deleted ∧
    Run (Guarded StaysDeleted Step) .init
      (destroyedActions [] [.client 1 .read, .client 1 .read]) s ∧
    k.mirror.mTree[(1 : UInt64)]? = none := by
  obtain ⟨s, hs, h⟩ := (Option.any_eq_true _ _).mp (show (follow System.step
      (fun s a => decide (StaysDeleted s a)) .init
        (destroyedActions [] [.client 1 .read, .client 1 .read])).any (fun s =>
      (s.clients[(1 : Conn)]?).any fun k => decide (1 ∈ k.deleted)) = true by decide +kernel)
  obtain ⟨k, hk, hdel⟩ := (Option.any_eq_true _ _).mp h
  have hrun := (run_of_follow System.step hs).mono fun s a t hst =>
    (⟨of_decide_eq_true hst.1, hst.2⟩ : Guarded StaysDeleted Step s a t)
  have hmem := of_decide_eq_true hdel
  exact ⟨s, k, hk, hmem, hrun, ((stays_deleted hrun hk).1 1 hmem).1⟩

/-- The reader handles the notification of the deletion before `create` applies its response, so that
the node comes back, and stays when nothing is left to be done. -/
theorem not_stays_deleted : ∃ s k, Run Step .init
      (destroyedActions [.client 1 .read, .client 1 .read] []) s ∧
    s.clients[(1 : Conn)]? = some k ∧ k.threads.isEmpty = true ∧ k.reader = none ∧ k.inbound = [] ∧
    1 ∈ k.deleted ∧ (1 : UInt64) ∈ k.mirror.mTree ∧ (1 : UInt64) ∉ s.server.mTree := by
  obtain ⟨s, hs, h⟩ := (Option.any_eq_true _ _).mp (show (follow System.step (fun _ _ => true) .init
        (destroyedActions [.client 1 .read, .client 1 .read] [])).any (fun s =>
      (s.clients[(1 : Conn)]?).any fun k => k.threads.isEmpty && decide (k.reader = none) &&
        decide (k.inbound = []) && decide (1 ∈ k.deleted) &&
        decide ((1 : UInt64) ∈ k.mirror.mTree) && decide ((1 : UInt64) ∉ s.server.mTree)) = true
          by decide +kernel)
  obtain ⟨k, hk, h⟩ := (Option.any_eq_true _ _).mp h
  simp only [Bool.and_eq_true, decide_eq_true_eq] at h
  obtain ⟨⟨⟨⟨⟨hidle, hreader⟩, hin⟩, hdel⟩, hmem⟩, hserver⟩ := h
  exact ⟨s, k, (run_of_follow System.step hs).of_guarded, hk, hidle, hreader, hin, hdel, hmem, hserver⟩

end System

end PropertyTree
