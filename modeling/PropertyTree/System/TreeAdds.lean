import PropertyTree.Client.TreeAdds
import PropertyTree.System.Deletions

/-!
# The calls of the tree-add handler over a run

The reader calls `mTreeAddHandler` for a node when a notification or a response links it, and `create`
puts the node of its acceptance into the mirror without a call.  So the handler is called once for a
node if its notification has been handled by the time its acceptance is applied, and not at all if the
acceptance is applied first.
-/

namespace PropertyTree

namespace Client

open Library Server

variable {k k' : Client} {number : ℕ} {a : Action} {sent : List Packet}

/-- The node that `create` has been given. -/
def Thread.accepted : Thread → Option UInt64
  | ⟨.create _ _, .answered _ ⟨_, .createAccept uuid⟩⟩ => some uuid
  | _ => none

/-- The node that thread `i` puts into the mirror next is there already. -/
def AppliesKnown (k : Client) (i : ThreadId) : Prop :=
  ∀ th ∈ k.threads[i]?, ∀ uuid ∈ th.accepted, k.mirror.mTree[uuid]? ≠ none

instance (k : Client) (i : ThreadId) : Decidable (k.AppliesKnown i) :=
  have : DecidablePred fun th : Thread => ∀ uuid ∈ th.accepted, k.mirror.mTree[uuid]? ≠ none :=
    fun _ => Option.decidableForallMem _
  inferInstanceAs (Decidable (∀ th ∈ k.threads[i]?, ∀ uuid ∈ th.accepted,
    k.mirror.mTree[uuid]? ≠ none))

/-- The application leaves `mTreeAddHandler` set, and `create` finds its node in the mirror. -/
def CallsOnce (k : Client) : Action → Prop
  | .setup (.setTreeAddHandler handler) => handler = true
  | .proceed i => k.AppliesKnown i
  | _ => True

instance (k : Client) (a : Action) : Decidable (k.CallsOnce a) :=
  match a with
  | .setup (.setTreeAddHandler handler) => inferInstanceAs (Decidable (handler = true))
  | .proceed i => inferInstanceAs (Decidable (k.AppliesKnown i))
  | .setup (.setTreeRemoveHandler _) | .setup (.setHRcpHandler _ _) | .setup (.setUpdateHandler _ _)
  | .start _ _ | .fetchId _ | .send _ | .take _ | .timeout _ | .erase _ | .read | .update | .free _
  | .close => .isTrue trivial

namespace Once

variable {created : NamedNode → Prop} {u : UInt64} {calls : List HandlerCall} {m : Mirror}

/-- A change of the data or the handlers of an object. -/
theorem modifyNode (h : Once created u calls m) (x : Addr) {f : Node → Node}
    (hf : ∀ n, (f n).shape = n.shape) : Once created u calls (m.modifyNode x f) := by
  have hshape := Mirror.SameShape.modifyNode m x hf
  refine h.sameShape hshape rfl ⟨[], (List.append_nil _).symm, by simp⟩ ?_
  exact (h.wellFormed.modifyNode x fun n => by
    have := hf n
    simp only [Node.shape, Prod.mk.injEq] at this
    exact this.2.2.2).wellFormed

/-- A call of an update handler. -/
theorem callUpdate (h : Once created u calls m) (x : Addr) : Once created u calls (m.callUpdate x) := by
  refine h.sameShape (.callUpdate m x) ?_ ?_ (h.wellFormed.callUpdate x).wellFormed
  · unfold Mirror.callUpdate
    split_ifs <;> rfl
  · unfold Mirror.callUpdate
    split_ifs
    · exact ⟨[.update x], rfl, by simp⟩
    · exact ⟨[], (List.append_nil _).symm, by simp⟩

/-- The application sets a handler, and leaves this one set. -/
theorem setup (h : Once created u calls m) {s : Setup}
    (hset : ∀ handler, s = .setTreeAddHandler handler → handler = true) :
    Once created u calls (s.apply m) := by
  have hw := (h.wellFormed.setup s).wellFormed
  cases s with
  | setTreeAddHandler handler =>
    obtain rfl := hset handler rfl
    exact h.frame_silent hw h.handler.symm rfl (fun hn => ⟨_, hn, rfl⟩) le_rfl
      ⟨[], (List.append_nil _).symm, by simp⟩
  | setTreeRemoveHandler handler =>
    exact h.frame_silent hw rfl rfl (fun hn => ⟨_, hn, rfl⟩) le_rfl
      ⟨[], (List.append_nil _).symm, by simp⟩
  | setHRcpHandler x handler => exact h.modifyNode x fun _ => rfl
  | setUpdateHandler x handler => exact h.modifyNode x fun _ => rfl

/-- A step of the client, when what it adds has been created, and what it removes is neither the node
nor its parent. -/
theorem of_stepResult (h : Once created u calls k.mirror) (hcalls : k.CallsOnce a)
    (hres : StepResult k number a k' sent)
    (hne : ∀ {i}, created i → i.uuid ≠ i.parentUuid)
    (hadd : ∀ {i : ThreadId} {call l j todo},
      k.threads[i]? = some ⟨call, .adding l (j :: todo)⟩ → created j)
    (hupdate : ∀ {tag trId add del inbound},
      k.inbound = ⟨tag, trId, .treeUpdateNotification add del⟩ :: inbound →
      (∀ i ∈ add, created i) ∧ (u ∉ k'.deleted → k'.deleted = k.deleted ++ del →
        u ∉ del ∧ ∀ {i}, (k.mirror.addNodes add).mTree[u]? ≠ none → created i → i.uuid = u →
          i.parentUuid ∉ del)) (hu : u ∉ k'.deleted) :
    Once created u calls k'.mirror := by
  cases hres with
  | startSet i x value node hs hi hl hn => exact h.modifyNode x fun _ => rfl
  | fetch i x r tag data ht hl => exact h.modifyNode x fun _ => rfl
  | update x data hr hl =>
    exact (h.modifyNode x (f := fun node => { node with data := data }) fun _ => rfl).callUpdate x
  | setup s hs =>
    refine h.setup ?_
    rintro handler rfl
    exact hcalls
  | signin i r tag sessionId ht => exact h.emplaceRoot
  | create i x name r tag uuid ht =>
    refine h.createNode x name ?_
    rintro rfl
    exact hcalls _ ht _ rfl
  | add i call l j todo ht => exact h.addNode (hadd ht) (hne (hadd ht))
  | destroy i x r tag ht => exact h.destroyNode x
  | treeUpdate tag trId add del inbound hr hin hx =>
    obtain ⟨hcreated, hdel⟩ := hupdate hin
    obtain ⟨hudel, hpar⟩ := hdel hu rfl
    exact (h.addNodes hcreated hne).removeNodes hudel hpar
  | free x hx hux => exact h.free hx
  | _ => exact h

end Once

end Client

namespace System

open Library Server Client

variable {s s' s₁ : System} {act : System.Action} {c d : Conn} {k k' : Client} {u : UInt64}

/-- What the application and the threads of `create` of the client on `c` have to observe. -/
def CallsOnceOn (c : Conn) (s : System) : System.Action → Prop
  | .client d a => d = c → (s.client d).CallsOnce a
  | _ => True

instance (c : Conn) (s : System) (act : System.Action) : Decidable (CallsOnceOn c s act) :=
  match act with
  | .client d a => inferInstanceAs (Decidable (d = c → (s.client d).CallsOnce a))
  | .connect _ | .serve _ | .disconnect _ => .isTrue trivial

/-- The conditions under which the client on `c` calls its tree-add handler once for a node. -/
structure TreeAddsOnce (c : Conn) (s : System) (act : System.Action) : Prop where
  signins : FewSignins s act
  creates : FewCreates s act
  updates : UpdatesHandled s act
  once : CallsOnceOn c s act

instance (c : Conn) (s : System) (act : System.Action) : Decidable (TreeAddsOnce c s act) :=
  decidable_of_iff
    (FewSignins s act ∧ FewCreates s act ∧ UpdatesHandled s act ∧ CallsOnceOn c s act)
    ⟨fun h => ⟨h.1, h.2.1, h.2.2.1, h.2.2.2⟩, fun h => ⟨h.1, h.2, h.3, h.4⟩⟩

/-- A node whose deletion the client has not handled does not lose its parent to the next
notification, which would be told of later. -/
theorem not_mem_of_treeUpdate {past : List PropertyTreeMessages} {tag : ℕ} {trId : UInt16}
    {add : List NamedNode} {del : List UInt64} {inbound : List Packet}
    (hhist : History s.log s.server) (hheard : Heard k past)
    (hstream : Stream s.log s.server (past ++ k.coming))
    (hin : k.inbound = ⟨tag, trId, .treeUpdateNotification add del⟩ :: inbound) (hu : u ∉ k.deleted)
    (hknown : (k.mirror.addNodes add).mTree[u]? ≠ none) {i : NamedNode} (hi : i ∈ creations s.log)
    (hiu : i.uuid = u) : i.parentUuid ∉ del := by
  intro hdel
  have hT : past ++ k.coming = past ++ .treeUpdateNotification add del ::
      inbound.map (fun p => p.message.message) := by
    rw [coming, hin]
    rfl
  -- the node has been told of, by now or by this very notification
  have hann : Announced (past ++ k.coming) i.uuid := by
    rw [Announced.append_iff]
    rw [← Option.isSome_iff_ne_none, Mirror.isSome_mTree_addNodes] at hknown
    cases hlast : lastOf u (add.flatMap entryMentions) with
    | none =>
      rw [hlast, Option.getD_none, Option.isSome_iff_ne_none] at hknown
      exact .inl ((hheard.mTree (hiu ▸ hknown)).resolve_left (hhist.uuid_ne_zero hi))
    | some b =>
      obtain ⟨j, hj, huj⟩ := List.mem_flatMap.mp (mem_of_lastOf hlast)
      refine .inr ⟨.treeUpdateNotification add del, by simp [coming, hin],
        PropertyTreeMessages.mem_announced_iff.mpr ⟨j, hj, ?_⟩⟩
      simp only [entryMentions, List.mem_cons, Prod.mk.injEq, List.not_mem_nil, or_false] at huj
      rw [hiu]
      exact huj.symm.imp (fun h => h.1) fun h => h.1
  exact hu (hheard.deleted.mpr (hiu ▸ hstream.children hT hi hdel hann))

/-- A step of the client on `c`. -/
theorem once_of_client_step {calls : List HandlerCall} {a : Client.Action} {sent : List Packet}
    {past : List PropertyTreeMessages} (h : Once (· ∈ creations s.log) u calls k.mirror)
    (hhist : History s.log s.server) (hheard : Heard k past)
    (hstream : Stream s.log s.server (past ++ k.coming)) (hinf : Informed s c k)
    (hcalls : k.CallsOnce a) (hres : Client.StepResult k s.requests.length a k' sent)
    (hu : u ∉ k'.deleted) : Once (· ∈ creations s.log) u calls k'.mirror := by
  refine h.of_stepResult hcalls hres (fun hi => hhist.uuid_ne_parentUuid hi) (fun ht => ?_)
    (fun {tag trId add del inbound} hin => ⟨?_, fun hu' hd => ?_⟩) hu
  · exact hinf.held (.inHand _ _ ht rfl) _ List.mem_cons_self
  · have htold : Told s c ⟨tag, .treeUpdateNotification add del⟩ :=
      hinf.inbound (p := ⟨tag, trId, .treeUpdateNotification add del⟩) (hin ▸ List.mem_cons_self)
    exact htold.1
  · rw [hd, List.mem_append, not_or] at hu'
    exact ⟨hu'.2, fun hknown hi hiu =>
      not_mem_of_treeUpdate hhist hheard hstream hin hu'.1 hknown hi hiu⟩

/-- Under the condition the calls for a node are counted right in every later state. -/
theorem once_of_run {as bs : List System.Action}
    (h₁ : Run (Guarded (TreeAddsOnce c) Step) .init as s₁)
    (h : Run (Guarded (TreeAddsOnce c) Step) s₁ bs s)
    (hset : (s₁.client c).mirror.mTreeAddHandler = true)
    (hno : ∀ {a : Addr} {n : Client.Node}, (s₁.client c).mirror.mTree[u]? = some a →
      (s₁.client c).mirror.heap[a]? = some n → n.parent = none)
    (hu : u ∉ (s.client c).deleted) :
    Once (· ∈ creations s.log) u (s₁.client c).mirror.calls (s.client c).mirror := by
  refine mirror_of_run (fun h => h.creates)
    (P := fun s m del => u ∉ del → Once (· ∈ creations s.log) u (s₁.client c).mirror.calls m) h₁ h
    (fun _ => ?_) (fun hgrown hold hu => (hold hu).mono fun hi => hgrown.creations hi)
    (fun {as t a k k' sent} run hguard hk hopen hres hold hu => ?_) hu
  · refine .refl ?_ hset hno
    cases hc : s₁.clients[c]? with
    | some k₁ =>
      rw [client_of_some hc]
      exact (sound_of_run h₁.of_guarded).mirror hc
    | none =>
      have hnew : s₁.client c = .new := by simp [client, hc]
      rw [hnew]
      exact (sound_new [] c).1
  · have hkc := client_of_some hk
    obtain ⟨past, hheard, hstream⟩ := streamed_of_run (fun h => h.signins)
      (fun h => h.creates) (fun h => h.updates) run c (by rwa [hkc])
    have hinf := informed_of_run (fun h => h.creates) run c
    have hhist := history_of_run (log_of_run run.of_guarded) (creates_of_run (fun h => h.creates) run)
    have hcalls := hguard.once rfl
    have hsub : k.deleted ⊆ k'.deleted := hres.mirrorChange.deleted_subset
    rw [hkc] at hheard hstream hinf hcalls
    exact once_of_client_step (hold fun hmem => hu (hsub hmem)) hhist hheard hstream hinf hcalls hres
      hu

/-- The tree-add handler is called exactly once for a node.  From any state in which it is set and the
node has no parent, and in every later state of a run whose steps meet the condition in which the node
is linked and its deletion has not been handled, it has been called once for it. -/
theorem treeAdds_eq_one {as bs : List System.Action}
    (h₁ : Run (Guarded (TreeAddsOnce c) Step) .init as s₁)
    (h : Run (Guarded (TreeAddsOnce c) Step) s₁ bs s)
    (hset : (s₁.client c).mirror.mTreeAddHandler = true)
    (hno : ∀ (a : Addr) (n : Client.Node), (s₁.client c).mirror.mTree[u]? = some a →
      (s₁.client c).mirror.heap[a]? = some n → n.parent = none)
    (hu : u ∉ (s.client c).deleted) (hlinked : (s.client c).mirror.parentOf u ≠ none) :
    Mirror.treeAddsSince (s₁.client c).mirror (s.client c).mirror u = 1 :=
  (once_of_run h₁ h hset (hno _ _) hu).treeAddsSince_eq hlinked

/-- A client signs in, and its application sets the handler. -/
def handlerActions : List System.Action :=
  signinActions 1 ++ [.client 1 (.setup (.setTreeAddHandler true))]

/-- The client creates a node.  Its reader handles `before` until the response is applied,
and `after` thereafter. -/
def handledActions (before after : List System.Action) : List System.Action :=
  askActions 1 (.create 0 [97]) ++ before ++ takeActions 1 ++ after

/-- The states after `handlerActions` and after `handledActions`. -/
def handled (guard : System → System.Action → Bool) (before after : List System.Action) :
    Option (System × System) :=
  (follow System.step guard .init handlerActions).bind fun s₁ =>
    (follow System.step guard s₁ (handledActions before after)).map fun s => (s₁, s)

/-- What `handled` has gone through. -/
theorem of_handled {guard : System → System.Action → Bool} {before after : List System.Action}
    (h : handled guard before after = some (s₁, s)) :
    Run (Guarded (fun s a => guard s a = true) Step) .init handlerActions s₁ ∧
      Run (Guarded (fun s a => guard s a = true) Step) s₁ (handledActions before after) s := by
  obtain ⟨s₁, hs₁, h⟩ := Option.bind_eq_some_iff.mp h
  obtain ⟨s, hs, heq⟩ := Option.map_eq_some_iff.mp h
  cases heq
  exact ⟨run_of_follow System.step hs₁, run_of_follow System.step hs⟩

/-- The notification is handled first, and the handler is called for the node. -/
theorem treeAdds_eq_one_created : ∃ s₁ s,
    Run (Guarded (TreeAddsOnce 1) Step) .init handlerActions s₁ ∧
    Run (Guarded (TreeAddsOnce 1) Step) s₁
      (handledActions [.client 1 .read, .client 1 .read] []) s ∧
    (s.client 1).mirror.parentOf 1 ≠ none ∧
    Mirror.treeAddsSince (s₁.client 1).mirror (s.client 1).mirror 1 = 1 := by
  obtain ⟨⟨s₁, s⟩, h, hx⟩ := (Option.any_eq_true _ _).mp (show (handled
      (fun s a => decide (TreeAddsOnce 1 s a)) [.client 1 .read, .client 1 .read] []).any (fun y =>
        (y.1.client 1).mirror.mTreeAddHandler && decide ((y.1.client 1).mirror.mTree[(1 : UInt64)]? = none)
        && decide (1 ∉ (y.2.client 1).deleted) && decide ((y.2.client 1).mirror.parentOf 1 ≠ none))
          = true by decide +kernel)
  simp only [Bool.and_eq_true, decide_eq_true_eq] at hx
  obtain ⟨⟨⟨hset, hnew⟩, hu⟩, hlinked⟩ := hx
  obtain ⟨h₁, hrun⟩ := of_handled h
  have h₁ := h₁.mono fun s a t hst =>
    (⟨of_decide_eq_true hst.1, hst.2⟩ : Guarded (TreeAddsOnce 1) Step s a t)
  have hrun := hrun.mono fun s a t hst =>
    (⟨of_decide_eq_true hst.1, hst.2⟩ : Guarded (TreeAddsOnce 1) Step s a t)
  refine ⟨s₁, s, h₁, hrun, hlinked, treeAdds_eq_one h₁ hrun hset (fun a n ha => ?_) hu hlinked⟩
  rw [hnew] at ha
  cases ha

/-- The response is applied first, and the notification is handled without a call.  Nothing is left to
be done, and the node is linked. -/
theorem not_treeAdds_eq_one : ∃ s₁ s, Run Step .init handlerActions s₁ ∧
    (s₁.client 1).mirror.mTreeAddHandler = true ∧ (s₁.client 1).mirror.mTree[(1 : UInt64)]? = none ∧
    Run Step s₁ (handledActions [.client 1 .read] [.client 1 .read]) s ∧
    (s.client 1).threads.isEmpty = true ∧ (s.client 1).reader = none ∧ (s.client 1).inbound = [] ∧
    (s.client 1).deleted = [] ∧ (s.client 1).mirror.parentOf 1 ≠ none ∧
    Mirror.treeAddsSince (s₁.client 1).mirror (s.client 1).mirror 1 = 0 := by
  obtain ⟨⟨s₁, s⟩, h, hx⟩ := (Option.any_eq_true _ _).mp (show (handled (fun _ _ => true)
      [.client 1 .read] [.client 1 .read]).any (fun y =>
        (y.1.client 1).mirror.mTreeAddHandler && decide ((y.1.client 1).mirror.mTree[(1 : UInt64)]? = none)
        && (y.2.client 1).threads.isEmpty && decide ((y.2.client 1).reader = none)
        && decide ((y.2.client 1).inbound = []) && decide ((y.2.client 1).deleted = [])
        && decide ((y.2.client 1).mirror.parentOf 1 ≠ none)
        && decide (Mirror.treeAddsSince (y.1.client 1).mirror (y.2.client 1).mirror 1 = 0)) = true
          by decide +kernel)
  simp only [Bool.and_eq_true, decide_eq_true_eq] at hx
  obtain ⟨⟨⟨⟨⟨⟨⟨hset, hnew⟩, hidle⟩, hreader⟩, hin⟩, hdel⟩, hlinked⟩, hcount⟩ := hx
  obtain ⟨h₁, hrun⟩ := of_handled h
  exact ⟨s₁, s, h₁.of_guarded, hset, hnew, hrun.of_guarded, hidle, hreader, hin, hdel, hlinked, hcount⟩

end System

end PropertyTree
