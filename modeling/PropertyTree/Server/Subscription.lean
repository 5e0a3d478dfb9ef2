import PropertyTree.Server.Correspondence

/-!
# Subscriptions

A node's listener map holds weak pointers to connections by session id, and a `SetValueRequest` goes
through it.  `Subscription` reads off the log of a run what a connection is owed for a node: the
values set while it was subscribed, in order.  While every connection signs in at most once it is
sent exactly these.
-/

namespace PropertyTree.Server

open ProtocolHandler Library

variable {s s' : ProtocolHandler} {e : Event} {o : List Output} {c : Conn} {u : UInt64}

/-- The values of the `UpdateNotification`s for the node `u` sent to the connection `c`, in order. -/
def updatesTo (c : Conn) (u : UInt64) (o : List Output) : List Buffer :=
  o.filterMap fun
    | .send d ⟨_, .updateNotification v data⟩ => if d = c ∧ v = u then some data else none
    | _ => none

/-- The value set on the node `u` in a step, if a `SetValueRequest` on it is accepted. -/
def acceptedValue (u : UInt64) : Event × List Output → List Buffer
  | (.message _ ⟨_, .setValueRequest v data⟩, .send _ ⟨_, .setValueAccept _⟩ :: _) =>
    if v = u then [data] else []
  | _ => []

/-- Whether the connection `c` is subscribed to the node `u` after a step, when `on` says whether it
was before: an OK to its `SubscribeRequest` starts the subscription, and an OK to its
`UnsubscribeRequest`, the deletion of the node and the loss of the connection end it. -/
def trackSubscription (c : Conn) (u : UInt64) (on : Bool) : Event × List Output → Bool
  | (.message d ⟨_, .subscribeRequest v⟩, .send _ ⟨_, .subscribeResponse .ok⟩ :: _) =>
    on || (d = c ∧ v = u)
  | (.message d ⟨_, .unsubscribeRequest v⟩, .send _ ⟨_, .unsubscribeResponse .ok⟩ :: _) =>
    on && !(d = c ∧ v = u)
  | (.message _ ⟨_, .deleteRequest v⟩, .send _ ⟨_, .deleteResponse .ok⟩ :: _) => on && !(v = u)
  | (.disconnect d, _) => on && !(d = c)
  | _ => on

/-- A connection's subscription to a node: whether it stands, and the values it has brought. -/
structure Subscription where
  on : Bool
  due : List Buffer

/-- A subscription after a step: a value that is set while it stands is due. -/
def Subscription.observe (c : Conn) (u : UInt64) (r : Subscription) (l : Event × List Output) :
    Subscription where
  on := trackSubscription c u r.on l
  due := if r.on then r.due ++ acceptedValue u l else r.due

/-- The subscription of the connection `c` to the node `u` after a run. -/
def subscription (c : Conn) (u : UInt64) (ls : List (Event × List Output)) : Subscription :=
  ls.foldl (Subscription.observe c u) ⟨false, []⟩

theorem subscription_concat (c : Conn) (u : UInt64) (ls : List (Event × List Output))
    (l : Event × List Output) :
    subscription c u (ls ++ [l]) = (subscription c u ls).observe c u l := by
  simp [subscription]

/-! ## The listeners of a node -/

/-- The listener map of the node registered under a uuid. -/
def ProtocolHandler.listenerAt (s : ProtocolHandler) (u : UInt64) :
    Option (Std.ExtTreeMap UInt32 Conn) :=
  ((s.mTree[u]?).bind fun a => s.heap[a]?).map Node.listener

/-- Another object for a node changes its listeners only. -/
theorem listenerAt_setNode (hw : WellLinked s) {v : UInt64} {a : Addr} {node' : Node}
    (ha : s.mTree[v]? = some a) (u : UInt64) :
    (s.setNode a node').listenerAt u = if u = v then some node'.listener else s.listenerAt u := by
  simp only [listenerAt, setNode]
  split_ifs with huv
  · rw [huv, ha]
    simp
  · cases hu : s.mTree[u]? with
    | none => rfl
    | some a' =>
      have hne : a' ≠ a := by
        rintro rfl
        obtain ⟨n, hn, rfl⟩ := hw.mTree_heap hu
        obtain ⟨n', hn', rfl⟩ := hw.mTree_heap ha
        rw [hn] at hn'
        cases hn'
        exact huv rfl
      rw [Option.bind_some, Option.bind_some, Std.ExtTreeMap.getElem?_insert,
        if_neg (by simpa using Ne.symm hne)]

/-- A new node has no listeners, and the others keep theirs. -/
theorem listenerAt_insertNode (hw : WellLinked s) {p : Addr} {node : Node}
    (hn : s.heap[p]? = some node) (name : Name) (sid : UInt32) (u : UInt64) :
    (s.insertNode p node name sid).listenerAt u =
      if u = s.mUuidCtr.toUInt64 ∧ s.mTree[u]? = none then some ∅ else s.listenerAt u := by
  simp only [listenerAt]
  have htree : (s.insertNode p node name sid).mTree[u]? =
      if u = s.mUuidCtr.toUInt64 ∧ s.mTree[u]? = none then some s.nextAddr else s.mTree[u]? := by
    simp only [ProtocolHandler.insertNode]
    grind
  rw [htree]
  split_ifs with hu
  · rw [Option.bind_some, insertNode_heap, if_pos rfl]
    rfl
  · cases ha : s.mTree[u]? with
    | none => rfl
    | some a =>
      obtain ⟨n, hna, -⟩ := hw.mTree_heap ha
      have hlt := hw.heap_lt hna
      rw [Option.bind_some, Option.bind_some, insertNode_heap, if_neg (by grind)]
      split_ifs with hap
      · rw [hap, hn]
        rfl
      · rfl

/-- A deleted node has no listeners any more, and the others keep theirs. -/
theorem listenerAt_removeNode (hw : WellLinked s) {v : UInt64} {a p : Addr} {node parent : Node}
    (ha : s.mTree[v]? = some a) (hn : s.heap[a]? = some node) (hp : node.parent = some p)
    (hpn : s.heap[p]? = some parent) (u : UInt64) :
    (s.removeNode v a node p parent).listenerAt u = if u = v then none else s.listenerAt u := by
  have htree : (s.removeNode v a node p parent).mTree[u]? =
      if u = v then none else s.mTree[u]? := by
    simp only [ProtocolHandler.removeNode, release_mTree]
    grind
  simp only [listenerAt]
  rw [htree]
  split_ifs with huv
  · rfl
  · cases hu : s.mTree[u]? with
    | none => rfl
    | some a' =>
      have hne : a' ≠ a := by
        rintro rfl
        obtain ⟨n, hn', rfl⟩ := hw.mTree_heap hu
        obtain ⟨n', hn'', rfl⟩ := hw.mTree_heap ha
        rw [hn'] at hn''
        cases hn''
        exact huv rfl
      rw [Option.bind_some, Option.bind_some, hw.removeNode_heap ha hn hp hpn, if_neg hne]
      split_ifs with hap
      · rw [hap, hpn]
        rfl
      · rfl

/-! ## What a step does to the subscriptions -/

/-- The session tables and the lost connections are the same. -/
structure SameSessions (s s' : ProtocolHandler) : Prop where
  mSessions : s'.mSessions = s.mSessions
  mConnectionToSessionId : s'.mConnectionToSessionId = s.mConnectionToSessionId
  dropped : s'.dropped = s.dropped

/-- The effect of a step on the listeners, and what it means for the subscriptions.  A sign-in and a
disconnect leave the listeners alone. -/
inductive ListenerChange (s : ProtocolHandler) (e : Event) (s' : ProtocolHandler)
    (o : List Output) : Prop
  | unchanged (hl : ∀ u, s'.listenerAt u = s.listenerAt u)
      (htrack : ∀ c u on, (∀ d, e ≠ .disconnect d) → trackSubscription c u on (e, o) = on)
      (hset : ∀ u, acceptedValue u (e, o) = []) (hto : ∀ c u, updatesTo c u o = [])
  | create (hsame : SameSessions s s')
      (v : UInt64) (hfresh : s.listenerAt v = none)
      (hl : ∀ u, s'.listenerAt u = if u = v then some ∅ else s.listenerAt u)
      (htrack : ∀ c u on, trackSubscription c u on (e, o) = on)
      (hset : ∀ u, acceptedValue u (e, o) = []) (hto : ∀ c u, updatesTo c u o = [])
  | delete (hsame : SameSessions s s')
      (v : UInt64) (hl : ∀ u, s'.listenerAt u = if u = v then none else s.listenerAt u)
      (htrack : ∀ c u on, trackSubscription c u on (e, o) = (on && !(v = u)))
      (hset : ∀ u, acceptedValue u (e, o) = []) (hto : ∀ c u, updatesTo c u o = [])
  | subscribe (hsame : SameSessions s s')
      (c v) (sid : UInt32) (listener) (hc : s.mConnectionToSessionId[c]? = some sid)
      (hv : s.listenerAt v = some listener) (he : e.connection = c)
      (hl : ∀ u, s'.listenerAt u = if u = v then some (listener.insert sid c) else s.listenerAt u)
      (htrack : ∀ d u on, trackSubscription d u on (e, o) = (on || (c = d ∧ v = u)))
      (hset : ∀ u, acceptedValue u (e, o) = []) (hto : ∀ c u, updatesTo c u o = [])
  | unsubscribe (hsame : SameSessions s s')
      (c v) (sid : UInt32) (listener)
      (hc : s.mConnectionToSessionId[c]? = some sid) (hv : s.listenerAt v = some listener)
      (hl : ∀ u, s'.listenerAt u = if u = v then some (listener.erase sid) else s.listenerAt u)
      (htrack : ∀ d u on, trackSubscription d u on (e, o) = (on && !(c = d ∧ v = u)))
      (hset : ∀ u, acceptedValue u (e, o) = []) (hto : ∀ c u, updatesTo c u o = [])
  | setValue (hsame : SameSessions s s')
      (c v) (data : Buffer) (listener) (hv : s.listenerAt v = some listener)
      (he : e.connection = c)
      (hl : ∀ u, s'.listenerAt u = if u = v then
        some (listener.map fun sid w => (s.listenerConnection c sid w).getD w) else s.listenerAt u)
      (htrack : ∀ d u on, trackSubscription d u on (e, o) = on)
      (hset : ∀ u, acceptedValue u (e, o) = if v = u then [data] else [])
      (hto : ∀ d u, updatesTo d u o = if v = u then listener.toList.flatMap fun l =>
        if s.listenerConnection c l.1 l.2 = some d then [data] else [] else [])

/-- A broadcast of a change of the tree is no update. -/
theorem updatesTo_broadcast (c : Conn) (u : UInt64) (t : UInt16) (add : List NamedNode)
    (del : List UInt64) :
    updatesTo c u (s.broadcast ⟨t, .treeUpdateNotification add del⟩) = [] := by
  rw [updatesTo, List.filterMap_eq_nil_iff]
  intro x hx
  obtain ⟨sid, d, -, rfl⟩ := mem_broadcast_iff.mp hx
  rfl

/-- The updates of a set value that are sent to a connection. -/
theorem updatesTo_setValue (c d : Conn) (t : UInt16) (u v : UInt64) (data : Buffer)
    (listener : List (UInt32 × Conn)) :
    updatesTo d u (.send c ⟨t, .setValueAccept 0⟩ :: listener.flatMap fun l =>
        send ⟨notificationId, .updateNotification v data⟩ (s.listenerConnection c l.1 l.2)) =
      if v = u then listener.flatMap fun l =>
        if s.listenerConnection c l.1 l.2 = some d then [data] else [] else [] := by
  have hone : ∀ w : Option Conn, (send ⟨notificationId, .updateNotification v data⟩ w).filterMap
      (fun x => match x with
        | .send d' ⟨_, .updateNotification v' data⟩ => if d' = d ∧ v' = u then some data else none
        | _ => none) = if v = u then if w = some d then [data] else [] else [] := by
    intro w
    cases w with
    | none => simp
    | some w => by_cases hv : v = u <;> by_cases hw : w = d <;> simp [hv, hw]
  simp only [updatesTo, List.filterMap_cons, List.filterMap_flatMap, hone]
  split_ifs with hv
  · rfl
  · simp

/-- What a completed step does to the listeners. -/
theorem StepResult.listenerChange (hw : WellLinked s) (h : StepResult s e s' o) :
    ListenerChange s e s' o := by
  have hat : ∀ {v : UInt64} {a : Addr} {node : Node}, s.mTree[v]? = some a →
      s.heap[a]? = some node → s.listenerAt v = some node.listener := by
    intro v a node ha hn
    simp [listenerAt, ha, hn]
  cases h with
  | create c t name parentUuid p sid node hp hc hn ha =>
    have hto : ∀ d u, updatesTo d u (.send c ⟨t, .createAccept s.mUuidCtr.toUInt64⟩ ::
        s.broadcast ⟨notificationId,
          .treeUpdateNotification [⟨name, s.mUuidCtr.toUInt64, node.uuid⟩] []⟩) = [] := fun d u =>
      updatesTo_broadcast d u _ _ _
    have hins := listenerAt_insertNode hw hn name sid
    by_cases hfresh : s.mTree[s.mUuidCtr.toUInt64]? = none
    · refine .create ⟨rfl, rfl, rfl⟩ s.mUuidCtr.toUInt64 (by simp [listenerAt, hfresh]) (fun u => ?_)
        (fun _ _ _ => rfl) (fun _ => rfl) hto
      rw [hins]
      split_ifs with h₁ h₂ h₂
      · rfl
      · exact absurd h₁.1 h₂
      · exact absurd ⟨h₂, h₂ ▸ hfresh⟩ h₁
      · rfl
    · refine .unchanged (fun u => ?_) (fun _ _ _ _ => rfl) (fun _ => rfl) hto
      rw [hins, if_neg]
      rintro ⟨rfl, hnone⟩
      exact hfresh hnone
  | delete c t v a node p parent ha hn hch hp hpn =>
    refine .delete ?_ v (listenerAt_removeNode hw ha hn hp hpn) (fun _ _ _ => rfl)
      (fun _ => rfl) fun d u => ?_
    · constructor <;> simp only [ProtocolHandler.removeNode, release_mSessions,
        release_mConnectionToSessionId, release_dropped]
    · exact updatesTo_broadcast d u _ _ _
  | setValue c t v data a node hterm ha hn =>
    obtain ⟨n, hn', hv⟩ := hw.mTree_heap ha
    obtain rfl : node = n := by
      rw [hn] at hn'
      cases hn'
      rfl
    refine .setValue ⟨rfl, rfl, rfl⟩ c v data node.listener (hat ha hn) rfl
      (fun u => listenerAt_setNode hw ha u) (fun _ _ _ => rfl) (fun _ => rfl) fun d u => ?_
    rw [← hv]
    exact updatesTo_setValue c d t u node.uuid data _
  | subscribe c t v a sid node ha hc hn =>
    exact .subscribe ⟨rfl, rfl, rfl⟩ c v sid node.listener hc (hat ha hn) rfl
      (fun u => listenerAt_setNode hw ha u) (fun _ _ _ => rfl) (fun _ => rfl) fun _ _ => rfl
  | unsubscribe c t v a sid node w ha hc hn hl =>
    exact .unsubscribe ⟨rfl, rfl, rfl⟩ c v sid node.listener hc (hat ha hn)
      (fun u => listenerAt_setNode hw ha u) (fun _ _ _ => rfl) (fun _ => rfl) fun _ _ => rfl
  | replyUnknown c t m hm =>
    rcases hm with ⟨value, rfl⟩ | ⟨cause, rfl⟩ <;>
      exact .unchanged (fun _ => rfl) (fun _ _ _ _ => rfl) (fun _ => rfl) fun _ _ => rfl
  | replyNoSession c t m translation hm =>
    rcases hm with ⟨value, rfl⟩ | ⟨cause, rfl⟩ <;>
      exact .unchanged (fun _ => rfl) (fun _ _ _ _ => rfl) (fun _ => rfl) fun _ _ => rfl
  | reply c t m translation session hm =>
    obtain ⟨x⟩ := session
    rcases hm with ⟨value, rfl⟩ | ⟨cause, rfl⟩ <;> cases x <;>
      exact .unchanged (fun _ => rfl) (fun _ _ _ _ => rfl) (fun _ => rfl) fun _ _ => rfl
  | ignored c t m hm =>
    cases m <;> first
      | exact hm.elim
      | exact .unchanged (fun _ => rfl) (fun _ _ _ _ => rfl) (fun _ => rfl) fun _ _ => rfl
  | disconnectUnknown c hc =>
    exact .unchanged (fun _ => rfl) (fun _ _ _ hd => absurd rfl (hd c)) (fun _ => rfl)
      fun _ _ => rfl
  | disconnect c sid session hc hs =>
    exact .unchanged (fun _ => rfl) (fun _ _ _ hd => absurd rfl (hd c)) (fun _ => rfl)
      fun _ _ => rfl
  | _ => exact .unchanged (fun _ => rfl) (fun _ _ _ _ => rfl) (fun _ => rfl) fun _ _ => rfl

/-! ## Listeners and sessions -/

/-- An entry of a listener map belongs to a connection that is signed in with its session id, or has
been lost and left the session without one. -/
def ListenersSound (s : ProtocolHandler) : Prop :=
  ∀ (u : UInt64) (listener : Std.ExtTreeMap UInt32 Conn) (sid : UInt32) (w : Conn),
    s.listenerAt u = some listener → listener[sid]? = some w →
      (w ∉ s.dropped ∧ s.mConnectionToSessionId[w]? = some sid) ∨
        (w ∈ s.dropped ∧ s.mSessions[sid]? = some ⟨none⟩)

/-- The connection `c` is a listener of the node `u` under its own session id. -/
def ListensTo (s : ProtocolHandler) (c : Conn) (u : UInt64) : Prop :=
  ∃ (listener : Std.ExtTreeMap UInt32 Conn) (sid : UInt32), s.listenerAt u = some listener ∧
    s.mConnectionToSessionId[c]? = some sid ∧ listener[sid]? = some c

/-- While a connection that still exists is served, exactly the entries of such connections are
sent to. -/
theorem ListenersSound.listenerConnection (h : ListenersSound s) (hone : OneToOne s)
    (hc : c ∉ s.dropped) {listener : Std.ExtTreeMap UInt32 Conn} {sid : UInt32} {w : Conn}
    (hu : s.listenerAt u = some listener) (hw : listener[sid]? = some w) :
    s.listenerConnection c sid w = if w ∈ s.dropped then none else some w := by
  unfold ProtocolHandler.listenerConnection
  split_ifs with halive hdrop hdrop
  · -- a lost connection is held by nothing
    simp only [connectionAlive, Bool.or_eq_true, beq_iff_eq, Bool.not_eq_true',
      List.contains_eq_mem, decide_eq_false_iff_not, List.any_eq_true, Prod.exists,
      Std.ExtTreeMap.mem_toList_iff_getElem?_eq_some] at halive
    rcases halive with (rfl | hnot) | ⟨sid', ⟨x⟩, hs, rfl⟩
    · exact absurd hdrop hc
    · exact absurd hdrop hnot
    · exact absurd hs (hone.lost hdrop sid')
  · rfl
  · rcases h _ _ _ _ hu hw with ⟨hnot, -⟩ | ⟨-, hs⟩
    · exact absurd hdrop hnot
    · rw [hs]
  · exact absurd (by simp [connectionAlive, hdrop]) halive

/-- Where the listeners stay and the sessions stay, so does everything that is said of them. -/
theorem ListenersSound.of_same (h : ListenersSound s) (hsame : SameSessions s s')
    (hl : ∀ {u : UInt64} {listener' : Std.ExtTreeMap UInt32 Conn}, s'.listenerAt u = some listener' →
      ∀ {sid : UInt32} {w : Conn}, listener'[sid]? = some w →
        (∃ listener, s.listenerAt u = some listener ∧ listener[sid]? = some w) ∨
          (w ∉ s.dropped ∧ s.mConnectionToSessionId[w]? = some sid)) : ListenersSound s' := by
  intro u listener' sid w hu hw
  rw [hsame.mSessions, hsame.mConnectionToSessionId, hsame.dropped]
  rcases hl hu hw with ⟨listener, hu', hw'⟩ | hnew
  · exact h _ _ _ _ hu' hw'
  · exact .inl hnew

section Step

variable (h : ListenersSound s) (hone : OneToOne s) (hstep : LiveStep s (e, o) s')

include h hone hstep

/-- What a step does to a listener map, entry by entry: on a live connection's message the map of a
node is rewritten to itself. -/
theorem listener_setValue {listener : Std.ExtTreeMap UInt32 Conn} {v : UInt64}
    (hv : s.listenerAt v = some listener) :
    listener.map (fun sid w => (s.listenerConnection e.connection sid w).getD w) = listener := by
  refine Std.ExtTreeMap.ext_getElem? fun sid => ?_
  rw [Std.ExtTreeMap.getElem?_map]
  cases hl : listener[sid]? with
  | none => rfl
  | some w =>
    rw [Option.map_some, h.listenerConnection hone hstep.1 hv hl]
    split_ifs <;> rfl

/-- A step keeps the listener maps sound. -/
theorem listenersSound_step (hw : WellLinked s) : ListenersSound s' := by
  have hres := step_cases hstep.2
  cases hres.listenerChange hw with
  | unchanged hl htrack hset hto =>
    intro u listener sid w hu hw'
    rw [hl] at hu
    have hold := h _ _ _ _ hu hw'
    rw [hres.dropped]
    cases hres.sessionChange with
    | signin c t spare =>
      simp only [ProtocolHandler.signin]
      grind
    | signout c sid' session hc hs =>
      simp only [ProtocolHandler.signout, ProtocolHandler.drop, List.mem_cons]
      have hinj := (hone.correspond c sid').mp hc
      have hw := (hone.correspond w sid).mp
      grind
    | unchanged _ _ _ hs hc _ =>
      rw [hs, hc]
      cases e with
      | message d m => exact hold
      | disconnect d =>
        have hnone := hres.not_signedIn hc
        rw [List.mem_cons]
        grind
  | create hsame v hfresh hl =>
    refine h.of_same hsame fun {u listener'} hu {sid w} hw' => .inl ?_
    rw [hl] at hu
    split_ifs at hu with huv
    · cases hu
      simp at hw'
    · exact ⟨_, hu, hw'⟩
  | delete hsame v hl =>
    refine h.of_same hsame fun {u listener'} hu {sid w} hw' => .inl ?_
    rw [hl] at hu
    split_ifs at hu with huv
    exact ⟨_, hu, hw'⟩
  | subscribe hsame c v sid listener hc hv he hl =>
    refine h.of_same hsame fun {u listener'} hu {sid' w} hw' => ?_
    rw [hl] at hu
    split_ifs at hu with huv
    · cases hu
      rw [Std.ExtTreeMap.getElem?_insert] at hw'
      split_ifs at hw' with hsid
      · cases hw'
        obtain rfl : sid = sid' := by simpa using hsid
        exact .inr ⟨he ▸ hstep.1, hc⟩
      · exact .inl ⟨listener, huv ▸ hv, hw'⟩
    · exact .inl ⟨_, hu, hw'⟩
  | unsubscribe hsame c v sid listener hc hv hl =>
    refine h.of_same hsame fun {u listener'} hu {sid' w} hw' => .inl ?_
    rw [hl] at hu
    split_ifs at hu with huv
    · cases hu
      rw [Std.ExtTreeMap.getElem?_erase] at hw'
      split_ifs at hw' with hsid
      exact ⟨listener, huv ▸ hv, hw'⟩
    · exact ⟨_, hu, hw'⟩
  | setValue hsame c v data listener hv he hl =>
    refine h.of_same hsame fun {u listener'} hu {sid' w} hw' => .inl ?_
    rw [hl, ← he, listener_setValue h hone hstep hv] at hu
    split_ifs at hu with huv
    · cases hu
      exact ⟨listener, huv ▸ hv, hw'⟩
    · exact ⟨_, hu, hw'⟩

/-- The log tells who listens: a step starts and ends the subscriptions it announces. -/
theorem trackSubscription_iff (hw : WellLinked s) {on : Bool} (hon : on = true ↔ ListensTo s c u) :
    trackSubscription c u on (e, o) = true ↔ ListensTo s' c u := by
  have hres := step_cases hstep.2
  cases hres.listenerChange hw with
  | unchanged hl htrack hset hto =>
    simp only [ListensTo, hl]
    cases hres.sessionChange with
    | signin d t spare =>
      rw [htrack _ _ _ (by rintro d' ⟨⟩), hon]
      constructor
      · rintro ⟨listener, sid, hu, hc, hlc⟩
        refine ⟨listener, sid, hu, ?_, hlc⟩
        simp only [ProtocolHandler.signin]
        grind
      · rintro ⟨listener, sid, hu, hc, hlc⟩
        refine ⟨listener, sid, hu, ?_, hlc⟩
        rcases h _ _ _ _ hu hlc with ⟨-, hc'⟩ | ⟨hdrop, -⟩
        · exact hc'
        · -- a lost connection does not sign in
          have hne : d ≠ c := fun hdc => hstep.1 (show d ∈ s.dropped from hdc ▸ hdrop)
          simp only [ProtocolHandler.signin] at hc
          grind
    | signout d sid' session hd hs =>
      change (on && !(d = c)) = true ↔ _
      rw [Bool.and_eq_true, hon]
      simp only [ListensTo, ProtocolHandler.signout, ProtocolHandler.drop,
        Std.ExtTreeMap.getElem?_erase]
      constructor
      · rintro ⟨⟨listener, sid, hu, hc, hlc⟩, hdc⟩
        have hne : d ≠ c := by simpa using hdc
        exact ⟨listener, sid, hu, by rw [if_neg (by simpa using hne), hc], hlc⟩
      · rintro ⟨listener, sid, hu, hc, hlc⟩
        split_ifs at hc with hdc
        exact ⟨⟨listener, sid, hu, hc, hlc⟩, by simpa using hdc⟩
    | unchanged _ _ _ hs hc _ =>
      rw [hc]
      cases e with
      | message d m =>
        rw [htrack _ _ _ (by rintro d' ⟨⟩), hon]
        rfl
      | disconnect d =>
        change (on && !(d = c)) = true ↔ _
        have hnone := hres.not_signedIn hc
        rw [Bool.and_eq_true, hon]
        constructor
        · exact fun hin => hin.1
        · rintro ⟨listener, sid, hu, hcs, hlc⟩
          refine ⟨⟨listener, sid, hu, hcs, hlc⟩, ?_⟩
          have hne : d ≠ c := by
            rintro rfl
            rw [hnone] at hcs
            cases hcs
          simpa using hne
  | create hsame v hfresh hl htrack hset hto =>
    rw [htrack, hon]
    simp only [ListensTo, hsame.mConnectionToSessionId, hl]
    constructor
    · rintro ⟨listener, sid, hu, hc, hlc⟩
      refine ⟨listener, sid, ?_, hc, hlc⟩
      rw [if_neg, hu]
      rintro rfl
      rw [hfresh] at hu
      cases hu
    · rintro ⟨listener, sid, hu, hc, hlc⟩
      split_ifs at hu with huv
      · cases hu
        simp at hlc
      · exact ⟨listener, sid, hu, hc, hlc⟩
  | delete hsame v hl htrack hset hto =>
    rw [htrack, Bool.and_eq_true, hon]
    simp only [ListensTo, hsame.mConnectionToSessionId, hl]
    constructor
    · rintro ⟨⟨listener, sid, hu, hc, hlc⟩, hvu⟩
      have hvu' : v ≠ u := by simpa using hvu
      exact ⟨listener, sid, by rw [if_neg (Ne.symm hvu'), hu], hc, hlc⟩
    · rintro ⟨listener, sid, hu, hc, hlc⟩
      split_ifs at hu with huv
      exact ⟨⟨listener, sid, hu, hc, hlc⟩, by simpa using Ne.symm huv⟩
  | subscribe hsame d v sid listener hd hv he hl htrack hset hto =>
    rw [htrack, Bool.or_eq_true, hon, decide_eq_true_iff]
    simp only [ListensTo, hsame.mConnectionToSessionId, hl]
    constructor
    · rintro (⟨listener', sid', hu, hc, hlc⟩ | ⟨rfl, rfl⟩)
      · by_cases huv : u = v
        · subst huv
          obtain rfl : listener = listener' := by
            rw [hv] at hu
            cases hu
            rfl
          refine ⟨_, sid', if_pos rfl, hc, ?_⟩
          rw [Std.ExtTreeMap.getElem?_insert]
          split_ifs with hsid
          · obtain rfl : sid = sid' := by simpa using hsid
            have h₁ := (hone.correspond _ _).mp hc
            have h₂ := (hone.correspond _ _).mp hd
            rw [h₁] at h₂
            cases h₂
            rfl
          · exact hlc
        · exact ⟨listener', sid', by rw [if_neg huv, hu], hc, hlc⟩
      · exact ⟨_, sid, if_pos rfl, hd, Std.ExtTreeMap.getElem?_insert_self⟩
    · rintro ⟨listener', sid', hu, hc, hlc⟩
      split_ifs at hu with huv
      · cases hu
        rw [Std.ExtTreeMap.getElem?_insert] at hlc
        split_ifs at hlc with hsid
        · cases hlc
          exact .inr ⟨rfl, huv.symm⟩
        · exact .inl ⟨listener, sid', huv ▸ hv, hc, hlc⟩
      · exact .inl ⟨listener', sid', hu, hc, hlc⟩
  | unsubscribe hsame d v sid listener hd hv hl htrack hset hto =>
    rw [htrack, Bool.and_eq_true, hon]
    simp only [ListensTo, hsame.mConnectionToSessionId, hl]
    constructor
    · rintro ⟨⟨listener', sid', hu, hc, hlc⟩, hdv⟩
      by_cases huv : u = v
      · subst huv
        obtain rfl : listener = listener' := by
          rw [hv] at hu
          cases hu
          rfl
        refine ⟨_, sid', if_pos rfl, hc, ?_⟩
        rw [Std.ExtTreeMap.getElem?_erase, if_neg, hlc]
        -- the entry of another session
        intro hsid
        obtain rfl : sid = sid' := by simpa using hsid
        have h₁ := (hone.correspond _ _).mp hc
        have h₂ := (hone.correspond _ _).mp hd
        rw [h₁] at h₂
        cases h₂
        simp at hdv
      · exact ⟨listener', sid', by rw [if_neg huv, hu], hc, hlc⟩
    · rintro ⟨listener', sid', hu, hc, hlc⟩
      split_ifs at hu with huv
      · cases hu
        rw [Std.ExtTreeMap.getElem?_erase] at hlc
        split_ifs at hlc with hsid
        refine ⟨⟨listener, sid', huv ▸ hv, hc, hlc⟩, ?_⟩
        have hdc : d ≠ c := by
          rintro rfl
          rw [hd] at hc
          cases hc
          simp at hsid
        simp [hdc]
      · exact ⟨⟨listener', sid', hu, hc, hlc⟩, by simp [Ne.symm huv]⟩
  | setValue hsame d v data listener hv he hl htrack hset hto =>
    rw [htrack, hon]
    simp only [ListensTo, hsame.mConnectionToSessionId, hl, ← he,
      listener_setValue h hone hstep hv]
    constructor
    · rintro ⟨listener', sid', hu, hc, hlc⟩
      refine ⟨listener', sid', ?_, hc, hlc⟩
      split_ifs with huv
      · rw [← hu, huv, hv]
      · exact hu
    · rintro ⟨listener', sid', hu, hc, hlc⟩
      refine ⟨listener', sid', ?_, hc, hlc⟩
      split_ifs at hu with huv
      · rw [← hu, huv, hv]
      · exact hu

/-- A step sends a connection the value it sets if the connection is subscribed, and no other. -/
theorem updatesTo_step (hw : WellLinked s) {on : Bool} (hon : on = true ↔ ListensTo s c u) :
    updatesTo c u o = if on then acceptedValue u (e, o) else [] := by
  cases (step_cases hstep.2).listenerChange hw with
  | setValue hsame d v data listener hv he hl htrack hset hto =>
    rw [hto, hset]
    split_ifs with hvu hon' hon'
    · obtain ⟨listener', sid, hu, hc, hlc⟩ := hon.mp hon'
      obtain rfl : listener = listener' := by
        rw [← hvu, hv] at hu
        cases hu
        rfl
      have hlive : c ∉ s.dropped := fun hdrop => hone.lost hdrop sid ((hone.correspond c sid).mp hc)
      rw [flatMap_eq_of_unique (nodup_toList listener)
        (Std.ExtTreeMap.mem_toList_iff_getElem?_eq_some.mpr hlc) ?_]
      · simp [← he, h.listenerConnection hone hstep.1 hv hlc, hlive]
      · rintro ⟨sid', w⟩ hmem hne
        have hlw := Std.ExtTreeMap.mem_toList_iff_getElem?_eq_some.mp hmem
        simp only [← he, h.listenerConnection hone hstep.1 hv hlw]
        rw [if_neg]
        intro hw'
        split_ifs at hw' with hdrop
        cases hw'
        rcases h _ _ _ _ hv hlw with ⟨-, hc'⟩ | ⟨hdrop', -⟩
        · rw [hc] at hc'
          cases hc'
          exact hne rfl
        · exact hdrop hdrop'
    · rw [List.flatMap_eq_nil_iff]
      rintro ⟨sid', w⟩ hmem
      have hlw := Std.ExtTreeMap.mem_toList_iff_getElem?_eq_some.mp hmem
      simp only [← he, h.listenerConnection hone hstep.1 hv hlw]
      rw [if_neg]
      intro hw'
      split_ifs at hw' with hdrop
      cases hw'
      rcases h _ _ _ _ hv hlw with ⟨-, hc'⟩ | ⟨hdrop', -⟩
      · exact hon' (hon.mpr ⟨listener, sid', hvu ▸ hv, hc', hlw⟩)
      · exact hdrop hdrop'
    · rfl
    · rfl
  | unchanged hl htrack hset hto => rw [hto, hset, ite_self]
  | create hsame v hfresh hl htrack hset hto => rw [hto, hset, ite_self]
  | delete hsame v hl htrack hset hto => rw [hto, hset, ite_self]
  | subscribe hsame d v sid listener hd hv he hl htrack hset hto => rw [hto, hset, ite_self]
  | unsubscribe hsame d v sid listener hd hv hl htrack hset hto => rw [hto, hset, ite_self]

end Step

/-- In the constructor's state nobody listens. -/
theorem listenersSound_init : ListenersSound .init := by
  intro u listener sid w hu hw
  obtain ⟨n, hn, rfl⟩ := Option.map_eq_some_iff.mp hu
  obtain ⟨a, ha, hna⟩ := Option.bind_eq_some_iff.mp hn
  simp only [init] at ha hna
  obtain rfl : n = rootNode := by grind
  simp [rootNode] at hw

/-- The log tells who listens, in a run whose states have one session for each connection. -/
theorem listens_of_run {ls : List (Event × List Output)}
    (h : Run (Reaching OneToOne LiveStep) .init ls s) :
    OneToOne s ∧ WellLinked s ∧ ListenersSound s ∧
      ∀ c u, (subscription c u ls).on = true ↔ ListensTo s c u := by
  induction h with
  | nil =>
    have hnone : ∀ c ∈ init.dropped, init.mConnectionToSessionId[c]? = none := by
      intro c hc
      cases hc
    refine ⟨sessionsCorrespond_init.oneToOne wellLinked_init hnone, wellLinked_init,
      listenersSound_init, fun c u => iff_of_false (by simp [subscription]) ?_⟩
    rintro ⟨listener, sid, -, hc, -⟩
    simp [init] at hc
  | @snoc t v ls l run step ih =>
    obtain ⟨e, o⟩ := l
    obtain ⟨hone, hw, hsound, hon⟩ := ih
    obtain ⟨hstep, hone'⟩ := step
    refine ⟨hone', hw.stateChange (step_cases hstep.2).stateChange,
      listenersSound_step hsound hone hstep hw, fun c u => ?_⟩
    rw [subscription_concat]
    exact trackSubscription_iff hsound hone hstep hw (hon c u)

/-- Every connection is sent, for every node, exactly the values set on it while the connection was
subscribed, in order, in a run in which every connection signs in at most once and the session ids do
not wrap. -/
theorem updates_of_run {ls : List (Event × List Output)} (h : Run LiveStep .init ls s)
    (honce : ∀ c, ls.countP (fun l => isSigninOf c l.1) ≤ 1) (hsign : signins ls < 2 ^ 32)
    (c : Conn) (u : UInt64) :
    updatesTo c u (ls.flatMap Prod.snd) = (subscription c u ls).due := by
  have hrun := oneToOne_iff.mp (emplacesAgree_of_run h honce hsign)
  clear h honce hsign
  induction hrun with
  | nil => rfl
  | @snoc t v ls l run step ih =>
    obtain ⟨e, o⟩ := l
    obtain ⟨hone, hw, hsound, hon⟩ := listens_of_run run
    have hsent := updatesTo_step hsound hone step.1 hw (hon c u)
    rw [subscription_concat, List.flatMap_append, updatesTo, List.filterMap_append]
    simp only [List.flatMap_cons, List.flatMap_nil, List.append_nil, Subscription.observe]
    change updatesTo c u _ ++ updatesTo c u _ = _
    rw [ih, hsent]
    split_ifs <;> simp

/-- A connection that subscribes twice and unsubscribes is sent the two values in between once. -/
theorem updates_of_run_twice :
    ∃ ls s, Run LiveStep .init ls s ∧ updatesTo 1 1 (ls.flatMap Prod.snd) = [[5], [6]] := by
  obtain ⟨⟨s, ls⟩, hexec, hsign, hdue⟩ :
      ∃ r : ProtocolHandler × List (Event × List Output),
        execute step (fun s e => decide (e.connection ∉ s.dropped)) .init
          [.message 0 ⟨0, .signinRequest 0⟩, .message 1 ⟨0, .signinRequest 0⟩,
            .message 0 ⟨1, .createRequest [97] 0⟩, .message 1 ⟨1, .subscribeRequest 1⟩,
            .message 0 ⟨2, .setValueRequest 1 [5]⟩, .message 1 ⟨2, .subscribeRequest 1⟩,
            .message 0 ⟨3, .setValueRequest 1 [6]⟩, .message 1 ⟨3, .unsubscribeRequest 1⟩,
            .message 0 ⟨4, .setValueRequest 1 [7]⟩, .disconnect 1] = some r ∧
        (r.2.map Prod.fst).filter isSignin =
          [.message 0 ⟨0, .signinRequest 0⟩, .message 1 ⟨0, .signinRequest 0⟩] ∧
        (subscription 1 1 r.2).due = [[5], [6]] :=
    ⟨_, rfl, by decide, by decide⟩
  have hrun : Run LiveStep .init ls s := (run_of_execute step hexec).mono fun s l t hst =>
    ⟨of_decide_eq_true hst.1, hst.2⟩
  have honce : ∀ c, ls.countP (fun l => isSigninOf c l.1) ≤ 1 := by
    intro c
    have hcount : ls.countP (fun l => isSigninOf c l.1) =
        ((ls.map Prod.fst).filter isSignin).countP (isSigninOf c) := by
      rw [List.countP_filter, List.countP_map]
      refine List.countP_congr fun l _ => ?_
      simpa using isSignin_of_isSigninOf
    rw [hcount, hsign]
    by_cases h0 : c = 0
    · subst h0
      decide
    by_cases h1 : c = 1
    · subst h1
      decide
    have hne₀ : (0 == c) = false := beq_eq_false_iff_ne.mpr (Ne.symm h0)
    have hne₁ : (1 == c) = false := beq_eq_false_iff_ne.mpr (Ne.symm h1)
    simp only [List.countP_cons, List.countP_nil, isSigninOf, hne₀, hne₁]
    decide
  have hlt : signins ls < 2 ^ 32 := by
    have hcount : signins ls = ((ls.map Prod.fst).filter isSignin).length := by
      rw [signins, ← List.countP_eq_length_filter, List.countP_map]
      rfl
    rw [hcount, hsign]
    decide
  exact ⟨ls, s, hrun, by rw [updates_of_run hrun honce hlt, hdue]⟩

end PropertyTree.Server
