import PropertyTree.Server.Listing

/-!
# Which steps dereference something missing

On a well-linked state every unchecked dereference of the handlers is justified, except for two that
reach the root: a `DeleteRequest` of the childless root dereferences the null `parent.lock()`, and an
`RpcRequest` on the root looks up a session for the owner `0xFFFFFFFF` the constructor gave it.
-/

namespace PropertyTree.Server

open ProtocolHandler Library

/-- The requests whose handler runs into a missing object: deleting the root while it has no
children, and an RPC of a signed-in connection on the root while no session is numbered
`0xFFFFFFFF`. -/
def Hazard (s : ProtocolHandler) : Event → Prop
  | .message _ ⟨_, .deleteRequest uuid⟩ =>
    uuid = 0 ∧ ∀ root, s.heap[(0 : Addr)]? = some root → root.children.size = 0
  | .message c ⟨_, .rpcRequest uuid _⟩ =>
    uuid = 0 ∧ c ∈ s.mConnectionToSessionId ∧ (0xFFFFFFFF : UInt32) ∉ s.mSessions
  | _ => False

variable {s : ProtocolHandler}

section Handlers

variable {t : UInt16} {c : Conn}

/-- The object of an entry of `mTree` is there. -/
theorem WellLinked.exists_heap (h : WellLinked s) {u : UInt64} {a : Addr}
    (hu : s.mTree[u]? = some a) : ∃ n, s.heap[a]? = some n := by
  obtain ⟨n, hn, -⟩ := h.mTree_heap hu
  exact ⟨n, hn⟩

/-- Only the root is registered as the object at address 0. -/
theorem WellLinked.eq_zero_of_mTree (h : WellLinked s) {u : UInt64}
    (hu : s.mTree[u]? = some 0) : u = 0 := by
  obtain ⟨n, hn, rfl⟩ := h.mTree_heap hu
  obtain ⟨n', hn', hn0⟩ := h.mTree_heap h.root_mTree
  rw [hn] at hn'
  cases hn'
  exact hn0

/-- `handle(CreateRequest)` does not fault. -/
theorem WellLinked.handleCreateRequest_ok (h : WellLinked s) (name : Name) (parentUuid : UInt64) :
    ∃ r, s.handleCreateRequest t name parentUuid c = .ok r := by
  unfold handleCreateRequest
  cases hp : s.mTree[parentUuid]? with
  | none => exact ⟨_, rfl⟩
  | some p =>
    obtain ⟨node, hn⟩ := h.exists_heap hp
    cases hc : s.mConnectionToSessionId[c]? with
    | none => exact ⟨_, rfl⟩
    | some sid =>
      simp only [hn]
      cases node.children[name]? <;> exact ⟨_, rfl⟩

/-- `handle(TreeInfoRequest)` does not fault. -/
theorem WellLinked.handleTreeInfoRequest_ok (h : WellLinked s) (parentUuid : UInt64) (name : Name)
    (recursive : UInt8) : ∃ r, s.handleTreeInfoRequest t parentUuid name recursive c = .ok r := by
  unfold handleTreeInfoRequest
  cases hp : s.mTree[parentUuid]? with
  | none => exact ⟨_, rfl⟩
  | some p =>
    obtain ⟨parent, hn⟩ := h.exists_heap hp
    simp only [hn]
    split_ifs
    · rw [h.fillToAddListFromTree_eq hn]
      exact ⟨_, rfl⟩
    · cases ha : parent.children[name]? with
      | none => exact ⟨_, rfl⟩
      | some a =>
        obtain ⟨node, hna, -⟩ := h.child hn ha
        simp only [hna, h.fillToAddListFromTree_eq hna]
        exact ⟨_, rfl⟩

/-- `handle(SetValueRequest)` does not fault. -/
theorem WellLinked.handleSetValueRequest_ok (h : WellLinked s) (uuid : UInt64) (data : Buffer) :
    ∃ r, s.handleSetValueRequest t uuid data c = .ok r := by
  unfold handleSetValueRequest
  split_ifs
  · exact ⟨_, rfl⟩
  cases ha : s.mTree[uuid]? with
  | none => exact ⟨_, rfl⟩
  | some a =>
    obtain ⟨node, hn⟩ := h.exists_heap ha
    simp only [hn]
    exact ⟨_, rfl⟩

/-- `handle(GetRequest)` does not fault. -/
theorem WellLinked.handleGetRequest_ok (h : WellLinked s) (uuid : UInt64) :
    ∃ r, s.handleGetRequest t uuid c = .ok r := by
  unfold handleGetRequest
  cases ha : s.mTree[uuid]? with
  | none => exact ⟨_, rfl⟩
  | some a =>
    obtain ⟨node, hn⟩ := h.exists_heap ha
    simp only [hn]
    exact ⟨_, rfl⟩

/-- `handle(SubscribeRequest)` does not fault. -/
theorem WellLinked.handleSubscribeRequest_ok (h : WellLinked s) (uuid : UInt64) :
    ∃ r, s.handleSubscribeRequest t uuid c = .ok r := by
  unfold handleSubscribeRequest
  cases ha : s.mTree[uuid]? with
  | none => exact ⟨_, rfl⟩
  | some a =>
    obtain ⟨node, hn⟩ := h.exists_heap ha
    cases s.mConnectionToSessionId[c]? with
    | none => exact ⟨_, rfl⟩
    | some sid =>
      simp only [hn]
      exact ⟨_, rfl⟩

/-- `handle(UnsubscribeRequest)` does not fault. -/
theorem WellLinked.handleUnsubscribeRequest_ok (h : WellLinked s) (uuid : UInt64) :
    ∃ r, s.handleUnsubscribeRequest t uuid c = .ok r := by
  unfold handleUnsubscribeRequest
  cases ha : s.mTree[uuid]? with
  | none => exact ⟨_, rfl⟩
  | some a =>
    obtain ⟨node, hn⟩ := h.exists_heap ha
    cases s.mConnectionToSessionId[c]? with
    | none => exact ⟨_, rfl⟩
    | some sid =>
      simp only [hn]
      cases node.listener[sid]? <;> exact ⟨_, rfl⟩

/-- `handleRpc` does not fault. -/
theorem handleRpc_ok (m : PropertyTreeMessages) : ∃ r, s.handleRpc t m = .ok r := by
  unfold handleRpc
  cases s.mTrIdTranslation[t]? with
  | none => exact ⟨_, rfl⟩
  | some translation => cases hs : s.mSessions[translation.1]? <;> simp only [hs] <;> exact ⟨_, rfl⟩

/-- `onDisconnect` does not fault. -/
theorem WellLinked.onDisconnect_ok (h : WellLinked s) (c : Conn) :
    ∃ r, (s.drop c).onDisconnect c = .ok r := by
  unfold onDisconnect
  cases hc : (s.drop c).mConnectionToSessionId[c]? with
  | none => exact ⟨_, rfl⟩
  | some sid =>
    have hsid : sid ∈ (s.drop c).mSessions := h.session hc
    simp only [Std.ExtTreeMap.getElem?_eq_some_getElem hsid]
    exact ⟨_, rfl⟩

/-- `handle(DeleteRequest)` faults exactly on the childless root: every other object has a parent
that is still there. -/
theorem WellLinked.handleDeleteRequest_error_iff (h : WellLinked s) (uuid : UInt64) :
    (∃ f, s.handleDeleteRequest t uuid c = .error f) ↔
      Hazard s (.message c ⟨t, .deleteRequest uuid⟩) := by
  simp only [Hazard]
  unfold handleDeleteRequest
  constructor
  · rintro ⟨f, hf⟩
    split at hf
    · cases hf
    rename_i a ha
    obtain ⟨node, hn⟩ := h.exists_heap ha
    simp only [hn] at hf
    split_ifs at hf with hch
    by_cases h0 : a = 0
    · subst h0
      refine ⟨h.eq_zero_of_mTree ha, fun root hroot => ?_⟩
      rw [hn] at hroot
      cases hroot
      exact not_not.mp hch
    · obtain ⟨p, pn, hp, -, hpn, -⟩ := h.parent hn h0
      simp only [lock, hp, hpn] at hf
      cases hf
  · rintro ⟨rfl, hroot⟩
    obtain ⟨root, hr, hr0, -⟩ := h.root_heap
    refine ⟨.nullPointer, ?_⟩
    simp [h.root_mTree, hr, hroot root hr, hr0, lock]

/-- `handle(RpcRequest)` faults exactly when a signed-in connection calls the root and the root's
owner is no session. -/
theorem WellLinked.handleRpcRequest_error_iff (h : WellLinked s) (uuid : UInt64) (param : Buffer) :
    (∃ f, s.handleRpcRequest t uuid param c = .error f) ↔
      Hazard s (.message c ⟨t, .rpcRequest uuid param⟩) := by
  simp only [Hazard]
  unfold handleRpcRequest
  constructor
  · rintro ⟨f, hf⟩
    split at hf
    · cases hf
    rename_i a ha
    obtain ⟨node, hn⟩ := h.exists_heap ha
    split at hf
    · cases hf
    rename_i sid hc
    simp only [hn] at hf
    split at hf
    · rename_i hnone
      by_cases h0 : a = 0
      · subst h0
        obtain ⟨root, hr, -, hrs⟩ := h.root_heap
        rw [hn] at hr
        cases hr
        rw [hrs] at hnone
        exact ⟨h.eq_zero_of_mTree ha, by grind, by grind⟩
      · have := h.owner hn h0
        grind
    · split at hf <;> cases hf
  · rintro ⟨rfl, hc, hs⟩
    obtain ⟨root, hr, -, hrs⟩ := h.root_heap
    refine ⟨.endIterator, ?_⟩
    have hs' : s.mSessions[(0xFFFFFFFF : UInt32)]? = none := by grind
    simp [h.root_mTree, hr, hrs, hs', Std.ExtTreeMap.getElem?_eq_some_getElem hc]

end Handlers

/-- A step of a well-linked state faults exactly on the two hazards. -/
theorem WellLinked.step_error_iff (h : WellLinked s) (e : Event) :
    (∃ f, s.step e = .error f) ↔ Hazard s e := by
  have hok : ∀ {r : Outcome}, (∃ v, r = .ok v) → ((∃ f, r = .error f) ↔ False) := by
    rintro _ ⟨v, rfl⟩
    simp
  cases e with
  | disconnect c => exact hok (h.onDisconnect_ok c)
  | message c m =>
    obtain ⟨t, m⟩ := m
    cases m with
    | createRequest name parentUuid => exact hok (h.handleCreateRequest_ok name parentUuid)
    | treeInfoRequest parentUuid name recursive =>
      exact hok (h.handleTreeInfoRequest_ok parentUuid name recursive)
    | setValueRequest uuid data => exact hok (h.handleSetValueRequest_ok uuid data)
    | getRequest uuid => exact hok (h.handleGetRequest_ok uuid)
    | subscribeRequest uuid => exact hok (h.handleSubscribeRequest_ok uuid)
    | unsubscribeRequest uuid => exact hok (h.handleUnsubscribeRequest_ok uuid)
    | deleteRequest uuid => exact h.handleDeleteRequest_error_iff uuid
    | rpcRequest uuid param => exact h.handleRpcRequest_error_iff uuid param
    | rpcAccept value => exact hok (handleRpc_ok _)
    | rpcReject cause => exact hok (handleRpc_ok _)
    | _ => exact hok ⟨_, rfl⟩

/-- A sequence of messages and disconnects runs from the constructor without dereferencing anything
missing exactly when none of its steps is one of the two hazards. -/
theorem completes_iff_no_hazard (es : List Event) :
    Completes step .init es ↔ Along step (fun s e => ¬ Hazard s e) .init es :=
  completes_iff_along step (P := WellLinked)
    (fun h hok => h.stateChange (step_cases hok).stateChange)
    (fun h => (h.step_error_iff _).trans not_not.symm) wellLinked_init es

/-- Not every sequence does: the first message may delete the root. -/
theorem not_completes_delete_root :
    ¬ ∀ es : List Event, Completes step .init es := by
  intro h
  obtain ⟨t, o, hok, -⟩ := h [.message 0 ⟨0, .deleteRequest 0⟩]
  have hfault : init.step (.message 0 ⟨0, .deleteRequest 0⟩) = .error .nullPointer := by rfl
  rw [hfault] at hok
  cases hok

/-- A frame is processed without a fault exactly when its messages are, one after the other. -/
theorem onMsgArray_ok_iff (s : ProtocolHandler) (c : Conn) (ms : List PropertyTreeMessage) :
    (∃ r, s.onMsgArray c ms = .ok r) ↔ Completes step s (ms.map (Event.message c)) := by
  induction ms generalizing s with
  | nil => simp [onMsgArray, Completes]
  | cons m ms ih =>
    simp only [onMsgArray, List.map_cons, Completes, step]
    cases hm : s.handle m.transactionId m.message c with
    | error f => simp
    | ok r =>
      obtain ⟨s', o⟩ := r
      have hrest := ih s'
      cases hr : s'.onMsgArray c ms with
      | error f => simpa [hr] using hrest
      | ok r' => simpa [hr] using hrest

end PropertyTree.Server
