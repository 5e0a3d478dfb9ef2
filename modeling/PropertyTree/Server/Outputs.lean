import PropertyTree.Server.ChangeLog

/-!
# What the server sends, and what becomes of an RPC

`RpcChange` sorts the steps of the server by what they do to the translation table: an `RpcRequest`
is forwarded under a new key, a reply uses a key up, and every other step leaves the table alone and
sends, apart from notifications, only the response to the request it handles.
-/

namespace PropertyTree

namespace PropertyTreeMessages

/-- The replies to an RPC. -/
def isRpcReply : PropertyTreeMessages → Bool
  | rpcAccept _ | rpcReject _ => true
  | _ => false

/-- The notifications, which belong to no transaction. -/
def isNotification : PropertyTreeMessages → Bool
  | treeUpdateNotification _ _ | updateNotification _ _ => true
  | _ => false

/-- Requests and replies are different messages. -/
theorem isRequest_of_isRpcReply {m : PropertyTreeMessages} (h : m.isRpcReply = true) :
    m.isRequest = false := by
  cases m <;> first | rfl | cases h

/-- A reply is not one of the server's own messages. -/
theorem isServerInitiated_of_isRpcReply {m : PropertyTreeMessages} (h : m.isRpcReply = true) :
    m.isServerInitiated = false := by
  cases m <;> first | rfl | cases h

/-- A notification is initiated by the server. -/
theorem isServerInitiated_of_isNotification {m : PropertyTreeMessages}
    (h : m.isNotification = true) : m.isServerInitiated = true := by
  cases m <;> first | rfl | cases h

end PropertyTreeMessages

namespace Server

open ProtocolHandler

variable {s s' : ProtocolHandler} {e : Event} {o : List Output}

/-- The connection that holds the session which created the node `uuid`. -/
def ProtocolHandler.ownerConnection (s : ProtocolHandler) (uuid : UInt64) : Option Conn :=
  match (s.mTree[uuid]?).bind fun a => s.heap[a]? with
  | none => none
  | some node => (s.mSessions[node.sessionId]?).bind Session.connectionSession

/-- A message sent in the handling of `e` is a notification, or the response to the request that is
handled. -/
def Responds (e : Event) : Output → Prop
  | .send d m => m.message.isNotification = true ∨
      ∃ q, e = .message d ⟨m.transactionId, q⟩ ∧ q.isRequest = true ∧
        m.message.isServerInitiated = false
  | .terminate => True

/-- The effect of a step on the RPCs under way. -/
inductive RpcChange (s : ProtocolHandler) : Event → ProtocolHandler → List Output → Prop
  | forward (c t uuid param sid owner) (hc : s.mConnectionToSessionId[c]? = some sid)
      (ho : s.ownerConnection uuid = some owner) :
      RpcChange s (.message c ⟨t, .rpcRequest uuid param⟩) (s.forwardRpc sid t)
        [.send owner ⟨s.mTrIdCtr.toUInt16, .rpcRequest uuid param⟩]
  | reply (c t m translation) (hm : m.isRpcReply = true)
      (ht : s.mTrIdTranslation[t]? = some translation) :
      RpcChange s (.message c ⟨t, m⟩) (s.takeTranslation t)
        (send ⟨translation.2, m⟩ ((s.mSessions[translation.1]?).bind Session.connectionSession))
  | unknown (c t m) (hm : m.isRpcReply = true) (ht : s.mTrIdTranslation[t]? = none) :
      RpcChange s (.message c ⟨t, m⟩) s []
  | other (e : Event) (s' : ProtocolHandler) (o : List Output)
      (he : ∀ c t m, e = .message c ⟨t, m⟩ → m.isRpcReply = false)
      (ht : s'.mTrIdTranslation = s.mTrIdTranslation) (ho : ∀ x ∈ o, Responds e x) :
      RpcChange s e s' o

@[simp] theorem release_mTrIdTranslation (s : ProtocolHandler) (a : Addr) :
    (s.release a).mTrIdTranslation = s.mTrIdTranslation := by
  unfold release; split <;> rfl

/-- The messages `handleRpc` is instantiated with are the replies. -/
theorem isRpcReply_iff {m : PropertyTreeMessages} : IsRpcReply m ↔ m.isRpcReply = true := by
  constructor
  · rintro (⟨value, rfl⟩ | ⟨cause, rfl⟩) <;> rfl
  · intro h
    cases m with
    | rpcAccept value => exact .inl ⟨value, rfl⟩
    | rpcReject cause => exact .inr ⟨cause, rfl⟩
    | _ => cases h

/-- A broadcast notification is a notification. -/
theorem responds_of_mem_broadcast {m : PropertyTreeMessage} (hm : m.message.isNotification = true)
    {x : Output} (hx : x ∈ s.broadcast m) : Responds e x := by
  obtain ⟨sid, d, -, rfl⟩ := mem_broadcast_iff.mp hx
  exact .inl hm

/-- What a step does to the translation table, and what it sends. -/
theorem StepResult.rpcChange (h : StepResult s e s' o) : RpcChange s e s' o := by
  have hone : ∀ {c : Conn} {t : UInt16} {q m : PropertyTreeMessages}, q.isRequest = true →
      m.isServerInitiated = false →
      ∀ x ∈ [Output.send c ⟨t, m⟩], Responds (.message c ⟨t, q⟩) x := by
    intro c t q m hq hm x hx
    obtain rfl := List.mem_singleton.mp hx
    exact .inr ⟨q, rfl, hq, hm⟩
  cases h with
  | create c t name parentUuid p sid node hp hc hn ha =>
    refine .other _ _ _ (by rintro _ _ _ ⟨⟩; rfl) rfl fun x hx => ?_
    rcases List.mem_cons.mp hx with rfl | hx
    · exact .inr ⟨_, rfl, rfl, rfl⟩
    · exact responds_of_mem_broadcast rfl hx
  | delete c t uuid a node p parent ha hn hch hp hpn =>
    refine .other _ _ _ (by rintro _ _ _ ⟨⟩; rfl) ?_ fun x hx => ?_
    · simp only [ProtocolHandler.removeNode, release_mTrIdTranslation]
    rcases List.mem_cons.mp hx with rfl | hx
    · exact .inr ⟨_, rfl, rfl, rfl⟩
    · exact responds_of_mem_broadcast rfl hx
  | setValue c t uuid data a node hterm ha hn =>
    refine .other _ _ _ (by rintro _ _ _ ⟨⟩; rfl) rfl fun x hx => ?_
    rcases List.mem_cons.mp hx with rfl | hx
    · exact .inr ⟨_, rfl, rfl, rfl⟩
    · obtain ⟨l, -, hx⟩ := List.mem_flatMap.mp hx
      cases hd : s.listenerConnection c l.1 l.2 with
      | none =>
        rw [hd] at hx
        cases hx
      | some d =>
        rw [hd] at hx
        obtain rfl := List.mem_singleton.mp hx
        exact .inl rfl
  | rpcForward c t uuid param a sid node owner ha hc hn ho =>
    refine .forward _ _ _ _ _ _ hc ?_
    simp [ProtocolHandler.ownerConnection, ha, hn, ho]
  | replyUnknown c t m hm ht => exact .unknown _ _ _ (isRpcReply_iff.mp hm) ht
  | replyNoSession c t m translation hm ht hs =>
    have := RpcChange.reply c t m translation (isRpcReply_iff.mp hm) ht
    rwa [hs] at this
  | reply c t m translation session hm ht hs =>
    have := RpcChange.reply c t m translation (isRpcReply_iff.mp hm) ht
    rwa [hs] at this
  | ignored c t m hm =>
    refine .other _ _ _ ?_ rfl (by simp)
    rintro _ _ _ ⟨⟩
    cases m <;> first | rfl | exact hm.elim
  | terminate => exact .other _ _ _ (by rintro _ _ _ ⟨⟩; rfl) rfl (by simp [Responds])
  | disconnectUnknown => exact .other _ _ _ (by rintro _ _ _ ⟨⟩) rfl (by simp)
  | disconnect => exact .other _ _ _ (by rintro _ _ _ ⟨⟩) rfl (by simp)
  | createNotSignedIn => exact .other _ _ _ (by rintro _ _ _ ⟨⟩; rfl) rfl (by simp)
  | setUnknown => exact .other _ _ _ (by rintro _ _ _ ⟨⟩; rfl) rfl (by simp)
  | subscribeNotSignedIn => exact .other _ _ _ (by rintro _ _ _ ⟨⟩; rfl) rfl (by simp)
  | unsubscribeNotSignedIn => exact .other _ _ _ (by rintro _ _ _ ⟨⟩; rfl) rfl (by simp)
  | rpcNotSignedIn => exact .other _ _ _ (by rintro _ _ _ ⟨⟩; rfl) rfl (by simp)
  | rpcOwnerGone => exact .other _ _ _ (by rintro _ _ _ ⟨⟩; rfl) rfl (by simp)
  | _ => exact .other _ _ _ (by rintro _ _ _ ⟨⟩; rfl) rfl (hone rfl rfl)

/-! ## Responses and notifications -/

/-- A notification, which bears the id that no request has. -/
def IsNotice : Output → Prop
  | .send _ m => m.transactionId = notificationId ∧ m.message.isNotification = true
  | .terminate => False

theorem isNotice_of_mem_broadcast {m : PropertyTreeMessages} (hm : m.isNotification = true)
    {x : Output} (hx : x ∈ s.broadcast ⟨notificationId, m⟩) : IsNotice x := by
  obtain ⟨sid, d, -, rfl⟩ := mem_broadcast_iff.mp hx
  exact ⟨rfl, hm⟩

/-- Everything a step sends after its first message is a notification. -/
theorem StepResult.isNotice_of_mem_tail (h : StepResult s e s' o) : ∀ x ∈ o.tail, IsNotice x := by
  cases h with
  | create => exact fun x hx => isNotice_of_mem_broadcast rfl hx
  | delete => exact fun x hx => isNotice_of_mem_broadcast rfl hx
  | setValue c t uuid data a node hterm ha hn =>
    intro x hx
    obtain ⟨l, -, hx⟩ := List.mem_flatMap.mp hx
    cases hd : s.listenerConnection c l.1 l.2 with
    | none =>
      rw [hd] at hx
      cases hx
    | some d =>
      rw [hd] at hx
      obtain rfl := List.mem_singleton.mp hx
      exact ⟨rfl, rfl⟩
  | reply c t m translation session hm ht hs =>
    cases session.connectionSession <;> simp
  | _ => simp

/-- The first message a step sends is not a notification. -/
theorem StepResult.isNotification_head (h : StepResult s e s' o) {d : Conn}
    {m : PropertyTreeMessage} (ho : o.head? = some (.send d m)) :
    m.message.isNotification = false := by
  cases h with
  | reply c t m translation session hm ht hs =>
    cases hd : session.connectionSession with
    | none => simp [hd] at ho
    | some d =>
      simp only [hd, send_some, List.head?_cons, Option.some.injEq, Output.send.injEq] at ho
      obtain ⟨-, rfl⟩ := ho
      rcases hm with ⟨value, rfl⟩ | ⟨cause, rfl⟩ <;> rfl
  | _ =>
    first
      | cases ho; done
      | cases ho; rfl

/-- Every notification a step sends bears the id that no request has. -/
theorem StepResult.transactionId_of_isNotification (h : StepResult s e s' o) {d : Conn}
    {m : PropertyTreeMessage} (hm : .send d m ∈ o) (hn : m.message.isNotification = true) :
    m.transactionId = notificationId := by
  cases o with
  | nil => cases hm
  | cons x rest =>
    rcases List.mem_cons.mp hm with rfl | hm
    · rw [h.isNotification_head rfl] at hn
      cases hn
    · exact (h.isNotice_of_mem_tail _ hm).1

/-- What a step sends besides notifications is its first message. -/
theorem StepResult.head_eq_of_mem (h : StepResult s e s' o) {d : Conn} {m : PropertyTreeMessage}
    (hm : .send d m ∈ o) (hn : m.message.isNotification = false) : o.head? = some (.send d m) := by
  cases o with
  | nil => cases hm
  | cons x rest =>
    rcases List.mem_cons.mp hm with rfl | hm
    · rfl
    · have hnotice := (h.isNotice_of_mem_tail _ hm).2
      rw [hn] at hnotice
      cases hnotice

/-- A `SetValueAccept` is sent when a value is accepted. -/
theorem StepResult.setValue_of_accept (h : StepResult s e s' o) {d : Conn} {t : UInt16}
    {spare : UInt8} (hm : .send d ⟨t, .setValueAccept spare⟩ ∈ o) :
    ∃ u data a, e = .message d ⟨t, .setValueRequest u data⟩ ∧
      ProtocolHandler.isTerminate u data = false ∧ s.mTree[u]? = some a := by
  have hhead := h.head_eq_of_mem hm rfl
  cases h with
  | setValue c t' uuid data a node hterm ha hn =>
    cases hhead
    exact ⟨_, _, _, rfl, hterm, ha⟩
  | reply c t' m translation session hm' ht hs =>
    cases hd : session.connectionSession with
    | none => simp [hd] at hhead
    | some d' =>
      rw [hd] at hhead
      cases hhead
      rcases hm' with ⟨value, heq⟩ | ⟨cause, heq⟩ <;> cases heq
  | _ => cases hhead

/-- A `CreateAccept` is sent by the creation of a node. -/
theorem StepResult.create_of_accept (h : StepResult s e s' o) {d : Conn} {t : UInt16} {u : UInt64}
    (hm : .send d ⟨t, .createAccept u⟩ ∈ o) :
    ∃ name pu p sid node, e = .message d ⟨t, .createRequest name pu⟩ ∧
      s.mTree[pu]? = some p ∧ s.heap[p]? = some node ∧ s' = s.insertNode p node name sid ∧
      u = s.mUuidCtr.toUInt64 ∧ o = .send d ⟨t, .createAccept u⟩ ::
        s.broadcast ⟨notificationId, .treeUpdateNotification [⟨name, u, node.uuid⟩] []⟩ := by
  have hhead := h.head_eq_of_mem hm rfl
  cases h with
  | create c t' name parentUuid p sid node hp hc hn ha =>
    cases hhead
    exact ⟨_, _, _, _, _, rfl, hp, hn, rfl, rfl, rfl⟩
  | reply c t' m translation session hm' ht hs =>
    cases hd : session.connectionSession with
    | none => simp [hd] at hhead
    | some d' =>
      rw [hd] at hhead
      cases hhead
      rcases hm' with ⟨value, heq⟩ | ⟨cause, heq⟩ <;> cases heq
  | _ => cases hhead

/-- A `TreeInfoResponse` answers a `TreeInfoRequest`. -/
theorem StepResult.treeInfo_of_response (h : StepResult s e s' o) {d : Conn} {t : UInt16}
    {l : List NamedNode} (hm : .send d ⟨t, .treeInfoResponse l⟩ ∈ o) :
    ∃ pu name recursive, e = .message d ⟨t, .treeInfoRequest pu name recursive⟩ := by
  have hhead := h.head_eq_of_mem hm rfl
  cases h with
  | treeInfoSelf =>
    cases hhead
    exact ⟨_, _, _, rfl⟩
  | treeInfoChild =>
    cases hhead
    exact ⟨_, _, _, rfl⟩
  | reply c t' m translation session hm' ht hs =>
    cases hd : session.connectionSession with
    | none => simp [hd] at hhead
    | some d' =>
      rw [hd] at hhead
      cases hhead
      rcases hm' with ⟨value, heq⟩ | ⟨cause, heq⟩ <;> cases heq
  | _ => cases hhead

end Server

end PropertyTree
