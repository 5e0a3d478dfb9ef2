import PropertyTree.Server.Outputs

/-!
# Every request is answered

A client that has sent a request waits for the message with its transaction id.  `Answered` says
what a handling step owes it: one message with that id, to the connection that asked, of a type the
request has; an `RpcRequest` may be forwarded to the owner of its node instead.  Two handlers have a
branch that returns without a word, and `Answerable` names the states in which neither is taken.
-/

namespace PropertyTree

namespace PropertyTreeMessages

/-- Whether the second message is a response of the type the first one asks for. -/
def isAnsweredBy : PropertyTreeMessages → PropertyTreeMessages → Bool
  | signinRequest _, signinAccept _ => true
  | createRequest _ _, createAccept _ | createRequest _ _, createReject _ => true
  | getRequest _, getAccept _ | getRequest _, getReject _ => true
  | treeInfoRequest _ _ _, treeInfoResponse _
  | treeInfoRequest _ _ _, treeInfoErrorResponse _ => true
  | deleteRequest _, deleteResponse _ => true
  | setValueRequest _ _, setValueAccept _ | setValueRequest _ _, setValueReject _ => true
  | subscribeRequest _, subscribeResponse _ => true
  | unsubscribeRequest _, unsubscribeResponse _ => true
  | hearbeatRequest _, hearbeatResponse _ => true
  | _, _ => false

/-- Whether the second message is one the first one can lead to: what the server answers, or the
forwarded RPC and what its owner replies.  A listing for a name begins with the node of that name. -/
def leadsTo : PropertyTreeMessages → PropertyTreeMessages → Bool
  | signinRequest _, signinAccept _ => true
  | createRequest _ _, createAccept _ | createRequest _ _, createReject _ => true
  | getRequest _, getAccept _ | getRequest _, getReject _ => true
  | treeInfoRequest _ name _, treeInfoResponse l => name = selfName ∨ l ≠ []
  | treeInfoRequest _ _ _, treeInfoErrorResponse _ => true
  | deleteRequest _, deleteResponse _ => true
  | setValueRequest _ _, setValueAccept _ => true
  | subscribeRequest _, subscribeResponse _ => true
  | unsubscribeRequest _, unsubscribeResponse _ => true
  | rpcRequest _ _, rpcRequest _ _ => true
  | rpcRequest _ _, rpcAccept _ | rpcRequest _ _, rpcReject _ => true
  | hearbeatRequest _, hearbeatResponse _ => true
  | _, _ => false

end PropertyTreeMessages

namespace Server

open ProtocolHandler Library

variable {s s' : ProtocolHandler} {o : List Output} {c : Conn} {t : UInt16}

/-- The messages sent with the transaction id `t`, with the connections they are sent to. -/
def messagesWith (t : UInt16) (o : List Output) : List (Conn × PropertyTreeMessages) :=
  o.filterMap fun
    | .send d ⟨t', m⟩ => if t' = t then some (d, m) else none
    | .terminate => none

/-- What the outputs `o` are to the request `q` of the connection `c` with the transaction id `t`:
one response, or for an RPC one rejection, or the one request to the owner's connection. -/
def Answered (s : ProtocolHandler) (c : Conn) (t : UInt16) (q : PropertyTreeMessages)
    (o : List Output) : Prop :=
  match q with
  | .rpcRequest uuid param =>
    (∃ cause, o = [.send c ⟨t, .rpcReject cause⟩]) ∨
      ∃ owner key, s.ownerConnection uuid = some owner ∧ owner ∉ s.dropped ∧
        o = [.send owner ⟨key, .rpcRequest uuid param⟩]
  | q => ∃ r, q.isAnsweredBy r = true ∧ messagesWith t o = [(c, r)]

/-- The states in which the request `q` is not passed over in silence: a value is set on a known
node, and the owner of a known node that is called is connected. -/
def Answerable (s : ProtocolHandler) : PropertyTreeMessages → Prop
  | .setValueRequest uuid _ => uuid ∈ s.mTree
  | .rpcRequest uuid _ =>
    uuid ∈ s.mTree → ∃ owner, s.ownerConnection uuid = some owner ∧ owner ∉ s.dropped
  | _ => True

/-- The requests that are to be answered: all but the command that stops the server, and but those
whose id is the one of the notifications, which `Client::addTransaction` never draws. -/
def IsDue (t : UInt16) : PropertyTreeMessages → Prop
  | .setValueRequest uuid data => t ≠ notificationId ∧ isTerminate uuid data = false
  | .rpcRequest _ _ => True
  | q => t ≠ notificationId ∧ q.isRequest = true

/-- No notification carries the id of a request. -/
theorem messagesWith_eq_nil (ht : t ≠ notificationId)
    (h : ∀ x ∈ o, ∃ d m, x = .send d ⟨notificationId, m⟩) : messagesWith t o = [] := by
  rw [messagesWith, List.filterMap_eq_nil_iff]
  intro x hx
  obtain ⟨d, m, rfl⟩ := h x hx
  simp [Ne.symm ht]

/-- A response in front of notifications is the one message with its id. -/
theorem messagesWith_cons (ht : t ≠ notificationId) (r : PropertyTreeMessages)
    (h : ∀ x ∈ o, ∃ d m, x = .send d ⟨notificationId, m⟩) :
    messagesWith t (.send c ⟨t, r⟩ :: o) = [(c, r)] := by
  have := messagesWith_eq_nil ht h
  simp only [messagesWith] at this ⊢
  simp [this]

/-- A broadcast goes out under the id of its message. -/
theorem exists_of_mem_broadcast {m : PropertyTreeMessages} {x : Output}
    (hx : x ∈ s.broadcast ⟨notificationId, m⟩) : ∃ d m', x = .send d ⟨notificationId, m'⟩ := by
  obtain ⟨sid, d, -, rfl⟩ := mem_broadcast_iff.mp hx
  exact ⟨d, m, rfl⟩

/-- The request of a signed-in connection is answered in the step that handles it exactly when it is
answerable in the state before. -/
theorem answered_iff {q : PropertyTreeMessages} (hc : c ∈ s.mConnectionToSessionId)
    (hq : IsDue t q) (hok : s.step (.message c ⟨t, q⟩) = .ok (s', o)) :
    Answered s c t q o ↔ Answerable s q := by
  have hsigned : s.mConnectionToSessionId[c]? ≠ none := by
    rw [← Option.isSome_iff_ne_none]
    exact Std.ExtTreeMap.mem_iff_isSome_getElem?.mp hc
  have hone : ∀ {r}, messagesWith t [.send c ⟨t, r⟩] = [(c, r)] := by
    intro r
    simp [messagesWith]
  cases step_cases hok with
  | signin => exact iff_of_true ⟨_, rfl, hone⟩ trivial
  | createNoParent => exact iff_of_true ⟨_, rfl, hone⟩ trivial
  | createExists => exact iff_of_true ⟨_, rfl, hone⟩ trivial
  | create c t name parentUuid p sid node hp hc' hn ha =>
    exact iff_of_true ⟨_, rfl, messagesWith_cons hq.1 _ fun x => exists_of_mem_broadcast⟩ trivial
  | treeInfoNoParent => exact iff_of_true ⟨_, rfl, hone⟩ trivial
  | treeInfoNoChild => exact iff_of_true ⟨_, rfl, hone⟩ trivial
  | treeInfoSelf => exact iff_of_true ⟨_, rfl, hone⟩ trivial
  | treeInfoChild => exact iff_of_true ⟨_, rfl, hone⟩ trivial
  | terminate c t uuid data hterm =>
    have := hq.2
    rw [hterm] at this
    cases this
  | setUnknown c t uuid data hterm ha =>
    refine iff_of_false ?_ ?_
    · rintro ⟨r, -, hmsg⟩
      cases hmsg
    · intro hmem
      have := Std.ExtTreeMap.mem_iff_isSome_getElem?.mp hmem
      rw [ha] at this
      cases this
  | setValue c t uuid data a node hterm ha hn =>
    have hmem : uuid ∈ s.mTree := Std.ExtTreeMap.mem_iff_isSome_getElem?.mpr (by simp [ha])
    refine iff_of_true ⟨_, rfl, messagesWith_cons hq.1 _ fun x hx => ?_⟩ hmem
    obtain ⟨l, -, hx⟩ := List.mem_flatMap.mp hx
    cases hd : s.listenerConnection c l.1 l.2 with
    | none =>
      rw [hd] at hx
      cases hx
    | some d =>
      rw [hd] at hx
      exact ⟨d, _, List.mem_singleton.mp hx⟩
  | getUnknown => exact iff_of_true ⟨_, rfl, hone⟩ trivial
  | get => exact iff_of_true ⟨_, rfl, hone⟩ trivial
  | subscribeUnknown => exact iff_of_true ⟨_, rfl, hone⟩ trivial
  | subscribe => exact iff_of_true ⟨_, rfl, hone⟩ trivial
  | unsubscribeUnknown => exact iff_of_true ⟨_, rfl, hone⟩ trivial
  | unsubscribeNoListener => exact iff_of_true ⟨_, rfl, hone⟩ trivial
  | unsubscribe => exact iff_of_true ⟨_, rfl, hone⟩ trivial
  | deleteUnknown => exact iff_of_true ⟨_, rfl, hone⟩ trivial
  | deleteNotEmpty => exact iff_of_true ⟨_, rfl, hone⟩ trivial
  | delete =>
    exact iff_of_true ⟨_, rfl, messagesWith_cons hq.1 _ fun x => exists_of_mem_broadcast⟩ trivial
  | rpcUnknown c t uuid param ha =>
    refine iff_of_true (.inl ⟨_, rfl⟩) fun hmem => ?_
    have := Std.ExtTreeMap.mem_iff_isSome_getElem?.mp hmem
    rw [ha] at this
    cases this
  | rpcOwnerGone c t uuid param a sid node ha hc' hn ho =>
    have hmem : uuid ∈ s.mTree := Std.ExtTreeMap.mem_iff_isSome_getElem?.mpr (by simp [ha])
    refine iff_of_false ?_ fun h => ?_
    · rintro (⟨cause, hsend⟩ | ⟨owner, key, -, -, hsend⟩) <;> cases hsend
    · obtain ⟨owner, howner, -⟩ := h hmem
      simp [ProtocolHandler.ownerConnection, ha, hn, ho] at howner
  | rpcForward c t uuid param a sid node owner ha hc' hn ho =>
    have hmem : uuid ∈ s.mTree := Std.ExtTreeMap.mem_iff_isSome_getElem?.mpr (by simp [ha])
    have howner : s.ownerConnection uuid = some owner := by
      simp [ProtocolHandler.ownerConnection, ha, hn, ho]
    constructor
    · rintro (⟨cause, hsend⟩ | ⟨owner', key, howner', hlive, hsend⟩)
      · cases hsend
      · exact fun _ => ⟨owner', howner', hlive⟩
    · intro h
      obtain ⟨owner', howner', hlive⟩ := h hmem
      obtain rfl : owner = owner' := by
        rw [howner] at howner'
        cases howner'
        rfl
      exact .inr ⟨owner, _, howner, hlive, rfl⟩
  | replyUnknown c t m hm => rcases hm with ⟨_, rfl⟩ | ⟨_, rfl⟩ <;> cases hq.2
  | replyNoSession c t m translation hm => rcases hm with ⟨_, rfl⟩ | ⟨_, rfl⟩ <;> cases hq.2
  | reply c t m translation session hm => rcases hm with ⟨_, rfl⟩ | ⟨_, rfl⟩ <;> cases hq.2
  | hearbeat => exact iff_of_true ⟨_, rfl, hone⟩ trivial
  | ignored c t _ hm => cases q <;> first | exact hm.elim | cases hq.2
  | createNotSignedIn _ _ _ _ _ _ hc' => exact absurd hc' hsigned
  | subscribeNotSignedIn _ _ _ _ _ hc' => exact absurd hc' hsigned
  | unsubscribeNotSignedIn _ _ _ _ _ hc' => exact absurd hc' hsigned
  | rpcNotSignedIn _ _ _ _ _ _ hc' => exact absurd hc' hsigned

/-- A listing keeps the entries it begins with. -/
theorem ne_nil_of_fillLoop {heap : Std.ExtTreeMap Addr Node} {pRecursive : Bool} {fuel : ℕ}
    {levels : List TraversalContext} {out l : List NamedNode}
    (h : fillLoop heap pRecursive fuel levels out = .ok l) (hout : out ≠ []) : l ≠ [] := by
  induction fuel generalizing levels out with
  | zero => cases h
  | succ fuel ih =>
    cases levels with
    | nil => cases h
    | cons level levels =>
      obtain ⟨p, current⟩ := level
      cases current with
      | nil =>
        simp only [fillLoop] at h
        split_ifs at h
        · cases h
          exact hout
        · exact ih h hout
      | cons entry current =>
        simp only [fillLoop] at h
        split at h
        · split_ifs at h <;> exact ih h (by simp)
        · cases h

/-- What a step sends is a notification, or what the message it handles leads to, or the reply of an
owner as it came. -/
theorem StepResult.leadsTo {m : PropertyTreeMessage} {q : PropertyTreeMessages} {d : Conn}
    (h : StepResult s (.message c ⟨t, q⟩) s' o) (hm : .send d m ∈ o) :
    m.message.isNotification = true ∨ q.leadsTo m.message = true ∨
      q.isRpcReply = true ∧ m.message = q := by
  by_cases hn : m.message.isNotification = true
  · exact .inl hn
  have hhead := h.head_eq_of_mem hm (by simpa using hn)
  cases h with
  | reply c t m' translation session hm' ht hs =>
    cases hd : session.connectionSession with
    | none => simp [hd] at hhead
    | some d' =>
      rw [hd] at hhead
      cases hhead
      exact .inr (.inr ⟨isRpcReply_iff.mp hm', rfl⟩)
  | treeInfoSelf =>
    cases hhead
    refine .inr (.inl ?_)
    simp [PropertyTreeMessages.leadsTo]
  | treeInfoChild c t parentUuid name recursive p parent a node l hp hn hname ha hna hl =>
    cases hhead
    simp only [fillToAddListFromTree, hna] at hl
    refine .inr (.inl ?_)
    simp [PropertyTreeMessages.leadsTo, ne_nil_of_fillLoop hl (by simp)]
  | _ =>
    first
      | cases hhead; done
      | cases hhead; exact .inr (.inl rfl)

/-- The state after connection 0 has signed in. -/
def signedIn : ProtocolHandler :=
  init.signin 0

/-- Connections 7 and 8 sign in, and 8 creates a node and listens to it. -/
def ownerEvents : List Event :=
  [.message 7 ⟨0, .signinRequest 0⟩, .message 8 ⟨0, .signinRequest 0⟩,
    .message 8 ⟨1, .createRequest [97] 0⟩, .message 8 ⟨2, .subscribeRequest 1⟩]

/-- Connection 7 sets the value of this node, which is answered and notified, and calls it, which is
forwarded to its owner. -/
theorem answered_set_and_call : ∃ ls s, ServerRun .init ls s ∧
    (∃ s' o, s.step (.message 7 ⟨3, .setValueRequest 1 [5]⟩) = .ok (s', o) ∧ o.length = 2 ∧
      Answered s 7 3 (.setValueRequest 1 [5]) o) ∧
    ∃ s' key, s.step (.message 7 ⟨4, .rpcRequest 1 [5]⟩) =
        .ok (s', [.send 8 ⟨key, .rpcRequest 1 [5]⟩]) ∧
      Answered s 7 4 (.rpcRequest 1 [5]) [.send 8 ⟨key, .rpcRequest 1 [5]⟩] := by
  have hrun : ∃ r, execute step (fun _ _ => true) .init ownerEvents = some r ∧
      (7 : Conn) ∈ r.1.mConnectionToSessionId ∧ (1 : UInt64) ∈ r.1.mTree ∧
      r.1.ownerConnection 1 = some 8 ∧ (8 : Conn) ∉ r.1.dropped ∧
      (∃ x, r.1.step (.message 7 ⟨3, .setValueRequest 1 [5]⟩) = .ok x ∧ x.2.length = 2) ∧
      ∃ s' key, r.1.step (.message 7 ⟨4, .rpcRequest 1 [5]⟩) =
        .ok (s', [.send 8 ⟨key, .rpcRequest 1 [5]⟩]) :=
    ⟨_, rfl, by decide, by decide, by decide, by decide, ⟨_, rfl, by decide⟩, _, _, rfl⟩
  obtain ⟨⟨s, ls⟩, hexec, hc, hnode, howner, hdropped, ⟨⟨s', o⟩, hset, hlength⟩, s'', key, hcall⟩ :=
    hrun
  have hset' : IsDue 3 (.setValueRequest 1 [5]) := ⟨by decide, by decide⟩
  exact ⟨ls, s, (run_of_execute step hexec).of_guarded,
    ⟨s', o, hset, hlength, (answered_iff hc hset' hset).mpr hnode⟩,
    s'', key, hcall, (answered_iff (q := .rpcRequest 1 [5]) hc trivial hcall).mpr
      fun _ => ⟨8, howner, hdropped⟩⟩

/-- A value set on a node that does not exist is not answered. -/
theorem not_answered_set_unknown :
    ¬ ∀ ls s c t q s' o, ServerRun .init ls s → c ∈ s.mConnectionToSessionId → c ∉ s.dropped →
      IsDue t q → s.step (.message c ⟨t, q⟩) = .ok (s', o) → Answered s c t q o := by
  intro h
  have hrun : ServerRun .init [(.message 0 ⟨0, .signinRequest 0⟩, [.send 0 ⟨0, .signinAccept 0⟩])]
      signedIn := .single rfl
  obtain ⟨r, -, hmsg⟩ := h _ _ 0 1 (.setValueRequest 5 [7]) signedIn [] hrun (by decide)
    (by decide) ⟨by decide, by decide⟩ rfl
  cases hmsg

end Server

end PropertyTree
