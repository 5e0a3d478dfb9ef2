import PropertyTree.Server.Outputs

/-!
# Requests that change nothing

A request that is rejected, passed over or only reads leaves the whole state of the server as it was,
and nobody but the requester hears of it.
-/

namespace PropertyTree

namespace PropertyTreeMessages

/-- The rejections, and the responses with a cause other than `OK`. -/
def isRefusal : PropertyTreeMessages → Bool
  | createReject _ | getReject _ | treeInfoErrorResponse _ | rpcReject _ => true
  | deleteResponse cause | subscribeResponse cause | unsubscribeResponse cause => cause != .ok
  | _ => false

/-- The requests that only read. -/
def isReadOnly : PropertyTreeMessages → Bool
  | getRequest _ | treeInfoRequest _ _ _ | hearbeatRequest _ => true
  | _ => false

/-- No notification is a refusal. -/
theorem isRefusal_of_isNotification {m : PropertyTreeMessages} (h : m.isNotification = true) :
    m.isRefusal = false := by
  cases m <;> first | rfl | cases h

end PropertyTreeMessages

namespace Server

open ProtocolHandler

variable {s s' : ProtocolHandler} {e : Event} {o : List Output} {c : Conn} {t : UInt16}

/-- The requests a handler returns from without a word: a value for an unknown node, a request that
needs a session on a connection that has none, a call to a node whose owner is not connected. -/
def IsDropped (s : ProtocolHandler) (c : Conn) : PropertyTreeMessages → Prop
  | .setValueRequest uuid _ => uuid ∉ s.mTree
  | .createRequest _ _ | .subscribeRequest _ | .unsubscribeRequest _ =>
    c ∉ s.mConnectionToSessionId
  | .rpcRequest uuid _ => c ∉ s.mConnectionToSessionId ∨ s.ownerConnection uuid = none
  | _ => False

/-- After its first message a step sends no refusal. -/
theorem StepResult.not_refusal (h : StepResult s e s' o) {d : Conn} {t' : UInt16}
    {m : PropertyTreeMessages} (hm : .send d ⟨t', m⟩ ∈ o.tail) : m.isRefusal = false :=
  PropertyTreeMessages.isRefusal_of_isNotification (h.isNotice_of_mem_tail _ hm).2

/-- A request that is refused, dropped, not answered, or that only reads, leaves the state as it was
and is answered, if at all, to the requester alone.  Nothing is assumed of the state. -/
theorem unchanged_of_refused {q : PropertyTreeMessages} (hq : q.isRequest = true)
    (hok : s.step (.message c ⟨t, q⟩) = .ok (s', o))
    (hcase : (∃ d t' m, .send d ⟨t', m⟩ ∈ o ∧ m.isRefusal = true) ∨ IsDropped s c q ∨ o = [] ∨
      q.isReadOnly = true) :
    s' = s ∧ ∀ d m, .send d m ∈ o → d = c := by
  have hres := step_cases hok
  -- where the state does change, none of the four cases applies
  have hnot : ∀ {x : Output} {rest : List Output}, o = x :: rest →
      (∀ d t' m, x = .send d ⟨t', m⟩ → m.isRefusal = false) → ¬ IsDropped s c q →
      q.isReadOnly = false → False := by
    rintro x rest rfl hx hdrop hread
    rcases hcase with ⟨d, t', m, hm, hrefusal⟩ | hd | hnil | hr
    · rcases List.mem_cons.mp hm with heq | hm
      · rw [hx d t' m heq.symm] at hrefusal
        cases hrefusal
      · rw [hres.not_refusal hm] at hrefusal
        cases hrefusal
    · exact hdrop hd
    · cases hnil
    · rw [hread] at hr
      cases hr
  have hone : ∀ {m : PropertyTreeMessage} d m', Output.send d m' ∈ [Output.send c m] → d = c := by
    intro m d m' hmem
    cases List.mem_singleton.mp hmem
    rfl
  cases hres with
  | signin =>
    refine (hnot rfl ?_ id rfl).elim
    rintro _ _ _ ⟨⟩
    rfl
  | create c t name parentUuid p sid node hp hc hn ha =>
    refine (hnot rfl ?_ (fun hdrop => hdrop ?_) rfl).elim
    · rintro _ _ _ ⟨⟩
      rfl
    · exact Std.ExtTreeMap.mem_iff_isSome_getElem?.mpr (by simp [hc])
  | setValue c t uuid data a node hterm ha hn =>
    refine (hnot rfl ?_ (fun hdrop => hdrop ?_) rfl).elim
    · rintro _ _ _ ⟨⟩
      rfl
    · exact Std.ExtTreeMap.mem_iff_isSome_getElem?.mpr (by simp [ha])
  | subscribe c t uuid a sid node ha hc hn =>
    refine (hnot rfl ?_ (fun hdrop => hdrop ?_) rfl).elim
    · rintro _ _ _ ⟨⟩
      rfl
    · exact Std.ExtTreeMap.mem_iff_isSome_getElem?.mpr (by simp [hc])
  | unsubscribe c t uuid a sid node w ha hc hn hl =>
    refine (hnot rfl ?_ (fun hdrop => hdrop ?_) rfl).elim
    · rintro _ _ _ ⟨⟩
      rfl
    · exact Std.ExtTreeMap.mem_iff_isSome_getElem?.mpr (by simp [hc])
  | delete =>
    refine (hnot rfl ?_ id rfl).elim
    rintro _ _ _ ⟨⟩
    rfl
  | rpcForward c t uuid param a sid node owner ha hc hn ho =>
    refine (hnot rfl ?_ ?_ rfl).elim
    · rintro _ _ _ ⟨⟩
      rfl
    · rintro (hdrop | hdrop)
      · exact hdrop (Std.ExtTreeMap.mem_iff_isSome_getElem?.mpr (by simp [hc]))
      · simp [ProtocolHandler.ownerConnection, ha, hn, ho] at hdrop
  | replyUnknown c t m hm =>
    rw [PropertyTreeMessages.isRequest_of_isRpcReply (isRpcReply_iff.mp hm)] at hq
    cases hq
  | replyNoSession c t m translation hm =>
    rw [PropertyTreeMessages.isRequest_of_isRpcReply (isRpcReply_iff.mp hm)] at hq
    cases hq
  | reply c t m translation session hm =>
    rw [PropertyTreeMessages.isRequest_of_isRpcReply (isRpcReply_iff.mp hm)] at hq
    cases hq
  | createNotSignedIn => exact ⟨rfl, by simp⟩
  | terminate => exact ⟨rfl, by simp⟩
  | setUnknown => exact ⟨rfl, by simp⟩
  | subscribeNotSignedIn => exact ⟨rfl, by simp⟩
  | unsubscribeNotSignedIn => exact ⟨rfl, by simp⟩
  | rpcNotSignedIn => exact ⟨rfl, by simp⟩
  | rpcOwnerGone => exact ⟨rfl, by simp⟩
  | ignored => exact ⟨rfl, by simp⟩
  | _ => exact ⟨rfl, hone⟩

/-- A second node of one name is refused: after a connection has signed in and created a node, the
same request again is answered with `ALREADY_EXIST`. -/
theorem unchanged_create_exists :
    ∃ ls s s' o, ServerRun .init ls s ∧ s.mTree.toList.map Prod.fst = [0, 1] ∧
      s.step (.message 7 ⟨2, .createRequest [97] 0⟩) = .ok (s', o) ∧
      o = [.send 7 ⟨2, .createReject .alreadyExist⟩] ∧
      s' = s ∧ ∀ d m, .send d m ∈ o → d = 7 := by
  have hrun : ∃ r, Library.execute step (fun _ _ => true) .init
      [.message 7 ⟨0, .signinRequest 0⟩, .message 7 ⟨1, .createRequest [97] 0⟩] = some r ∧
      r.1.mTree.toList.map Prod.fst = [0, 1] ∧
      ∃ v, r.1.step (.message 7 ⟨2, .createRequest [97] 0⟩) = .ok v ∧
        v.2 = [.send 7 ⟨2, .createReject .alreadyExist⟩] :=
    ⟨_, rfl, by decide, _, rfl, rfl⟩
  obtain ⟨⟨s, ls⟩, hexec, hkeys, ⟨s', o⟩, hok, rfl⟩ := hrun
  exact ⟨ls, s, s', _, (Library.run_of_execute step hexec).of_guarded, hkeys, hok, rfl,
    unchanged_of_refused rfl hok (.inl ⟨7, 2, _, List.mem_singleton_self _, rfl⟩)⟩

end Server

end PropertyTree
