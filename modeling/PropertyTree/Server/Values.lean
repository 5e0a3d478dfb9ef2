import PropertyTree.Server.Creations
import PropertyTree.Server.Subscription

/-!
# The value of a node and what is told of it

A step of the server writes the data of a node when it accepts a `SetValueRequest` and at no other
time.  A connection that listens to the node is sent every value that is written, and a `GetAccept`
carries the data of the node that was asked for.
-/

namespace PropertyTree.Server

open ProtocolHandler Library

variable {s s' : ProtocolHandler} {e : Event} {o : List Output} {c : Conn} {u : UInt64} {d : Buffer}

/-- The data of the node `u`. -/
def ProtocolHandler.dataAt (s : ProtocolHandler) (u : UInt64) : Option Buffer :=
  (s.entry u).map Entry.data

/-- What a step does to the data of the nodes. -/
inductive DataChange (s s' : ProtocolHandler) (l : Event × List Output) : Prop
  | same (hset : ∀ u, acceptedValue u l = []) (hdata : ∀ u, s'.dataAt u = s.dataAt u)
  | create (hset : ∀ u, acceptedValue u l = [])
      (hdata : ∀ u, s'.dataAt u = if u = s.mUuidCtr.toUInt64 then some [] else s.dataAt u)
  | delete (w) (hset : ∀ u, acceptedValue u l = [])
      (hdata : ∀ u, s'.dataAt u = if u = w then none else s.dataAt u)
  | setValue (w) (data : Buffer) (hw : s.entry w ≠ none)
      (hset : ∀ u, acceptedValue u l = if w = u then [data] else [])
      (hdata : ∀ u, s'.dataAt u = if u = w then some data else s.dataAt u)

/-- What a completed step does to the data of the nodes. -/
theorem StepResult.dataChange (hw : WellLinked s) (hi : Indexed s) (h : StepResult s e s' o) :
    DataChange s s' (e, o) := by
  have hset : ∀ {w : UInt64} {a : Addr} {node node' : Node}, s.mTree[w]? = some a →
      s.heap[a]? = some node → SameLinks node node' → ∀ u, (s.setNode a node').dataAt u =
        if u = w then some node'.data else s.dataAt u := by
    intro w a node node' ha hn hsame u
    rw [dataAt, entry_setNode hw ha hn hsame]
    split_ifs with huw
    · rw [huw, entry_of_some ha hn]
      rfl
    · rfl
  have hsame : ∀ {w : UInt64} {a : Addr} {node node' : Node}, s.mTree[w]? = some a →
      s.heap[a]? = some node → SameLinks node node' → node'.data = node.data →
        ∀ u, (s.setNode a node').dataAt u = s.dataAt u := by
    intro w a node node' ha hn hlinks hdata u
    rw [hset ha hn hlinks]
    split_ifs with huw
    · rw [huw, dataAt, entry_of_some ha hn, hdata]
      rfl
    · rfl
  cases h with
  | create c t name parentUuid p sid node hp hc hn ha =>
    refine .create (fun _ => rfl) fun u => ?_
    rw [dataAt, entry_insertNode hw hi hn]
    split_ifs <;> rfl
  | delete c t w a node p parent ha hn hch hp hpn =>
    refine .delete w (fun _ => rfl) fun u => ?_
    rw [dataAt, entry_removeNode hw ha hn hch hp hpn]
    split_ifs <;> rfl
  | setValue c t w data a node hterm ha hn =>
    refine .setValue w data ?_ (fun _ => rfl) (hset ha hn ⟨rfl, rfl, rfl, rfl, rfl⟩)
    rw [entry_of_some ha hn]
    exact Option.some_ne_none _
  | subscribe c t w a sid node ha hc hn =>
    exact .same (fun _ => rfl) (hsame ha hn ⟨rfl, rfl, rfl, rfl, rfl⟩ rfl)
  | unsubscribe c t w a sid node w' ha hc hn =>
    exact .same (fun _ => rfl) (hsame ha hn ⟨rfl, rfl, rfl, rfl, rfl⟩ rfl)
  | replyUnknown c t m hm =>
    rcases hm with ⟨value, rfl⟩ | ⟨cause, rfl⟩ <;> exact .same (fun _ => rfl) fun _ => rfl
  | replyNoSession c t m translation hm =>
    rcases hm with ⟨value, rfl⟩ | ⟨cause, rfl⟩ <;> exact .same (fun _ => rfl) fun _ => rfl
  | reply c t m translation session hm =>
    rcases hm with ⟨value, rfl⟩ | ⟨cause, rfl⟩ <;> exact .same (fun _ => rfl) fun _ => rfl
  | ignored c t m hm => cases m <;> first | exact hm.elim | exact .same (fun _ => rfl) fun _ => rfl
  | _ => exact .same (fun _ => rfl) fun _ => rfl

/-- A node that is listened to exists. -/
theorem ListensTo.exists_node (h : ListensTo s c u) :
    ∃ a node, s.mTree[u]? = some a ∧ s.heap[a]? = some node := by
  obtain ⟨listener, sid, hu, -, -⟩ := h
  rw [listenerAt, Option.map_eq_some_iff] at hu
  obtain ⟨node, hnode, -⟩ := hu
  obtain ⟨a, ha, hn⟩ := Option.bind_eq_some_iff.mp hnode
  exact ⟨a, node, ha, hn⟩

/-- It has data. -/
theorem ListensTo.dataAt_ne_none (h : ListensTo s c u) : s.dataAt u ≠ none := by
  obtain ⟨a, node, ha, hn⟩ := h.exists_node
  rw [dataAt, entry_of_some ha hn]
  exact Option.some_ne_none _

/-- A `SubscribeRequest` after which its sender listens is accepted. -/
theorem ListensTo.accepted {t : UInt16} (h : ListensTo s' c u)
    (hok : s.handleSubscribeRequest t u c = .ok (s', o)) :
    o = [.send c ⟨t, .subscribeResponse .ok⟩] := by
  obtain ⟨a, node, ha, -⟩ := h.exists_node
  obtain ⟨listener, sid, -, hc, -⟩ := h
  unfold handleSubscribeRequest at hok
  split at hok
  · rename_i hno
    cases hok
    cases hno.symm.trans ha
  split at hok
  · rename_i hno
    cases hok
    cases hno.symm.trans hc
  split at hok
  · cases hok
  · cases hok
    rfl

/-- Where a node is listened to before and after a step, its data is the value that has been set, or
what it was. -/
theorem DataChange.dataAt_of_listens (h : DataChange s s' (e, o)) (hi : Indexed s)
    (hl : ListensTo s c u) (hl' : ListensTo s' c u) :
    (acceptedValue u (e, o) = [] ∧ s'.dataAt u = s.dataAt u) ∨
      ∃ data, acceptedValue u (e, o) = [data] ∧ s'.dataAt u = some data := by
  have hne := hl.dataAt_ne_none
  cases h with
  | same hset hdata => exact .inl ⟨hset u, hdata u⟩
  | create hset hdata =>
    refine .inl ⟨hset u, ?_⟩
    rw [hdata, if_neg]
    rintro rfl
    have hlt := hi.entry_lt (u := s.mUuidCtr.toUInt64) fun hnone => hne (by rw [dataAt, hnone]; rfl)
    simp at hlt
  | delete w hset hdata =>
    refine .inl ⟨hset u, ?_⟩
    rw [hdata, if_neg]
    rintro rfl
    exact hl'.dataAt_ne_none ((hdata u).trans (if_pos rfl))
  | setValue w data hw hset hdata =>
    rw [hset, hdata]
    by_cases hwu : w = u
    · exact .inr ⟨data, by rw [if_pos hwu], by rw [if_pos hwu.symm]⟩
    · exact .inl ⟨by rw [if_neg hwu], by rw [if_neg (Ne.symm hwu)]⟩

/-! ## The messages that carry a value -/

/-- A `GetAccept` is the answer to a `GetRequest`, and carries the data of the node. -/
theorem StepResult.dataAt_of_getAccept (h : StepResult s e s' o) {t : UInt16}
    (hm : .send c ⟨t, .getAccept d⟩ ∈ o) : ∃ w, e = .message c ⟨t, .getRequest w⟩ ∧
      o = [.send c ⟨t, .getAccept d⟩] ∧ s.dataAt w = some d ∧ s' = s := by
  have hhead := h.head_eq_of_mem hm rfl
  cases h with
  | get c' t' w a node ha hn =>
    cases hhead
    exact ⟨w, rfl, rfl, by rw [dataAt, entry_of_some ha hn]; rfl, rfl⟩
  | reply c' t' m translation session hm' ht hs =>
    cases hd : session.connectionSession with
    | none => simp [hd] at hhead
    | some d' =>
      rw [hd] at hhead
      cases hhead
      rcases hm' with ⟨value, heq⟩ | ⟨cause, heq⟩ <;> cases heq
  | _ => cases hhead

end PropertyTree.Server
