import PropertyTree.System.Responses

/-!
# Where a request is

A request is under way until its response is on the way to the client, and then it is kept in a
transaction: it is never in two of these places, and in none of them twice.
-/

namespace PropertyTree.System

open Library Server Client PropertyTreeMessages

variable {s s' : System} {act : System.Action} {c d : Conn} {k k' : Client} {r : ℕ}

/-- The request number `r` has not been handled, or it is an RPC whose reply is still to come. -/
def Underway (s : System) (r : ℕ) : Prop :=
  (∃ c, r ∈ requestTags (s.client c)) ∨ ∃ o x, x ∈ pendings (s.client o) ∧ x.1 = r

/-- The numbers of the responses in the inbound queue. -/
def arriving (k : Client) : List ℕ :=
  k.inbound.filterMap fun p =>
    if p.message.message.isServerInitiated then none else some p.tag

/-- The response to the request number `r` has satisfied a transaction. -/
def Stored (k : Client) (r : ℕ) : Prop :=
  ∃ (t : UInt16) (m : Tagged), k.mTransactions[t]? = some ⟨true, m⟩ ∧ m.tag = r

/-- No request is in two places. -/
structure Exclusive (s : System) : Prop where
  arriving_nodup : ∀ c, (arriving (s.client c)).Nodup
  arriving : ∀ {c r}, r ∈ arriving (s.client c) → ¬ Underway s r ∧ ¬ Stored (s.client c) r
  stored : ∀ {c r}, Stored (s.client c) r → ¬ Underway s r

/-! ## Recorded numbers -/

/-- What is under way is on record. -/
theorem Underway.recorded (h : Underway s r) (hsound : Sound s) (hcorr : Correlated s) :
    ∃ x, s.requests[r]? = some x := by
  rcases h with ⟨c, hr⟩ | ⟨o, x, hx, rfl⟩
  · obtain ⟨m, hm⟩ := lt_of_mem_requestTags hsound hr
    exact ⟨_, hm⟩
  · obtain ⟨d, t, uuid, param, sid, hreq, -⟩ := (hcorr.translated hx).entered
    exact ⟨_, hreq⟩

/-- What arrives is the response to a request of its receiver. -/
theorem responded_of_mem_arriving (hapart : Apart s c k) (hr : r ∈ arriving k) :
    ∃ p ∈ k.inbound, p.tag = r ∧ Responded s c p := by
  obtain ⟨p, hp, hpr⟩ := List.mem_filterMap.mp hr
  split_ifs at hpr with hserver
  cases hpr
  refine ⟨p, hp, rfl, ?_⟩
  rcases hapart.inbound hp with ⟨hn, -⟩ | hcall | hresp
  · exact absurd (isServerInitiated_of_isNotification hn) hserver
  · unfold rpcCall at hcall
    split at hcall
    · rename_i hm
      rw [hm] at hserver
      exact absurd rfl hserver
    · cases hcall
  · exact hresp

/-- What is stored is the response to a request of its client. -/
theorem Stored.responded (hapart : Apart s c k) (h : Stored k r) :
    ∃ t m, k.mTransactions[t]? = some ⟨true, m⟩ ∧ m.tag = r ∧ Responded s c ⟨m.tag, t, m.message⟩ := by
  obtain ⟨t, m, hm, hr⟩ := h
  exact ⟨t, m, hm, hr, (hapart.transactions hm).2 rfl⟩

/-! ## Steps of a client -/

section Client

variable {number : ℕ} {a : Client.Action} {sent : List Packet}

/-- A step of a client stores what has arrived. -/
theorem stored_of_change (hchange : TransactionChange k k' number a sent) (h : Stored k' r) :
    Stored k r ∨ ∃ p, k.inbound = p :: k'.inbound ∧ p.tag = r ∧
      k.mTransactions[p.message.transactionId]? ≠ none ∧ a = .read := by
  obtain ⟨t, m, hm, hr⟩ := h
  cases hchange with
  | other a ha hin hx => exact .inl ⟨t, m, hx ▸ hm, hr⟩
  | draw i call stage q ht hnone hid hin hx hth => exact .inl ⟨t, m, hx ▸ hm, hr⟩
  | send i call q trId ht hin hx hth =>
    rw [hx, Std.ExtTreeMap.getElem?_insertIfNew] at hm
    split_ifs at hm with hnew
    · cases hm
    · exact .inl ⟨t, m, hm, hr⟩
  | take i call trId r response ht hsat hin hx hth => exact .inl ⟨t, m, hx ▸ hm, hr⟩
  | timeout i call trId r ht hin hx hth => exact .inl ⟨t, m, hx ▸ hm, hr⟩
  | erase i call trId r response ht hin hx hth =>
    rw [hx] at hm
    exact .inl ⟨t, m, by grind, hr⟩
  | satisfy p x hin hsat hx hth =>
    rw [hx] at hm
    by_cases htp : t = p.message.transactionId
    · subst htp
      obtain rfl : p.body = m := by simpa using hm
      exact .inr ⟨p, hin, hr, by simp [hsat], rfl⟩
    · exact .inl ⟨t, m, by grind, hr⟩
  | dispatch p sent hin hnone hx hth => exact .inl ⟨t, m, hx ▸ hm, hr⟩

/-- The responses that are left after a step of a client. -/
theorem arriving_of_change (hchange : TransactionChange k k' number a sent) :
    (arriving k').Sublist (arriving k) := by
  unfold arriving
  rcases inbound_of_change hchange with hin | ⟨p, hin⟩ <;> rw [hin]
  exact (List.sublist_cons_self p _).filterMap _

/-- A message that is read under the id of a transaction is a response. -/
theorem responded_of_read (hapart : Apart s c k) {p : Packet} {inbound : List Packet}
    (hin : k.inbound = p :: inbound) (hx : k.mTransactions[p.message.transactionId]? ≠ none)
    (hread : ∀ p ∈ k.inbound.head?, (rpcCall p).isSome = true →
      k.mTransactions[p.message.transactionId]? = none) : Responded s c p := by
  rcases hapart.inbound (hin ▸ List.mem_cons_self) with ⟨-, hid⟩ | hcall | hresp
  · obtain ⟨x, hx⟩ := Option.ne_none_iff_exists'.mp hx
    exact absurd hid (hapart.transactions hx).1
  · exact absurd (hread p (by simp [hin]) hcall) hx
  · exact hresp

/-- What is under way after a step of a client was before, or has just been sent. -/
theorem underway_of_client (hsound : Sound s) (hk : s.clients[c]? = some k)
    (hres : Client.StepResult k s.requests.length a k' sent)
    (h : Underway { s with
      clients := s.clients.insert c { k' with outbound := k'.outbound ++ sent }
      requests := s.requests ++ requestsOf c sent
      answers := s.answers ++ answersOf c sent } r) : Underway s r ∨ r = s.requests.length := by
  obtain ⟨hq, hout⟩ := queueChange_of_stepResult hres (hsound.threads hk)
  obtain ⟨hpend, hreq⟩ := shrinks_of_queueChange hq hout
  rcases h with ⟨d, hr⟩ | ⟨o, x, hx, rfl⟩
  · rw [client_of_clients rfl d] at hr
    split_ifs at hr with hdc
    · subst hdc
      rcases hreq with heq | heq <;> rw [heq] at hr
      · exact .inl (.inl ⟨d, by rwa [client_of_some hk]⟩)
      · rcases List.mem_append.mp hr with hr | hr
        · exact .inl (.inl ⟨d, by rwa [client_of_some hk]⟩)
        · exact .inr (List.mem_singleton.mp hr)
    · exact .inl (.inl ⟨d, hr⟩)
  · rw [client_of_clients rfl o] at hx
    split_ifs at hx with hoc
    · subst hoc
      exact .inl (.inr ⟨o, x, by rw [client_of_some hk]; exact hpend.subset hx, rfl⟩)
    · exact .inl (.inr ⟨o, x, hx, rfl⟩)

/-- A step of a client keeps the places apart. -/
theorem Exclusive.client_step (h : Exclusive s) (hsound : Sound s)
    (hapart : ∀ c, Apart s c (s.client c)) (hk : s.clients[c]? = some k)
    (hgap : IdsApart s (.client c a)) (hres : Client.StepResult k s.requests.length a k' sent) :
    Exclusive { s with
      clients := s.clients.insert c { k' with outbound := k'.outbound ++ sent }
      requests := s.requests ++ requestsOf c sent
      answers := s.answers ++ answersOf c sent } := by
  have hkc := client_of_some hk
  have hchange := hres.transactionChange
  set s' : System := { s with
    clients := s.clients.insert c { k' with outbound := k'.outbound ++ sent }
    requests := s.requests ++ requestsOf c sent
    answers := s.answers ++ answersOf c sent }
  have hcl : ∀ d, s'.client d =
      if d = c then { k' with outbound := k'.outbound ++ sent } else s.client d :=
    client_of_clients rfl
  have hsub : ∀ d, (System.arriving (s'.client d)).Sublist (System.arriving (s.client d)) := by
    intro d
    rw [hcl]
    split_ifs with hdc
    · rw [hdc, hkc]
      exact show (System.arriving k').Sublist _ from arriving_of_change hchange
    · exact .refl _
  -- the number of a new request is not that of a response
  have hold : ∀ {d r}, r ∈ System.arriving (s.client d) ∨ Stored (s.client d) r →
      ¬ Underway s r → ¬ Underway s' r := by
    intro d r hr hnot hund
    rcases underway_of_client hsound hk hres hund with hund | rfl
    · exact hnot hund
    · obtain ⟨x, hx⟩ : ∃ x, s.requests[s.requests.length]? = some x := by
        rcases hr with hr | hr
        · obtain ⟨p, -, hp, hresp⟩ := responded_of_mem_arriving (hapart d) hr
          obtain ⟨q, hq, -⟩ := hresp.request
          exact ⟨_, hp ▸ hq⟩
        · obtain ⟨t, m, -, hm, hresp⟩ := hr.responded (hapart d)
          obtain ⟨q, hq, -⟩ := hresp.request
          exact ⟨_, hm ▸ hq⟩
      simp at hx
  -- what is newly stored has just been taken from the queue
  have hstored : ∀ {d r}, Stored (s'.client d) r →
      Stored (s.client d) r ∨ System.arriving (s.client d) = r :: System.arriving (s'.client d) := by
    intro d r hr
    rw [hcl] at hr ⊢
    split_ifs at hr ⊢ with hdc
    · subst hdc
      rw [hkc]
      rcases stored_of_change hchange hr with hr | ⟨p, hin, rfl, hx, rfl⟩
      · exact .inl hr
      · have hresp := responded_of_read (hkc ▸ hapart d) hin hx fun p hp hcall => by
          have := hgap p (hkc ▸ hp) hcall
          rwa [hkc] at this
        refine .inr ?_
        simp [System.arriving, hin, hresp.isServerInitiated]
    · exact .inl hr
  refine ⟨fun d => (hsub d).nodup (h.arriving_nodup d), fun {d r} hr => ?_, fun {d r} hr => ?_⟩
  · have hr' := (hsub d).subset hr
    obtain ⟨hund, hst⟩ := h.arriving hr'
    refine ⟨hold (.inl hr') hund, fun hst' => ?_⟩
    rcases hstored hst' with hst' | heq
    · exact hst hst'
    · have := h.arriving_nodup d
      rw [heq, List.nodup_cons] at this
      exact this.1 hr
  · rcases hstored hr with hr | heq
    · exact hold (.inr hr) (h.stored hr)
    · have hr' : r ∈ System.arriving (s.client d) := heq ▸ List.mem_cons_self
      exact hold (.inl hr') (h.arriving hr').1

end Client

/-! ## Steps of the server -/

section Serve

variable {p : Packet} {outbound : List Packet} {server : ProtocolHandler} {o : List Output}

/-- A message that the server handles is that of a request that is under way. -/
theorem underway_of_outbound (hsound : Sound s) (hk : s.clients[c]? = some k)
    (hp : p ∈ k.outbound) : Underway s p.tag := by
  rcases hsound.outbound hk hp with ⟨hreq, -⟩ | hrep
  · refine .inl ⟨c, List.mem_filterMap.mpr ⟨p, by rwa [client_of_some hk], ?_⟩⟩
    rw [if_pos hreq]
  · refine .inr ⟨c, (p.tag, p.message.transactionId), ?_, rfl⟩
    rw [client_of_some hk]
    refine List.mem_append_right _ (List.mem_filterMap.mpr ⟨p, hp, ?_⟩)
    rw [rpcReply, if_pos hrep]

/-- What is under way after the server has handled a message was before. -/
theorem underway_of_serve (hsound : Sound s) (hk : s.clients[c]? = some k)
    (hout : k.outbound = p :: outbound)
    (h : Underway (afterServe s c k p outbound server o) r) : Underway s r := by
  rcases h with ⟨d, hr⟩ | ⟨d, x, hx, rfl⟩
  · exact .inl ⟨d, (requestTags_afterServe hk hout d).subset hr⟩
  obtain ⟨ms, -, hcl⟩ := exists_client_afterServe hk p outbound server o d
  rw [hcl] at hx
  simp only [pendings, List.filterMap_append, List.mem_append] at hx
  rcases hx with (hx | hx) | hx
  · exact .inr ⟨d, x, List.mem_append_left _ hx, rfl⟩
  · -- the message that is handled leads to an `RpcRequest`
    obtain ⟨q, hq, hqx⟩ := List.mem_filterMap.mp hx
    obtain ⟨m, -, rfl⟩ := List.mem_map.mp hq
    unfold rpcCall at hqx
    split at hqx
    · cases hqx
      exact underway_of_outbound hsound hk (hout ▸ List.mem_cons_self)
    · cases hqx
  · obtain ⟨q, hq, hqx⟩ := List.mem_filterMap.mp hx
    refine .inr ⟨d, x, List.mem_append_right _ (List.mem_filterMap.mpr ⟨q, ?_, hqx⟩), rfl⟩
    split_ifs at hq with hdc
    · rw [hdc, client_of_some hk, hout]
      exact List.mem_cons_of_mem p hq
    · exact hq

/-- Once the server has sent the response to a request, the request is not under way any more. -/
theorem not_underway_of_response (hsound : Sound s) (hcorr : Correlated s)
    (hk : s.clients[c]? = some k) (hout : k.outbound = p :: outbound)
    (hres : Server.StepResult s.server (.message c p.message) server o)
    (hcorr' : Correlated (afterServe s c k p outbound server o)) {m : PropertyTreeMessage}
    (hm : .send d m ∈ o) (hresp : m.message.isServerInitiated = false) :
    ¬ Underway (afterServe s c k p outbound server o) p.tag := by
  obtain ⟨tag, t, q⟩ := p
  have hchange := hres.rpcChange
  generalize he : Event.message c ⟨t, q⟩ = e at hchange
  cases hchange with
  | forward c' t' uuid param sid owner hc ho =>
    obtain ⟨-, rfl⟩ : d = owner ∧ m = ⟨s.server.mTrIdCtr.toUInt16, .rpcRequest uuid param⟩ := by
      simpa using hm
    cases hresp
  | reply c' t' m' translation hm' ht =>
    cases he
    have hmine : (tag, t) ∈ pendings (s.client c) := by
      simp [client_of_some hk, pendings, hout, rpcReply, hm']
    set s' := afterServe s c k ⟨tag, t, q⟩ outbound (s.server.takeTranslation t)
      (send ⟨translation.2, q⟩ ((s.server.mSessions[translation.1]?).bind
        Session.connectionSession)) with hs'
    have hforwarded : tag ∈ s'.forwarded.map Forwarded.number :=
      List.mem_map.mpr ⟨_, List.mem_append_left _ (hcorr.translated hmine).forwarded, rfl⟩
    have hdelivered : tag ∈ s'.delivered.map Prod.fst := by
      refine List.mem_map.mpr ⟨(tag, d, m), List.mem_append_right _ ?_, rfl⟩
      rw [deliveredBy, if_pos hm']
      exact List.mem_filterMap.mpr ⟨_, hm, rfl⟩
    rintro (⟨e, hr⟩ | ⟨e, x, hx, hxr⟩)
    · exact hcorr'.requests_new hr hforwarded
    · exact (hcorr'.translated hx).undelivered (hxr ▸ hdelivered)
  | unknown => cases hm
  | other e s' o hno htable hresp' =>
    subst he
    have hreq : q.isRequest = true ∧ s.requests[tag]? = some (c, ⟨t, q⟩) := by
      rcases hsound.outbound hk (hout ▸ List.mem_cons_self) with hreq | hrep
      · exact hreq
      · rw [hno c t q rfl] at hrep
        cases hrep
    have hnodup := hcorr.requests_nodup c
    simp only [client_of_some hk, requestTags, hout, hreq.1, List.filterMap_cons, if_true,
      List.nodup_cons] at hnodup
    have hhead : tag ∈ requestTags (s.client c) := by
      simp [client_of_some hk, requestTags, hout, hreq.1]
    have hcall : ∀ d m, Output.send d m ∈ o → rpcCall ⟨tag, m⟩ = none := by
      rintro d ⟨t', m'⟩ hm'
      rcases hresp' _ hm' with hn | ⟨q', -, -, hn⟩ <;> cases m' <;> first | rfl | cases hn
    rintro (⟨e, hr⟩ | ⟨e, x, hx, hxr⟩)
    · by_cases hec : e = c
      · subst hec
        obtain ⟨ms, -, hcl⟩ := exists_client_afterServe hk ⟨tag, t, q⟩ outbound server o e
        rw [hcl] at hr
        simp only [requestTags, if_true] at hr
        exact hnodup.1 hr
      · obtain ⟨m', hm'⟩ := lt_of_mem_requestTags hsound ((requestTags_afterServe hk hout e).subset hr)
        rw [hreq.2, Option.some.injEq, Prod.mk.injEq] at hm'
        exact hec hm'.1.symm
    · have hx' := (pendings_afterServe hk hout hcall e).subset hx
      exact hcorr.requests_new hhead (List.mem_map.mpr ⟨_, (hcorr.translated hx').forwarded, hxr⟩)

/-- At most one of the messages the server sends is a response. -/
theorem responses_sublist (hres : Server.StepResult s.server (.message c p.message) server o)
    {ms : List PropertyTreeMessage} (hms : ms.Sublist (sentTo d o)) :
    ((ms.map (Packet.mk p.tag)).filterMap fun p =>
      if p.message.message.isServerInitiated then none else some p.tag).Sublist [p.tag] := by
  rw [List.filterMap_map]
  refine ((hms.filterMap _)).trans ?_
  cases o with
  | nil => exact List.nil_sublist _
  | cons x rest =>
    have hrest : ∀ m ∈ sentTo d rest, m.message.isServerInitiated = true := by
      intro m hm
      exact isServerInitiated_of_isNotification (hres.isNotice_of_mem_tail _ (mem_sentTo hm)).2
    have hnil : ((sentTo d rest).filterMap fun m =>
        if m.message.isServerInitiated then none else some p.tag) = [] := by
      rw [List.filterMap_eq_nil_iff]
      intro m hm
      rw [if_pos (hrest m hm)]
    have hsplit : sentTo d (x :: rest) = sentTo d [x] ++ sentTo d rest :=
      @List.filterMap_append _ _ [x] rest _
    change ((sentTo d (x :: rest)).filterMap fun m =>
      if m.message.isServerInitiated then none else some p.tag).Sublist [p.tag]
    rw [hsplit, List.filterMap_append, hnil, List.append_nil]
    cases x with
    | terminate => exact List.nil_sublist _
    | send e m =>
      by_cases hed : e = d <;> by_cases hm : m.message.isServerInitiated <;>
        simp [sentTo, hed, hm]

/-- The handling of a message keeps the places apart. -/
theorem Exclusive.serve (h : Exclusive s) (hsound : Sound s) (hcorr : Correlated s)
    (hk : s.clients[c]? = some k) (hout : k.outbound = p :: outbound)
    (hres : Server.StepResult s.server (.message c p.message) server o)
    (hcorr' : Correlated (afterServe s c k p outbound server o)) :
    Exclusive (afterServe s c k p outbound server o) := by
  have hunder := underway_of_outbound hsound hk (hout ▸ List.mem_cons_self)
  have hmono : ∀ {r}, ¬ Underway s r → ¬ Underway (afterServe s c k p outbound server o) r :=
    fun hn hu => hn (underway_of_serve hsound hk hout hu)
  have hcl : ∀ d, ∃ l, l.Sublist [p.tag] ∧
      System.arriving ((afterServe s c k p outbound server o).client d) =
        System.arriving (s.client d) ++ l ∧
      (∀ r ∈ l, ¬ Underway (afterServe s c k p outbound server o) r) ∧
      ((afterServe s c k p outbound server o).client d).mTransactions =
        (s.client d).mTransactions := by
    intro d
    obtain ⟨ms, hms, hcl⟩ := exists_client_afterServe hk p outbound server o d
    refine ⟨_, responses_sublist hres hms, ?_, fun r hr => ?_, by rw [hcl]⟩
    · rw [hcl]
      simp [System.arriving, List.filterMap_append]
    · obtain ⟨q, hq, hqr⟩ := List.mem_filterMap.mp hr
      obtain ⟨m, hm, rfl⟩ := List.mem_map.mp hq
      split_ifs at hqr with hserver
      cases hqr
      exact not_underway_of_response hsound hcorr hk hout hres hcorr'
        (mem_sentTo (hms.subset hm)) (by simpa using hserver)
  refine ⟨fun d => ?_, fun {d r} hr => ?_, fun {d r} hr => ?_⟩
  · obtain ⟨l, hl, harr, -, -⟩ := hcl d
    rw [harr, List.nodup_append]
    refine ⟨h.arriving_nodup d, hl.nodup (List.nodup_singleton _), ?_⟩
    rintro r hr r' hr' rfl
    obtain rfl := List.mem_singleton.mp (hl.subset hr')
    exact (h.arriving hr).1 hunder
  · obtain ⟨l, hl, harr, hnew, htrans⟩ := hcl d
    rw [harr, List.mem_append] at hr
    simp only [Stored, htrans]
    rcases hr with hr | hr
    · exact ⟨hmono (h.arriving hr).1, (h.arriving hr).2⟩
    · refine ⟨hnew r hr, fun hst => ?_⟩
      obtain rfl := List.mem_singleton.mp (hl.subset hr)
      exact h.stored hst hunder
  · obtain ⟨l, -, -, -, htrans⟩ := hcl d
    simp only [Stored, htrans] at hr
    exact hmono (h.stored hr)

end Serve

/-! ## The runs -/

/-- Systems whose clients have the same inbound queues and transactions, and no more requests under
way. -/
theorem Exclusive.of_le (h : Exclusive s)
    (harr : ∀ c, System.arriving (s'.client c) = System.arriving (s.client c))
    (htrans : ∀ c, (s'.client c).mTransactions = (s.client c).mTransactions)
    (hund : ∀ {r}, Underway s' r → Underway s r) : Exclusive s' := by
  have hstored : ∀ {c r}, Stored (s'.client c) r ↔ Stored (s.client c) r := by
    intro c r
    simp only [Stored, htrans]
  refine ⟨fun c => harr c ▸ h.arriving_nodup c, fun {c r} hr => ?_, fun {c r} hr => ?_⟩
  · rw [harr] at hr
    exact ⟨fun hu => (h.arriving hr).1 (hund hu), fun hs => (h.arriving hr).2 (hstored.mp hs)⟩
  · exact fun hu => h.stored (hstored.mp hr) (hund hu)

/-- Nothing comes under way by the end of a connection. -/
theorem underway_of_disconnect (hk : s.clients[c]? = some k)
    (h : s'.clients = s.clients.insert c { k with outbound := [] }) {r : ℕ} (hu : Underway s' r) :
    Underway s r := by
  have hcl := client_disconnect hk h
  rcases hu with ⟨d, hr⟩ | ⟨d, x, hx, hxr⟩
  · rw [hcl] at hr
    simp only [requestTags] at hr
    split_ifs at hr
    · cases hr
    · exact .inl ⟨d, hr⟩
  · rw [hcl] at hx
    simp only [pendings, List.mem_append] at hx
    refine .inr ⟨d, x, List.mem_append.mpr (hx.imp_right fun hx => ?_), hxr⟩
    split_ifs at hx
    · cases hx
    · exact hx

/-- A step keeps the places apart. -/
theorem Exclusive.step (h : Exclusive s) (hsound : Sound s) (hcorr : Correlated s)
    (hapart : ∀ c, Apart s c (s.client c)) (hcorr' : Correlated s') (hgap : IdsApart s act)
    (hstep : StepResult s act s') : Exclusive s' := by
  cases hstep with
  | connect c hc =>
    have hcl := client_connect hc
    refine h.of_le (fun d => by rw [hcl]) (fun d => by rw [hcl]) fun {r} hr => ?_
    simpa only [Underway, hcl] using hr
  | client c a k k' sent hk hopen hres => exact h.client_step hsound hapart hk hgap hres
  | serve c k p outbound server o hk hout ht hok =>
    exact h.serve hsound hcorr hk hout (Server.step_cases hok) hcorr'
  | disconnect c k server o hk hclosed hok =>
    set s' : System := { s with
      server := server
      clients := s.clients.insert c { k with outbound := [] }
      log := s.log ++ [(.disconnect c, o)] }
    have hcl : ∀ d, s'.client d = { s.client d with
        outbound := if d = c then [] else (s.client d).outbound } := client_disconnect hk rfl
    refine h.of_le (fun d => ?_) (fun d => ?_) (underway_of_disconnect hk rfl)
    · rw [hcl]
      rfl
    · rw [hcl]

/-- No request is in two places in the runs whose steps meet the conditions. -/
theorem exclusive_of_run {C : System → System.Action → Prop}
    (hC : ∀ {s a}, C s a → Undisturbed s a) {as : List System.Action}
    (h : Run (Guarded C Step) .init as s) : Exclusive s := by
  generalize hinit : System.init = s₀ at h
  induction h with
  | nil =>
    subst hinit
    have hnew : ∀ c, System.init.client c = .new := fun c => by simp [client, init]
    refine ⟨fun c => ?_, fun {c r} hr => ?_, fun {c r} hr => ?_⟩
    · rw [hnew]
      exact List.nodup_nil
    · rw [hnew] at hr
      cases hr
    · obtain ⟨t, m, hm, -⟩ := hr
      simp [hnew, Client.new] at hm
  | snoc run step ih =>
    subst hinit
    have hcorr : ∀ {s a}, C s a → FewSignins s a ∧ KeyUnused s a := fun h => (hC h).1
    exact ih.step (sound_of_run run.of_guarded) (correlated_of_run hcorr run)
      (apart_of_run hC run) (correlated_of_run hcorr (run.snoc step)) (hC step.1).2
      (step_cases step.2)

end PropertyTree.System
