import PropertyTree.System.Timeouts

/-!
# The correlation of remote procedure calls

An RPC is pending at its owner from the moment the server forwards it until the server handles the
reply: as an `RpcRequest` in the owner's inbound queue, or as a reply in its outbound queue.  While
no key is given out again that is still pending, the translation table holds the entry of every
pending RPC, and every reply reaches the caller it belongs to.  But an entry is removed by a reply only:
while one owner keeps an RPC unanswered, 65536 further ones bring its key round again, and the entry is
overwritten.
-/

namespace PropertyTree.System

open Library Server Client PropertyTreeMessages

variable {s s' : System} {act : System.Action} {c d o : Conn} {k k' : Client} {r : ℕ} {key : UInt16}

/-! ## Conditions -/

/-- The next message of the connection `c`. -/
def next (s : System) (c : Conn) : Option Packet :=
  (s.clients[c]?).bind fun k => k.outbound.head?

/-- There are fewer than `2 ^ 32` sign-ins, so that no session id is given out twice. -/
def FewSignins (s : System) : System.Action → Prop
  | .serve c => ∀ p ∈ s.next c, isSignin (.message c p.message) = true → signins s.log + 1 < 2 ^ 32
  | _ => True

/-- The number and the key of a forwarded `RpcRequest`. -/
def rpcCall (p : Packet) : Option (ℕ × UInt16) :=
  match p.message.message with
  | .rpcRequest _ _ => some (p.tag, p.message.transactionId)
  | _ => none

/-- The number and the key of a reply. -/
def rpcReply (p : Packet) : Option (ℕ × UInt16) :=
  if p.message.message.isRpcReply then some (p.tag, p.message.transactionId) else none

/-- The RPCs that are pending at the owner `k`. -/
def pendings (k : Client) : List (ℕ × UInt16) :=
  k.inbound.filterMap rpcCall ++ k.outbound.filterMap rpcReply

/-- Whether an RPC is pending somewhere under the key. -/
def keyPending (s : System) (key : UInt16) : Bool :=
  s.clients.toList.any fun e => (pendings e.2).any fun x => x.2 == key

/-- The key the server is about to give to an RPC of the connection `c`. -/
def nextKey (s : System) (c : Conn) : Option UInt16 :=
  match s.next c with
  | some ⟨_, _, .rpcRequest uuid _⟩ =>
    if (s.server.ownerConnection uuid).isSome then some s.server.mTrIdCtr.toUInt16 else none
  | _ => none

/-- The key that the server is about to give to an RPC is not pending. -/
def KeyUnused (s : System) : System.Action → Prop
  | .serve c => ∀ key ∈ s.nextKey c, s.keyPending key = false
  | _ => True

instance (s : System) (a : System.Action) : Decidable (FewSignins s a) :=
  match a with
  | .serve c => inferInstanceAs (Decidable (∀ p ∈ s.next c,
      isSignin (.message c p.message) = true → signins s.log + 1 < 2 ^ 32))
  | .connect _ | .client _ _ | .disconnect _ => .isTrue trivial

instance (s : System) (a : System.Action) : Decidable (KeyUnused s a) :=
  match a with
  | .serve c => Option.decidableForallMem (p := fun key => s.keyPending key = false) (s.nextKey c)
  | .connect _ | .client _ _ | .disconnect _ => .isTrue trivial

/-- A pending key is one of some client. -/
theorem keyPending_eq_false (h : s.keyPending key = false) {x : ℕ × UInt16}
    (hx : x ∈ pendings (s.client c)) : x.2 ≠ key := by
  rintro rfl
  cases hk : s.clients[c]? with
  | none =>
    rw [client, hk] at hx
    cases hx
  | some k =>
    rw [client_of_some hk] at hx
    have hmem := Std.ExtTreeMap.mem_toList_iff_getElem?_eq_some.mpr hk
    simp only [keyPending, List.any_eq_false, List.any_eq_true, not_exists, not_and,
      beq_iff_eq] at h
    exact h _ hmem x hx rfl

/-! ## The property -/

/-- The RPC number `r` is pending under the key `key`: the translation leads back to the session and
the transaction id of its request. -/
def Entered (s : System) (r : ℕ) (key : UInt16) : Prop :=
  ∃ d t uuid param sid, s.requests[r]? = some (d, ⟨t, .rpcRequest uuid param⟩) ∧
    s.server.mTrIdTranslation[key]? = some (sid, t) ∧
    (s.server.mSessions[sid]? = some ⟨some d⟩ ∨ s.server.mSessions[sid]? = some ⟨none⟩)

/-- The reply `m` that the server has forwarded to `d` under the id `t` is the one its owner gave to
the RPC number `r`, which `d` has sent under that id. -/
def Answered (s : System) (r : ℕ) (d : Conn) (t : UInt16) (m : PropertyTreeMessages) : Prop :=
  ∃ uuid param key o, s.requests[r]? = some (d, ⟨t, .rpcRequest uuid param⟩) ∧
    ⟨r, key, some o⟩ ∈ s.forwarded ∧ (r, o, m) ∈ s.answers

/-- Every forwarded reply answers the request it is taken for, no RPC has got two of them, and the
translation of every pending RPC is in place. -/
structure RpcCorrelation (s : System) : Prop where
  answered : ∀ {r d t m}, (r, d, ⟨t, m⟩) ∈ s.delivered → Answered s r d t m
  once : (s.delivered.map Prod.fst).Nodup
  kept : ∀ {o r key}, (r, key) ∈ pendings (s.client o) → Entered s r key

/-! ## The invariant -/

/-- The numbers of the requests a client has sent and the server has not handled yet. -/
def requestTags (k : Client) : List ℕ :=
  k.outbound.filterMap fun p => if p.message.message.isRequest then some p.tag else none

/-- The RPC number `r` is pending at the owner `o` under the key `key`. -/
structure Translated (s : System) (r : ℕ) (key : UInt16) (o : Conn) : Prop where
  forwarded : ⟨r, key, some o⟩ ∈ s.forwarded
  undelivered : r ∉ s.delivered.map Prod.fst
  entered : Entered s r key

/-- What holds in a run in which no key is given out that is still pending. -/
structure Correlated (s : System) : Prop where
  translated : ∀ {o x}, x ∈ pendings (s.client o) → Translated s x.1 x.2 o
  replied : ∀ {o p}, p ∈ (s.client o).outbound → p.message.message.isRpcReply = true →
    (p.tag, o, p.message.message) ∈ s.answers
  keys_nodup : ∀ o, ((pendings (s.client o)).map Prod.snd).Nodup
  keys_disjoint : ∀ {o o' x x'}, x ∈ pendings (s.client o) → x' ∈ pendings (s.client o') →
    x.2 = x'.2 → o = o'
  requests_nodup : ∀ c, (requestTags (s.client c)).Nodup
  requests_new : ∀ {c r}, r ∈ requestTags (s.client c) → r ∉ s.forwarded.map Forwarded.number
  forwarded_nodup : (s.forwarded.map Forwarded.number).Nodup
  forwarded_lt : ∀ r ∈ s.forwarded.map Forwarded.number, r < s.requests.length
  delivered_nodup : (s.delivered.map Prod.fst).Nodup
  delivered_forwarded : s.delivered.map Prod.fst ⊆ s.forwarded.map Forwarded.number
  answered : ∀ {r d t m}, (r, d, ⟨t, m⟩) ∈ s.delivered → Answered s r d t m

/-- The correlation of RPCs follows from the invariant. -/
theorem Correlated.rpcCorrelation (h : Correlated s) : RpcCorrelation s :=
  ⟨h.answered, h.delivered_nodup, fun hx => (h.translated hx).entered⟩

/-- What is in order while nothing is forwarded: the queues hold no new pending RPC, and the requests
they hold are the old ones and at most one new one. -/
structure Shrinks (s s' : System) : Prop where
  pendings : ∀ o, (pendings (s'.client o)).Subperm (pendings (s.client o))
  requests : ∀ c, (requestTags (s'.client c)).Sublist (requestTags (s.client c)) ∨
    requestTags (s'.client c) = requestTags (s.client c) ++ [s.requests.length]

/-- A number that is on record among the requests is smaller than the next one. -/
theorem lt_of_mem_requestTags (hs : Sound s) {r : ℕ} (hr : r ∈ requestTags (s.client c)) :
    ∃ m, s.requests[r]? = some (c, m) := by
  obtain ⟨p, hp, hpr⟩ := List.mem_filterMap.mp hr
  split_ifs at hpr with hq
  cases hpr
  cases hk : s.clients[c]? with
  | none =>
    rw [client, hk] at hp
    cases hp
  | some k =>
    rw [client_of_some hk] at hp
    rcases hs.outbound hk hp with ⟨-, hreq⟩ | hrep
    · exact ⟨_, hreq⟩
    · rw [isRequest_of_isRpcReply hrep] at hq
      cases hq

/-- While nothing is forwarded the keys stay distinct and the requests new. -/
theorem Correlated.of_shrinks (h : Correlated s) (hsound : Sound s) (hq : Shrinks s s')
    (hf : s'.forwarded = s.forwarded) (hlen : s.requests.length ≤ s'.requests.length)
    (htranslated : ∀ {o x}, x ∈ System.pendings (s'.client o) → Translated s' x.1 x.2 o)
    (hreplied : ∀ {o p}, p ∈ (s'.client o).outbound → p.message.message.isRpcReply = true →
      (p.tag, o, p.message.message) ∈ s'.answers)
    (hnodup : (s'.delivered.map Prod.fst).Nodup)
    (hdel : s'.delivered.map Prod.fst ⊆ s'.forwarded.map Forwarded.number)
    (hans : ∀ {r d t m}, (r, d, ⟨t, m⟩) ∈ s'.delivered → Answered s' r d t m) : Correlated s' where
  translated := htranslated
  replied := hreplied
  keys_nodup := by
    intro o
    obtain ⟨l, hperm, hsub⟩ := hq.pendings o
    exact (hperm.map _).nodup_iff.mp ((hsub.map _).nodup (h.keys_nodup o))
  keys_disjoint hx hx' heq := h.keys_disjoint ((hq.pendings _).subset hx) ((hq.pendings _).subset hx') heq
  requests_nodup := by
    intro c
    rcases hq.requests c with hsub | happ
    · exact hsub.nodup (h.requests_nodup c)
    · rw [happ, List.nodup_append]
      refine ⟨h.requests_nodup c, List.nodup_singleton _, ?_⟩
      rintro r hr _ hr' rfl
      obtain ⟨m, hm⟩ := lt_of_mem_requestTags hsound hr
      rw [List.mem_singleton.mp hr'] at hm
      simp at hm
  requests_new := by
    intro c r hr
    rw [hf]
    rcases hq.requests c with hsub | happ
    · exact h.requests_new (hsub.subset hr)
    · rw [happ, List.mem_append] at hr
      rcases hr with hr | hr
      · exact h.requests_new hr
      · obtain rfl := List.mem_singleton.mp hr
        exact fun hmem => lt_irrefl _ (h.forwarded_lt _ hmem)
  forwarded_nodup := hf ▸ h.forwarded_nodup
  forwarded_lt := fun r hr => lt_of_lt_of_le (h.forwarded_lt r (hf ▸ hr)) hlen
  delivered_nodup := hnodup
  delivered_forwarded := hdel
  answered := hans

/-! ## The steps -/

/-- A session that holds a connection keeps it, or loses it for good. -/
theorem session_stable {s s' : ProtocolHandler} {e : Event} (h : SessionChange s e s')
    {sid : UInt32} (hs : s.mSessions[sid]? = some ⟨some d⟩ ∨ s.mSessions[sid]? = some ⟨none⟩) :
    s'.mSessions[sid]? = some ⟨some d⟩ ∨ s'.mSessions[sid]? = some ⟨none⟩ := by
  cases h with
  | signin c t spare =>
    simp only [ProtocolHandler.signin]
    grind
  | signout c sid' session hc hs' =>
    simp only [ProtocolHandler.signout, ProtocolHandler.drop]
    grind
  | unchanged _ _ _ hs' _ _ => rwa [hs']

/-- The entry of an RPC stays while its key is not touched. -/
theorem Entered.mono (h : Entered s r key)
    (hr : ∀ {x}, s.requests[r]? = some x → s'.requests[r]? = some x)
    (ht : s'.server.mTrIdTranslation[key]? = s.server.mTrIdTranslation[key]?)
    (hs : ∀ {sid : UInt32} {d : Conn}, s.server.mSessions[sid]? = some ⟨some d⟩ ∨
      s.server.mSessions[sid]? = some ⟨none⟩ → s'.server.mSessions[sid]? = some ⟨some d⟩ ∨
      s'.server.mSessions[sid]? = some ⟨none⟩) : Entered s' r key := by
  obtain ⟨d, t, uuid, param, sid, hreq, htr, hses⟩ := h
  exact ⟨d, t, uuid, param, sid, hr hreq, ht.trans htr, hs hses⟩

/-- What the server sends is no pending RPC, unless it forwards one. -/
theorem filterMap_rpcCall_eq_nil {tag : ℕ} {ms : List PropertyTreeMessage}
    (h : ∀ m ∈ ms, rpcCall ⟨tag, m⟩ = none) : (ms.map (Packet.mk tag)).filterMap rpcCall = [] := by
  rw [List.filterMap_eq_nil_iff]
  intro p hp
  obtain ⟨m, hm, rfl⟩ := List.mem_map.mp hp
  exact h m hm

/-- The queues of a client after its step. -/
theorem shrinks_of_queueChange {number : ℕ} {sent : List Packet}
    (h : QueueChange number k k' sent) (hout : k'.outbound = k.outbound) :
    (pendings { k' with outbound := k'.outbound ++ sent }).Subperm (pendings k) ∧
      (requestTags { k' with outbound := k'.outbound ++ sent } = requestTags k ∨
        requestTags { k' with outbound := k'.outbound ++ sent } = requestTags k ++ [number]) := by
  simp only [pendings, requestTags, hout, List.filterMap_append]
  cases h with
  | silent hin => simp [hin, List.Subperm.refl]
  | request t q hin hq =>
    have hrep : q.isRpcReply = false := by
      cases hrep : q.isRpcReply with
      | false => rfl
      | true => rw [isRequest_of_isRpcReply hrep] at hq; cases hq
    simp [hin, hq, rpcReply, hrep, List.Subperm.refl]
  | taken p hin =>
    refine ⟨?_, .inl (by simp)⟩
    rw [hin, List.filterMap_nil, List.append_nil]
    exact (((List.sublist_cons_self p _).filterMap _).append (.refl _)).subperm
  | reply tag key uuid param m hm hin =>
    refine ⟨?_, .inl (by simp [isRequest_of_isRpcReply hm])⟩
    rw [hin]
    refine List.Perm.subperm ?_
    simp only [rpcCall, rpcReply, hm, if_true, List.filterMap_cons, List.filterMap_nil,
      List.cons_append, ← List.append_assoc]
    exact List.perm_append_singleton (tag, key) _

/-- The construction of a client keeps the invariant. -/
theorem Correlated.connect (h : Correlated s) (hsound : Sound s) (hc : s.clients[c]? = none) :
    Correlated { s with clients := s.clients.insert c .new } := by
  have hcl := client_connect hc
  refine h.of_shrinks hsound ⟨fun o => ?_, fun c => ?_⟩ rfl le_rfl ?_ ?_ h.delivered_nodup
    h.delivered_forwarded h.answered
  · rw [hcl]
  · exact .inl (hcl c ▸ .refl _)
  · intro o x hx
    rw [hcl] at hx
    have := h.translated hx
    exact ⟨this.forwarded, this.undelivered, this.entered⟩
  · intro o p hp hr
    rw [hcl] at hp
    exact h.replied hp hr

/-- A step of a client keeps the invariant. -/
theorem Correlated.client_step (h : Correlated s) (hsound : Sound s) {a : Client.Action}
    {sent : List Packet} (hk : s.clients[c]? = some k)
    (hres : Client.StepResult k s.requests.length a k' sent) : Correlated { s with
      clients := s.clients.insert c { k' with outbound := k'.outbound ++ sent }
      requests := s.requests ++ requestsOf c sent
      answers := s.answers ++ answersOf c sent } := by
  obtain ⟨hq, hout⟩ := queueChange_of_stepResult hres (hsound.threads hk)
  obtain ⟨hpend, hreq⟩ := shrinks_of_queueChange hq hout
  have hkc := client_of_some hk
  set s' : System := { s with
    clients := s.clients.insert c { k' with outbound := k'.outbound ++ sent }
    requests := s.requests ++ requestsOf c sent
    answers := s.answers ++ answersOf c sent } with hs'
  have hcl : ∀ d, s'.client d =
      if d = c then { k' with outbound := k'.outbound ++ sent } else s.client d := by
    intro d
    simp only [client, hs', getElem?_clients_insert]
    split_ifs <;> rfl
  have hshrinks : Shrinks s s' := by
    refine ⟨fun d => ?_, fun d => ?_⟩ <;> rw [hcl] <;> split_ifs with hdc
    · rw [hdc, hkc]
      exact hpend
    · exact List.Subperm.refl _
    · rw [hdc, hkc]
      exact hreq.imp_left fun heq => by rw [heq]
    · exact .inl (.refl _)
  have hanswered : ∀ {r d t m}, Answered s r d t m → Answered s' r d t m := by
    rintro r d t m ⟨uuid, param, key, o, hr, hf, ha⟩
    exact ⟨uuid, param, key, o, getElem?_append_of_some hr _, hf, List.mem_append_left _ ha⟩
  refine h.of_shrinks hsound hshrinks rfl (by simp [hs']) ?_ ?_ h.delivered_nodup
    h.delivered_forwarded fun hx => hanswered (h.answered hx)
  · intro o x hx
    have := h.translated ((hshrinks.pendings o).subset hx)
    exact ⟨this.forwarded, this.undelivered, this.entered.mono
      (fun hr => getElem?_append_of_some hr _) rfl id⟩
  · intro o p hp hr
    rw [hcl] at hp
    split_ifs at hp with hoc
    · subst hoc
      simp only [hout, List.mem_append] at hp
      rcases hp with hp | hp
      · exact List.mem_append_left _ (h.replied (hkc ▸ hp) hr)
      · refine List.mem_append_right _ (List.mem_filterMap.mpr ⟨p, hp, ?_⟩)
        rw [if_pos hr]
    · exact List.mem_append_left _ (h.replied hp hr)

/-- The end of a connection keeps the invariant. -/
theorem Correlated.disconnect (h : Correlated s) (hsound : Sound s) {server : ProtocolHandler}
    {o : List Output} (hk : s.clients[c]? = some k)
    (hok : s.server.step (.disconnect c) = .ok (server, o)) : Correlated { s with
      server := server
      clients := s.clients.insert c { k with outbound := [] }
      log := s.log ++ [(.disconnect c, o)] } := by
  have hkc := client_of_some hk
  set s' : System := { s with
    server := server
    clients := s.clients.insert c { k with outbound := [] }
    log := s.log ++ [(.disconnect c, o)] } with hs'
  have hcl : ∀ d, s'.client d = if d = c then { k with outbound := [] } else s.client d := by
    intro d
    simp only [client, hs', getElem?_clients_insert]
    split_ifs <;> rfl
  have hres := Server.step_cases hok
  have htable : server.mTrIdTranslation = s.server.mTrIdTranslation := by
    cases hres <;> rfl
  have hshrinks : Shrinks s s' := by
    refine ⟨fun d => ?_, fun d => ?_⟩ <;> rw [hcl] <;> split_ifs with hdc
    · rw [hdc, hkc]
      simp only [pendings, List.filterMap_nil, List.append_nil]
      exact (List.sublist_append_left _ _).subperm
    · exact List.Subperm.refl _
    · exact .inl (by simp [requestTags])
    · exact .inl (.refl _)
  refine h.of_shrinks hsound hshrinks rfl le_rfl ?_ ?_ h.delivered_nodup h.delivered_forwarded
    h.answered
  · intro d x hx
    have := h.translated ((hshrinks.pendings d).subset hx)
    exact ⟨this.forwarded, this.undelivered, this.entered.mono id (by rw [htable])
      (session_stable hres.sessionChange)⟩
  · intro d p hp hr
    rw [hcl] at hp
    split_ifs at hp with hdc
    · cases hp
    · exact h.replied hp hr

/-! ## The handling of a message -/

/-- What the server forwards, when no output is an `RpcRequest`. -/
theorem forwardedBy_eq_nil {server : ProtocolHandler} {tag : ℕ} {o : List Output}
    (h : ∀ d m, Output.send d m ∈ o → rpcCall ⟨tag, m⟩ = none) :
    forwardedBy server tag o = [] := by
  rw [forwardedBy, List.filterMap_eq_nil_iff]
  intro x hx
  match x, hx with
  | .terminate, _ => rfl
  | .send d ⟨key, m⟩, hx =>
    have := h d _ hx
    cases m with
    | rpcRequest => cases this
    | _ => rfl

section Serve

variable {p : Packet} {outbound : List Packet} {server : ProtocolHandler} {out : List Output}

/-- The clients after the server has handled a message. -/
theorem exists_client_afterServe (hk : s.clients[c]? = some k) (p : Packet)
    (outbound : List Packet) (server : ProtocolHandler) (out : List Output) (d : Conn) :
    ∃ ms : List PropertyTreeMessage, ms.Sublist (sentTo d out) ∧
      (afterServe s c k p outbound server out).client d = { s.client d with
        inbound := (s.client d).inbound ++ ms.map (⟨p.tag, ·⟩)
        outbound := if d = c then outbound else (s.client d).outbound } :=
  exists_client_receive hk outbound p.tag out d

/-- The requests the server still has to handle. -/
theorem requestTags_afterServe (hk : s.clients[c]? = some k) (hout : k.outbound = p :: outbound)
    (d : Conn) : (requestTags ((afterServe s c k p outbound server out).client d)).Sublist
      (requestTags (s.client d)) := by
  obtain ⟨ms, -, hcl⟩ := exists_client_afterServe hk p outbound server out d
  rw [hcl]
  simp only [requestTags]
  split_ifs with hdc
  · rw [hdc, client_of_some hk, hout]
    exact (List.sublist_cons_self p outbound).filterMap _
  · exact .refl _

/-- A message that is left in an outbound queue was there before. -/
theorem mem_outbound_afterServe (hk : s.clients[c]? = some k) (hout : k.outbound = p :: outbound)
    {q : Packet} (hq : q ∈ ((afterServe s c k p outbound server out).client d).outbound) :
    q ∈ (s.client d).outbound := by
  obtain ⟨ms, -, hcl⟩ := exists_client_afterServe hk p outbound server out d
  rw [hcl] at hq
  simp only at hq
  split_ifs at hq with hdc
  · rw [hdc, client_of_some hk, hout]
    exact List.mem_cons_of_mem p hq
  · exact hq

/-- The RPCs that are pending afterwards, if the server forwards none. -/
theorem pendings_afterServe (hk : s.clients[c]? = some k) (hout : k.outbound = p :: outbound)
    (hcall : ∀ d m, Output.send d m ∈ out → rpcCall ⟨p.tag, m⟩ = none) (d : Conn) :
    (pendings ((afterServe s c k p outbound server out).client d)).Sublist
      (pendings (s.client d)) := by
  obtain ⟨ms, hms, hcl⟩ := exists_client_afterServe hk p outbound server out d
  rw [hcl]
  simp only [pendings, List.filterMap_append,
    filterMap_rpcCall_eq_nil fun m hm => hcall d m (mem_sentTo (hms.subset hm)), List.append_nil]
  refine (List.Sublist.refl _).append ?_
  split_ifs with hdc
  · rw [hdc, client_of_some hk, hout]
    exact (List.sublist_cons_self p outbound).filterMap _
  · exact .refl _

/-- The server forwards an RPC. -/
theorem Correlated.forward (h : Correlated s) (hsound : Sound s) (hfresh : SessionsFresh s.server)
    {tag : ℕ} {t : UInt16} {uuid : UInt64} {param : Buffer} {sid : UInt32} {owner : Conn}
    (hk : s.clients[c]? = some k) (hout : k.outbound = ⟨tag, t, .rpcRequest uuid param⟩ :: outbound)
    (hc : s.server.mConnectionToSessionId[c]? = some sid)
    (ho : s.server.ownerConnection uuid = some owner)
    (hkey : s.keyPending s.server.mTrIdCtr.toUInt16 = false) :
    Correlated (afterServe s c k ⟨tag, t, .rpcRequest uuid param⟩ outbound
      (s.server.forwardRpc sid t)
      [.send owner ⟨s.server.mTrIdCtr.toUInt16, .rpcRequest uuid param⟩]) := by
  set key := s.server.mTrIdCtr.toUInt16
  set p : Packet := ⟨tag, t, .rpcRequest uuid param⟩ with hp
  set s' := afterServe s c k p outbound (s.server.forwardRpc sid t)
    [.send owner ⟨key, .rpcRequest uuid param⟩] with hs'
  have hf : s'.forwarded = s.forwarded ++ [⟨tag, key, some owner⟩] := by
    simp [hs', afterServe, forwardedBy, hp, ho]
  have hd : s'.delivered = s.delivered := by
    simp [hs', afterServe, deliveredBy, hp, isRpcReply]
  have hmap : s'.forwarded.map Forwarded.number = s.forwarded.map Forwarded.number ++ [tag] := by
    simp [hf]
  -- the request that is forwarded
  have hhead : tag ∈ requestTags (s.client c) := by
    rw [client_of_some hk]
    simp [requestTags, hout, hp, isRequest]
  have hnew : tag ∉ s.forwarded.map Forwarded.number := h.requests_new hhead
  have hreq : s.requests[tag]? = some (c, ⟨t, .rpcRequest uuid param⟩) := by
    rcases hsound.outbound hk (hout ▸ List.mem_cons_self) with ⟨-, hreq⟩ | hr
    · exact hreq
    · cases hr
  have htable : ∀ key' : UInt16, s'.server.mTrIdTranslation[key']? =
      if key' = key then some (sid, t) else s.server.mTrIdTranslation[key']? := by
    intro key'
    simp only [hs', afterServe, ProtocolHandler.forwardRpc]
    grind
  -- the only new pending RPC is the forwarded one, at its owner
  have hpend : ∀ d, (pendings (s'.client d)).Subperm ((tag, key) :: pendings (s.client d)) ∧
      (d ≠ owner → (pendings (s'.client d)).Sublist (pendings (s.client d))) := by
    intro d
    obtain ⟨ms, hms, hcl⟩ := exists_client_afterServe hk p outbound
      (s.server.forwardRpc sid t) [.send owner ⟨key, .rpcRequest uuid param⟩] d
    have htail : ((if d = c then outbound else (s.client d).outbound).filterMap rpcReply).Sublist
        ((s.client d).outbound.filterMap rpcReply) := by
      split_ifs with hdc
      · rw [hdc, client_of_some hk, hout]
        exact (List.sublist_cons_self _ outbound).filterMap _
      · exact .refl _
    rw [hcl]
    simp only [pendings, List.filterMap_append, List.append_assoc]
    by_cases hdo : d = owner
    · refine ⟨?_, fun hne => absurd hdo hne⟩
      have hcalls : ((ms.map (Packet.mk p.tag)).filterMap rpcCall).Sublist [(tag, key)] := by
        have := (hms.map (Packet.mk p.tag)).filterMap rpcCall
        simpa [sentTo, hdo, rpcCall, hp] using this
      exact ((List.Sublist.refl _).append (hcalls.append htail)).subperm.trans
        List.perm_middle.subperm
    · have hnil : ms = [] := by
        have hsent : sentTo d [.send owner ⟨key, .rpcRequest uuid param⟩] = [] := by
          simp [sentTo, Ne.symm hdo]
        exact List.sublist_nil.mp (hsent ▸ hms)
      have hsub := (List.Sublist.refl ((s.client d).inbound.filterMap rpcCall)).append htail
      simp only [hnil, List.map_nil, List.filterMap_nil, List.nil_append]
      exact ⟨hsub.subperm.trans (List.sublist_cons_self _ _).subperm, fun _ => hsub⟩
  have hmem : ∀ {d x}, x ∈ pendings (s'.client d) →
      x ∈ pendings (s.client d) ∨ d = owner ∧ x = (tag, key) := by
    intro d x hx
    by_cases hdo : d = owner
    · exact (List.mem_cons.mp ((hpend d).1.subset hx)).symm.imp id fun hx => ⟨hdo, hx⟩
    · exact .inl (((hpend d).2 hdo).subset hx)
  have hold : ∀ {d x}, x ∈ pendings (s.client d) → x.2 ≠ key := keyPending_eq_false hkey
  refine ⟨?_, ?_, ?_, ?_, ?_, ?_, ?_, ?_, ?_, ?_, ?_⟩
  · intro d x hx
    rcases hmem hx with hx | ⟨rfl, rfl⟩
    · have := h.translated hx
      refine ⟨hf ▸ List.mem_append_left _ this.forwarded, hd ▸ this.undelivered,
        this.entered.mono id ?_ id⟩
      rw [htable, if_neg (hold hx)]
    · refine ⟨hf ▸ List.mem_append_right _ List.mem_cons_self,
        fun hdel => hnew (h.delivered_forwarded (hd ▸ hdel)), c, t, uuid, param, sid, hreq, ?_,
        .inl (hfresh.holds hc)⟩
      rw [htable, if_pos rfl]
  · intro d q hq hr
    exact h.replied (mem_outbound_afterServe hk hout hq) hr
  · intro d
    obtain ⟨l, hperm, hsub⟩ := (hpend d).1
    refine (hperm.map _).nodup_iff.mp ((hsub.map _).nodup ?_)
    rw [List.map_cons, List.nodup_cons]
    refine ⟨fun hmem => ?_, h.keys_nodup d⟩
    obtain ⟨x, hx, hxk⟩ := List.mem_map.mp hmem
    exact hold hx hxk
  · intro d d' x x' hx hx' heq
    rcases hmem hx with hold₁ | ⟨hd₁, hx₁⟩ <;> rcases hmem hx' with hold₂ | ⟨hd₂, hx₂⟩
    · exact h.keys_disjoint hold₁ hold₂ heq
    · exact absurd (heq.trans (congrArg Prod.snd hx₂)) (hold hold₁)
    · exact absurd (heq.symm.trans (congrArg Prod.snd hx₁)) (hold hold₂)
    · exact hd₁.trans hd₂.symm
  · exact fun d => (requestTags_afterServe hk hout d).nodup (h.requests_nodup d)
  · intro d r hr
    have hr' := (requestTags_afterServe hk hout d).subset hr
    rw [hmap, List.mem_append, List.mem_singleton, not_or]
    refine ⟨h.requests_new hr', ?_⟩
    rintro rfl
    obtain ⟨m, hm⟩ := lt_of_mem_requestTags hsound hr'
    rw [hreq, Option.some.injEq, Prod.mk.injEq] at hm
    obtain ⟨rfl, -⟩ := hm
    -- the handled request is not among the remaining ones of its client
    have hnodup := h.requests_nodup c
    obtain ⟨ms, -, hcl⟩ := exists_client_afterServe hk p outbound
      (s.server.forwardRpc sid t) [.send owner ⟨key, .rpcRequest uuid param⟩] c
    rw [hcl] at hr
    rw [client_of_some hk] at hnodup
    simp only [requestTags, if_true] at hr
    simp only [requestTags, hout, hp, isRequest, List.filterMap_cons, if_true,
      List.nodup_cons] at hnodup
    exact hnodup.1 hr
  · rw [hmap, List.nodup_append]
    refine ⟨h.forwarded_nodup, List.nodup_singleton _, ?_⟩
    rintro r hr r' hr' rfl
    exact hnew (List.mem_singleton.mp hr' ▸ hr)
  · intro r hr
    rw [hmap, List.mem_append, List.mem_singleton] at hr
    rcases hr with hr | rfl
    · exact h.forwarded_lt r hr
    · exact (List.getElem?_eq_some_iff.mp hreq).1
  · exact hd ▸ h.delivered_nodup
  · rw [hd, hmap]
    exact fun r hr => List.mem_append_left _ (h.delivered_forwarded hr)
  · intro r d t m hx
    rw [hd] at hx
    obtain ⟨uuid, param, key, o, hreq, hfw, ha⟩ := h.answered hx
    exact ⟨uuid, param, key, o, hreq, hf ▸ List.mem_append_left _ hfw, ha⟩

/-- The server forwards a reply, or drops it because its caller is gone. -/
theorem Correlated.reply (h : Correlated s) (hsound : Sound s)
    {tag : ℕ} {t : UInt16} {m : PropertyTreeMessages} {translation : UInt32 × UInt16}
    (hk : s.clients[c]? = some k) (hout : k.outbound = ⟨tag, t, m⟩ :: outbound)
    (hm : m.isRpcReply = true) (ht : s.server.mTrIdTranslation[t]? = some translation) :
    Correlated (afterServe s c k ⟨tag, t, m⟩ outbound (s.server.takeTranslation t)
      (send ⟨translation.2, m⟩
        ((s.server.mSessions[translation.1]?).bind Session.connectionSession))) := by
  set p : Packet := ⟨tag, t, m⟩ with hp
  set caller := (s.server.mSessions[translation.1]?).bind Session.connectionSession
  set s' := afterServe s c k p outbound (s.server.takeTranslation t)
    (send ⟨translation.2, m⟩ caller) with hs'
  have hkc := client_of_some hk
  have hrep : p ∈ (s.client c).outbound := by
    rw [hkc, hout]
    exact List.mem_cons_self
  have hpending : pendings (s.client c) =
      k.inbound.filterMap rpcCall ++ (tag, t) :: outbound.filterMap rpcReply := by
    simp [hkc, pendings, hout, hp, rpcReply, hm]
  have hmine : (tag, t) ∈ pendings (s.client c) := by simp [hpending]
  have htr := h.translated hmine
  obtain ⟨d, t₀, uuid, param, sid, hreq, hentry, hses⟩ := htr.entered
  simp only [ht, Option.some.injEq] at hentry
  subst hentry
  have hcaller : caller = some d ∨ caller = none := by
    rcases hses with hses | hses
    · exact .inl (by simp [caller, hses])
    · exact .inr (by simp [caller, hses])
  have hcall : ∀ d' m', Output.send d' m' ∈ send ⟨t₀, m⟩ caller → rpcCall ⟨p.tag, m'⟩ = none := by
    intro d' m' hm'
    have hno : rpcCall ⟨p.tag, ⟨t₀, m⟩⟩ = none := by
      cases m <;> first | rfl | cases hm
    rcases hcaller with hcaller | hcaller <;> rw [hcaller] at hm'
    · obtain ⟨-, rfl⟩ : d' = d ∧ m' = ⟨t₀, m⟩ := by simpa using hm'
      exact hno
    · cases hm'
  have hf : s'.forwarded = s.forwarded := by
    simp [hs', afterServe, forwardedBy_eq_nil hcall]
  have hdel : s'.delivered = s.delivered ∨ s'.delivered = s.delivered ++ [(tag, d, ⟨t₀, m⟩)] := by
    rcases hcaller with hcaller | hcaller
    · exact .inr (by simp [hs', afterServe, deliveredBy, hp, hm, hcaller])
    · exact .inl (by simp [hs', afterServe, deliveredBy, hcaller])
  have htable : ∀ key' : UInt16, s'.server.mTrIdTranslation[key']? =
      if key' = t then none else s.server.mTrIdTranslation[key']? := by
    intro key'
    simp only [hs', afterServe, ProtocolHandler.takeTranslation]
    grind
  -- nothing else is pending under the key, nor under the number
  have hsub : ∀ d, (pendings (s'.client d)).Sublist (pendings (s.client d)) :=
    pendings_afterServe hk hout hcall
  have hkey : ∀ {d x}, x ∈ pendings (s'.client d) → x.2 ≠ t := by
    intro d' x hx hxt
    obtain rfl := h.keys_disjoint ((hsub d').subset hx) hmine hxt
    have hnodup := h.keys_nodup d'
    obtain ⟨ms, hms, hcl⟩ := exists_client_afterServe hk p outbound
      (s.server.takeTranslation t) (send ⟨t₀, m⟩ caller) d'
    rw [hcl, hkc] at hx
    simp only [pendings, List.filterMap_append, if_true,
      filterMap_rpcCall_eq_nil fun m' hm' => hcall d' m' (mem_sentTo (hms.subset hm')),
      List.append_nil] at hx
    rw [hpending, List.map_append, List.map_cons, List.nodup_middle, List.nodup_cons,
      ← List.map_append] at hnodup
    exact hnodup.1 (List.mem_map.mpr ⟨x, hx, hxt⟩)
  have htag : ∀ {d x}, x ∈ pendings (s'.client d) → x.1 ≠ tag := by
    intro d' x hx hxt
    have hfx := (h.translated ((hsub d').subset hx)).forwarded
    have := List.inj_on_of_nodup_map h.forwarded_nodup hfx htr.forwarded hxt
    exact hkey hx (congrArg Forwarded.key this)
  have hanswered : Answered s' tag d t₀ m := by
    exact ⟨uuid, param, t, c, hreq, hf ▸ htr.forwarded, h.replied hrep hm⟩
  refine h.of_shrinks hsound ⟨fun d => (hsub d).subperm,
    fun d => .inl (requestTags_afterServe hk hout d)⟩ hf le_rfl ?_ ?_ ?_ ?_ ?_
  · intro d' x hx
    have := h.translated ((hsub d').subset hx)
    refine ⟨hf ▸ this.forwarded, ?_, this.entered.mono id ?_ id⟩
    · rcases hdel with hdel | hdel <;> rw [hdel]
      · exact this.undelivered
      · simp only [List.map_append, List.map_cons, List.map_nil, List.mem_append,
          List.mem_singleton, not_or]
        exact ⟨this.undelivered, htag hx⟩
    · rw [htable, if_neg (hkey hx)]
  · intro d' q hq hr
    exact h.replied (mem_outbound_afterServe hk hout hq) hr
  · rcases hdel with hdel | hdel <;> rw [hdel]
    · exact h.delivered_nodup
    · rw [List.map_append, List.nodup_append]
      refine ⟨h.delivered_nodup, List.nodup_singleton _, ?_⟩
      rintro r hr r' hr' rfl
      exact htr.undelivered (List.mem_singleton.mp hr' ▸ hr)
  · rw [hf]
    rcases hdel with hdel | hdel <;> rw [hdel]
    · exact h.delivered_forwarded
    · rw [List.map_append]
      refine List.append_subset.mpr ⟨h.delivered_forwarded, fun r hr => ?_⟩
      obtain rfl := List.mem_singleton.mp hr
      exact List.mem_map.mpr ⟨_, htr.forwarded, rfl⟩
  · intro r d' t' m' hx
    have hor : (r, d', (⟨t', m'⟩ : PropertyTreeMessage)) ∈ s.delivered ∨
        (r, d', (⟨t', m'⟩ : PropertyTreeMessage)) = (tag, d, ⟨t₀, m⟩) := by
      rcases hdel with hdel | hdel <;> rw [hdel] at hx
      · exact .inl hx
      · exact (List.mem_append.mp hx).imp_right List.mem_singleton.mp
    rcases hor with hx | heq
    · obtain ⟨uuid, param, key, o, hreq, hfw, ha⟩ := h.answered hx
      exact ⟨uuid, param, key, o, hreq, hf ▸ hfw, ha⟩
    · cases heq
      exact hanswered

/-- The server handles any other message. -/
theorem Correlated.other (h : Correlated s) (hsound : Sound s) (hk : s.clients[c]? = some k)
    (hout : k.outbound = p :: outbound) (hp : p.message.message.isRpcReply = false)
    (ht : server.mTrIdTranslation = s.server.mTrIdTranslation)
    (hses : SessionChange s.server (.message c p.message) server)
    (ho : ∀ x ∈ out, Responds (.message c p.message) x) :
    Correlated (afterServe s c k p outbound server out) := by
  have hcall : ∀ d m, Output.send d m ∈ out → rpcCall ⟨p.tag, m⟩ = none := by
    rintro d ⟨t, m⟩ hm
    rcases ho _ hm with hn | ⟨q, -, -, hn⟩
    · cases m <;> first | rfl | cases hn
    · cases m <;> first | rfl | cases hn
  have hf : (afterServe s c k p outbound server out).forwarded = s.forwarded := by
    simp [afterServe, forwardedBy_eq_nil hcall]
  have hd : (afterServe s c k p outbound server out).delivered = s.delivered := by
    simp [afterServe, deliveredBy, hp]
  refine h.of_shrinks hsound ⟨fun d => (pendings_afterServe hk hout hcall d).subperm,
    fun d => .inl (requestTags_afterServe hk hout d)⟩ hf le_rfl ?_ ?_ (hd ▸ h.delivered_nodup)
    (hd ▸ hf ▸ h.delivered_forwarded) ?_
  · intro d x hx
    have := h.translated ((pendings_afterServe hk hout hcall d).subset hx)
    exact ⟨hf ▸ this.forwarded, hd ▸ this.undelivered, this.entered.mono id
      (congrArg (fun m : Std.ExtTreeMap UInt16 (UInt32 × UInt16) => m[x.2]?) ht)
      (session_stable hses)⟩
  · intro d q hq hr
    exact h.replied (mem_outbound_afterServe hk hout hq) hr
  · intro r d t m hx
    rw [hd] at hx
    obtain ⟨uuid, param, key, o, hreq, hfw, ha⟩ := h.answered hx
    exact ⟨uuid, param, key, o, hreq, hf ▸ hfw, ha⟩

end Serve

/-! ## The runs -/

/-- In a run with few sign-ins no session id is used twice. -/
theorem signins_of_run {C : System → System.Action → Prop} (hC : ∀ {s a}, C s a → FewSignins s a)
    {as : List System.Action} (h : Run (Guarded C Step) .init as s) : signins s.log < 2 ^ 32 := by
  refine h.invariant (P := fun s => signins s.log < 2 ^ 32) ?_ (by decide)
  intro t a u ih hstep
  have hfew := hC hstep.1
  cases step_cases hstep.2 with
  | connect => exact ih
  | client => exact ih
  | serve c k p outbound server o hk hout ht hok =>
    have hnext : t.next c = some p := by simp [next, hk, hout]
    rw [signins_concat]
    split_ifs with hsign
    · exact hfew p hnext hsign
    · exact ih
  | disconnect c k server o hk hclosed hok =>
    rw [signins_concat]
    exact ih

/-- The invariant holds before the first client. -/
theorem correlated_init : Correlated .init := by
  have hcl : ∀ c, System.init.client c = .new := fun c => by simp [client, init]
  have hpend : ∀ c, pendings (System.init.client c) = [] := fun c => by rw [hcl]; rfl
  have htags : ∀ c, requestTags (System.init.client c) = [] := fun c => by rw [hcl]; rfl
  refine ⟨fun {o x} hx => ?_, fun {o p} hp _ => ?_, fun o => ?_, fun {o o' x x'} hx => ?_,
    fun c => ?_, fun {c r} hr => ?_, ?_, ?_, ?_, ?_, fun {r d t m} hx => ?_⟩
  · rw [hpend] at hx
    cases hx
  · rw [hcl] at hp
    cases hp
  · rw [hpend]
    exact List.nodup_nil
  · rw [hpend] at hx
    cases hx
  · rw [htags]
    exact List.nodup_nil
  · rw [htags] at hr
    cases hr
  · exact List.nodup_nil
  · simp [init]
  · exact List.nodup_nil
  · simp [init]
  · cases hx

/-- A step that gives out no pending key keeps the invariant. -/
theorem Correlated.step (h : Correlated s) (hsound : Sound s) (hfresh : SessionsFresh s.server)
    {a : System.Action} (hkey : KeyUnused s a) (hstep : StepResult s a s') : Correlated s' := by
  cases hstep with
  | connect c hc => exact h.connect hsound hc
  | client c a k k' sent hk hopen hres => exact h.client_step hsound hk hres
  | disconnect c k server o hk hclosed hok => exact h.disconnect hsound hk hok
  | serve c k p outbound server o hk hout ht hok =>
    have hres := Server.step_cases hok
    have hses := hres.sessionChange
    obtain ⟨tag, t, m⟩ := p
    have hchange := hres.rpcChange
    generalize he : Event.message c ⟨t, m⟩ = e at hchange
    cases hchange with
    | forward c' t' uuid param sid owner hc ho =>
      cases he
      refine h.forward hsound hfresh hk hout hc ho (hkey _ ?_)
      simp [nextKey, next, hk, hout, ho]
    | reply c' t' m' translation hm htr =>
      cases he
      exact h.reply hsound hk hout hm htr
    | unknown c' t' m' hm htr =>
      cases he
      have hpend : (tag, t) ∈ pendings (s.client c) := by
        simp [client_of_some hk, pendings, hout, rpcReply, hm]
      obtain ⟨d, t₀, uuid, param, sid, hreq, hentry, hses⟩ := (h.translated hpend).entered
      simp only [htr] at hentry
      cases hentry
    | other e s' o hno htable hresp =>
      subst he
      exact h.other hsound hk hout (hno c t m rfl) htable hses hresp

/-- The invariant holds in the runs whose steps meet both conditions. -/
theorem correlated_of_run {C : System → System.Action → Prop}
    (hC : ∀ {s a}, C s a → FewSignins s a ∧ KeyUnused s a) {as : List System.Action}
    (h : Run (Guarded C Step) .init as s) : Correlated s := by
  generalize hinit : System.init = s₀ at h
  induction h with
  | nil =>
    subst hinit
    exact correlated_init
  | @snoc t u es a run step ih =>
    subst hinit
    have hrun := run.of_guarded
    have hfresh := sessionsFresh_of_run (log_of_run hrun) (signins_of_run (fun h => (hC h).1) run)
    exact ih.step (sound_of_run hrun) hfresh (hC step.1).2 (step_cases step.2)

/-- While no session id is used twice and no key is given out that is still pending, every forwarded
reply is the reply of the addressed node's owner to the request that its receiver has sent under the
id it carries, every RPC gets at most one, and no entry is overwritten whose reply can still arrive. -/
theorem rpcCorrelation_of_run {as : List System.Action}
    (h : Run (Guarded (fun s a => FewSignins s a ∧ KeyUnused s a) Step) .init as s) :
    RpcCorrelation s :=
  (correlated_of_run (fun h => h) h).rpcCorrelation

/-- A client that calls its own node and gets the reply. -/
theorem rpcCorrelation_call :
    ∃ as s, Run (Guarded (fun s a => FewSignins s a ∧ KeyUnused s a) Step) .init as s ∧
      s.delivered.length = 1 ∧ RpcCorrelation s := by
  obtain ⟨s, hs, hdel⟩ := (Option.any_eq_true _ _).mp (show (follow System.step
      (fun s a => decide (FewSignins s a ∧ KeyUnused s a)) .init
      (signinActions 1 ++ askActions 1 (.create 0 [97]) ++ [.client 1 .read, .client 1 .read] ++
        takeActions 1 ++ askActions 1 (.call 1 []) ++ [.client 1 .read, .serve 1])).any
      (fun s => s.delivered.length == 1) = true by decide +kernel)
  have hrun := (run_of_follow System.step hs).mono fun s a t hst =>
    (⟨of_decide_eq_true hst.1, hst.2⟩ :
      Guarded (fun s a => FewSignins s a ∧ KeyUnused s a) Step s a t)
  exact ⟨_, s, hrun, beq_iff_eq.mp hdel, rpcCorrelation_of_run hrun⟩

/-! ## Keys that come round again -/

section KeyReuse

variable {n : ℕ}

/-- A client creates a node and calls it; the call, which is RPC number 2, ends by its timeout. -/
def unansweredActions : List System.Action :=
  signinActions 1 ++ askActions 1 (.create 0 [97]) ++ [.client 1 .read, .client 1 .read] ++
    takeActions 1 ++ askActions 1 (.call 1 []) ++ [.client 1 (.timeout 0)]

/-- The `n`-th further call; the id `0xFFFF` is drawn in the one number 65532. -/
def furtherActions (n : ℕ) : List System.Action :=
  timeoutActions 1 (.call 1 []) (n == 65532) ++ [.serve 1]

/-- RPC number 2 is still pending under the key 0 after `n` further calls. -/
structure Overdue (s : System) (n : ℕ) : Prop where
  client : ∃ k node, s.clients[(1 : Conn)]? = some k ∧ Unanswered k ∧
    k.mirror.heap[(1 : Addr)]? = some node ∧ node.uuid = 1 ∧ k.outbound = [] ∧
    (2, 0) ∈ pendings k ∧ k.mTransactioIdCtr.toNat = (n + if n ≤ 65532 then 3 else 4) % 65536
  terminated : s.terminated = false
  session : ∃ sid, s.server.mConnectionToSessionId[(1 : Conn)]? = some sid
  owner : s.server.ownerConnection 1 = some 1
  mTrIdCtr : s.server.mTrIdCtr.toNat = n + 1
  request : s.requests[2]? = some (1, ⟨2, .rpcRequest 1 []⟩)

/-- The server forwards an RPC. -/
theorem step_rpcRequest {server : ProtocolHandler} {c o : Conn} {t : UInt16} {uuid : UInt64} {param : Buffer}
    {sid : UInt32} (hsid : server.mConnectionToSessionId[c]? = some sid)
    (howner : server.ownerConnection uuid = some o) :
    server.step (.message c ⟨t, .rpcRequest uuid param⟩) = .ok (server.forwardRpc sid t,
      [.send o ⟨server.mTrIdCtr.toUInt16, .rpcRequest uuid param⟩]) := by
  unfold ProtocolHandler.ownerConnection at howner
  split at howner
  · cases howner
  rename_i node hnode
  obtain ⟨a, ha, hn⟩ := Option.bind_eq_some_iff.mp hnode
  obtain ⟨session, hs, ho⟩ := Option.bind_eq_some_iff.mp howner
  simp [ProtocolHandler.step, ProtocolHandler.handle, ProtocolHandler.handleRpcRequest, ha, hsid, hn,
    hs, ho]

/-- Such a run starts after the first call. -/
theorem overdue_zero : ∃ s, Run Step .init unansweredActions s ∧ Overdue s 0 := by
  obtain ⟨s, hs, hc, ht, hsid, howner, hctr, hreq⟩ :
      ∃ s, follow System.step (fun _ _ => true) .init unansweredActions = some s ∧
        (s.clients[(1 : Conn)]?.any fun k => decide (k.status = .running) &&
          (k.threads[(0 : ThreadId)]?).isNone &&
          (k.mTransactions.toList.all fun x => !x.2.satisfied) &&
          (k.mirror.heap[(1 : Addr)]?.any fun node => node.uuid == 1) &&
          decide (k.outbound = []) && decide ((2, 0) ∈ pendings k) &&
          decide (k.mTransactioIdCtr.toNat = 3)) ∧
        s.terminated = false ∧ (s.server.mConnectionToSessionId[(1 : Conn)]?).isSome = true ∧
        s.server.ownerConnection 1 = some 1 ∧ s.server.mTrIdCtr.toNat = 1 ∧
        s.requests[2]? = some (1, ⟨2, .rpcRequest 1 []⟩) :=
    ⟨_, rfl, by decide, by decide, by decide, by decide, by decide, by decide⟩
  obtain ⟨k, hk, hall⟩ := (Option.any_eq_true _ _).mp hc
  simp only [Bool.and_eq_true, decide_eq_true_eq, List.all_eq_true, Option.isNone_iff_eq_none,
    Bool.not_eq_true'] at hall
  obtain ⟨⟨⟨⟨⟨⟨hr, hi⟩, hu⟩, hn⟩, hout⟩, hp⟩, hid⟩ := hall
  obtain ⟨node, hnode, huuid⟩ := (Option.any_eq_true _ _).mp hn
  refine ⟨s, (run_of_follow System.step hs).of_guarded, ⟨k, node, hk, ⟨hr, hi, ?_⟩, hnode,
    by simpa using huuid, hout, hp, hid⟩, ht, Option.isSome_iff_exists.mp hsid, howner, hctr, hreq⟩
  intro t response hx
  have := hu _ (Std.ExtTreeMap.mem_toList_iff_getElem?_eq_some.mpr hx)
  cases this

/-- One further call, and the entry it makes. -/
theorem Overdue.further (h : Overdue s n) (hn : n < 65536) :
    ∃ s', Run Step s (furtherActions n) s' ∧ Overdue s' (n + 1) ∧ ∃ sid t,
      s'.server.mTrIdTranslation[s.server.mTrIdCtr.toUInt16]? = some (sid, t) ∧
      t.toNat = (n + if n < 65532 then 3 else 4) % 65536 := by
  obtain ⟨⟨k, node, hk, hun, hnode, huuid, hout, hpend, hid⟩, ht, ⟨sid, hsid⟩, howner, hctr, hreq⟩ := h
  obtain ⟨s₁, k₁, hrun, h₁⟩ := exists_run_timeout (.call 1 []) hk hun nofun nofun rfl hnode
  have hskip : k.mTransactioIdCtr = notificationId ↔ n = 65532 := by
    rw [← UInt16.toNat_inj, hid]
    simp only [notificationId, UInt16.reduceToNat]
    split_ifs <;> omega
  have hnext : (nextId k).toNat = (n + if n < 65532 then 3 else 4) % 65536 := by
    simp only [nextId, hskip]
    split_ifs <;> simp only [UInt16.toNat_add, hid, UInt16.reduceToNat] <;> split_ifs <;> omega
  rw [show decide (k.mTransactioIdCtr = notificationId) = (n == 65532) by
    simp only [hskip, Bool.beq_eq_decide_eq]] at hrun
  simp only [ApiCall.request, huuid] at h₁
  have hout₁ : k₁.outbound = [⟨s.requests.length, nextId k, .rpcRequest 1 []⟩] := by
    rw [h₁.outbound, hout, List.nil_append]
  have hserve := step_of_serve h₁.clients hout₁ (h₁.terminated.trans ht)
    (h₁.server ▸ step_rpcRequest hsid howner)
  rw [h₁.server] at hserve
  set o : List Output := [.send 1 ⟨s.server.mTrIdCtr.toUInt16, .rpcRequest 1 []⟩] with ho
  refine ⟨_, hrun.snoc hserve, ⟨⟨receive s.requests.length o 1 { k₁ with outbound := [] }, node, ?_,
    ⟨h₁.unanswered.running, h₁.unanswered.idle, h₁.unanswered.unsatisfied⟩, h₁.mirror ▸ hnode,
    huuid, rfl, ?_, ?_⟩, by simp [afterServe, ho], ⟨sid, hsid⟩, howner, ?_, ?_⟩, sid, nextId k, ?_, hnext⟩
  · simp [afterServe]
  · simp only [pendings, hout, List.filterMap_nil, List.append_nil] at hpend
    simp [pendings, receive, h₁.inbound, hpend]
  · simp only [receive, h₁.mTransactioIdCtr, UInt16.toNat_add, hnext, UInt16.reduceToNat]
    split_ifs <;> omega
  · simp only [afterServe, ProtocolHandler.forwardRpc, UInt32.toNat_add, hctr, UInt32.reduceToNat]
    omega
  · simp only [afterServe, h₁.requests]
    exact getElem?_append_of_some hreq _
  · simp [afterServe, ProtocolHandler.forwardRpc]

/-- Any number of further calls, as long as the key has not come round. -/
theorem overdue_of_le (hn : n ≤ 65536) :
    ∃ s, Run Step .init (unansweredActions ++ (List.range n).flatMap furtherActions) s ∧
      Overdue s n := by
  induction n with
  | zero => simpa using overdue_zero
  | succ n ih =>
    obtain ⟨s, hrun, h⟩ := ih (Nat.le_of_succ_le hn)
    obtain ⟨s', hrun', h', -⟩ := h.further hn
    refine ⟨s', ?_, h'⟩
    rw [List.range_succ, List.flatMap_append, ← List.append_assoc]
    simpa using hrun.append hrun'

/-- The RPC whose reply can still arrive has lost its entry: the one under its key is that of the
last call, which its client has sent under another id. -/
theorem not_rpcCorrelation_keyReuse :
    ∃ s, Run Step .init (unansweredActions ++ (List.range 65536).flatMap furtherActions) s ∧
      ¬ RpcCorrelation s := by
  obtain ⟨s, hrun, h⟩ := overdue_of_le (n := 65535) (by decide)
  obtain ⟨s', hrun', h', sid, t, hentry, ht⟩ := h.further (by decide)
  refine ⟨s', ?_, fun hcorr => ?_⟩
  · rw [show List.range 65536 = List.range 65535 ++ [65535] from List.range_succ,
      List.flatMap_append, ← List.append_assoc]
    simpa using hrun.append hrun'
  · obtain ⟨k, node, hk, -, -, -, -, hpend, -⟩ := h'.client
    obtain ⟨d, t₀, uuid, param, sid₀, hreq, hentry₀, -⟩ :=
      hcorr.kept (o := 1) (by rw [client_of_some hk]; exact hpend)
    have hkey : s.server.mTrIdCtr.toUInt16 = 0 := by
      rw [← UInt16.toNat_inj, UInt32.toNat_toUInt16, h.mTrIdCtr]
      rfl
    rw [hkey, hentry₀] at hentry
    rw [h'.request] at hreq
    cases hentry
    cases hreq
    cases ht

end KeyReuse

end PropertyTree.System
