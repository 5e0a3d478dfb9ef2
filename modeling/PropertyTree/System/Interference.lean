import PropertyTree.System.Rounds
import PropertyTree.System.Replies

/-!
# Clients that do not disturb each other

The rounds of create and destroy, from a state in which every client is idle.  Whatever the order of the
steps, every call ends as it should, and can always be brought to its end: by steps of its client and of
the server alone, since no call of another client is waited for.
-/

namespace PropertyTree.System

open Library Server Client

variable {s₀ s s' : System} {act : System.Action} {c d : Conn} {k k' : Client} {P u : UInt64} {name : Name}
  {t : UInt16} {plan : Plan} {as bs : List System.Action}

/-! ## The server -/

/-- The server answers the request of `c` with `m` and tells everyone of one change. -/
structure Announces (server server' : ProtocolHandler) (o : List Output) (c : Conn) (t : UInt16)
    (m : PropertyTreeMessages) (add : List NamedNode) (del : List UInt64) : Prop where
  connections : server'.mConnectionToSessionId = server.mConnectionToSessionId
  output : ∃ rest, o = .send c ⟨t, m⟩ :: rest ∧
    ∀ x ∈ rest, ∃ d, x = .send d ⟨notificationId, .treeUpdateNotification add del⟩

section Announces

variable {server server' : ProtocolHandler} {o : List Output} {m : PropertyTreeMessages}
  {add : List NamedNode} {del : List UInt64}

/-- What a notification tells, as it arrives. -/
theorem eq_notice_of_mem {rest : List Output}
    (hrest : ∀ x ∈ rest, ∃ d, x = .send d ⟨notificationId, .treeUpdateNotification add del⟩) :
    ∀ x ∈ sentTo d rest, x = ⟨notificationId, .treeUpdateNotification add del⟩ := by
  intro x hx
  obtain ⟨d', heq⟩ := hrest _ (mem_sentTo hx)
  cases heq
  rfl

/-- The sender is sent the answer and then notifications. -/
theorem Announces.sentTo_self (h : Announces server server' o c t m add del) :
    ∃ l, sentTo c o = ⟨t, m⟩ :: l ∧
      ∀ x ∈ l, x = ⟨notificationId, .treeUpdateNotification add del⟩ := by
  obtain ⟨-, rest, rfl, hrest⟩ := h
  exact ⟨sentTo c rest, by simp [sentTo], eq_notice_of_mem hrest⟩

/-- The others are sent notifications. -/
theorem Announces.sentTo_other (h : Announces server server' o c t m add del) (hdc : d ≠ c) :
    ∀ x ∈ sentTo d o, x = ⟨notificationId, .treeUpdateNotification add del⟩ := by
  obtain ⟨-, rest, rfl, hrest⟩ := h
  have heq : sentTo d (.send c ⟨t, m⟩ :: rest) = sentTo d rest := by simp [sentTo, Ne.symm hdc]
  rw [heq]
  exact eq_notice_of_mem hrest

/-- The server goes on. -/
theorem Announces.not_terminated (h : Announces server server' o c t m add del) :
    o.contains .terminate = false := by
  obtain ⟨-, rest, rfl, hrest⟩ := h
  rw [Bool.eq_false_iff, ne_eq, List.contains_iff_mem, List.mem_cons, not_or]
  refine ⟨nofun, fun hmem => ?_⟩
  obtain ⟨d, hd⟩ := hrest _ hmem
  cases hd

/-- What everyone is told, when it is broadcast. -/
theorem send_of_mem_broadcast {x : Output} {m : PropertyTreeMessage} (hx : x ∈ server.broadcast m) :
    ∃ d, x = .send d m := by
  obtain ⟨-, d, -, rfl⟩ := mem_broadcast_iff.mp hx
  exact ⟨d, rfl⟩

/-- The creation under a name that is unused is accepted. -/
theorem announces_create (hw : WellLinked server) (hi : Indexed server) (hP : server.entry P ≠ none)
    (hc : server.mConnectionToSessionId[c]? ≠ none) (hname : Unused server.entry P name)
    (hok : server.step (.message c ⟨t, .createRequest name P⟩) = .ok (server', o)) :
    ∃ u, Announces server server' o c t (.createAccept u) [⟨name, u, P⟩] [] ∧
      u.toNat = server.mUuidCtr.toNat ∧ server.entry u = none ∧
      ∀ v, server'.entry v = if v = u then some ⟨some P, name, []⟩ else server.entry v := by
  cases Server.step_cases hok with
  | createNoParent _ _ _ _ hp => exact absurd (entry_of_none hp) hP
  | createNotSignedIn _ _ _ _ p hp hno => exact absurd hno hc
  | createExists _ _ _ _ p sid node a hp hsid hn ha =>
    obtain ⟨v, e, hv, hpar, hev⟩ := (hw.exists_entry_iff hi hp hn name).mpr ⟨a, ha⟩
    exact absurd hev (hname hv hpar)
  | create _ _ _ _ p sid node hp hsid hn ha =>
    have huuid : node.uuid = P := by
      obtain ⟨n, hn', hnu⟩ := hw.mTree_heap hp
      rw [hn] at hn'
      cases hn'
      exact hnu
    refine ⟨server.mUuidCtr.toUInt64, ⟨rfl, _, rfl, fun x hx => ?_⟩, by simp,
      entry_of_none hi.mTree_fresh, fun v => huuid ▸ entry_insertNode hw hi hn name sid v⟩
    exact huuid ▸ send_of_mem_broadcast hx
  | ignored _ _ _ hm => exact hm.elim
  | replyUnknown _ _ _ hm => rcases hm with ⟨_, hm⟩ | ⟨_, hm⟩ <;> cases hm
  | replyNoSession _ _ _ _ hm => rcases hm with ⟨_, hm⟩ | ⟨_, hm⟩ <;> cases hm
  | reply _ _ _ _ _ hm => rcases hm with ⟨_, hm⟩ | ⟨_, hm⟩ <;> cases hm

/-- The deletion of a leaf is accepted. -/
theorem announces_delete (hw : WellLinked server) (hi : Indexed server)
    (hu : InUse server.entry P name u)
    (hok : server.step (.message c ⟨t, .deleteRequest u⟩) = .ok (server', o)) :
    Announces server server' o c t (.deleteResponse .ok) [] [u] ∧
      ∀ v, server'.entry v = if v = u then none else server.entry v := by
  obtain ⟨⟨e, he, -, -⟩, hleaf⟩ := hu
  cases Server.step_cases hok with
  | deleteUnknown _ _ _ ha =>
    rw [entry_of_none ha] at he
    cases he
  | deleteNotEmpty _ _ _ a node ha hn hch =>
    obtain ⟨v, e', hv, hpar⟩ := (hw.exists_child_iff hi ha hn).mpr hch
    exact absurd hpar (hleaf hv)
  | delete _ _ _ a node p parent ha hn hch hp hpn =>
    exact ⟨⟨by simp [ProtocolHandler.removeNode], _, rfl, fun x hx => send_of_mem_broadcast hx⟩,
      entry_removeNode hw ha hn hch hp hpn⟩
  | ignored _ _ _ hm => exact hm.elim
  | replyUnknown _ _ _ hm => rcases hm with ⟨_, hm⟩ | ⟨_, hm⟩ <;> cases hm
  | replyNoSession _ _ _ _ hm => rcases hm with ⟨_, hm⟩ | ⟨_, hm⟩ <;> cases hm
  | reply _ _ _ _ _ hm => rcases hm with ⟨_, hm⟩ | ⟨_, hm⟩ <;> cases hm

end Announces

namespace Plan

/-! ## The steps of the server -/

/-- What the server does with the request of `c`, and what it tells of it. -/
inductive Serves (plan : Plan) (c : Conn) (server server' : ProtocolHandler) :
    List NamedNode → List UInt64 → Prop
  | create (u : UInt64) (hu : server.entry u = none)
      (hent : ∀ v, server'.entry v =
        if v = u then some ⟨some plan.parent, plan.name c, []⟩ else server.entry v) :
      Serves plan c server server' [⟨plan.name c, u, plan.parent⟩] []
  | delete (u : UInt64) (hu : InUse server.entry plan.parent (plan.name c) u)
      (hent : ∀ v, server'.entry v = if v = u then none else server.entry v) :
      Serves plan c server server' [] [u]

section Serves

variable {server server' : ProtocolHandler} {add : List NamedNode} {del : List UInt64}

/-- The parent stays. -/
theorem Serves.parent (h : plan.Serves c server server' add del)
    (hP : server.entry plan.parent ≠ none) : server'.entry plan.parent ≠ none := by
  cases h with
  | create u hu hent =>
    rw [hent]
    split_ifs
    · exact Option.some_ne_none _
    · exact hP
  | delete u hu hent =>
    obtain ⟨⟨e, he, hpar, -⟩, hleaf⟩ := hu
    rw [hent, if_neg]
    · exact hP
    · rintro rfl
      exact hleaf he hpar

/-- Another name stays unused. -/
theorem Serves.unused (h : plan.Serves c server server' add del) (hne : plan.name c ≠ name)
    (hname : Unused server.entry plan.parent name) : Unused server'.entry plan.parent name := by
  cases h with
  | create u hu hent => exact hname.insert hent hne
  | delete u hu hent => exact hname.erase hent

/-- Another name stays in use. -/
theorem Serves.inUse (h : plan.Serves c server server' add del) (hne : plan.name c ≠ name)
    (hname : InUse server.entry plan.parent name u) : InUse server'.entry plan.parent name u := by
  cases h with
  | create v hv hent => exact hname.insert hv hent
  | delete v hv hent =>
    refine hname.erase ?_ hent
    rintro rfl
    obtain ⟨e, he, -, rfl⟩ := hname.entry
    obtain ⟨e', he', -, heq⟩ := hv.entry
    cases he.symm.trans he'
    exact hne heq.symm

/-- What it tells is news, and of no other name. -/
theorem Serves.news (h : plan.Serves c server server' add del) {p : Packet}
    (hp : p.message.message = .treeUpdateNotification add del) :
    News plan.parent p ∧ ∀ {name : Name}, plan.name c ≠ name → Silent name [p] := by
  refine ⟨fun add' del' heq => ?_, fun {name} hne q hq add' del' heq i hi => ?_⟩
  · cases hp.symm.trans heq
    cases h with
    | create u => exact .inl ⟨_, rfl, rfl, rfl⟩
    | delete u => exact .inr ⟨u, rfl, rfl⟩
  · rw [List.mem_singleton.mp hq] at heq
    cases hp.symm.trans heq
    cases h with
    | create u =>
      rw [List.mem_singleton.mp hi]
      exact hne
    | delete u => cases hi

/-- The notifications that arrive. -/
theorem isTreeUpdate_of_notice (tag : ℕ) {l : List PropertyTreeMessage}
    (hl : ∀ x ∈ l, x = ⟨notificationId, .treeUpdateNotification add del⟩) :
    ∀ p ∈ l.map (⟨tag, ·⟩ : PropertyTreeMessage → Packet), IsTreeUpdate p ∧
      p.message.message = .treeUpdateNotification add del := by
  intro p hp
  obtain ⟨x, hx, rfl⟩ := List.mem_map.mp hp
  obtain rfl := hl x hx
  exact ⟨⟨tag, add, del, rfl⟩, rfl⟩

/-- A request of another client is served. -/
theorem Member.receive (h : plan.Member s₀ s d) (hserves : plan.Serves c s.server s'.server add del)
    (hne : plan.name c ≠ plan.name d) (hcreations : creations s.log ⊆ creations s'.log)
    (hconn : s'.server.mConnectionToSessionId = s.server.mConnectionToSessionId)
    {new : List Packet} (hnew : ∀ p ∈ new, IsTreeUpdate p ∧
      p.message.message = .treeUpdateNotification add del)
    (hcl : s'.client d = { s.client d with inbound := (s.client d).inbound ++ new })
    (hclient : s'.clients[d]? ≠ none) : plan.Member s₀ s' d := by
  obtain ⟨w, hone, hphase⟩ := h.phase
  have hone' := hone.receive fun p hp => (hnew p hp).1
  rw [← hcl] at hone'
  have hmirror : (s'.client d).mirror = (s.client d).mirror := by rw [hcl]
  have hinbound : (s'.client d).inbound = (s.client d).inbound ++ new := by rw [hcl]
  have hresults : (s'.client d).results = (s.client d).results := by rw [hcl]
  have hsince : resultsSince s₀ s' d = resultsSince s₀ s d := resultsSince_congr hresults
  have hnext : plan.next s₀ s' d = plan.next s₀ s d := next_congr hresults
  have hsilent : ∀ {l : List Packet}, Silent (plan.name d) l → Silent (plan.name d) (l ++ new) := by
    intro l hl p hp
    rcases List.mem_append.mp hp with hp | hp
    · exact hl p hp
    · exact (hserves.news (hnew p hp).2).2 hne p (List.mem_singleton_self p)
  refine ⟨hclient, hconn ▸ h.signedIn, hmirror ▸ h.anchored, ?_, hresults ▸ h.results, hsince ▸ h.right,
    _, hone', ?_⟩
  · rw [hinbound]
    exact fun p hp => (List.mem_append.mp hp).elim (h.news p) fun hp => (hserves.news (hnew p hp).2).1
  have hrequest : ∀ x : Exchange, (x.receive new).request = x.request := fun x => by cases x <;> rfl
  have hresponse : ∀ x : Exchange, (x.receive new).response = x.response := fun x => by cases x <;> rfl
  cases hphase with
  | vacant hfree hsil hlacks hn =>
    refine .vacant (hserves.unused hne hfree) ?_ (hmirror ▸ hlacks) (hnext.trans hn)
    rw [hinbound]
    exact hsilent hsil
  | creating x hx hfree => exact .creating _ ((hrequest x).trans hx) (hserves.unused hne hfree)
  | accepted x u hx hu hplaced =>
    exact .accepted _ u ((hresponse x).trans hx) (hserves.inUse hne hu) (hmirror ▸ hplaced)
  | created u a hu ha hplaced hn =>
    exact .created u a (hserves.inUse hne hu) (hmirror ▸ ha) (hmirror ▸ hplaced) (hnext.trans hn)
  | deleting x u a hx hu ha hplaced =>
    exact .deleting _ u a ((hrequest x).trans hx) (hserves.inUse hne hu) (hmirror ▸ ha) (hmirror ▸ hplaced)
  | deleted x u a hx hfree hsil hmem hplaced =>
    refine .deleted _ u a ((hresponse x).trans hx) (hserves.unused hne hfree) ?_ (hcreations hmem)
      (hmirror ▸ hplaced)
    cases x with
    | coming m before after => exact hsilent hsil
    | got m =>
      rw [hinbound]
      exact hsilent hsil
    | _ => cases hx

/-- The request of the client itself is served. -/
theorem Member.answered (h : plan.Member s₀ s c) (hserves : plan.Serves c s.server s'.server add del)
    {call : ApiCall} {x : Exchange} {o : List Output} {p : Packet} {outbound : List Packet}
    {m : PropertyTreeMessages} (hone : OneCaller (plan.caller c) (some (call, x)) (s.client c))
    (hann : Announces s.server s'.server o c p.message.transactionId m add del)
    (hm : ∀ add del, m ≠ .treeUpdateNotification add del) (hout : (s.client c).outbound = p :: outbound)
    (hcl : s'.client c = { s.client c with
      inbound := (s.client c).inbound ++ (sentTo c o).map (⟨p.tag, ·⟩), outbound := outbound })
    (hclient : s'.clients[c]? ≠ none)
    (hphase : ∀ before after, (∀ q ∈ after, q.message.message = .treeUpdateNotification add del) →
      (s'.client c).mirror = (s.client c).mirror →
        plan.Phase s₀ s' c (some (call, .coming m before after))) : plan.Member s₀ s' c := by
  obtain ⟨rfl, call', heq, hanswer⟩ := hone.answer hout
  cases heq
  obtain ⟨l, hl, hnotice⟩ := hann.sentTo_self
  have hnew := isTreeUpdate_of_notice p.tag hnotice
  have hone' := hanswer p.tag (m := m) fun q hq => (hnew q hq).1
  rw [hl, List.map_cons] at hcl
  rw [← hcl] at hone'
  have hmirror : (s'.client c).mirror = (s.client c).mirror := by rw [hcl]
  have hresults : (s'.client c).results = (s.client c).results := by rw [hcl]
  refine ⟨hclient, hann.connections ▸ h.signedIn, hmirror ▸ h.anchored, fun q hq => ?_,
    hresults ▸ h.results, ?_, _, hone', hphase _ _ (fun q hq => (hnew q hq).2) hmirror⟩
  · rw [hcl] at hq
    rcases List.mem_append.mp hq with hq | hq
    · exact h.news q hq
    rcases List.mem_cons.mp hq with rfl | hq
    · exact fun add del heq => absurd heq (hm add del)
    · exact (hserves.news (hnew q hq).2).1
  · rw [resultsSince_congr hresults]
    exact h.right

end Serves

/-- A request is served. -/
theorem Looping.serve (h : plan.Looping s₀ s) {as : List System.Action}
    (hrun : Run (Guarded FewCreates Step) .init as s) (hacc : acceptedCreates s'.log < 2 ^ 32 - 1)
    (hc : c ∈ plan.members) (hstep : StepResult s (.serve c) s') : plan.Looping s₀ s' := by
  have hlog := log_of_run hrun.of_guarded
  have hgrown := grown_of_step hlog hacc hstep
  have hw := wellLinked_of_run hlog
  have hlt := creates_of_run (C := FewCreates) id hrun
  have hi := indexed_of_run hlog hlt
  cases hstep with
  | serve _ k p outbound server o hk hout ht hok =>
    have hout' : (s.client c).outbound = p :: outbound := by rw [client_of_some hk, hout]
    -- it is enough to say what the server does, and how far the client comes by it
    have hserved : ∀ {m : PropertyTreeMessages} {add : List NamedNode} {del : List UInt64}
        {call : ApiCall} {x : Exchange}, OneCaller (plan.caller c) (some (call, x)) (s.client c) →
        Announces s.server server o c p.message.transactionId m add del →
        (∀ add del, m ≠ .treeUpdateNotification add del) →
        plan.Serves c s.server server add del →
        (∀ before after, (∀ q ∈ after, q.message.message = .treeUpdateNotification add del) →
          ((afterServe s c k p outbound server o).client c).mirror = (s.client c).mirror →
          plan.Phase s₀ (afterServe s c k p outbound server o) c (some (call, .coming m before after))) →
        plan.Looping s₀ (afterServe s c k p outbound server o) := by
      intro m add del call x hone hann hm hserves hphase
      refine ⟨hann.not_terminated, hserves.parent h.parent, fun d hd => ?_⟩
      have hmem := h.member d hd
      obtain ⟨kd, hkd⟩ := Option.ne_none_iff_exists'.mp hmem.client
      have hcl : (afterServe s c k p outbound server o).client d = _ :=
        client_afterServe_of_some hk hkd
      have hclient : (afterServe s c k p outbound server o).clients[d]? ≠ none := by
        rw [afterServe, Std.ExtTreeMap.getElem?_map, getElem?_clients_insert]
        split_ifs <;> simp [hkd]
      by_cases hdc : d = c
      · subst hdc
        rw [if_pos rfl] at hcl
        exact hmem.answered hserves hone hann hm hout' hcl hclient hphase
      · rw [if_neg hdc] at hcl
        refine hmem.receive hserves (fun heq => hdc (plan.name_inj c hc d hd heq).symm) hgrown.creations
          hann.connections (isTreeUpdate_of_notice _ (hann.sentTo_other hdc)) hcl hclient
    obtain ⟨w, hone, hphase⟩ := (h.member c hc).phase
    obtain ⟨-, call, rfl, -⟩ := hone.answer hout'
    have hP := h.parent
    cases hphase with
    | accepted x u hx => cases hx
    | deleted x u a hx => cases hx
    | creating x hx hfree =>
      have hok' : s.server.step (.message c
          ⟨p.message.transactionId, .createRequest (plan.name c) plan.parent⟩) = .ok (server, o) := by
        rw [← Option.some.inj hx]
        exact hok
      obtain ⟨u, hann, hctr, hnone, hent⟩ :=
        announces_create hw hi hP (h.member c hc).signedIn hfree hok'
      refine hserved hone hann (by simp) (.create u hnone hent) fun before after _ hm => ?_
      refine .accepted _ u rfl ((hw.namedTree hi).inUse hnone hP hent) fun a ha => ?_
      rw [hm, mTree_eq_none_of_run hrun hctr] at ha
      cases ha
    | deleting x u a hx hu ha hplaced =>
      have hok' : s.server.step (.message c ⟨p.message.transactionId, .deleteRequest u⟩) =
          .ok (server, o) := by
        rw [← Option.some.inj hx]
        exact hok
      obtain ⟨hann, hent⟩ := announces_delete hw hi hu hok'
      refine hserved hone hann (by simp) (.delete u hu hent) fun before after hafter hm => ?_
      refine .deleted _ u a rfl (hu.unused (hw.namedTree hi) hent) (fun q hq add del heq => ?_) ?_
        (hm ▸ hplaced)
      · cases (hafter q hq).symm.trans heq
        exact fun i hi => absurd hi List.not_mem_nil
      · exact hgrown.creations (mem_creations_of_inUse (history_of_run hlog hlt) hu)

/-! ## Runs -/

/-- The steps of the rounds give out few uuids. -/
theorem Loops.fewCreates (h : plan.Loops s₀ s act) : FewCreates s act := by
  cases act with
  | serve c => exact h.2
  | connect c => exact h.elim
  | disconnect c => exact h.elim
  | client c a => exact trivial

/-- A step of the rounds. -/
theorem Looping.step (h : plan.Looping s₀ s) (hrun : Run (Guarded FewCreates Step) .init as s)
    (hstep : Guarded (plan.Loops s₀) Step s act s') : plan.Looping s₀ s' := by
  have hlog := log_of_run hrun.of_guarded
  have hlt := creates_of_run (C := FewCreates) id hrun
  cases act with
  | connect c => exact hstep.1.elim
  | disconnect c => exact hstep.1.elim
  | serve c =>
    exact h.serve hrun (creates_of_run (C := FewCreates) id (hrun.snoc ⟨hstep.1.fewCreates, hstep.2⟩))
      hstep.1.1 (step_cases hstep.2)
  | client c a =>
    obtain ⟨hserver, hslog, hterm, hclients⟩ : s'.server = s.server ∧ s'.log = s.log ∧
        s'.terminated = s.terminated ∧
          ∀ d, s.clients[d]? ≠ none → s'.clients[d]? ≠ none ∧ (d ≠ c → s'.client d = s.client d) := by
      cases step_cases hstep.2 with
      | client _ _ k k' sent hk =>
        refine ⟨rfl, rfl, rfl, fun d hd => ⟨?_, fun hdc => ?_⟩⟩
        · rw [getElem?_clients_insert]
          split_ifs
          · exact Option.some_ne_none _
          · exact hd
        · rw [client_of_clients rfl, if_neg hdc]
    refine ⟨hterm.trans h.terminated, hserver ▸ h.parent, fun d hd => ?_⟩
    have hmem := h.member d hd
    obtain ⟨hclient, hother⟩ := hclients d hmem.client
    by_cases hdc : d = c
    · subst hdc
      obtain ⟨b, k', sent, heq, hk', hcl⟩ :=
        (client_of_step hstep.2 d).resolve_right fun hno => hno.1 a rfl
      cases heq
      have hquiet : a.isQuiet = true → plan.Member s₀ s' d := fun ha =>
        hmem.quiet h.parent (history_of_run hlog hlt) (informed_of_run (C := FewCreates) id hrun d)
          (Client.step_cases hk').2 ha hcl hclient hserver hslog
      cases a with
      | start i call => exact hmem.start hstep.1.2.1 hstep.1.2.2 hk' hcl hclient hserver
      | proceed i => exact hmem.proceed hk' hcl hclient hserver
      | timeout i => exact hstep.1.2.elim
      | setup s => exact hstep.1.2.elim
      | close => exact hstep.1.2.elim
      | update =>
        -- the reader waits for nothing
        obtain ⟨w, hone, -⟩ := hmem.phase
        cases (Client.step_cases hk').2 with
        | update a data hr => cases hone.reader.symm.trans hr
      | _ => exact hquiet rfl
    · -- the client of another connection takes the step
      exact hmem.congr (hother hdc) hclient hserver hslog

/-- The rounds begin. -/
theorem Ready.looping (h : plan.Ready s₀) (hrun : Run (Guarded FewCreates Step) .init as s₀) :
    plan.Looping s₀ s₀ := by
  have hlog := log_of_run hrun.of_guarded
  have hw := wellLinked_of_run hlog
  have hi := indexed_of_run hlog (creates_of_run (C := FewCreates) id hrun)
  obtain ⟨p, hp⟩ := Option.isSome_iff_exists.mp (Std.ExtTreeMap.isSome_getElem?_iff_mem.mpr h.parent)
  obtain ⟨node, hn, -⟩ := hw.mTree_heap hp
  refine ⟨h.terminated, by rw [entry_of_some hp hn]; exact Option.some_ne_none _, fun c hc => ?_⟩
  have hb := h.begins c hc
  have hnil : resultsSince s₀ s₀ c = [] := List.drop_length
  obtain ⟨k, hk⟩ := Option.ne_none_iff_exists'.mp hb.client
  refine ⟨hb.client, hb.signedIn, ⟨?_, hb.object⟩, by simp [hb.inbound], le_rfl, by simp [hnil], none,
    ⟨hb.running, hb.reader, fun {j th} hj => ?_, .idle ?_ ?_ hb.outbound (by simp [hb.inbound])⟩,
    .vacant (fun {v e} hv hpar hname => ?_) (by simp [hb.inbound, Silent]) hb.lacks (by simp [next, hnil])⟩
  · rw [client_of_some hk]
    exact (sound_of_run hrun.of_guarded).mirror hk
  · simp [Std.ExtTreeMap.isEmpty_iff.mp hb.threads] at hj
  · simp [Std.ExtTreeMap.isEmpty_iff.mp hb.threads]
  · simp [Std.ExtTreeMap.isEmpty_iff.mp hb.mTransactions]
  · obtain ⟨a, ha⟩ := (hw.exists_entry_iff hi hp hn (plan.name c)).mp ⟨v, e, hv, hpar, hname⟩
    rw [h.unused c hc p hp node hn] at ha
    cases ha

/-- A state in the course of the rounds. -/
structure Reached (plan : Plan) (s₀ s : System) : Prop where
  run : ∃ as, Run (Guarded FewCreates Step) .init as s
  looping : plan.Looping s₀ s

/-- A step of the rounds leads to such a state. -/
theorem Reached.step (h : plan.Reached s₀ s) (hstep : Guarded (plan.Loops s₀) Step s act s') :
    plan.Reached s₀ s' := by
  obtain ⟨as, hrun⟩ := h.run
  exact ⟨⟨_, hrun.snoc ⟨hstep.1.fewCreates, hstep.2⟩⟩, h.looping.step hrun hstep⟩

/-- And so does a run. -/
theorem reached_of_run (hrun : Run (Guarded FewCreates Step) .init as s₀) (h : plan.Ready s₀)
    (hs : Run (Guarded (plan.Loops s₀) Step) s₀ bs s) : plan.Reached s₀ s :=
  hs.invariant (fun h hstep => h.step hstep) ⟨⟨as, hrun⟩, h.looping hrun⟩

/-! ## The end of a call -/

/-- The call of the client on `c` can be brought to its end, by steps of the client and of the server that
handles its messages. -/
def Ends (plan : Plan) (s₀ s : System) (c : Conn) : Prop :=
  ∃ bs s', Run (Guarded (plan.Loops s₀) Step) s bs s' ∧
    (∀ b ∈ bs, b = .serve c ∨ ∃ a, b = .client c a) ∧ (s'.client c).threads[plan.caller c]? = none

/-- One step on the way to the end. -/
theorem Ends.of_step (hstep : Guarded (plan.Loops s₀) Step s act s')
    (hact : act = .serve c ∨ ∃ a, act = .client c a) (h : plan.Ends s₀ s' c) : plan.Ends s₀ s c := by
  obtain ⟨bs, t, hrun, hbs, hend⟩ := h
  exact ⟨act :: bs, t, .cons hstep hrun, List.forall_mem_cons.mpr ⟨hact, hbs⟩, hend⟩

/-- A step of the client on the way to the end. -/
theorem Reached.ends_of_client (h : plan.Reached s₀ s) (hc : c ∈ plan.members) {a : Client.Action}
    {sent : List Packet} (hloops : plan.Loops s₀ s (.client c a))
    (hstep : (s.client c).step s.requests.length a = some (k', sent))
    (hend : ∀ s', plan.Reached s₀ s' → s'.client c = { k' with outbound := k'.outbound ++ sent } →
      s'.log = s.log → plan.Ends s₀ s' c) : plan.Ends s₀ s c := by
  obtain ⟨k, hk⟩ := Option.ne_none_iff_exists'.mp (h.looping.member c hc).client
  rw [client_of_some hk] at hstep
  have hs' : Guarded (plan.Loops s₀) Step s (.client c a) _ := ⟨hloops, step_of_client hk hstep⟩
  exact .of_step hs' (.inr ⟨a, rfl⟩) (hend _ (h.step hs') (client_of_some (by simp)) rfl)

/-- A step of the rounds in the course of a call. -/
theorem loops_of_isQuiet (hc : c ∈ plan.members) {a : Client.Action} (ha : a.isQuiet = true) :
    plan.Loops s₀ s (.client c a) := by
  cases a <;> first | exact ⟨hc, trivial⟩ | cases ha

/-- A caller that has its response ends its call. -/
theorem Reached.ends_of_answered (h : plan.Reached s₀ s) (hc : c ∈ plan.members) {call : ApiCall} {r : ℕ}
    {y : Tagged} (ht : (s.client c).threads[plan.caller c]? = some ⟨call, .answered r y⟩) :
    plan.Ends s₀ s c := by
  obtain ⟨w, hone, hphase⟩ := (h.looping.member c hc).phase
  have hproceed : ∀ {k' : Client}, (s.client c).respond (plan.caller c) call y.message = some k' →
      k'.threads[plan.caller c]? = none → plan.Ends s₀ s c := by
    intro k' hk' hnone
    refine h.ends_of_client hc (a := .proceed (plan.caller c)) ⟨hc, trivial⟩ (?_ : _ = some (k', []))
      fun s' _ hcl _ => ⟨[], s', .nil _, by simp, by rw [hcl]; exact hnone⟩
    simp [Client.step, hone.running, Client.proceed, ht, hk']
  obtain rfl : w = some (call, .got y.message) := hone.eq_got ht
  cases hphase with
  | creating x hx => cases hx
  | deleting x u a hx => cases hx
  | accepted x u hx =>
    have hm : y.message = .createAccept u := Option.some.inj hx
    exact hproceed (by rw [hm]; rfl) (by simp [Client.finish])
  | deleted x u a hx =>
    have hm : y.message = .deleteResponse .ok := Option.some.inj hx
    exact hproceed (by rw [hm]; rfl) (by simp [Client.finish])

/-- A call that is answered can be brought to its end. -/
theorem Reached.ends_of_response (h : plan.Reached s₀ s) (hc : c ∈ plan.members) {call : ApiCall}
    {x : Exchange} {m : PropertyTreeMessages}
    (hone : OneCaller (plan.caller c) (some (call, x)) (s.client c)) (hx : x.response = some m) :
    plan.Ends s₀ s c := by
  -- by induction on the steps that are left
  induction hn : OneCaller.left (plan.caller c) (s.client c) using Nat.strong_induction_on
    generalizing s x with
  | _ n ih =>
    rcases hone.exists_quiet hx s.requests.length with ⟨r, y, ht⟩ | ⟨a, k', ha, hstep, hlt⟩
    · exact h.ends_of_answered hc ht
    · refine h.ends_of_client hc (loops_of_isQuiet hc ha) hstep fun s' hs' hcl _ => ?_
      obtain ⟨w', hone', hadv, -⟩ := hone.step (Client.step_cases hstep).2 ha
      obtain ⟨x', rfl, hx'⟩ := hadv.response_eq hx
      rw [← hcl] at hone'
      refine ih _ (hn ▸ ?_) hs' hone' hx' rfl
      rw [hcl]
      exact hlt

/-- A request that is on its way can be handled. -/
theorem Reached.exists_serve (h : plan.Reached s₀ s) (hc : c ∈ plan.members) {p : Packet}
    {outbound : List Packet} (hout : (s.client c).outbound = p :: outbound) :
    ∃ s', Step s (.serve c) s' ∧ ∀ th, (s.client c).threads[plan.caller c]? = some th →
      (s'.client c).threads[plan.caller c]? = some th ∧ (s'.client c).outbound = outbound := by
  obtain ⟨as, hrun⟩ := h.run
  have hlog := log_of_run hrun.of_guarded
  have hw := wellLinked_of_run hlog
  have hmem := h.looping.member c hc
  obtain ⟨k, hk⟩ := Option.ne_none_iff_exists'.mp hmem.client
  obtain ⟨w, hone, hphase⟩ := hmem.phase
  have hsafe : ¬ Hazard s.server (.message c p.message) := by
    obtain ⟨-, call, rfl, -⟩ := hone.answer hout
    cases hphase with
    | accepted x u hx => cases hx
    | deleted x u a hx => cases hx
    | creating x hx =>
      have hp : p.message = ⟨p.message.transactionId, .createRequest (plan.name c) plan.parent⟩ := by
        rw [← Option.some.inj hx]
      rw [hp]
      exact id
    | deleting x u a hx hu =>
      -- the node has a parent, so that it is not the root
      have hp : p.message = ⟨p.message.transactionId, .deleteRequest u⟩ := by rw [← Option.some.inj hx]
      rw [hp]
      rintro ⟨rfl, -⟩
      obtain ⟨e, he, hpar, -⟩ := hu.entry
      rw [((hw.namedTree (indexed_of_run hlog (creates_of_run (C := FewCreates) id hrun))).parent_eq_none_iff
        he).mpr rfl] at hpar
      cases hpar
  cases hok : s.server.step (.message c p.message) with
  | error f => exact absurd ((hw.step_error_iff _).mp ⟨f, hok⟩) hsafe
  | ok r =>
    obtain ⟨server, o⟩ := r
    refine ⟨_, step_of_serve hk (by rw [← client_of_some hk]; exact hout) h.looping.terminated hok, ?_⟩
    intro th hth
    rw [client_afterServe_of_some hk hk, if_pos rfl]
    exact ⟨hth, rfl⟩

/-- A call that waits can be brought to its end. -/
theorem Reached.ends_of_waiting (h : plan.Reached s₀ s) (hc : c ∈ plan.members)
    (hfew : acceptedCreates s.log + 1 < 2 ^ 32 - 1) {call : ApiCall} {t : UInt16} {r : ℕ}
    (ht : (s.client c).threads[plan.caller c]? = some ⟨call, .waiting t r⟩) : plan.Ends s₀ s c := by
  obtain ⟨w, hone, -⟩ := (h.looping.member c hc).phase
  rcases hone.eq_of_waiting ht with ⟨x, m, rfl, hx⟩ | ⟨p, hout⟩
  · exact h.ends_of_response hc hone hx
  · obtain ⟨s', hstep, hs'⟩ := h.exists_serve hc hout
    have hguard : Guarded (plan.Loops s₀) Step s (.serve c) s' := ⟨⟨hc, fun _ _ _ => hfew⟩, hstep⟩
    refine .of_step hguard (.inl rfl) ?_
    have h' := h.step hguard
    obtain ⟨ht', hout'⟩ := hs' _ ht
    obtain ⟨w', hone', -⟩ := (h'.looping.member c hc).phase
    rcases hone'.eq_of_waiting ht' with ⟨x, m, rfl, hx⟩ | ⟨p', hp'⟩
    · exact h'.ends_of_response hc hone' hx
    · rw [hout'] at hp'
      cases hp'

/-- A call that has drawn its id can be brought to its end. -/
theorem Reached.ends_of_numbered (h : plan.Reached s₀ s) (hc : c ∈ plan.members)
    (hfew : acceptedCreates s.log + 1 < 2 ^ 32 - 1) {call : ApiCall} {q : PropertyTreeMessages}
    {t : UInt16} (ht : (s.client c).threads[plan.caller c]? = some ⟨call, .numbered q t⟩) :
    plan.Ends s₀ s c := by
  obtain ⟨w, hone, -⟩ := (h.looping.member c hc).phase
  refine h.ends_of_client hc (a := .send (plan.caller c)) ⟨hc, trivial⟩
    (by simp [Client.step, hone.running, Client.send, ht]; exact ⟨rfl, rfl⟩) fun s' hs' hcl hlog => ?_
  have ht' : (s'.client c).threads[plan.caller c]? = some ⟨call, .waiting t s.requests.length⟩ := by
    rw [hcl]
    simp [Client.setStage]
  exact hs'.ends_of_waiting hc (hlog ▸ hfew) ht'

/-- A call that draws an id goes on to the next stage. -/
theorem Reached.ends_of_fetchId (h : plan.Reached s₀ s) (hc : c ∈ plan.members) {call : ApiCall}
    {stage : Stage} (hfetch : (s.client c).fetchId (plan.caller c) = some
      ({ s.client c with mTransactioIdCtr := (s.client c).mTransactioIdCtr + 1 }.setStage (plan.caller c)
        call stage))
    (hend : ∀ s', plan.Reached s₀ s' → s'.log = s.log →
      (s'.client c).threads[plan.caller c]? = some ⟨call, stage⟩ → plan.Ends s₀ s' c) :
    plan.Ends s₀ s c := by
  obtain ⟨w, hone, -⟩ := (h.looping.member c hc).phase
  refine h.ends_of_client hc (a := .fetchId (plan.caller c)) ⟨hc, trivial⟩
    (by simp only [Client.step, hone.running, hfetch]; rfl) fun s' hs' hcl hlog => hend s' hs' hlog ?_
  rw [hcl]
  simp [Client.setStage]

/-- A call that has its request at hand can be brought to its end. -/
theorem Reached.ends_of_draws (h : plan.Reached s₀ s) (hc : c ∈ plan.members)
    (hfew : acceptedCreates s.log + 1 < 2 ^ 32 - 1) {call : ApiCall} {q : PropertyTreeMessages}
    {stage : Stage} (ht : (s.client c).threads[plan.caller c]? = some ⟨call, stage⟩)
    (hstage : stage.Draws (s.client c).mTransactioIdCtr q) : plan.Ends s₀ s c := by
  have hskipping : ∀ {s}, plan.Reached s₀ s → acceptedCreates s.log + 1 < 2 ^ 32 - 1 →
      (s.client c).threads[plan.caller c]? = some ⟨call, .skipping q⟩ → plan.Ends s₀ s c := by
    intro s h hfew ht
    exact h.ends_of_fetchId hc (by simp only [Client.fetchId, ht]; rfl) fun s' hs' hlog ht' =>
      hs'.ends_of_numbered hc (hlog ▸ hfew) ht'
  cases stage with
  | begun q' =>
    obtain rfl : q' = q := hstage
    by_cases hid : (s.client c).mTransactioIdCtr = notificationId
    · exact h.ends_of_fetchId hc (by simp only [Client.fetchId, ht, if_pos hid]) fun s' hs' hlog ht' =>
        hskipping hs' (hlog ▸ hfew) ht'
    · exact h.ends_of_fetchId hc (by simp only [Client.fetchId, ht, if_neg hid]; rfl) fun s' hs' hlog ht' =>
        hs'.ends_of_numbered hc (hlog ▸ hfew) ht'
  | skipping q' =>
    obtain ⟨rfl, -⟩ := hstage
    exact hskipping h hfew ht
  | numbered q' t => exact h.ends_of_numbered hc hfew ht
  | _ => exact hstage.elim

/-- Every call can be brought to its end. -/
theorem Reached.ends (h : plan.Reached s₀ s) (hc : c ∈ plan.members)
    (hfew : acceptedCreates s.log + 1 < 2 ^ 32 - 1) : plan.Ends s₀ s c := by
  obtain ⟨w, hone, -⟩ := (h.looping.member c hc).phase
  cases hone.calling with
  | idle ht => exact ⟨[], s, .nil _, by simp, ht⟩
  | unsent call q stage ht hstage => exact h.ends_of_draws hc hfew ht hstage
  | asked call q t r ht => exact h.ends_of_waiting hc hfew ht
  | coming call m t r tag before after => exact h.ends_of_response hc hone rfl
  | got call m stage ht => exact h.ends_of_response hc hone rfl

/-! ## Every call does what it is asked to -/

/-- The `create` that thread `i` of the client on `c` returns from in the step to `s'` returns the node that
the server has answered with, which is there at the server. -/
def ReturnsCreated (s s' : System) (c : Conn) (i : ThreadId) (call : ApiCall)
    (m : PropertyTreeMessages) : Prop :=
  ∃ u a node, m = .createAccept u ∧ u ∈ s.server.mTree ∧
    (s'.client c).results = (s.client c).results ++ [(i, call, .property (some a))] ∧
      (s'.client c).mirror.heap[a]? = some node ∧ node.uuid = u

/-- No other client has got into the way of the one on `c`: its calls have ended as they should, with nodes
that are there at the server from the answer on, it can begin the next one, and it can always bring to the
end the one that it is in. -/
structure Undisturbed (plan : Plan) (s₀ s : System) (c : Conn) : Prop where
  right : ∀ r ∈ resultsSince s₀ s c, IsRight r
  answered : ∀ p ∈ (s.client c).inbound, ∀ u, p.message.message = .createAccept u → u ∈ s.server.mTree
  created : ∀ {x name r y s'},
    (s.client c).threads[plan.caller c]? = some ⟨.create x name, .answered r y⟩ →
      Step s (.client c (.proceed (plan.caller c))) s' →
        ReturnsCreated s s' c (plan.caller c) (.create x name) y.message
  begins : (s.client c).threads[plan.caller c]? = none →
    ∃ s', Guarded (plan.Loops s₀) Step s (.client c (.start (plan.caller c) (plan.next s₀ s c))) s'
  ends : acceptedCreates s.log + 1 < 2 ^ 32 - 1 → plan.Ends s₀ s c

/-- A node that is in use is there. -/
theorem mem_mTree_of_inUse {server : ProtocolHandler} (h : InUse server.entry P name u) :
    u ∈ server.mTree := by
  obtain ⟨e, he, -⟩ := h.entry
  by_contra hno
  have hnone : server.mTree[u]? = none := by simpa using hno
  rw [entry_of_none hnone] at he
  cases he

/-- An answer that is on its way to the client tells of a node that is there. -/
theorem Member.mem_mTree_of_answer (h : plan.Member s₀ s c) {p : Packet} (hp : p ∈ (s.client c).inbound)
    (hm : p.message.message = .createAccept u) : u ∈ s.server.mTree := by
  obtain ⟨w, hone, hphase⟩ := h.phase
  obtain ⟨call, before, after, rfl⟩ := hone.eq_coming hp (by rintro ⟨tag, add, del, rfl⟩; cases hm)
  rw [hm] at hphase
  cases hphase with
  | creating x hx => cases hx
  | deleting x v a hx => cases hx
  | accepted x v hx hu =>
    cases hx
    exact mem_mTree_of_inUse hu
  | deleted x v a hx => cases hx

/-- A `create` returns the node that the server has answered with. -/
theorem Reached.returnsCreated (h : plan.Reached s₀ s) (hc : c ∈ plan.members) {x : Addr} {r : ℕ}
    {y : Tagged} (ht : (s.client c).threads[plan.caller c]? = some ⟨.create x name, .answered r y⟩)
    (hstep : Step s (.client c (.proceed (plan.caller c))) s') :
    ReturnsCreated s s' c (plan.caller c) (.create x name) y.message := by
  have hmem := h.looping.member c hc
  obtain ⟨w, hone, hphase⟩ := hmem.phase
  obtain rfl := hone.eq_got ht
  obtain ⟨b, k', sent, heq, hk', hcl⟩ := (client_of_step hstep c).resolve_right fun hno => hno.1 _ rfl
  cases heq
  obtain ⟨-, rfl, call, m, hw, hrespond, -⟩ := hone.proceed hk'
  cases hw
  have hguard : Guarded (plan.Loops s₀) Step s (.client c (.proceed (plan.caller c))) s' :=
    ⟨⟨hc, trivial⟩, hstep⟩
  have hmem' := (h.step hguard).looping.member c hc
  cases hphase with
  | creating x hx => cases hx
  | accepted x u hx hu =>
    have hm : y.message = .createAccept u := Option.some.inj hx
    rw [hm] at hrespond ⊢
    cases hrespond
    -- the call has ended with what the mirror holds under the uuid
    have hresults : (s'.client c).results = (s.client c).results ++ [(plan.caller c,
        .create (plan.object c) (plan.name c), .property (s'.client c).mirror.mTree[u]?)] := by
      rw [hcl]; rfl
    have hlast : (plan.caller c, .create (plan.object c) (plan.name c),
        .property (s'.client c).mirror.mTree[u]?) ∈ resultsSince s₀ s' c := by
      rw [resultsSince, hresults, List.drop_append_of_le_length hmem.results]
      simp
    obtain ⟨_, _, a, heq⟩ | ⟨a, heq⟩ := hmem'.right _ hlast
    · have ha : (s'.client c).mirror.mTree[u]? = some a := by simpa using congrArg Prod.snd heq
      obtain ⟨node, hnode, huuid⟩ := hmem'.anchored.wellFormed.mTree_heap ha
      exact ⟨u, a, node, rfl, mem_mTree_of_inUse hu, by rw [hresults, ha], hnode, huuid⟩
    · cases congrArg Prod.fst heq

/-- The client begins the next call when it is in none. -/
theorem Reached.begins (h : plan.Reached s₀ s) (hc : c ∈ plan.members)
    (ht : (s.client c).threads[plan.caller c]? = none) :
    ∃ s', Guarded (plan.Loops s₀) Step s (.client c (.start (plan.caller c) (plan.next s₀ s c))) s' := by
  have hmem := h.looping.member c hc
  obtain ⟨k, hk⟩ := Option.ne_none_iff_exists'.mp hmem.client
  obtain ⟨w, hone, hphase⟩ := hmem.phase
  have hstart : ∀ (call : ApiCall) {node : Client.Node}, call.found (s.client c).mirror = none →
      call ≠ .signin → (∀ x value, call ≠ .set x value) → call.object (s.client c).mirror = some node →
        plan.next s₀ s c = call → ∃ s', Guarded (plan.Loops s₀) Step s
          (.client c (.start (plan.caller c) (plan.next s₀ s c))) s' := by
    intro call node hfound hsignin hset hnode hnext
    have hstep := hone.step_start ht hfound hsignin hset hnode s.requests.length
    rw [client_of_some hk] at hstep
    rw [hnext]
    exact ⟨_, ⟨hc, rfl, hnext.symm⟩, step_of_client hk hstep⟩
  cases w with
  | some y =>
    obtain ⟨stage, ht'⟩ := hone.thread
    cases ht.symm.trans ht'
  | none =>
    cases hphase with
    | vacant hfree hsil hlacks hn =>
      obtain ⟨node, hnode, -⟩ := hmem.anchored.wellFormed.mTree_heap hmem.anchored.parent
      exact hstart _ hlacks.found_eq_none (by simp) (by simp) hnode hn
    | created u a hu hua ha hn =>
      obtain ⟨node, hnode, -⟩ := ha
      exact hstart (.destroy a) rfl (by simp) (by simp) hnode hn

/-- Clients that create and destroy nodes below one parent, each under a name of its own, do not get into
each other's way, in whatever order the clients, their readers and the server take their steps. -/
theorem undisturbed_of_run (plan : Plan) (hrun : Run (Guarded FewCreates Step) .init as s₀)
    (hready : plan.Ready s₀) (h : Run (Guarded (plan.Loops s₀) Step) s₀ bs s) (hc : c ∈ plan.members) :
    plan.Undisturbed s₀ s c := by
  have hr := reached_of_run hrun hready h
  have hmem := hr.looping.member c hc
  exact ⟨hmem.right, fun p hp u hm => hmem.mem_mTree_of_answer hp hm,
    fun ht hstep => hr.returnsCreated hc ht hstep, hr.begins hc, hr.ends hc⟩

/-- Thread 0 of the client on `c` sends its request. -/
def requestActions (c : Conn) (call : ApiCall) : List System.Action :=
  [.client c (.start 0 call), .client c (.fetchId 0), .client c (.send 0)]

/-- Two clients that create and destroy a child of the root each. -/
def pair : Plan where
  parent := 0
  members := [1, 2]
  caller _ := 0
  object _ := 0
  name c := if c = 1 then [97] else [98]
  name_inj := by decide

/-- The first client is told of the second one's node before it has its own, and is answered its `destroy`
before it is told of the end of its node.  Then it creates another one, while the second one destroys. -/
def pairActions : List System.Action :=
  requestActions 1 (.create 0 [97]) ++ requestActions 2 (.create 0 [98]) ++
    [.serve 2, .serve 1, .client 1 .read, .client 1 .read] ++ takeActions 1 ++
    requestActions 1 (.destroy 2) ++ [.serve 1, .client 2 .read] ++ takeActions 2 ++
    [.client 1 .read, .client 1 .read] ++ takeActions 1 ++ requestActions 1 (.create 0 [97]) ++
    requestActions 2 (.destroy 1) ++ [.serve 2, .serve 1] ++ List.replicate 5 (.client 2 .read) ++
    takeActions 2

/-- The two clients do not disturb each other. -/
theorem undisturbed_pair : ∃ s₀ s,
    Run (Guarded FewCreates Step) .init (signinActions 1 ++ signinActions 2) s₀ ∧
    Run (Guarded (pair.Loops s₀) Step) s₀ pairActions s ∧
      resultsSince s₀ s 1 = [(0, .create 0 [97], .property (some 2)), (0, .destroy 2, .bool true)] ∧
        resultsSince s₀ s 2 = [(0, .create 0 [98], .property (some 1)), (0, .destroy 1, .bool true)] ∧
          (.createAccept 3) ∈ (s.client 1).inbound.map (fun p => p.message.message) ∧
            pair.Undisturbed s₀ s 1 ∧ pair.Undisturbed s₀ s 2 := by
  obtain ⟨s₀, hs₀, h⟩ := (Option.any_eq_true _ _).mp (show (follow System.step
      (fun s a => decide (FewCreates s a)) .init (signinActions 1 ++ signinActions 2)).any (fun s₀ =>
        decide (pair.Ready s₀) && (follow System.step (fun s a => decide (pair.Loops s₀ s a)) s₀
          pairActions).any fun s =>
            decide (resultsSince s₀ s 1 =
              [(0, .create 0 [97], .property (some 2)), (0, .destroy 2, .bool true)]) &&
            decide (resultsSince s₀ s 2 =
              [(0, .create 0 [98], .property (some 1)), (0, .destroy 1, .bool true)]) &&
            decide ((.createAccept 3) ∈ (s.client 1).inbound.map (fun p => p.message.message))) = true by
    decide +kernel)
  simp only [Bool.and_eq_true, decide_eq_true_eq, Option.any_eq_true] at h
  obtain ⟨hready, s, hs, ⟨hfirst, hsecond⟩, hanswer⟩ := h
  have hrun₀ := (run_of_follow System.step hs₀).mono fun s a s' hst =>
    (⟨of_decide_eq_true hst.1, hst.2⟩ : Guarded FewCreates Step s a s')
  have hrun := (run_of_follow System.step hs).mono fun s a s' hst =>
    (⟨of_decide_eq_true hst.1, hst.2⟩ : Guarded (pair.Loops s₀) Step s a s')
  exact ⟨s₀, s, hrun₀, hrun, hfirst, hsecond, hanswer,
    undisturbed_of_run pair hrun₀ hready hrun (by decide),
    undisturbed_of_run pair hrun₀ hready hrun (by decide)⟩

end Plan

end PropertyTree.System
