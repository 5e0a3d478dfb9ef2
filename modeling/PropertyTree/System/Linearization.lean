import PropertyTree.Library.Linearization
import PropertyTree.Library.NamedHistory
import PropertyTree.System.Values

/-!
# The calls of all clients as calls of one store

`create`, `destroy`, `set`, `commit` and `fetch` ask the server for something that it does in one step, and
return what it has answered.  So whatever the threads of all the clients do at the same time, the answers
are those of one store that is asked by one of them after the other, and a call that has returned before
another one has been sent comes before it.  So a name is a lock: whoever has created a node with it has it
below its parent until somebody asks for the deletion of the node.  This is said of the calls that ask the server: a `create` whose
name is in the client's own children map returns the node it finds there, which may be deleted already.
-/

namespace PropertyTree

namespace Server

open Library

variable {s s' : ProtocolHandler} {σ : Store UInt64 Name Buffer} {c d : Conn} {o : List Output}

/-- The answer of the store that a message carries. -/
def storeResponse : PropertyTreeMessages → Option (Response UInt64 Buffer)
  | .createAccept uuid => some (.created uuid)
  | .createReject .notFound => some .parentNotFound
  | .createReject .alreadyExist => some .alreadyExist
  | .deleteResponse .ok => some .deleted
  | .deleteResponse .notFound => some .deleteNotFound
  | .deleteResponse .notEmpty => some .notEmpty
  | .setValueAccept _ => some .stored
  | .getAccept data => some (.value data)
  | .getReject .notFound => some .getNotFound
  | _ => none

theorem storeResponse_answer (r : Response UInt64 Buffer) : storeResponse (answer r) = some r := by
  cases r <;> rfl

/-- What carries an answer of the store is no notification and no reply to an RPC. -/
theorem isServerInitiated_of_storeResponse {m : PropertyTreeMessages} {r : Response UInt64 Buffer}
    (h : storeResponse m = some r) : m.isServerInitiated = false ∧ m.isRpcReply = false := by
  cases m <;> first | exact ⟨rfl, rfl⟩ | exact absurd h (Option.some_ne_none r).symm

/-- Only requests to the store lead to answers of it. -/
theorem storeRequest_of_leadsTo {q m : PropertyTreeMessages} {r : Response UInt64 Buffer}
    (hq : q.leadsTo m = true) (h : storeResponse m = some r) : (storeRequest q).isSome := by
  cases q <;> cases m <;> first | rfl | exact absurd hq Bool.false_ne_true |
    exact absurd h (Option.some_ne_none r).symm

/-- A message that is handled is no request to the store, and leads to no answer of it, or it is one,
and the only answer that is sent is the one of the store. -/
theorem Simulates.exchange_or {n : PropertyTreeMessage} (h : Simulates σ (.message d n, o) s')
    (hstep : StepResult s (.message d n) s' o) :
    (storeRequest n.message = none ∧ Represents s' σ ∧
      ∀ {c m r}, .send c m ∈ o → storeResponse m.message ≠ some r) ∨
    ∃ req res τ, storeRequest n.message = some req ∧ Store.Step [] σ (req, res) τ ∧
      Represents s' τ ∧ ∀ {c m r}, .send c m ∈ o → storeResponse m.message = some r → res = some r := by
  obtain ⟨t, q⟩ := n
  cases h with
  | exchange al τ hl hexchange hal hR =>
    obtain ⟨req, res⟩ := al
    obtain ⟨c', t', q', he, hq, ho⟩ := hal
    cases he
    refine .inr ⟨req, res, τ, hq, hexchange, hR, fun {c m r} hm hr => ?_⟩
    have hmem : (c, m) ∈ responses o :=
      List.mem_filterMap.mpr ⟨_, hm, by simp [(isServerInitiated_of_storeResponse hr).1]⟩
    rw [ho] at hmem
    obtain ⟨r', hr', hans⟩ := List.mem_map.mp hmem
    cases hans
    rw [storeResponse_answer, Option.some.injEq] at hr
    rw [← hr]
    exact Option.mem_toList.mp hr'
  | silent hl hR =>
    have hnone : storeRequest q = none := Option.isSome_eq_false_iff.mp hl |> Option.isNone_iff_eq_none.mp
    refine .inl ⟨hnone, hR, fun {c m r} hm hr => ?_⟩
    obtain ⟨hnot, hreply⟩ := isServerInitiated_of_storeResponse hr
    rcases hstep.leadsTo hm with hn | hlead | ⟨hq, heq⟩
    · rw [PropertyTreeMessages.isServerInitiated_of_isNotification hn] at hnot
      cases hnot
    · have hsome := storeRequest_of_leadsTo hlead hr
      rw [hnone] at hsome
      cases hsome
    · rw [heq, hq] at hreply
      cases hreply

end Server

namespace System

open Library Server Client

variable {s s' : System} {act : System.Action} {c d : Conn} {k k' : Client} {w w' : Watched}
  {as : List System.Action}

/-! ## Who is signed in -/

/-- The client on `c` is signed in when there is something other than its `SigninRequest` on its way to
the server. -/
def AsksSignedIn (s : System) (c : Conn) : Prop :=
  (∀ p ∈ (s.client c).outbound, p.message.message = .signinRequest 0) ∨
    (∃ sid, SignedIn s.server c sid) ∧
      ∀ p ∈ (s.client c).outbound, isSignin (.message c p.message) = false

/-- In a run with few sign-ins every client that asks for something is signed in, also after it has
closed its connection. -/
theorem asksSignedIn_of_run {C : System → System.Action → Prop} (hC : ∀ {s a}, C s a → FewSignins s a)
    (h : Run (Guarded C Step) .init as s) (c : Conn) : AsksSignedIn s c := by
  generalize hinit : System.init = s₀ at h
  induction h generalizing c with
  | nil =>
    subst hinit
    exact .inl (by simp [client, init, Client.new])
  | @snoc t v as a run step ih =>
    subst hinit
    have henter := enters_of_run hC (run.snoc step) c
    by_cases hopen : (v.client c).status ≠ .closed
    · rcases henter hopen with hent | hjoin
      · exact .inl fun p hp => hent.outbound hp
      · exact .inr ⟨hjoin.signedIn, fun p hp => hjoin.outbound hp⟩
    -- a closed client sends nothing
    rw [not_not] at hopen
    have hlog := log_of_run run.of_guarded
    have hfresh := sessionsFresh_of_run hlog (signins_of_run hC run)
    cases step_cases step.2 with
    | connect d hd =>
      rw [AsksSignedIn, client_connect hd]
      exact ih c
    | client d a k k' sent hk hkopen hres =>
      have hcl : client { t with
          clients := t.clients.insert d { k' with outbound := k'.outbound ++ sent }
          requests := t.requests ++ requestsOf d sent
          answers := t.answers ++ answersOf d sent } c =
            if c = d then { k' with outbound := k'.outbound ++ sent } else t.client c :=
        client_of_clients rfl c
      rw [AsksSignedIn, hcl]
      rw [hcl] at hopen
      have hih := ih c
      split_ifs at hopen ⊢ with hcd
      · subst hcd
        rw [AsksSignedIn, client_of_some hk] at hih
        rwa [eq_nil_of_closed hres hkopen hopen, List.append_nil, outbound_of_stepResult hres]
      · exact hih
    | serve d k p outbound server o hk hout ht hok =>
      obtain ⟨ms, -, hcl⟩ := exists_client_afterServe hk p outbound server o c
      change AsksSignedIn (afterServe t d k p outbound server o) c
      have hsub : ∀ q ∈ ((afterServe t d k p outbound server o).client c).outbound,
          q ∈ (t.client c).outbound := fun q hq => mem_outbound_afterServe hk hout hq
      rcases ih c with hall | ⟨⟨sid, hsid⟩, hnone⟩
      · exact .inl fun q hq => hall q (hsub q hq)
      · refine .inr ⟨⟨sid, hsid.step hfresh (Server.step_cases hok).sessionChange ?_ (by simp)⟩,
          fun q hq => hnone q (hsub q hq)⟩
        by_cases hcd : c = d
        · subst hcd
          have hp := hnone p (by rw [client_of_some hk, hout]; exact List.mem_cons_self)
          exact Bool.eq_false_iff.mpr fun hs => by rw [isSignin_of_isSigninOf hs] at hp; cases hp
        · exact isSigninOf_of_ne hcd p.message
    | disconnect d k server o hk hclosed hok =>
      rw [AsksSignedIn, client_disconnect hk rfl c]
      by_cases hcd : c = d
      · exact .inl (by simp [hcd])
      · rw [if_neg hcd]
        refine (ih c).imp_right ?_
        rintro ⟨⟨sid, hsid⟩, hnone⟩
        refine ⟨⟨sid, ?_⟩, hnone⟩
        exact hsid.step hfresh (Server.step_cases hok).sessionChange rfl
          fun heq => hcd (Event.disconnect.inj heq).symm

/-! ## The answers of calls -/

/-- A call that has got a response has got that to its own request, which the server has given. -/
theorem response_of_run (h : Run (Guarded Settled Watched.Step) .init as w) {i : ThreadId}
    {th : Thread} {r : ℕ} {m : Tagged} (hi : (w.system.client c).threads[i]? = some th)
    (hres : th.stage.response = some (r, m)) :
    m.tag = r ∧ ∃ t, Responded w.system c ⟨m.tag, t, m.message⟩ := by
  generalize hinit : Watched.init = w₀ at h
  induction h generalizing i th r m with
  | nil =>
    subst hinit
    rw [show Watched.init.system.client c = .new by simp [client, Watched.init, init]] at hi
    rcases thread_of_insert hi with ⟨-, rfl⟩ | ⟨-, hi⟩
    · cases hres
    · simp at hi
  | @snoc v w as a run step ih =>
    subst hinit
    have hown := owned_of_run (run.snoc step) c
    have hstep := (Watched.step_iff.mp step.2).1
    have hold : ∀ {i : ThreadId} {th : Thread} {r : ℕ} {m : Tagged},
        (v.system.client c).threads[i]? = some th → th.stage.response = some (r, m) →
          m.tag = r ∧ ∃ t, Responded w.system c ⟨m.tag, t, m.message⟩ := fun hi hres =>
      (ih hi hres).imp_right fun ht => ⟨ht.choose, ht.choose_spec.mono (step_cases hstep).recorded⟩
    rcases client_of_step hstep c with ⟨b, k', sent, rfl, hb, hcl⟩ | ⟨-, l, outbound, hcl⟩
    · have hthreads : (w.system.client c).threads = k'.threads := by rw [hcl]
      rw [hthreads] at hi
      -- a thread has gone on
      have hinsert : ∀ {j : ThreadId} {th' : Thread}, k'.threads =
          (v.system.client c).threads.insert j th' → (∀ r m, th'.stage.response = some (r, m) →
            m.tag = r ∧ ∃ t, Responded w.system c ⟨m.tag, t, m.message⟩) →
              m.tag = r ∧ ∃ t, Responded w.system c ⟨m.tag, t, m.message⟩ := by
        intro j th' hth hnew
        rw [hth] at hi
        rcases thread_of_insert hi with ⟨-, rfl⟩ | ⟨-, hi⟩
        · exact hnew r m hres
        · exact hold hi hres
      cases (Client.step_cases hb).2.transactionChange with
      | other a ha hin hx hid hkeep => exact hold (hkeep (by simp [hres]) hi) hres
      | draw j call stage q ht hnone hid hin hx hth => exact hinsert hth (by simp [Stage.response])
      | send j call q trId ht hin hx hth => exact hinsert hth (by simp [Stage.response])
      | take j call trId r' response ht hsat hin hx hth =>
        refine hinsert hth ?_
        rintro r₁ m₁ ⟨⟩
        refine (hown.taken (i := j) (t := trId) ?_).imp_right fun hresp => ⟨_, hresp⟩
        rw [wait, hthreads, hth, Std.ExtTreeMap.getElem?_insert_self]
        rfl
      | timeout j call trId r' ht hin hx hth =>
        rw [hth] at hi
        exact hold (thread_of_erase hi).2 hres
      | erase j call trId r' response ht hin hx hth =>
        refine hinsert hth ?_
        rintro r₁ m₁ ⟨⟩
        exact hold ht rfl
      | satisfy p x hin hsat hx hth => exact hold (hth ▸ hi) hres
      | dispatch p sent hin hnone hx hth hsent => exact hold (hth ▸ hi) hres
    · rw [hcl] at hi
      exact hold hi hres

/-! ## The history -/

/-- A system with the history of the calls that ask the store.  A call that returns without a request, as
`create` does when the name is in the mirror, is not part of it. -/
structure Observed where
  watched : Watched
  history : List (CallEvent (Request UInt64 Name Buffer) (Response UInt64 Buffer))

namespace Observed

/-- The system before the first client. -/
def init : Observed :=
  ⟨.init, []⟩

/-- The call that a step makes, when its request is sent, or the call that returns in it. -/
def calls (s : System) :
    System.Action → List (CallEvent (Request UInt64 Name Buffer) (Response UInt64 Buffer))
  | .client c (.send i) =>
    match (s.client c).threads[i]? with
    | some ⟨_, .numbered q _⟩ => (storeRequest q).toList.map (.invoke s.requests.length)
    | _ => []
  | .client c (.proceed i) =>
    match (s.client c).threads[i]? with
    | some ⟨_, .answered r response⟩ => (storeResponse response.message).toList.map (.ret r)
    | _ => []
  | _ => []

/-- One step of the system, with what it adds to the history. -/
def step (o : Observed) (a : System.Action) : Option Observed :=
  (o.watched.step a).map fun w => ⟨w, o.history ++ calls o.watched.system a⟩

/-- The steps, as a relation. -/
abbrev Step : Observed → System.Action → Observed → Prop :=
  Follows step

theorem step_iff {o o' : Observed} {a : System.Action} :
    Step o a o' ↔ Watched.Step o.watched a o'.watched ∧
      o'.history = o.history ++ calls o.watched.system a := by
  obtain ⟨w', history'⟩ := o'
  change Option.map _ _ = some _ ↔ Watched.step _ _ = some _ ∧ _
  simp only [Option.map_eq_some_iff, mk.injEq]
  constructor
  · rintro ⟨w, hw, rfl, rfl⟩
    exact ⟨hw, rfl⟩
  · rintro ⟨hw, rfl⟩
    exact ⟨w', hw, rfl, rfl⟩

end Observed

/-- Whether the message is the command that ends the server. -/
def endsServer : PropertyTreeMessages → Bool
  | .setValueRequest uuid data => ProtocolHandler.isTerminate uuid data
  | _ => false

/-- The server is not sent the command that ends it. -/
def NotTerminated (s : System) : System.Action → Prop
  | .serve c => ∀ p ∈ s.next c, endsServer p.message.message = false
  | _ => True

instance (s : System) (a : System.Action) : Decidable (NotTerminated s a) :=
  match a with
  | .serve c => inferInstanceAs (Decidable (∀ p ∈ s.next c, endsServer p.message.message = false))
  | .connect _ | .client _ _ | .disconnect _ => .isTrue trivial

/-! ## The invariant -/

/-- An answer of the store is that of an operation that has been carried out. -/
def Committed (ops : List (ℕ × Request UInt64 Name Buffer × Option (Response UInt64 Buffer)))
    (x : Tagged) : Prop :=
  ∀ r, storeResponse x.message = some r → ∃ req, (x.tag, req, some r) ∈ ops

/-- The operations explain what has been called, and what is on its way: requests have not been carried
out, and answers are those of operations that have been. -/
structure Explains (s : System)
    (history : List (CallEvent (Request UInt64 Name Buffer) (Response UInt64 Buffer)))
    (ops : List (ℕ × Request UInt64 Name Buffer × Option (Response UInt64 Buffer)))
    (σ : Store UInt64 Name Buffer) : Prop where
  linearization : Linearization (Store.Step []) rootStore history ops σ
  represents : Represents s.server σ
  numbered : ∀ n ∈ history.filterMap CallEvent.invoked, n < s.requests.length
  waiting : ∀ {c p req}, p ∈ (s.client c).outbound → storeRequest p.message.message = some req →
    .invoke p.tag req ∈ history ∧ p.tag ∉ ops.map Prod.fst
  inbound : ∀ {c p}, p ∈ (s.client c).inbound → Committed ops p.body
  held : ∀ {c x}, Held (s.client c) x → Committed ops x

section Explains

variable {history history' : List (CallEvent (Request UInt64 Name Buffer) (Response UInt64 Buffer))}
  {ops : List (ℕ × Request UInt64 Name Buffer × Option (Response UInt64 Buffer))}
  {σ : Store UInt64 Name Buffer}

/-- A client that is left alone apart from its queues. -/
theorem held_of_eq {inbound outbound : List Packet} {x : Tagged}
    (h : Held { k with inbound := inbound, outbound := outbound } x) : Held k x := by
  cases h with
  | stored t ht => exact .stored t ht
  | inHand i th hi hx => exact .inHand i th hi hx

/-- What a client sends is the request of one of its threads, or a reply to an RPC. -/
theorem storeRequest_of_mem_sent {number : ℕ} {a : Client.Action} {sent : List Packet}
    (h : Client.StepResult k number a k' sent) {p : Packet} (hp : p ∈ sent)
    {req : Request UInt64 Name Buffer} (hq : storeRequest p.message.message = some req) :
    ∃ i call t q, a = .send i ∧ k.threads[i]? = some ⟨call, .numbered q t⟩ ∧ sent = [⟨number, t, q⟩] := by
  cases h with
  | send i call q t ht => exact ⟨i, call, t, q, rfl, ht, rfl⟩
  | rpcRequest tag t uuid param inbound hr hin hx =>
    obtain rfl := List.mem_singleton.mp hp
    have hreply := isRpcReply_rpcReply k uuid param
    rcases isRpcReply_iff.mpr hreply with ⟨value, hv⟩ | ⟨cause, hv⟩ <;>
      rw [show storeRequest (k.rpcReply uuid param) = none by rw [hv]; rfl] at hq <;> cases hq
  | _ => cases hp

/-- A step that neither makes a call nor returns from one, and leaves the server alone. -/
theorem Explains.congr (h : Explains s history ops σ) (hserver : s'.server = s.server)
    (hreq : s.requests.length ≤ s'.requests.length)
    (hout : ∀ c, (s'.client c).outbound = (s.client c).outbound)
    (hin : ∀ {c p}, p ∈ (s'.client c).inbound → Committed ops p.body)
    (hheld : ∀ {c x}, Held (s'.client c) x → Committed ops x) : Explains s' history ops σ where
  linearization := h.linearization
  represents := hserver ▸ h.represents
  numbered := fun n hn => lt_of_lt_of_le (h.numbered n hn) hreq
  waiting := fun {c} _ _ hp => h.waiting (hout c ▸ hp)
  inbound := hin
  held := hheld

/-- The requests of one client have different numbers, and so have those of two clients. -/
theorem tag_ne_of_outbound (hsound : Sound s) (hcorr : Correlated s) {p q : Packet}
    {outbound : List Packet} (hk : s.clients[d]? = some k) (hout : k.outbound = p :: outbound)
    (hp : p.message.message.isRequest = true) (hq : q.message.message.isRequest = true)
    (hmem : q ∈ if c = d then outbound else (s.client c).outbound) : q.tag ≠ p.tag := by
  intro heq
  have hpd : p.tag ∈ requestTags (s.client d) := by
    rw [client_of_some hk, requestTags, hout]
    exact List.mem_filterMap.mpr ⟨p, List.mem_cons_self, if_pos hp⟩
  split_ifs at hmem with hcd
  · have hnodup := hcorr.requests_nodup d
    rw [client_of_some hk, requestTags, hout, List.filterMap_cons, if_pos hp] at hnodup
    exact (List.nodup_cons.mp hnodup).1 (List.mem_filterMap.mpr ⟨q, hmem, by rw [if_pos hq, heq]⟩)
  · have hqc : q.tag ∈ requestTags (s.client c) :=
      List.mem_filterMap.mpr ⟨q, hmem, if_pos hq⟩
    obtain ⟨m, hm⟩ := lt_of_mem_requestTags hsound hpd
    obtain ⟨m', hm'⟩ := lt_of_mem_requestTags hsound hqc
    rw [heq, hm] at hm'
    cases hm'
    exact hcd rfl

/-- A request to the store is a request. -/
theorem isRequest_of_storeRequest {m : PropertyTreeMessages} {req : Request UInt64 Name Buffer}
    (h : storeRequest m = some req) : m.isRequest = true := by
  cases m <;> first | rfl | exact absurd h (Option.some_ne_none req).symm

/-- The server handles a message: a request to the store takes effect. -/
theorem Explains.serve (h : Explains s history ops σ) (hsound : Sound s) (hcorr : Correlated s)
    (hw : WellLinked s.server) (hi : Indexed s.server) {p : Packet} {outbound : List Packet}
    {server : ProtocolHandler} {o : List Output} (hk : s.clients[d]? = some k)
    (hout : k.outbound = p :: outbound) (hadm : admissible s.server (.message d p.message) = true)
    (hok : s.server.step (.message d p.message) = .ok (server, o)) :
    ∃ ops' σ', Explains (afterServe s d k p outbound server o) history ops' σ' := by
  have hres := Server.step_cases hok
  have hsim := h.represents.step hw hi hadm hres
  have hclient := exists_client_afterServe hk p outbound server o
  have hpmem : p ∈ (s.client d).outbound := by
    rw [client_of_some hk, hout]
    exact List.mem_cons_self
  have hold : ∀ {c q}, q ∈ ((afterServe s d k p outbound server o).client c).outbound →
      q ∈ (s.client c).outbound := fun hq => mem_outbound_afterServe hk hout hq
  -- the operations that are added, and what they are for the answers that are sent
  suffices hcase : ∃ l σ', Linearization (Store.Step []) rootStore history (ops ++ l) σ' ∧
      Represents server σ' ∧ (∀ x ∈ l, x.1 = p.tag ∧ p.message.message.isRequest = true) ∧
        ∀ {c m}, .send c m ∈ o → Committed (ops ++ l) ⟨p.tag, m.message⟩ by
    obtain ⟨l, σ', hlin, hR, hl, hnew⟩ := hcase
    have hmono : ∀ {x}, Committed ops x → Committed (ops ++ l) x := by
      intro x hx r hr
      obtain ⟨req, hmem⟩ := hx r hr
      exact ⟨req, List.mem_append_left _ hmem⟩
    refine ⟨ops ++ l, σ', hlin, hR, h.numbered, fun {c q req} hq hreq => ?_, fun {c q} hq => ?_,
      fun {c x} hx => ?_⟩
    · obtain ⟨hinv, hnot⟩ := h.waiting (hold hq) hreq
      refine ⟨hinv, ?_⟩
      rw [List.map_append, List.mem_append, not_or]
      refine ⟨hnot, fun hmem => ?_⟩
      obtain ⟨x, hx, hxq⟩ := List.mem_map.mp hmem
      obtain ⟨hxp, hpreq⟩ := hl x hx
      obtain ⟨ms, -, hcl⟩ := hclient c
      rw [hcl] at hq
      exact tag_ne_of_outbound hsound hcorr hk hout hpreq (isRequest_of_storeRequest hreq) hq
        (hxq.symm.trans hxp)
    · obtain ⟨ms, hms, hcl⟩ := hclient c
      rw [hcl] at hq
      rcases List.mem_append.mp hq with hq | hq
      · exact hmono (h.inbound hq)
      · obtain ⟨m, hm, rfl⟩ := List.mem_map.mp hq
        exact hnew (mem_sentTo (hms.subset hm))
    · obtain ⟨ms, -, hcl⟩ := hclient c
      rw [hcl] at hx
      exact hmono (h.held (held_of_eq hx))
  rcases hsim.exchange_or hres with ⟨hreq, hR, hnone⟩ | ⟨req, res, τ, hreq, hstep, hR, hsome⟩
  · refine ⟨[], σ, ?_, hR, by simp, fun {c m} hm r hr => absurd hr (hnone hm)⟩
    rw [List.append_nil]
    exact h.linearization
  · obtain ⟨hinv, hnot⟩ := h.waiting hpmem hreq
    refine ⟨[(p.tag, req, res)], τ, h.linearization.commit hstep hinv hnot, hR, ?_,
      fun {c m} hm r hr => ⟨req, ?_⟩⟩
    · intro x hx
      obtain rfl := List.mem_singleton.mp hx
      exact ⟨rfl, isRequest_of_storeRequest hreq⟩
    · rw [hsome hm hr]
      exact List.mem_append_right _ List.mem_cons_self

/-- A client takes a step: a call is made, or returns, or nothing is said of the store. -/
theorem Explains.client_step (h : Explains s history ops σ) {a : Client.Action} {sent : List Packet}
    (hk : s.clients[d]? = some k) (hres : Client.StepResult k s.requests.length a k' sent)
    (htag : ∀ {i : ThreadId} {th : Thread} {r : ℕ} {m : Tagged}, k.threads[i]? = some th → th.stage.response = some (r, m) → m.tag = r)
    (hclients : s'.clients = s.clients.insert d { k' with outbound := k'.outbound ++ sent })
    (hserver : s'.server = s.server) (hreq : s'.requests = s.requests ++ requestsOf d sent) :
    Explains s' (history ++ Observed.calls s (.client d a)) ops σ := by
  have hkc := client_of_some hk
  have hcl := client_of_clients hclients
  have hlen : s.requests.length ≤ s'.requests.length := by
    rw [hreq, List.length_append]
    exact Nat.le_add_right _ _
  -- what a client holds is not touched by calls
  have hin : ∀ {c p}, p ∈ (s'.client c).inbound → Committed ops p.body := by
    intro c p hp
    rw [hcl] at hp
    split_ifs at hp with hcd
    · refine h.inbound (c := d) (hkc ▸ ?_)
      rcases inbound_of_change hres.transactionChange with hin | ⟨q, hin⟩
      · exact hin ▸ hp
      · exact hin ▸ List.mem_cons_of_mem q hp
    · exact h.inbound hp
  have hheld : ∀ {c x}, Held (s'.client c) x → Committed ops x := by
    intro c x hx
    rw [hcl] at hx
    split_ifs at hx with hcd
    · refine hres.held (P := Committed ops) (fun hx => h.held (c := d) (hkc ▸ hx))
        (fun {_ _ _ _} _ _ r hr => absurd hr (Option.some_ne_none r).symm) (fun {p} hp => ?_) (x := x) ?_
      · exact h.inbound (c := d) (hkc ▸ hp ▸ List.mem_cons_self)
      · exact held_of_eq hx
    · exact h.held hx
  -- the requests that wait were there, or are the one that is sent
  have hwait : ∀ {c p req}, p ∈ (s'.client c).outbound → storeRequest p.message.message = some req →
      p ∈ (s.client c).outbound ∨ p ∈ sent := by
    intro c p req hp hq
    rw [hcl] at hp
    split_ifs at hp with hcd
    · subst hcd
      rw [hkc]
      simp only [List.mem_append, outbound_of_stepResult hres] at hp
      exact hp
    · exact .inl hp
  have hquiet : Observed.calls s (.client d a) = [] →
      (∀ p ∈ sent, storeRequest p.message.message = none) →
        Explains s' (history ++ Observed.calls s (.client d a)) ops σ := by
    intro hcalls hnone
    rw [hcalls, List.append_nil]
    refine ⟨h.linearization, hserver ▸ h.represents, fun n hn => lt_of_lt_of_le (h.numbered n hn) hlen,
      fun hp hq => ?_, hin, hheld⟩
    rcases hwait hp hq with hold | hnew
    · exact h.waiting hold hq
    · rw [hnone _ hnew] at hq
      cases hq
  have hnone : (∀ i, a ≠ .send i) → ∀ p ∈ sent, storeRequest p.message.message = none := by
    intro ha p hp
    refine Option.eq_none_iff_forall_ne_some.mpr fun req hq => ?_
    obtain ⟨i, -, -, -, hsend, -⟩ := storeRequest_of_mem_sent hres hp hq
    exact ha i hsend
  cases a with
  | send i =>
    cases hres with
    | send i call q t ht =>
      have hcalls : Observed.calls s (.client d (.send i)) =
          (storeRequest q).toList.map (.invoke s.requests.length) := by
        simp [Observed.calls, hkc, ht]
      cases hq : storeRequest q with
      | none =>
        refine hquiet (by rw [hcalls, hq]; rfl) fun p hp => ?_
        obtain rfl := List.mem_singleton.mp hp
        exact hq
      | some req =>
        rw [hcalls, hq]
        have hnew : s.requests.length ∉ history.filterMap CallEvent.invoked :=
          fun hmem => lt_irrefl _ (h.numbered _ hmem)
        refine ⟨h.linearization.invoke hnew req, hserver ▸ h.represents, fun n hn => ?_,
          fun hp hpq => ?_, hin, hheld⟩
        · rw [hreq, requestsOf, List.filterMap_cons, if_pos (isRequest_of_storeRequest hq),
            List.length_append]
          rw [List.filterMap_append, List.mem_append] at hn
          rcases hn with hn | hn
          · exact Nat.lt_add_right _ (h.numbered n hn)
          · obtain rfl : n = s.requests.length := by simpa [CallEvent.invoked] using hn
            simp
        · rcases hwait hp hpq with hold | hmem
          · exact (h.waiting hold hpq).imp_left fun hinv => List.mem_append_left _ hinv
          · obtain rfl := List.mem_singleton.mp hmem
            obtain rfl : req = _ := Option.some.inj (hq.symm.trans hpq)
            exact ⟨by simp, h.linearization.not_mem hnew⟩
  | proceed i =>
    have hnone := hnone (by simp)
    by_cases hcalls : Observed.calls s (.client d (.proceed i)) = []
    · exact hquiet hcalls hnone
    · -- the answer is that of the operation of this call
      obtain ⟨call, r, response, hi⟩ : ∃ call r response,
          k.threads[i]? = some ⟨call, .answered r response⟩ := by
        rw [Observed.calls, hkc] at hcalls
        split at hcalls
        · exact ⟨_, _, _, ‹_›⟩
        · exact absurd rfl hcalls
      cases hr : storeResponse response.message with
      | none => exact absurd (by simp [Observed.calls, hkc, hi, hr]) hcalls
      | some res =>
        have hcalls : Observed.calls s (.client d (.proceed i)) = [.ret r res] := by
          simp [Observed.calls, hkc, hi, hr]
        obtain ⟨req, hmem⟩ := h.held (c := d) (.inHand i _ (hkc ▸ hi) rfl) res hr
        rw [htag hi rfl] at hmem
        rw [hcalls]
        refine ⟨h.linearization.ret hmem, hserver ▸ h.represents, fun n hn => ?_, fun hp hq => ?_, hin,
          hheld⟩
        · rw [List.filterMap_append, List.mem_append] at hn
          exact lt_of_lt_of_le (h.numbered n (hn.resolve_right (by simp [CallEvent.invoked]))) hlen
        · rcases hwait hp hq with hold | hnew
          · exact (h.waiting hold hq).imp_left fun hinv => List.mem_append_left _ hinv
          · rw [hnone _ hnew] at hq
            cases hq
  | _ => exact hquiet rfl (hnone (by simp))

/-- What a client asks for while it is signed in is a request the store can carry out. -/
theorem admissible_of_next {p : Packet} (hasks : AsksSignedIn s d) (hp : p ∈ (s.client d).outbound)
    (hgoes : endsServer p.message.message = false) :
    admissible s.server (.message d p.message) = true := by
  obtain ⟨tag, t, m⟩ := p
  cases m with
  | createRequest name parentUuid =>
    rcases hasks with hall | ⟨⟨sid, hsid⟩, -⟩
    · cases hall _ hp
    · rw [admissible, Std.ExtTreeMap.contains_eq_isSome_getElem?, hsid.connection]
      rfl
  | setValueRequest uuid data =>
    rw [endsServer] at hgoes
    rw [admissible, hgoes]
    rfl
  | _ => rfl

/-- A step of the system keeps an explanation. -/
theorem Explains.step (h : Explains s history ops σ)
    (hrun : Run (Guarded FewUndisturbed Step) .init as s)
    (htag : ∀ {c} {i : ThreadId} {th : Thread} {r : ℕ} {m : Tagged},
      (s.client c).threads[i]? = some th → th.stage.response = some (r, m) → m.tag = r)
    (hgoes : NotTerminated s act) (hstep : StepResult s act s') :
    ∃ ops' σ', Explains s' (history ++ Observed.calls s act) ops' σ' := by
  have hlog := log_of_run hrun.of_guarded
  have hw := wellLinked_of_run hlog
  have hi := indexed_of_run hlog (creates_of_run (fun h => h.2) hrun)
  cases hstep with
  | connect d hd =>
    have hcl := client_connect hd
    refine ⟨ops, σ, ?_⟩
    rw [show Observed.calls s (.connect d) = [] from rfl, List.append_nil]
    refine h.congr rfl le_rfl (fun c => by rw [hcl]) (fun {c p} hp => ?_) fun {c x} hx => ?_
    · rw [hcl] at hp
      exact h.inbound hp
    · rw [hcl] at hx
      exact h.held hx
  | client d a k k' sent hk hopen hres =>
    exact ⟨ops, σ, h.client_step hk hres (fun hi hr => htag (client_of_some hk ▸ hi) hr) rfl rfl rfl⟩
  | serve d k p outbound server o hk hout ht hok =>
    rw [show Observed.calls s (.serve d) = [] from rfl, List.append_nil]
    have hp : p ∈ (s.client d).outbound := by
      rw [client_of_some hk, hout]
      exact List.mem_cons_self
    have hnext : p ∈ s.next d := by
      simp [next, hk, hout]
    exact h.serve (sound_of_run hrun.of_guarded) (correlated_of_run (fun h => h.1.1) hrun) hw hi hk hout
      (admissible_of_next (asksSignedIn_of_run (fun h => h.1.1.1) hrun d) hp (hgoes p hnext)) hok
  | disconnect d k server o hk hclosed hok =>
    rw [show Observed.calls s (.disconnect d) = [] from rfl, List.append_nil]
    have hcl : ∀ c, client { s with
        server := server
        clients := s.clients.insert d { k with outbound := [] }
        log := s.log ++ [(.disconnect d, o)] } c =
          { s.client c with outbound := if c = d then [] else (s.client c).outbound } :=
      client_disconnect hk rfl
    have hR : Represents server σ := by
      cases h.represents.step hw hi rfl (Server.step_cases hok) with
      | exchange al τ hl => cases hl
      | silent hl hR => exact hR
    refine ⟨ops, σ, h.linearization, hR, h.numbered, fun {c p req} hp hq => ?_, fun {c p} hp => ?_,
      fun {c x} hx => ?_⟩
    · rw [hcl] at hp
      split_ifs at hp with hcd
      · cases hp
      · exact h.waiting hp hq
    · rw [hcl] at hp
      exact h.inbound hp
    · rw [hcl] at hx
      exact h.held (held_of_eq hx)

end Explains

/-! ## Linearizability -/

/-- What is needed of every step: the conditions for what is on its way, and that the server goes on. -/
def Steady (o : Observed) (a : System.Action) : Prop :=
  Orderly o.watched a ∧ NotTerminated o.watched.system a

instance (o : Observed) (a : System.Action) : Decidable (Steady o a) :=
  inferInstanceAs (Decidable (Orderly o.watched a ∧ NotTerminated o.watched.system a))

/-- Two clients whose calls overlap: one creates a node while the other one sets the root, and fetches it
before the first call has returned. -/
def overlapActions : List System.Action :=
  signinActions 1 ++ signinActions 2 ++ [.client 1 (.start 0 (.create 0 [97])), .client 1 (.fetchId 0),
    .client 1 (.send 0)] ++ askActions 2 (.set 0 [7]) ++ [.client 2 .read] ++ takeActions 2 ++ [.serve 1] ++
      askActions 2 (.fetch 0) ++ [.client 2 .read, .client 2 .read] ++ takeActions 2 ++
        [.client 1 .read, .client 1 .read] ++ takeActions 1

/-- In every run the calls so far have an explanation. -/
theorem explains_of_run {o : Observed} (h : Run (Guarded Steady Observed.Step) .init as o) :
    ∃ ops σ, Explains o.watched.system o.history ops σ := by
  suffices hex : Run (Guarded Orderly Watched.Step) .init as o.watched ∧
      ∃ ops σ, Explains o.watched.system o.history ops σ from hex.2
  refine h.history (P := fun as o => Run (Guarded Orderly Watched.Step) .init as o.watched ∧
    ∃ ops σ, Explains o.watched.system o.history ops σ) ?_ ⟨.nil _, [], rootStore, ?_⟩
  · rintro as o a o' ⟨hrun, ops, σ, hex⟩ ⟨⟨hord, hgoes⟩, hstep⟩
    obtain ⟨hwatched, hhist⟩ := Observed.step_iff.mp hstep
    refine ⟨hrun.snoc ⟨hord, hwatched⟩, ?_⟩
    rw [hhist]
    exact hex.step (system_of_orderly hrun)
      (fun hi hr => (response_of_run (settled_of_orderly hrun) hi hr).1) hgoes
      (step_cases (Watched.step_iff.mp hwatched).1)
  · have hnew : ∀ c, Observed.init.watched.system.client c = .new := by
      simp [client, Observed.init, Watched.init, init]
    refine ⟨.nil _ _, represents_init, by simp [Observed.init], fun {c p req} hp => ?_,
      fun {c p} hp => ?_, fun {c x} hx => ?_⟩
    · rw [hnew] at hp
      cases hp
    · rw [hnew] at hp
      cases hp
    · rw [hnew] at hx
      cases hx with
      | stored t ht => simp [Client.new] at ht
      | inHand i th hi hx =>
        rcases thread_of_insert hi with ⟨-, rfl⟩ | ⟨-, hi⟩
        · cases hx
        · simp at hi

/-- In every run the calls by which the threads of all the clients ask the server are those of one store
that is asked by one of them after the other, and the server holds what that store holds in the end. -/
theorem linearizable_of_run {o : Observed} (h : Run (Guarded Steady Observed.Step) .init as o) :
    ∃ ops σ, Linearization (Store.Step []) rootStore o.history ops σ ∧
      Represents o.watched.system.server σ := by
  obtain ⟨ops, σ, hex⟩ := explains_of_run h
  exact ⟨ops, σ, hex.linearization, hex.represents⟩

/-- Three calls that overlap. -/
theorem linearizable_overlap : ∃ o : Observed, o.history.filterMap CallEvent.invoked = [2, 3, 4] ∧
    o.history.length = 6 ∧ ∃ ops σ, Linearization (Store.Step []) rootStore o.history ops σ ∧
      Represents o.watched.system.server σ := by
  obtain ⟨o, ho, h⟩ := (Option.any_eq_true _ _).mp (show (follow Observed.step
      (fun o a => decide (Steady o a)) .init overlapActions).any (fun o =>
        decide (o.history.filterMap CallEvent.invoked = [2, 3, 4]) && decide (o.history.length = 6)) =
          true by decide +kernel)
  simp only [Bool.and_eq_true, decide_eq_true_eq] at h
  have hrun := (run_of_follow Observed.step ho).mono fun o a o' hst =>
    (⟨of_decide_eq_true hst.1, hst.2⟩ : Guarded Steady Observed.Step o a o')
  exact ⟨o, h.1, h.2, linearizable_of_run hrun⟩

/-! ## Names as locks -/

section Names

variable {o : Observed}

/-- The store with the root only holds no name. -/
theorem rootStore_free (u p : UInt64) (name : Name) : ¬ rootStore.Holds u p name := by
  rintro ⟨e, hu, hp, -⟩
  rw [rootStore, Store.root] at hu
  by_cases h0 : u = 0
  · subst h0
    rw [Finmap.lookup_singleton_eq, Option.some.injEq] at hu
    rw [← hu] at hp
    cases hp
  · have hmem := Finmap.mem_of_lookup_eq_some hu
    rw [Finmap.mem_singleton] at hmem
    exact h0 hmem

/-- A client creates a node, destroys it, and creates it again. -/
def recreateActions : List System.Action :=
  signinActions 1 ++ askActions 1 (.create 0 [97]) ++ [.client 1 .read, .client 1 .read] ++ takeActions 1 ++
    askActions 1 (.destroy 1) ++ [.client 1 .read, .client 1 .read] ++ takeActions 1 ++
      askActions 1 (.create 0 [97]) ++ [.client 1 .read, .client 1 .read] ++ takeActions 1

/-- In every run a creation that succeeds after another one of the same name below the same node has
returned finds somebody to have asked for the deletion of the first node, and one that is told that the
name is taken is not the only one that has asked for it. -/
theorem nameExclusive_of_run (h : Run (Guarded Steady Observed.Step) .init as o)
    {h₁ h₂ : List (CallEvent (Request UInt64 Name Buffer) (Response UInt64 Buffer))} {n : ℕ} {p : UInt64}
    {name : Name} (hcall : o.history = h₁ ++ .invoke n (.create p name) :: h₂) :
    (∀ {m u v}, .invoke m (.create p name) ∈ o.history → .ret m (.created u) ∈ h₁ →
      .ret n (.created v) ∈ o.history → ∃ k, .invoke k (.delete u) ∈ o.history) ∧
    (.ret n .alreadyExist ∈ o.history → ∃ k, k ≠ n ∧ .invoke k (.create p name) ∈ o.history) := by
  obtain ⟨ops, σ, hex⟩ := explains_of_run h
  have hlin := hex.linearization
  refine ⟨fun {m u v} hm hu hv => ?_, fun hn => ?_⟩
  · obtain ⟨ops₁, ops₂, ops₃, q, hq, rfl⟩ := hlin.exists_before hcall hu hv
    obtain rfl := hlin.eq_of_invoke hq hm
    have hrun := hlin.run
    simp only [List.map_append, List.map_cons] at hrun
    obtain ⟨⟨k, x⟩, hop, hx⟩ := List.mem_map.mp (Store.deleted_of_run hrun)
    obtain rfl : x = (.delete u, some .deleted) := hx
    exact ⟨k, hlin.invoked (r := some .deleted) (by simp [hop])⟩
  · obtain ⟨q, hop⟩ := hlin.returned hn
    have hmem : .invoke n (.create p name) ∈ o.history := by
      rw [hcall]
      simp
    obtain rfl := hlin.eq_of_invoke (hlin.invoked hop) hmem
    obtain ⟨ops₁, ops₂, rfl⟩ := List.append_of_mem hop
    have hrun := hlin.run
    simp only [List.map_append, List.map_cons] at hrun
    obtain ⟨u, hu⟩ := Store.created_of_refused (fun u => rootStore_free u p name) hrun
    obtain ⟨⟨k, x⟩, hk, hx⟩ := List.mem_map.mp hu
    obtain rfl : x = (.create p name, some (.created u)) := hx
    refine ⟨k, ?_, hlin.invoked (r := some (.created u)) (List.mem_append_left _ hk)⟩
    rintro rfl
    have hnodup := hlin.nodup
    rw [List.map_append, List.nodup_append'] at hnodup
    exact hnodup.2.2 (List.mem_map_of_mem (f := Prod.fst) hk) (by simp)

/-- A name that is taken again. -/
theorem nameExclusive_recreate : ∃ o : Observed, o.history = [.invoke 1 (.create 0 [97]), .ret 1 (.created 1),
    .invoke 2 (.delete 1), .ret 2 .deleted, .invoke 3 (.create 0 [97]), .ret 3 (.created 2)] ∧
      ∃ k, .invoke k (.delete 1) ∈ o.history := by
  obtain ⟨o, ho, h⟩ := (Option.any_eq_true _ _).mp (show (follow Observed.step
      (fun o a => decide (Steady o a)) .init recreateActions).any (fun o => decide (o.history =
        [.invoke 1 (.create 0 [97]), .ret 1 (.created 1), .invoke 2 (.delete 1), .ret 2 .deleted,
          .invoke 3 (.create 0 [97]), .ret 3 (.created 2)])) = true by decide +kernel)
  rw [decide_eq_true_eq] at h
  have hrun := (run_of_follow Observed.step ho).mono fun o a o' hst =>
    (⟨of_decide_eq_true hst.1, hst.2⟩ : Guarded Steady Observed.Step o a o')
  have hcall : o.history = [.invoke 1 (.create 0 [97]), .ret 1 (.created 1), .invoke 2 (.delete 1),
      .ret 2 .deleted] ++ .invoke 3 (.create 0 [97]) :: [.ret 3 (.created 2)] := h
  refine ⟨o, h, (nameExclusive_of_run hrun hcall).1 (m := 1) (v := 2) ?_ ?_ ?_⟩
  · simp [h]
  · simp
  · simp [h]

end Names

end System

end PropertyTree
