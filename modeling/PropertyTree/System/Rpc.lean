import PropertyTree.System.Linearization

/-!
# The way of an RPC

`call` sends an `RpcRequest` to the server, which forwards it under a key of its own to the owner of the
node.  The reader of the owner's client applies the handler of the node to the parameter, and what it
answers goes back the same way.  So the bytes that `call` returns are what the handler has made of the
parameter of this call.
-/

namespace PropertyTree

namespace Server

open Library

variable {s s' : ProtocolHandler} {e : Event} {o : List Output} {d : Conn}

/-- An `RpcRequest` is sent on as it came, to the owner of the node. -/
theorem StepResult.rpcRequest_of_mem (h : StepResult s e s' o) {key : UInt16} {u : UInt64}
    {param : Buffer} (hm : .send d ⟨key, .rpcRequest u param⟩ ∈ o) :
    ∃ c t, e = .message c ⟨t, .rpcRequest u param⟩ := by
  cases h.rpcChange with
  | forward c t uuid param' sid owner hc ho =>
    cases List.mem_singleton.mp hm
    exact ⟨c, t, rfl⟩
  | reply c t m translation hreply ht =>
    cases hd : (s.mSessions[translation.1]?).bind Session.connectionSession with
    | none =>
      rw [hd] at hm
      cases hm
    | some owner =>
      rw [hd] at hm
      cases List.mem_singleton.mp hm
      cases hreply
  | unknown => cases hm
  | other e s' o he ht ho =>
    rcases ho _ hm with hn | ⟨q, -, -, hinit⟩
    · cases hn
    · cases hinit

/-- An `RpcAccept` that is sent has come from a client. -/
theorem StepResult.rpcAccept_of_mem (h : StepResult s e s' o) {t : UInt16} {value : Buffer}
    (hm : .send d ⟨t, .rpcAccept value⟩ ∈ o) : ∃ c t', e = .message c ⟨t', .rpcAccept value⟩ := by
  have hhead := h.head_eq_of_mem hm rfl
  cases h with
  | reply c t' m translation session hm' ht hs =>
    cases hd : session.connectionSession with
    | none => simp [hd] at hhead
    | some d' =>
      rw [hd] at hhead
      cases hhead
      exact ⟨c, t', rfl⟩
  | _ => cases hhead

end Server

namespace System

open Library Server Client

variable {s s' : System} {act : System.Action} {c d : Conn} {k k' : Client} {w : Watched}
  {as : List System.Action}

/-! ## What the owner is asked -/

/-- An `RpcRequest` on its way to an owner is the request that is on record. -/
def CarriesRequests (s : System) : Prop :=
  ∀ ⦃d : Conn⦄ ⦃p : Packet⦄ ⦃u : UInt64⦄ ⦃param : Buffer⦄, p ∈ (s.client d).inbound →
    p.message.message = .rpcRequest u param →
      ∃ c t, s.requests[p.tag]? = some (c, ⟨t, .rpcRequest u param⟩)

theorem carriesRequests_of_run (h : Run Step .init as s) : CarriesRequests s := by
  suffices hinv : Run Step .init as s ∧ CarriesRequests s from hinv.2
  refine h.history (P := fun as s => Run Step .init as s ∧ CarriesRequests s) ?_ ⟨.nil _, ?_⟩
  · rintro as s act s' ⟨hrun, hcarries⟩ hstep
    refine ⟨hrun.snoc hstep, fun d p u param hp hm => ?_⟩
    have hrec := (step_cases hstep).recorded
    -- what has been in the queue is on record
    have hold : p ∈ (s.client d).inbound →
        ∃ c t, s'.requests[p.tag]? = some (c, ⟨t, .rpcRequest u param⟩) := by
      intro hp
      obtain ⟨c, t, hreq⟩ := hcarries hp hm
      exact ⟨c, t, hrec.requests hreq⟩
    cases step_cases hstep with
    | connect c hc => exact hold (client_connect hc d ▸ hp)
    | client c a k k' sent hk hopen hres =>
      rw [client_of_clients rfl d] at hp
      split_ifs at hp with hdc
      · refine hold ?_
        rw [hdc, client_of_some hk]
        rcases inbound_of_change hres.transactionChange with hin | ⟨q, hin⟩
        · exact hin ▸ hp
        · exact hin ▸ List.mem_cons_of_mem q hp
      · exact hold hp
    | serve c k q outbound server o hk hout ht hok =>
      obtain ⟨ms, hms, hcl⟩ := exists_client_afterServe hk q outbound server o d
      change p ∈ ((afterServe s c k q outbound server o).client d).inbound at hp
      rw [hcl] at hp
      rcases List.mem_append.mp hp with hp | hp
      · exact hold hp
      · obtain ⟨⟨key, m⟩, hmem, rfl⟩ := List.mem_map.mp hp
        obtain rfl : m = .rpcRequest u param := hm
        obtain ⟨c', t, he⟩ :=
          (Server.step_cases hok).rpcRequest_of_mem (mem_sentTo (hms.subset hmem))
        cases hq : q.message with
        | mk t' m' =>
          rw [hq] at he
          cases he
          rcases (sound_of_run hrun).outbound hk (hout ▸ List.mem_cons_self) with ⟨-, hreq⟩ | hreply
          · exact ⟨c, t, hreq.trans (by rw [hq])⟩
          · rw [hq] at hreply
            cases hreply
    | disconnect c k server o hk hclosed hok =>
      rw [client_disconnect hk rfl d] at hp
      exact hold hp
  · intro d p u param hp hm
    simp [client, init, Client.new] at hp

/-! ## What the owner answers -/

/-- In the run `as` the client on `d` has read the request with the number `r`, which is an `RpcRequest`
of the node `u` with `param`, and the handler that the node has had at that time makes `value` of it. -/
def HandledBy (as : List System.Action) (r : ℕ) (d : Conn) (u : UInt64) (param value : Buffer) : Prop :=
  ∃ (as₁ as₂ : List System.Action) (s₀ : System) (p : Packet) (a : Addr) (node : Client.Node)
      (rcpHandler : Buffer → Buffer), as = as₁ ++ .client d .read :: as₂ ∧ Run Step .init as₁ s₀ ∧
    (s₀.client d).inbound.head? = some p ∧ p.tag = r ∧ p.message.message = .rpcRequest u param ∧
      (s₀.client d).mirror.mTree[u]? = some a ∧ (s₀.client d).mirror.heap[a]? = some node ∧
        node.rcpHandler = some rcpHandler ∧ value = rcpHandler param

theorem HandledBy.concat {r : ℕ} {u : UInt64} {param value : Buffer}
    (h : HandledBy as r d u param value) (act : System.Action) :
    HandledBy (as ++ [act]) r d u param value := by
  obtain ⟨as₁, as₂, s₀, p, a, node, f, rfl, hrest⟩ := h
  exact ⟨as₁, as₂ ++ [act], s₀, p, a, node, f, by simp, hrest⟩

/-- The owner accepts an RPC when the node has a handler. -/
theorem exists_of_rpcReply {u : UInt64} {param value : Buffer}
    (h : k.rpcReply u param = .rpcAccept value) : ∃ (a : Addr) (node : Client.Node)
      (rcpHandler : Buffer → Buffer), k.mirror.mTree[u]? = some a ∧ k.mirror.heap[a]? = some node ∧
        node.rcpHandler = some rcpHandler ∧ value = rcpHandler param := by
  rw [Client.rpcReply] at h
  cases ha : k.mirror.mTree[u]? with
  | none => simp [ha] at h
  | some a =>
    cases hn : (k.mirror.heap[a]?).bind Client.Node.rcpHandler with
    | none => simp [ha, hn] at h
    | some f =>
      obtain ⟨node, hnode, hf⟩ := Option.bind_eq_some_iff.mp hn
      simp only [ha, hn, PropertyTreeMessages.rpcAccept.injEq] at h
      exact ⟨a, node, f, rfl, hnode, hf, h.symm⟩

/-- Every `RpcAccept` that a client has sent is what a handler has made of the parameter of this RPC. -/
theorem handledBy_of_run (h : Run Step .init as s) {r : ℕ} {value : Buffer}
    (hans : (r, d, .rpcAccept value) ∈ s.answers) : ∃ c t u param,
      s.requests[r]? = some (c, ⟨t, .rpcRequest u param⟩) ∧ HandledBy as r d u param value := by
  refine (h.history (P := fun as s => Run Step .init as s ∧ ∀ r d value,
    (r, d, .rpcAccept value) ∈ s.answers → ∃ c t u param,
      s.requests[r]? = some (c, ⟨t, .rpcRequest u param⟩) ∧ HandledBy as r d u param value) ?_
        ⟨.nil _, by simp [init]⟩).2 r d value hans
  rintro as s act s' ⟨hrun, hhandled⟩ hstep
  refine ⟨hrun.snoc hstep, fun r d value hmem => ?_⟩
  have hrec := (step_cases hstep).recorded
  have hold : (r, d, .rpcAccept value) ∈ s.answers → ∃ c t u param,
      s'.requests[r]? = some (c, ⟨t, .rpcRequest u param⟩) ∧
        HandledBy (as ++ [act]) r d u param value := by
    intro hmem
    obtain ⟨c, t, u, param, hreq, hby⟩ := hhandled r d value hmem
    exact ⟨c, t, u, param, hrec.requests hreq, hby.concat act⟩
  cases step_cases hstep with
  | connect => exact hold hmem
  | serve => exact hold hmem
  | disconnect => exact hold hmem
  | client c b k k' sent hk hopen hres =>
    rcases List.mem_append.mp hmem with hmem | hmem
    · exact hold hmem
    obtain ⟨p, hp, hpr⟩ := List.mem_filterMap.mp hmem
    split_ifs at hpr with hreply
    simp only [Option.some.injEq, Prod.mk.injEq] at hpr
    obtain ⟨rfl, rfl, hvalue⟩ := hpr
    cases hres with
    | rpcRequest tag key u param inbound hr hin hx =>
      obtain rfl := List.mem_singleton.mp hp
      have hhead : (s.client c).inbound.head? = some ⟨tag, key, .rpcRequest u param⟩ := by
        rw [client_of_some hk, hin]
        rfl
      obtain ⟨d, t, hreq⟩ := carriesRequests_of_run hrun (List.mem_of_mem_head? hhead) rfl
      obtain ⟨a, node, f, ha, hn, hf, rfl⟩ := exists_of_rpcReply hvalue
      rw [← client_of_some hk] at ha hn
      exact ⟨d, t, u, param, hrec.requests hreq, as, [], s, _, a, node, f, rfl, hrun, hhead, rfl, rfl, ha,
        hn, hf, rfl⟩
    | send i call q t ht =>
      obtain rfl := List.mem_singleton.mp hp
      have hask := (((sound_of_run hrun).threads hk i _ ht).unsent rfl).isRequest
      rw [PropertyTreeMessages.isRequest_of_isRpcReply hreply] at hask
      cases hask
    | _ => cases hp

/-! ## What the caller gets -/

/-- A client creates a node with a handler, and a second one calls it. -/
def callActions : List System.Action :=
  signinActions 1 ++ signinActions 2 ++ askActions 1 (.create 0 [97]) ++
    [.client 1 .read, .client 1 .read, .client 2 .read] ++ takeActions 1 ++
      [.client 1 (.setup (.setHRcpHandler 1 (some (List.cons 9))))] ++ askActions 2 (.call 1 [5]) ++
        [.client 1 .read, .serve 1, .client 2 .read, .client 2 (.take 0), .client 2 (.erase 0)]

/-- The bytes that a call of the node at `x` with `param` is about to return have been made of `param` by
the handler of the node at the client that the server takes for its owner, when that client has read the
request of this very call. -/
theorem handled_of_call (h : Run (Guarded Settled Watched.Step) .init as w) {i : ThreadId} {x : Addr}
    {r tag : ℕ} {param value : Buffer} (hi : (w.system.client c).threads[i]? =
      some ⟨.call x param, .answered r ⟨tag, .rpcAccept value⟩⟩) :
    ∃ (n : Client.Node) (key : UInt16) (d : Conn), (w.system.client c).mirror.heap[x]? = some n ∧
      ⟨r, key, some d⟩ ∈ w.system.forwarded ∧ HandledBy as r d n.uuid param value := by
  obtain ⟨rfl, t, hresp⟩ := response_of_run h hi rfl
  have hsys : Run (Guarded Undisturbed Step) .init as w.system :=
    h.map (f := Watched.system) fun _ _ _ hst => ⟨hst.1.1, (Watched.step_iff.mp hst.2).1⟩
  have hk : w.system.clients[c]? = some (w.system.client c) :=
    clients_of_isPast hi rfl
  obtain ⟨t', q, hreq, node, rfl, hnode⟩ :=
    ((sound_of_run hsys.of_guarded).threads hk i _ hi).sent rfl
  obtain ⟨n, hn, huuid⟩ := hnode x rfl
  obtain ⟨q', hreq', hor⟩ := hresp.request
  cases hreq.symm.trans hreq'
  rcases hor with ⟨o, hlog, hmem⟩ | hdel
  · -- the server does not answer an `RpcRequest` by an `RpcAccept` itself
    obtain ⟨s₁, s₂, hstep⟩ := (log_of_run hsys.of_guarded).exists_step_of_mem hlog
    obtain ⟨c', t', he⟩ := (Server.step_cases hstep).rpcAccept_of_mem hmem
    cases he
  · obtain ⟨-, -, key, d, -, hforw, hans⟩ :=
      (correlated_of_run (fun h => h.1) hsys).answered hdel
    obtain ⟨c', t', u, param', hreq', hby⟩ := handledBy_of_run hsys.of_guarded hans
    cases hreq.symm.trans hreq'
    exact ⟨n, key, d, hn, hforw, huuid ▸ hby⟩

/-- A call of another client's node. -/
theorem handled_call : ∃ w, Run (Guarded Settled Watched.Step) .init callActions w ∧
    ∃ (n : Client.Node) (key : UInt16) (d : Conn), (w.system.client 2).mirror.heap[(1 : Addr)]? = some n ∧
      ⟨3, key, some d⟩ ∈ w.system.forwarded ∧ HandledBy callActions 3 d n.uuid [5] [9, 5] := by
  obtain ⟨w, hw, h⟩ := (Option.any_eq_true _ _).mp (show (follow Watched.step
      (fun w a => decide (Settled w a)) .init callActions).any (fun w =>
        decide ((w.system.client 2).threads[(0 : ThreadId)]? =
          some ⟨.call 1 [5], .answered 3 ⟨3, .rpcAccept [9, 5]⟩⟩)) = true by decide +kernel)
  rw [decide_eq_true_eq] at h
  have hrun := (run_of_follow Watched.step hw).mono fun w a w' hst =>
    (⟨of_decide_eq_true hst.1, hst.2⟩ : Guarded Settled Watched.Step w a w')
  exact ⟨w, hrun, handled_of_call hrun h⟩

end System

end PropertyTree
