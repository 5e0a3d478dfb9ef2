import PropertyTree.System.Requests

/-!
# Calls that end by their timeout

The ids of a client's requests and the keys of the server's RPCs are counted in 16 bits, and come
round again after enough calls.  What one call that nobody answers does to the system is the step of
an induction over any number of them.
-/

namespace PropertyTree.System

open Library Server Client

variable {s : System} {c : Conn} {k k' : Client} {call : ApiCall} {node : Client.Node}

/-- The id `addTransaction` gives to the next request. -/
def nextId (k : Client) : UInt16 :=
  if k.mTransactioIdCtr = notificationId then k.mTransactioIdCtr + 1 else k.mTransactioIdCtr

/-- The steps of a call of thread 0 of the client on `c` that nobody answers; after the id `0xFFFF`
a second one is drawn. -/
def timeoutActions (c : Conn) (call : ApiCall) (skips : Bool) : List System.Action :=
  [.client c (.start 0 call)] ++ (if skips then [.client c (.fetchId 0)] else []) ++
    [.client c (.fetchId 0), .client c (.send 0), .client c (.timeout 0)]

/-- Thread 0 of the client can start a call, and no transaction has an answer. -/
structure Unanswered (k : Client) : Prop where
  running : k.status = .running
  idle : k.threads[(0 : ThreadId)]? = none
  unsatisfied : ∀ (t : UInt16) (response : Tagged), k.mTransactions[t]? ≠ some ⟨true, response⟩

/-- The system `s'`, with the client `k'` on `c`, after a call of the client `k` that has sent `q` and
ended by its timeout. -/
structure TimedOut (s : System) (c : Conn) (k : Client) (q : PropertyTreeMessages) (s' : System)
    (k' : Client) : Prop where
  clients : s'.clients[c]? = some k'
  server : s'.server = s.server
  terminated : s'.terminated = s.terminated
  requests : s'.requests = s.requests ++ [(c, ⟨nextId k, q⟩)]
  unanswered : Unanswered k'
  mirror : k'.mirror = k.mirror
  reader : k'.reader = k.reader
  inbound : k'.inbound = k.inbound
  outbound : k'.outbound = k.outbound ++ [⟨s.requests.length, nextId k, q⟩]
  mTransactions : k'.mTransactions = k.mTransactions.insertIfNew (nextId k) .new
  mTransactioIdCtr : k'.mTransactioIdCtr = nextId k + 1

/-- The system after the client on `c` has become `k` and sent some packets. -/
def afterClient (s : System) (c : Conn) (k : Client) (sent : List Packet) : System :=
  { s with
    clients := s.clients.insert c { k with outbound := k.outbound ++ sent }
    requests := s.requests ++ requestsOf c sent
    answers := s.answers ++ answersOf c sent }

@[simp] theorem afterClient_clients (s : System) (c : Conn) (k : Client) (sent : List Packet) :
    (afterClient s c k sent).clients[c]? = some { k with outbound := k.outbound ++ sent } := by
  simp [afterClient]

/-- A step of a client is a step of the system. -/
theorem step_of_client {a : Client.Action} {sent : List Packet} (hk : s.clients[c]? = some k)
    (hstep : k.step s.requests.length a = some (k', sent)) :
    Step s (.client c a) (afterClient s c k' sent) := by
  change System.step s _ = _
  simp only [System.step, act, hk, hstep, afterClient]

/-- A step of a client that sends nothing changes nothing but the client. -/
theorem silent_of_client {a : Client.Action} (hk : s.clients[c]? = some k)
    (hstep : k.step s.requests.length a = some (k', [])) :
    ∃ s', Step s (.client c a) s' ∧ s'.clients[c]? = some k' ∧ s'.server = s.server ∧
      s'.terminated = s.terminated ∧ s'.requests = s.requests := by
  refine ⟨_, step_of_client hk hstep, ?_⟩
  simp [afterClient, requestsOf]

/-- The client `k` with thread 0 at a stage of a call that has drawn ids up to `ctr`. -/
def atStage (k : Client) (call : ApiCall) (ctr : UInt16) (stage : Stage)
    (threads : Std.ExtTreeMap ThreadId Thread) : Client :=
  { k with mTransactioIdCtr := ctr, threads := threads.insert 0 ⟨call, stage⟩ }

/-- The draw of the id of a request, with the one that is skipped. -/
theorem exists_run_fetchId {q : PropertyTreeMessages} {threads : Std.ExtTreeMap ThreadId Thread}
    (hopen : k.status ≠ .closed)
    (hk : s.clients[c]? = some (atStage k call k.mTransactioIdCtr (.begun q) threads)) :
    ∃ s' threads', Run Step s ((if k.mTransactioIdCtr = notificationId then
        [.client c (.fetchId 0)] else []) ++ [.client c (.fetchId 0)]) s' ∧
      s'.clients[c]? = some (atStage k call (nextId k + 1) (.numbered q (nextId k)) threads') ∧
      s'.server = s.server ∧ s'.terminated = s.terminated ∧ s'.requests = s.requests := by
  by_cases hid : k.mTransactioIdCtr = notificationId
  · have hskip : (atStage k call k.mTransactioIdCtr (.begun q) threads).step s.requests.length
        (.fetchId 0) = some (atStage k call (k.mTransactioIdCtr + 1) (.skipping q)
          (threads.insert 0 ⟨call, .begun q⟩), []) := by
      simp [Client.step, fetchId, atStage, setStage, hopen, hid]
    obtain ⟨s₁, h₁, hk₁, hs₁, ht₁, hr₁⟩ := silent_of_client hk hskip
    have hdraw : (atStage k call (k.mTransactioIdCtr + 1) (.skipping q)
        (threads.insert 0 ⟨call, .begun q⟩)).step s₁.requests.length (.fetchId 0) =
          some (atStage k call (nextId k + 1) (.numbered q (nextId k))
            ((threads.insert 0 ⟨call, .begun q⟩).insert 0 ⟨call, .skipping q⟩), []) := by
      simp [Client.step, fetchId, atStage, setStage, hopen, nextId, hid]
    obtain ⟨s₂, h₂, hk₂, hs₂, ht₂, hr₂⟩ := silent_of_client hk₁ hdraw
    refine ⟨s₂, _, ?_, hk₂, hs₂.trans hs₁, ht₂.trans ht₁, hr₂.trans hr₁⟩
    rw [if_pos hid]
    exact (Run.single h₁).snoc h₂
  · have hdraw : (atStage k call k.mTransactioIdCtr (.begun q) threads).step s.requests.length
        (.fetchId 0) = some (atStage k call (nextId k + 1) (.numbered q (nextId k))
          (threads.insert 0 ⟨call, .begun q⟩), []) := by
      simp [Client.step, fetchId, atStage, setStage, hopen, nextId, hid]
    obtain ⟨s₁, h₁, hk₁, hs₁, ht₁, hr₁⟩ := silent_of_client hk hdraw
    refine ⟨s₁, _, ?_, hk₁, hs₁, ht₁, hr₁⟩
    rw [if_neg hid]
    exact Run.single h₁

/-- A numbered request is sent, and the wait for its response ends without one. -/
theorem exists_run_unanswered {q : PropertyTreeMessages} {ctr trId : UInt16}
    {threads : Std.ExtTreeMap ThreadId Thread} (h : Unanswered k) (hq : q.isRequest = true)
    (hcall : call ≠ .signin)
    (hk : s.clients[c]? = some (atStage k call ctr (.numbered q trId) threads)) :
    ∃ s' k', Run Step s [.client c (.send 0), .client c (.timeout 0)] s' ∧
      s'.clients[c]? = some k' ∧ s'.server = s.server ∧ s'.terminated = s.terminated ∧
      s'.requests = s.requests ++ [(c, ⟨trId, q⟩)] ∧ Unanswered k' ∧ k'.mirror = k.mirror ∧
      k'.reader = k.reader ∧ k'.inbound = k.inbound ∧ k'.outbound = k.outbound ++ [⟨s.requests.length, trId, q⟩] ∧
      k'.mTransactions = k.mTransactions.insertIfNew trId .new ∧ k'.mTransactioIdCtr = ctr := by
  have hopen : k.status ≠ .closed := by simp [h.running]
  have hunsatisfied : ∀ (t : UInt16) (response : Tagged),
      (k.mTransactions.insertIfNew trId .new)[t]? ≠ some ⟨true, response⟩ := by
    intro t response
    have := h.unsatisfied t response
    rw [Std.ExtTreeMap.getElem?_insertIfNew]
    split_ifs
    · simp [Transaction.new]
    · exact this
  set k₁ := atStage { k with mTransactions := k.mTransactions.insertIfNew trId .new } call ctr
    (.waiting trId s.requests.length) (threads.insert 0 ⟨call, .numbered q trId⟩) with hk₁
  have hsend : (atStage k call ctr (.numbered q trId) threads).step s.requests.length (.send 0) =
      some (k₁, [⟨s.requests.length, trId, q⟩]) := by
    simp [Client.step, Client.send, hk₁, atStage, setStage, hopen]
  have h₁ := step_of_client hk hsend
  set s₁ := afterClient s c k₁ [⟨s.requests.length, trId, q⟩] with hs₁
  set k₂ : Client := { k₁ with outbound := k₁.outbound ++ [⟨s.requests.length, trId, q⟩] } with hk₂
  have htimeout : k₂.step s₁.requests.length (.timeout 0) =
      some (k₂.throw 0 call .transactionFailure, []) := by
    have hthread : k₂.threads[(0 : ThreadId)]? = some ⟨call, .waiting trId s.requests.length⟩ := by
      simp [hk₂, hk₁, atStage]
    have hwaits : ∀ response, k₂.mTransactions[trId]? ≠ some ⟨true, response⟩ := hunsatisfied trId
    have hopen₂ : k₂.status ≠ .closed := hopen
    simp only [Client.step, if_neg hopen₂, Client.timeout, hthread, Option.map_some]
  obtain ⟨s₂, h₂, hc₂, hs₂, ht₂, hr₂⟩ := silent_of_client (afterClient_clients _ _ _ _) htimeout
  refine ⟨s₂, _, (Run.single h₁).snoc h₂, hc₂, hs₂, ht₂, ?_, ⟨?_, ?_, hunsatisfied⟩, rfl, rfl, rfl,
    rfl, rfl, rfl⟩
  · rw [hr₂]
    simp [afterClient, requestsOf, hq]
  · exact (if_neg hcall).trans h.running
  · simp [Client.throw, finish]

/-- Thread 0 starts a call. -/
theorem exists_start (call : ApiCall) (hk : s.clients[c]? = some k) (hr : k.status = .running)
    (hi : k.threads[(0 : ThreadId)]? = none) (hcall : call ≠ .signin)
    (hset : ∀ a value, call ≠ .set a value) (hfound : call.found k.mirror = none)
    (hnode : call.object k.mirror = some node) :
    ∃ s', Step s (.client c (.start 0 call)) s' ∧
      s'.clients[c]? =
        some (atStage k call k.mTransactioIdCtr (.begun (call.request node)) k.threads) ∧
      s'.server = s.server ∧ s'.terminated = s.terminated ∧ s'.requests = s.requests := by
  have hidle : (0 : ThreadId) ∉ k.threads := by
    rw [← Std.ExtTreeMap.isSome_getElem?_iff_mem, hi]
    simp
  have hassign : k.assign 0 call = some k := by
    cases call with
    | set a value => exact absurd rfl (hset a value)
    | _ => rfl
  refine silent_of_client hk ?_
  simp [Client.step, start, hr, hidle, hcall, hfound, hassign, hnode, atStage, setStage]

/-- A call that nobody answers. -/
theorem exists_run_timeout (call : ApiCall) (hk : s.clients[c]? = some k) (h : Unanswered k)
    (hcall : call ≠ .signin) (hset : ∀ a value, call ≠ .set a value)
    (hfound : call.found k.mirror = none) (hnode : call.object k.mirror = some node) :
    ∃ s' k', Run Step s (timeoutActions c call (k.mTransactioIdCtr = notificationId)) s' ∧
      TimedOut s c k (call.request node) s' k' := by
  obtain ⟨s₁, h₁, hk₁, hs₁, ht₁, hr₁⟩ :=
    exists_start call hk h.running h.idle hcall hset hfound hnode
  obtain ⟨s₂, threads, h₂, hk₂, hs₂, ht₂, hr₂⟩ := exists_run_fetchId (by simp [h.running]) hk₁
  obtain ⟨s₃, k₃, h₃, hk₃, hs₃, ht₃, hr₃, hun, hm, hread, hin, hout, htrans, hctr⟩ :=
    exists_run_unanswered h (call.isRequest_request node) hcall hk₂
  have hlen : s₂.requests = s.requests := hr₂.trans hr₁
  refine ⟨s₃, k₃, ?_, hk₃, hs₃.trans (hs₂.trans hs₁), ht₃.trans (ht₂.trans ht₁), ?_, hun, hm,
    hread, hin, ?_, htrans, hctr⟩
  · rw [timeoutActions]
    simp only [decide_eq_true_eq]
    have := ((Run.single h₁).append h₂).append h₃
    simpa using this
  · rw [hr₃, hlen]
  · rw [hout, hlen]

/-- The handling of a message is a step of the system. -/
theorem step_of_serve {p : Packet} {outbound : List Packet} {server : ProtocolHandler}
    {o : List Output} (hk : s.clients[c]? = some k) (hout : k.outbound = p :: outbound)
    (ht : s.terminated = false) (hok : s.server.step (.message c p.message) = .ok (server, o)) :
    Step s (.serve c) (afterServe s c k p outbound server o) := by
  change System.step s _ = _
  simp [System.step, System.serve, hk, hout, ht, handle, hok, afterServe]

end PropertyTree.System
