import PropertyTree.Client.Transactions
import PropertyTree.Server.Answers

/-!
# The calls of a client

What a step of a client does to the threads and the results of their calls: a thread enters an API
function, goes on inside it, or leaves it with a result, and the steps of the other threads and of
the reader leave it where it is.  A call that has got a response of the type it asks for makes a
result of it, unless the response is an `RpcReject`.
-/

namespace PropertyTree

namespace Client

variable {k k' : Client} {number : ℕ} {a : Action} {sent : List Packet} {i : ThreadId}
  {call : ApiCall} {stage : Stage}

/-! ## What a step does to the calls -/

/-- The thread of the application that takes the step; the other steps are not those of a call. -/
def Action.caller : Action → Option ThreadId
  | start i _ | fetchId i | send i | take i | timeout i | erase i | proceed i => some i
  | read | update | setup _ | free _ | close => none

/-- Whether the step is one of thread `i` past its wait. -/
def Action.isProceed (i : ThreadId) : Action → Bool
  | proceed j => j = i
  | _ => false

/-- What a step does to the threads, the results and the status. -/
inductive CallChange (k k' : Client) : Action → Prop
  | enter (i : ThreadId) (call : ApiCall) (stage : Stage) (hs : k.status = .running)
      (hi : k.threads[i]? = none) (hc : call ≠ .signin)
      (hth : k'.threads = k.threads.insert i ⟨call, stage⟩)
      (hres : k'.results = k.results) (hstatus : k'.status = k.status) :
      CallChange k k' (.start i call)
  | goOn (a : Action) (i : ThreadId) (call : ApiCall) (stage stage' : Stage) (ha : a.caller = some i)
      (hi : k.threads[i]? = some ⟨call, stage⟩)
      (hth : k'.threads = k.threads.insert i ⟨call, stage'⟩)
      (hres : k'.results = k.results) (hstatus : k'.status = k.status) : CallChange k k' a
  | leave (a : Action) (i : ThreadId) (call : ApiCall) (result) (ha : a.caller = some i)
      (hi : call ≠ .signin ∨ ∃ stage, k.threads[i]? = some ⟨call, stage⟩)
      (hth : k'.threads = k.threads.erase i)
      (hres : k'.results = k.results ++ [(i, call, result)])
      (hstatus : k'.status = k.status ∨ k'.status ≠ .constructing ∧ call = .signin) :
      CallChange k k' a
  | other (a : Action) (ha : a.caller = none) (hth : k'.threads = k.threads)
      (hres : k'.results = k.results)
      (hstatus : k'.status = k.status ∨ k.status = .running ∧ ∀ i : ThreadId, k.threads[i]? = none) :
      CallChange k k' a

/-- The calls in a step of a client. -/
theorem StepResult.callChange (h : StepResult k number a k' sent) : CallChange k k' a := by
  cases h with
  | found i call a hs hi hc => exact .leave _ _ _ _ rfl (.inl hc) rfl rfl (.inl rfl)
  | start i call node hs hi hc => exact .enter _ _ _ hs hi hc rfl rfl rfl
  | startSet i a value node hs hi => exact .enter _ _ _ hs hi nofun rfl rfl rfl
  | skip i call q ht => exact .goOn _ _ _ _ _ rfl ht rfl rfl rfl
  | draw i call q stage ht => exact .goOn _ _ _ _ _ rfl ht rfl rfl rfl
  | send i call q trId ht => exact .goOn _ _ _ _ _ rfl ht rfl rfl rfl
  | take i call trId r response ht => exact .goOn _ _ _ _ _ rfl ht rfl rfl rfl
  | timeout i call trId r ht =>
    refine .leave _ _ _ _ rfl (.inr ⟨_, ht⟩) rfl rfl ?_
    by_cases hc : call = .signin
    · exact .inr ⟨by simp [throw, hc], hc⟩
    · exact .inl (by simp [throw, finish, hc])
  | erase i call trId r response ht => exact .goOn _ _ _ _ _ rfl ht rfl rfl rfl
  | signin i r tag sessionId ht => exact .leave _ _ _ _ rfl (.inr ⟨_, ht⟩) rfl rfl (.inr ⟨nofun, rfl⟩)
  | create i a name r tag uuid ht => exact .leave _ _ _ _ rfl (.inr ⟨_, ht⟩) rfl rfl (.inl rfl)
  | list i a name recursive r tag l ht => exact .goOn _ _ _ _ _ rfl ht rfl rfl rfl
  | fetch i a r tag data ht => exact .leave _ _ _ _ rfl (.inr ⟨_, ht⟩) rfl rfl (.inl rfl)
  | destroy i a r tag ht => exact .leave _ _ _ _ rfl (.inr ⟨_, ht⟩) rfl rfl (.inl rfl)
  | respond i call r response result hc ht =>
    exact .leave _ _ _ _ rfl (.inr ⟨_, ht⟩) rfl rfl (.inl rfl)
  | fail i call r response what ht =>
    refine .leave _ _ _ _ rfl (.inr ⟨_, ht⟩) rfl rfl ?_
    by_cases hc : call = .signin
    · exact .inr ⟨by simp [throw, hc], hc⟩
    · exact .inl (by simp [throw, finish, hc])
  | add i call l j todo ht => exact .goOn _ _ _ _ _ rfl ht rfl rfl rfl
  | get i call l ht => exact .leave _ _ _ _ rfl (.inr ⟨_, ht⟩) rfl rfl (.inl rfl)
  | close hs ht => exact .other _ rfl rfl rfl (.inr ⟨hs, ht⟩)
  | _ => exact .other _ rfl rfl rfl (.inl rfl)

/-- A thread that is in an API function after a step was there before, or has just entered it. -/
theorem thread_of_callChange (h : CallChange k k' a) {j : ThreadId} {th' : Thread}
    (hj : k'.threads[j]? = some th') : (∃ th, k.threads[j]? = some th ∧ th.call = th'.call) ∨
      k.status = .running ∧ th'.call ≠ .signin := by
  cases h with
  | enter i call stage hs hi hc hth =>
    rcases thread_of_insert (hth ▸ hj) with ⟨-, rfl⟩ | ⟨-, hj⟩
    · exact .inr ⟨hs, hc⟩
    · exact .inl ⟨th', hj, rfl⟩
  | goOn a i call stage stage' ha hi hth =>
    rcases thread_of_insert (hth ▸ hj) with ⟨rfl, rfl⟩ | ⟨-, hj⟩
    · exact .inl ⟨_, hi, rfl⟩
    · exact .inl ⟨th', hj, rfl⟩
  | leave a i call result ha hi hth => exact .inl ⟨th', (thread_of_erase (hth ▸ hj)).2, rfl⟩
  | other a ha hth => exact .inl ⟨th', hth ▸ hj, rfl⟩

/-! ## The status -/

/-- Only the constructor waits while the client is being constructed, and no one when it is closed. -/
structure Manned (k : Client) : Prop where
  constructing : k.status = .constructing → ∀ {i : ThreadId} {th : Thread},
    k.threads[i]? = some th → i = 0
  signin : ∀ {i : ThreadId} {th : Thread}, k.threads[i]? = some th → th.call = .signin →
    k.status = .constructing
  closed : k.status = .closed → ∀ i : ThreadId, k.threads[i]? = none

/-- A client that has just been constructed is manned by its constructor. -/
theorem manned_new : Manned .new where
  constructing _ {i th} hi := by
    obtain ⟨rfl, -⟩ | ⟨-, hi⟩ := thread_of_insert hi
    · rfl
    · simp at hi
  signin _ _ := rfl
  closed := nofun

/-- A step keeps a client manned. -/
theorem Manned.step (h : Manned k) (hchange : CallChange k k' a) : Manned k' := by
  -- the status of a client in which nothing but threads has changed
  have hsame : k'.status = k.status → (k.status ≠ .closed ∨ ∀ i : ThreadId, k'.threads[i]? = none) →
      Manned k' := by
    intro hstatus hopen
    refine ⟨fun hc {j th} hj => ?_, fun {j th} hj hs => ?_, fun hc => ?_⟩
    · rw [hstatus] at hc
      rcases thread_of_callChange hchange hj with ⟨th, hth, -⟩ | ⟨hr, -⟩
      · exact h.constructing hc hth
      · rw [hc] at hr
        cases hr
    · rw [hstatus]
      rcases thread_of_callChange hchange hj with ⟨th, hth, heq⟩ | ⟨-, hne⟩
      · exact h.signin hth (heq.trans hs)
      · exact absurd hs hne
    · rw [hstatus] at hc
      exact hopen.resolve_left (not_not_intro hc)
  cases hchange with
  | enter i call stage hs hi hc hth hres hstatus =>
    exact hsame hstatus (.inl (by rw [hs]; nofun))
  | goOn a i call stage stage' ha hi hth hres hstatus =>
    refine hsame hstatus (.inl fun hc => ?_)
    rw [h.closed hc i] at hi
    cases hi
  | leave a i call result ha hi hth hres hstatus =>
    rcases hstatus with hstatus | ⟨hne, rfl⟩
    · refine hsame hstatus ?_
      by_cases hc : k.status = .closed
      · refine .inr fun j => ?_
        have := h.closed hc j
        rw [hth]
        grind
      · exact .inl hc
    · -- the constructor was the only thread
      obtain ⟨stage, hi⟩ := hi.resolve_left (not_not_intro rfl)
      have hconstr := h.signin hi rfl
      have hnone : ∀ j : ThreadId, k'.threads[j]? = none := by
        intro j
        rw [hth]
        by_cases hji : i = j
        · simp [hji]
        · have hi0 := h.constructing hconstr hi
          cases hj : k.threads[j]? with
          | none => grind
          | some th => exact absurd (hi0.trans (h.constructing hconstr hj).symm) hji
      refine ⟨fun hc => absurd hc hne, fun {j th} hj => ?_, fun _ => hnone⟩
      rw [hnone j] at hj
      cases hj
  | other a ha hth hres hstatus =>
    rcases hstatus with hstatus | ⟨hs, hnone⟩
    · refine hsame hstatus ?_
      by_cases hc : k.status = .closed
      · exact .inr fun j => hth ▸ h.closed hc j
      · exact .inl hc
    · refine ⟨fun _ {j th} hj => ?_, fun {j th} hj => ?_, fun _ j => hth ▸ hnone j⟩
      all_goals
        rw [hth, hnone j] at hj
        cases hj

/-- A response that a thread has in hand was there before, or was stored in a transaction. -/
theorem response_of_change (hchange : TransactionChange k k' number a sent) {th : Thread} {r : ℕ}
    {x : Tagged} (hi : k'.threads[i]? = some th) (hx : th.stage.response = some (r, x)) :
    (∃ th₀ : Thread, k.threads[i]? = some th₀ ∧ th₀.stage.response = some (r, x)) ∨
      ∃ t : UInt16, k.mTransactions[t]? = some ⟨true, x⟩ := by
  have hinsert : ∀ {j : ThreadId} {th' : Thread}, k'.threads = k.threads.insert j th' →
      th'.stage.response = none → k.threads[i]? = some th := by
    intro j th' hth hnone
    rcases thread_of_insert (hth ▸ hi) with ⟨-, rfl⟩ | ⟨-, hi⟩
    · rw [hnone] at hx
      cases hx
    · exact hi
  cases hchange with
  | other a ha hin hx' hid hres => exact .inl ⟨th, hres (by simp [hx]) hi, hx⟩
  | draw j call stage q ht hnone hid hin hx' hth => exact .inl ⟨th, hinsert hth rfl, hx⟩
  | send j call q trId ht hin hx' hth => exact .inl ⟨th, hinsert hth rfl, hx⟩
  | take j call trId r' response ht hsat hin hx' hth =>
    rcases thread_of_insert (hth ▸ hi) with ⟨-, rfl⟩ | ⟨-, hi⟩
    · cases hx
      exact .inr ⟨_, hsat⟩
    · exact .inl ⟨th, hi, hx⟩
  | timeout j call trId r' ht hin hx' hth => exact .inl ⟨th, (thread_of_erase (hth ▸ hi)).2, hx⟩
  | erase j call trId r' response ht hin hx' hth =>
    rcases thread_of_insert (hth ▸ hi) with ⟨rfl, rfl⟩ | ⟨-, hi⟩
    · cases hx
      exact .inl ⟨_, ht, rfl⟩
    · exact .inl ⟨th, hi, hx⟩
  | satisfy p y hin hsat hx' hth => exact .inl ⟨th, hth ▸ hi, hx⟩
  | dispatch p sent hin hnone hx' hth => exact .inl ⟨th, hth ▸ hi, hx⟩

/-! ## How a call ends -/

/-- Whether a call has ended by an exception. -/
def CallResult.isThrow : CallResult → Bool
  | threw _ => true
  | _ => false

/-- Whether a call has made a result of its response: it has neither thrown nor run into undefined
behaviour. -/
def CallResult.isResult : CallResult → Bool
  | threw _ | fault => false
  | _ => true

/-- How thread `i` has ended the call it was in when there were `n` results, if it has. -/
def ended (k : Client) (n : ℕ) (i : ThreadId) : Option (ApiCall × CallResult) :=
  ((k.results.drop n).find? fun x => x.1 == i).map Prod.snd

section Ended

variable {n : ℕ} {result : CallResult}

/-- A result is only added. -/
theorem results_of_callChange (h : CallChange k k' a) : k.results <+: k'.results := by
  cases h with
  | enter i call stage hs hi hc hth hres => exact hres ▸ List.prefix_refl _
  | goOn a i call stage stage' ha hi hth hres => exact hres ▸ List.prefix_refl _
  | leave a i call result ha hi hth hres => exact hres ▸ List.prefix_append _ _
  | other a ha hth hres => exact hres ▸ List.prefix_refl _

/-- A call that has ended has ended for good. -/
theorem ended_mono {x : ApiCall × CallResult} (h : k.results <+: k'.results)
    (hx : k.ended n i = some x) : k'.ended n i = some x := by
  obtain ⟨l, hl⟩ := h
  obtain ⟨y, hy, rfl⟩ := Option.map_eq_some_iff.mp hx
  refine Option.map_eq_some_iff.mpr ⟨y, ?_, rfl⟩
  rw [← hl, List.drop_append, List.find?_append, hy, Option.some_or]

/-- A call that is left now has its result. -/
theorem ended_of_leave (hn : n ≤ k.results.length) (hnone : k.ended n i = none)
    (hres : k'.results = k.results ++ [(i, call, result)]) :
    k'.ended n i = some (call, result) := by
  have hfind := Option.map_eq_none_iff.mp hnone
  rw [ended, hres, List.drop_append_of_le_length hn, List.find?_append, hfind]
  simp

/-- The steps of the others leave the call of a thread where it is. -/
theorem CallChange.of_caller_ne (h : CallChange k k' a) (ha : a.caller ≠ some i)
    (hn : n ≤ k.results.length) :
    k'.threads[i]? = k.threads[i]? ∧ k'.ended n i = k.ended n i := by
  have hinsert : ∀ {j : ThreadId} {th : Thread}, a.caller = some j →
      (k.threads.insert j th)[i]? = k.threads[i]? := by
    intro j th hj
    have hji : j ≠ i := fun heq => ha (heq ▸ hj)
    grind
  have herase : ∀ {j : ThreadId}, a.caller = some j → (k.threads.erase j)[i]? = k.threads[i]? := by
    intro j hj
    have hji : j ≠ i := fun heq => ha (heq ▸ hj)
    grind
  cases h with
  | enter j call stage hs hi hc hth hres =>
    exact ⟨hth ▸ hinsert rfl, by rw [ended, ended, hres]⟩
  | goOn a j call stage stage' hj hi hth hres =>
    exact ⟨hth ▸ hinsert hj, by rw [ended, ended, hres]⟩
  | leave a j call result hj hi hth hres =>
    refine ⟨hth ▸ herase hj, ?_⟩
    have hji : j ≠ i := fun heq => ha (heq ▸ hj)
    rw [ended, ended, hres, List.drop_append_of_le_length hn, List.find?_append]
    simp [hji]
  | other a hnone hth hres => exact ⟨by rw [hth], by rw [ended, ended, hres]⟩

end Ended

/-! ## Responses -/

/-- The responses that a call makes a result of. -/
def ApiCall.understands : ApiCall → PropertyTreeMessages → Bool
  | signin, .signinAccept _ => true
  | create _ _, .createAccept _ | create _ _, .createReject _ => true
  | get _ _ _, .treeInfoResponse _ | get _ _ _, .treeInfoErrorResponse _ => true
  | set _ _, .setValueAccept _ | commit _, .setValueAccept _ => true
  | fetch _, .getAccept _ | fetch _, .getReject _ => true
  | subscribe _, .subscribeResponse _ | unsubscribe _, .unsubscribeResponse _ => true
  | destroy _, .deleteResponse _ => true
  | beat, .hearbeatResponse _ => true
  | .call _ _, .rpcAccept _ => true
  | _, _ => false

/-- Whether a `call` has been given an `RpcReject`. -/
def ApiCall.isRejected : ApiCall → PropertyTreeMessages → Bool
  | .call _ _, .rpcReject _ => true
  | _, _ => false

section Respond

variable {m : PropertyTreeMessages}

/-- A call understands every response its request can lead to, but for the rejection of a `call`. -/
theorem understands_of_leadsTo {node : Node} (h : (call.request node).leadsTo m = true)
    (hm : m.isServerInitiated = false) :
    call.understands m = true ∨ call.isRejected m = true := by
  cases call <;> cases m <;> first | exact .inl rfl | exact .inr rfl | (cases h; done) | cases hm

/-- What a call does with a response it understands: it ends with a result, or goes on to add the
entries of a listing. -/
theorem respond_of_understands (h : call.understands m = true)
    (hk : k.respond i call m = some k') :
    (∃ result, result.isResult = true ∧ k'.results = k.results ++ [(i, call, result)]) ∨
      ∃ l, m = .treeInfoResponse l ∧ k' = k.setStage i call (.adding l l) := by
  cases call <;> cases m <;> try (cases h; done)
  case get.treeInfoResponse =>
    cases hk
    exact .inr ⟨_, rfl, rfl⟩
  case fetch.getAccept =>
    simp only [respond] at hk
    split_ifs at hk
    cases hk
    exact .inl ⟨_, rfl, rfl⟩
  case destroy.deleteResponse =>
    simp only [respond] at hk
    split_ifs at hk <;> cases hk <;> exact .inl ⟨_, rfl, rfl⟩
  all_goals
    cases hk
    exact .inl ⟨_, rfl, rfl⟩

/-- What a call understands is no rejection of it. -/
theorem isRejected_of_understands (h : call.understands m = true) : call.isRejected m = false := by
  cases call <;> cases m <;> first | rfl | cases h

/-- A `call` that has been given an `RpcReject` throws. -/
theorem respond_of_isRejected (h : call.isRejected m = true) :
    k.respond i call m = some (k.throw i call .protocolError) := by
  cases call <;> cases m <;> first | rfl | cases h

/-- A call that understands its response can go on, unless it has to wait for a `dataMutex`. -/
theorem respond_ne_none (h : ∀ x, call = .fetch x → x ∉ k.dataMutex) :
    k.respond i call m ≠ none := by
  cases hcall : call <;> cases m <;> try (simp [respond]; done)
  case fetch.getAccept x data =>
    simp [respond, h x hcall]
  case destroy.deleteResponse x cause =>
    simp only [respond]
    split_ifs <;> simp

end Respond

/-! ## Past the wait -/

/-- The wait of the call has ended with a message, and the call has not. -/
def Stage.isPast : Stage → Bool
  | answered _ _ | adding _ _ => true
  | _ => false

/-- All that a thread past its wait does is to proceed. -/
theorem StepResult.eq_proceed (h : StepResult k number a k' sent) (ha : a.caller = some i)
    {th : Thread} (ht : k.threads[i]? = some th) (hpast : th.stage.isPast = true) :
    a = .proceed i := by
  have hother : ∀ {call stage}, k.threads[i]? = some ⟨call, stage⟩ → stage.isPast = true := by
    intro call stage hi
    rw [ht] at hi
    cases hi
    exact hpast
  have hnone : k.threads[i]? ≠ none := by
    rw [ht]
    nofun
  cases h with
  | found i call x hs hi =>
    cases ha
    exact absurd hi hnone
  | start i call node hs hi =>
    cases ha
    exact absurd hi hnone
  | startSet i x value node hs hi =>
    cases ha
    exact absurd hi hnone
  | skip i call q hi =>
    cases ha
    cases hother hi
  | draw i call q stage hi hid =>
    cases ha
    have := hother hi
    rcases hid with ⟨rfl, -⟩ | rfl <;> cases this
  | send i call q trId hi =>
    cases ha
    cases hother hi
  | take i call trId r response hi =>
    cases ha
    cases hother hi
  | timeout i call trId r hi =>
    cases ha
    cases hother hi
  | erase i call trId r response hi =>
    cases ha
    cases hother hi
  | _ =>
    first
      | cases ha; rfl
      | cases ha

/-- The step of a thread past its wait. -/
theorem proceed_of_isPast (hstep : k.step number a = some (k', sent)) (ha : a.caller = some i)
    {th : Thread} (ht : k.threads[i]? = some th) (hpast : th.stage.isPast = true) :
    a = .proceed i ∧ k.proceed i = some k' := by
  obtain rfl := (step_cases hstep).2.eq_proceed ha ht hpast
  simp only [step] at hstep
  split_ifs at hstep
  obtain ⟨k₁, hk₁, heq⟩ := Option.map_eq_some_iff.mp hstep
  cases heq
  exact ⟨rfl, hk₁⟩

/-- The entry that the next step of thread `i` looks up in `mTree`, to end a `get` of another node than
`pParent` itself. -/
def lookedUp (k : Client) (i : ThreadId) : Option NamedNode :=
  match k.threads[i]? with
  | some ⟨.get _ name _, .adding nodeToAddList []⟩ =>
    if name = selfName then none else nodeToAddList.head?
  | _ => none

/-- What `get` returns is a result when the entry it looks up is registered. -/
theorem isResult_found_iff {x : Addr} {name : Name} {recursive : Bool} {l : List NamedNode}
    (ht : k.threads[i]? = some ⟨.get x name recursive, .adding l []⟩)
    (hl : name ≠ selfName → l ≠ []) :
    (k.found (.get x name recursive) l).isResult = true ↔
      ∀ j ∈ k.lookedUp i, (k.mirror.mTree[j.uuid]?).isSome = true := by
  simp only [found, lookedUp, ht]
  by_cases hname : name = selfName
  · simp [if_pos hname, CallResult.isResult]
  · obtain ⟨j, l, rfl⟩ := List.exists_cons_of_ne_nil (hl hname)
    simp only [if_neg hname, List.head?_cons, Option.mem_def, Option.some.injEq, forall_eq']
    cases k.mirror.mTree[j.uuid]? <;> simp [CallResult.isResult]

/-- What `get` returns is no exception. -/
theorem isThrow_found (k : Client) (call : ApiCall) (l : List NamedNode) :
    (k.found call l).isThrow = false := by
  unfold found
  split
  · split_ifs
    · rfl
    · split
      · rfl
      · split <;> rfl
  · rfl

end Client

end PropertyTree
