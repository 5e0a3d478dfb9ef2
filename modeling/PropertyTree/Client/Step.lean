import PropertyTree.Client.Threads

/-!
# What one step of a client can do

`StepResult k number a k' sent` lists, branch by branch, how the step `a` of the client `k` can end
in `k'` and what it sends, together with the tests that lead there; `step_cases` says that nothing
else happens.  As for the server, everything later about runs is proved from it.
-/

namespace PropertyTree.Client

/-- The branches of a client's step, with their tests. -/
inductive StepResult (k : Client) (number : ℕ) : Action → Client → List Packet → Prop
  | found (i call a) (hs : k.status = .running) (hi : k.threads[i]? = none) (hc : call ≠ .signin)
      (hf : call.found k.mirror = some a) :
      StepResult k number (.start i call) (k.finish i call (.property (some a))) []
  | start (i call node) (hs : k.status = .running) (hi : k.threads[i]? = none) (hc : call ≠ .signin)
      (hset : ∀ a value, call ≠ .set a value) (hn : call.object k.mirror = some node) :
      StepResult k number (.start i call) (k.setStage i call (.begun (call.request node))) []
  | startSet (i a value node) (hs : k.status = .running) (hi : k.threads[i]? = none)
      (hl : k.dataMutex[a]? = none) (hn : k.mirror.heap[a]? = some node) :
      StepResult k number (.start i (.set a value))
        ({ k with
          dataMutex := k.dataMutex.insert a i
          mirror := k.mirror.modifyNode a fun node => { node with data := value } }.setStage i
          (.set a value) (.begun (.setValueRequest node.uuid value))) []
  | skip (i call q) (ht : k.threads[i]? = some ⟨call, .begun q⟩)
      (hid : k.mTransactioIdCtr = notificationId) :
      StepResult k number (.fetchId i)
        ({ k with mTransactioIdCtr := k.mTransactioIdCtr + 1 }.setStage i call (.skipping q)) []
  | draw (i call q stage) (ht : k.threads[i]? = some ⟨call, stage⟩)
      (hid : stage = .begun q ∧ k.mTransactioIdCtr ≠ notificationId ∨ stage = .skipping q) :
      StepResult k number (.fetchId i)
        ({ k with mTransactioIdCtr := k.mTransactioIdCtr + 1 }.setStage i call
          (.numbered q k.mTransactioIdCtr)) []
  | send (i call q trId) (ht : k.threads[i]? = some ⟨call, .numbered q trId⟩) :
      StepResult k number (.send i)
        ({ k with mTransactions := k.mTransactions.insertIfNew trId .new }.setStage i call
          (.waiting trId number)) [⟨number, trId, q⟩]
  | take (i call trId r response) (ht : k.threads[i]? = some ⟨call, .waiting trId r⟩)
      (hx : k.mTransactions[trId]? = some ⟨true, response⟩) :
      StepResult k number (.take i) (k.setStage i call (.taken trId r response)) []
  | timeout (i call trId r) (ht : k.threads[i]? = some ⟨call, .waiting trId r⟩)
      (hx : ∀ response, k.mTransactions[trId]? ≠ some ⟨true, response⟩) :
      StepResult k number (.timeout i) (k.throw i call .transactionFailure) []
  | erase (i call trId r response) (ht : k.threads[i]? = some ⟨call, .taken trId r response⟩) :
      StepResult k number (.erase i)
        ({ k with mTransactions := k.mTransactions.erase trId }.setStage i call
          (.answered r response)) []
  | signin (i r tag sessionId)
      (ht : k.threads[i]? = some ⟨.signin, .answered r ⟨tag, .signinAccept sessionId⟩⟩) :
      StepResult k number (.proceed i)
        ({ k with status := .running, mirror := k.mirror.emplaceRoot }.finish i .signin .void) []
  | create (i a name r tag uuid)
      (ht : k.threads[i]? = some ⟨.create a name, .answered r ⟨tag, .createAccept uuid⟩⟩) :
      StepResult k number (.proceed i)
        ({ k with mirror := k.mirror.createNode a name uuid }.finish i (.create a name)
          (.property (k.mirror.createNode a name uuid).mTree[uuid]?)) []
  | list (i a name recursive r tag nodeToAddList)
      (ht : k.threads[i]? =
        some ⟨.get a name recursive, .answered r ⟨tag, .treeInfoResponse nodeToAddList⟩⟩) :
      StepResult k number (.proceed i)
        (k.setStage i (.get a name recursive) (.adding nodeToAddList nodeToAddList)) []
  | fetch (i a r tag data) (ht : k.threads[i]? = some ⟨.fetch a, .answered r ⟨tag, .getAccept data⟩⟩)
      (hl : k.dataMutex[a]? = none) :
      StepResult k number (.proceed i)
        ({ k with
          mirror := k.mirror.modifyNode a fun node => { node with data := data } }.finish i
          (.fetch a) .void) []
  | destroy (i a r tag)
      (ht : k.threads[i]? = some ⟨.destroy a, .answered r ⟨tag, .deleteResponse .ok⟩⟩) :
      StepResult k number (.proceed i)
        ({ k with mirror := k.mirror.destroyNode a }.finish i (.destroy a) (.bool true)) []
  | respond (i call r response result) (hc : call ≠ .signin)
      (ht : k.threads[i]? = some ⟨call, .answered r response⟩) :
      StepResult k number (.proceed i) (k.finish i call result) []
  | fail (i call r response what) (ht : k.threads[i]? = some ⟨call, .answered r response⟩) :
      StepResult k number (.proceed i) (k.throw i call what) []
  | add (i call nodeToAddList j todo)
      (ht : k.threads[i]? = some ⟨call, .adding nodeToAddList (j :: todo)⟩) :
      StepResult k number (.proceed i)
        ({ k with mirror := k.mirror.addNode j }.setStage i call (.adding nodeToAddList todo)) []
  | get (i call nodeToAddList) (ht : k.threads[i]? = some ⟨call, .adding nodeToAddList []⟩) :
      StepResult k number (.proceed i) (k.finish i call (k.found call nodeToAddList)) []
  | satisfy (p inbound x) (hr : k.reader = none) (hin : k.inbound = p :: inbound)
      (hx : k.mTransactions[p.message.transactionId]? = some x) :
      StepResult k number .read
        { k with
          inbound := inbound
          mTransactions := k.mTransactions.insert p.message.transactionId ⟨true, p.body⟩ } []
  | treeUpdate (tag trId nodeToAddList nodeToDelete inbound) (hr : k.reader = none)
      (hin : k.inbound =
        ⟨tag, trId, .treeUpdateNotification nodeToAddList nodeToDelete⟩ :: inbound)
      (hx : k.mTransactions[trId]? = none) :
      StepResult k number .read
        { k with
          inbound := inbound
          mirror := k.mirror.handleTreeUpdateNotification nodeToAddList nodeToDelete
          deleted := k.deleted ++ nodeToDelete } []
  | updateNotification (tag trId uuid data inbound) (hr : k.reader = none)
      (hin : k.inbound = ⟨tag, trId, .updateNotification uuid data⟩ :: inbound)
      (hx : k.mTransactions[trId]? = none) :
      StepResult k number .read
        { k with
          inbound := inbound
          reader := (k.mirror.mTree[uuid]?).map fun a => (a, data) } []
  | rpcRequest (tag trId uuid param inbound) (hr : k.reader = none)
      (hin : k.inbound = ⟨tag, trId, .rpcRequest uuid param⟩ :: inbound)
      (hx : k.mTransactions[trId]? = none) :
      StepResult k number .read { k with inbound := inbound }
        [⟨tag, trId, k.rpcReply uuid param⟩]
  | ignore (p inbound) (hr : k.reader = none) (hin : k.inbound = p :: inbound)
      (hx : k.mTransactions[p.message.transactionId]? = none)
      (hm : p.message.message.isServerInitiated = false) :
      StepResult k number .read { k with inbound := inbound } []
  | update (a data) (hr : k.reader = some (a, data)) (hl : k.dataMutex[a]? = none) :
      StepResult k number .update
        { k with
          reader := none
          mirror := (k.mirror.modifyNode a fun node => { node with data := data }).callUpdate a } []
  | setup (s) (hs : k.status = .running) :
      StepResult k number (.setup s) { k with mirror := s.apply k.mirror } []
  | free (a) (ha : k.mirror.isReferenced a = false) (hu : k.uses a = false) :
      StepResult k number (.free a) { k with mirror := k.mirror.free a } []
  | close (hs : k.status = .running) (ht : ∀ i : ThreadId, k.threads[i]? = none) :
      StepResult k number .close { k with status := .closed } []

/-! ## Inversion -/

section Inversion

variable {k k' : Client} {number : ℕ} {i : ThreadId} {call : ApiCall} {sent : List Packet}

/-- The branches at the start of an API call. -/
theorem start_cases (h : k.start i call = some k') :
    StepResult k number (.start i call) k' [] := by
  unfold start at h
  split_ifs at h with hcond
  obtain ⟨hs, hi, hc⟩ := hcond
  rw [← Std.ExtTreeMap.isSome_getElem?_iff_mem, Option.not_isSome_iff_eq_none] at hi
  split at h
  · cases h
    exact .found _ _ _ hs hi hc ‹_›
  split at h
  · cases h
  rename_i k₁ hassign
  obtain ⟨node, hn, rfl⟩ := Option.map_eq_some_iff.mp h
  cases call with
  | set a value =>
    simp only [assign] at hassign
    split_ifs at hassign with hl
    cases hassign
    rw [← Std.ExtTreeMap.isSome_getElem?_iff_mem, Option.not_isSome_iff_eq_none] at hl
    simp only [ApiCall.object, ApiCall.node, Mirror.modifyNode_heap, if_true] at hn
    obtain ⟨node', hn', rfl⟩ := Option.map_eq_some_iff.mp hn
    exact .startSet _ _ _ node' hs hi hl hn'
  | _ =>
    cases hassign
    exact .start _ _ _ hs hi hc (fun _ _ => nofun) hn

/-- The branches of `fetch_add`. -/
theorem fetchId_cases (h : k.fetchId i = some k') : StepResult k number (.fetchId i) k' [] := by
  unfold fetchId at h
  split at h
  · cases h
    split_ifs with hid
    · exact .skip _ _ _ ‹_› hid
    · exact .draw _ _ _ _ ‹_› (.inl ⟨rfl, hid⟩)
  · cases h
    exact .draw _ _ _ _ ‹_› (.inr rfl)
  · cases h

/-- The branches of what follows `waitTransaction`. -/
theorem respond_cases {r tag : ℕ} {m : PropertyTreeMessages}
    (ht : k.threads[i]? = some ⟨call, .answered r ⟨tag, m⟩⟩) (h : k.respond i call m = some k') :
    StepResult k number (.proceed i) k' [] := by
  unfold respond at h
  split at h
  · cases h
    exact .signin _ _ _ _ ht
  · cases h
    exact .fail _ _ _ _ _ ht
  · cases h
    exact .respond _ _ _ _ _ nofun ht
  · cases h
    exact .create _ _ _ _ _ _ ht
  · cases h
    exact .list _ _ _ _ _ _ _ ht
  · cases h
    exact .respond _ _ _ _ _ nofun ht
  · cases h
    exact .respond _ _ _ _ _ nofun ht
  · cases h
    exact .respond _ _ _ _ _ nofun ht
  · split_ifs at h with hl
    cases h
    rw [← Std.ExtTreeMap.isSome_getElem?_iff_mem, Option.not_isSome_iff_eq_none] at hl
    exact .fetch _ _ _ _ _ ht hl
  · cases h
    exact .respond _ _ _ _ _ nofun ht
  · cases h
    exact .respond _ _ _ _ _ nofun ht
  · cases h
    exact .respond _ _ _ _ _ nofun ht
  · split_ifs at h with hok
    · cases h
      subst hok
      exact .destroy _ _ _ _ ht
    · cases h
      exact .respond _ _ _ _ _ nofun ht
  · cases h
    exact .respond _ _ _ _ _ nofun ht
  · cases h
    exact .respond _ _ _ _ _ nofun ht
  · cases h
    exact .fail _ _ _ _ _ ht

/-- The branches of the steps after `waitTransaction`. -/
theorem proceed_cases (h : k.proceed i = some k') : StepResult k number (.proceed i) k' [] := by
  unfold proceed at h
  split at h
  · rename_i response ht
    obtain ⟨tag, m⟩ := response
    exact respond_cases ht h
  · cases h
    exact .add _ _ _ _ _ ‹_›
  · cases h
    exact .get _ _ _ ‹_›
  · cases h

/-- The branches of the reader. -/
theorem read_cases (h : k.read = some (k', sent)) : StepResult k number .read k' sent := by
  unfold read at h
  split at h
  swap
  · cases h
  rename_i p inbound hr hin
  rw [Option.some.injEq, handle] at h
  split at h
  · cases h
    exact .satisfy _ _ _ hr hin ‹_›
  · rename_i hx
    obtain ⟨tag, trId, m⟩ := p
    cases m with
    | treeUpdateNotification add del =>
      cases h
      exact .treeUpdate _ _ _ _ _ hr hin hx
    | updateNotification uuid data =>
      cases h
      exact .updateNotification _ _ _ _ _ hr hin hx
    | rpcRequest uuid param =>
      cases h
      exact .rpcRequest _ _ _ _ _ hr hin hx
    | _ =>
      cases h
      exact .ignore _ _ hr hin hx rfl

/-- The branches of a client's step. -/
theorem step_cases {a : Action} (h : k.step number a = some (k', sent)) :
    k.status ≠ .closed ∧ StepResult k number a k' sent := by
  unfold step at h
  split_ifs at h with hclosed
  refine ⟨hclosed, ?_⟩
  cases a with
  | start i call =>
    obtain ⟨k₁, hk, heq⟩ := Option.map_eq_some_iff.mp h
    cases heq
    exact start_cases hk
  | fetchId i =>
    obtain ⟨k₁, hk, heq⟩ := Option.map_eq_some_iff.mp h
    cases heq
    exact fetchId_cases hk
  | send i =>
    simp only [send] at h
    split at h
    · cases h
      exact .send _ _ _ _ ‹_›
    · cases h
  | take i =>
    obtain ⟨k₁, hk, heq⟩ := Option.map_eq_some_iff.mp h
    cases heq
    unfold take at hk
    split at hk
    · split at hk
      · cases hk
        exact .take _ _ _ _ _ ‹_› ‹_›
      · cases hk
    · cases hk
  | timeout i =>
    obtain ⟨k₁, hk, heq⟩ := Option.map_eq_some_iff.mp h
    cases heq
    unfold timeout at hk
    split at hk
    · split at hk
      · cases hk
      · cases hk
        exact .timeout _ _ _ _ ‹_› ‹_›
    · cases hk
  | erase i =>
    obtain ⟨k₁, hk, heq⟩ := Option.map_eq_some_iff.mp h
    cases heq
    unfold erase at hk
    split at hk
    · cases hk
      exact .erase _ _ _ _ _ ‹_›
    · cases hk
  | proceed i =>
    obtain ⟨k₁, hk, heq⟩ := Option.map_eq_some_iff.mp h
    cases heq
    exact proceed_cases hk
  | read => exact read_cases h
  | update =>
    obtain ⟨k₁, hk, heq⟩ := Option.map_eq_some_iff.mp h
    cases heq
    unfold update at hk
    split at hk
    · cases hk
    · split_ifs at hk with hl
      cases hk
      rw [← Std.ExtTreeMap.isSome_getElem?_iff_mem, Option.not_isSome_iff_eq_none] at hl
      exact .update _ _ ‹_› hl
  | setup s =>
    obtain ⟨k₁, hk, heq⟩ := Option.map_eq_some_iff.mp h
    cases heq
    unfold setup at hk
    split_ifs at hk with hs
    cases hk
    exact .setup _ hs
  | free a =>
    obtain ⟨k₁, hk, heq⟩ := Option.map_eq_some_iff.mp h
    cases heq
    unfold free at hk
    split_ifs at hk with hu
    cases hk
    simp only [Bool.or_eq_true, not_or, Bool.not_eq_true] at hu
    exact .free _ hu.1 hu.2
  | close =>
    obtain ⟨k₁, hk, heq⟩ := Option.map_eq_some_iff.mp h
    cases heq
    unfold close at hk
    split_ifs at hk with hs
    cases hk
    refine .close hs.1 fun i => ?_
    rw [Std.ExtTreeMap.isEmpty_iff.mp hs.2]
    exact Std.ExtTreeMap.getElem?_empty

/-- The reader takes the next message, and no one else does. -/
theorem inbound_of_stepResult {a : Action} (h : StepResult k number a k' sent) :
    a ≠ .read ∧ k'.inbound = k.inbound ∨ a = .read ∧ ∃ p, k.inbound = p :: k'.inbound := by
  cases h with
  | satisfy p inbound x hr hin => exact .inr ⟨rfl, _, hin⟩
  | treeUpdate tag trId add del inbound hr hin => exact .inr ⟨rfl, _, hin⟩
  | updateNotification tag trId uuid data inbound hr hin => exact .inr ⟨rfl, _, hin⟩
  | rpcRequest tag trId uuid param inbound hr hin => exact .inr ⟨rfl, _, hin⟩
  | ignore p inbound hr hin => exact .inr ⟨rfl, _, hin⟩
  | _ => exact .inl ⟨nofun, rfl⟩

end Inversion

end PropertyTree.Client
