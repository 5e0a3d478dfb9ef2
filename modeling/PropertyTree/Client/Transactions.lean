import PropertyTree.Client.Objects

/-!
# The transactions of a client

What a step of a client does to `mTransactions`, to the calls that use an id of it, and to the queue
of the messages that may satisfy one.  Everything else a client does is of no concern to them.
-/

namespace PropertyTree.Client

/-- The id of a request that is about to be sent, or has been. -/
def Stage.id : Stage → Option UInt16
  | numbered _ trId | waiting trId _ | taken trId _ _ => some trId
  | _ => none

/-- The id a call is waiting with until its entry is erased, with the number of its request and the
message it has taken. -/
def Stage.wait : Stage → Option (UInt16 × ℕ × Option Tagged)
  | waiting trId r => some (trId, r, none)
  | taken trId r response => some (trId, r, some response)
  | _ => none

/-- The number of the request and the message that `waitTransaction` has found for it. -/
def Stage.response : Stage → Option (ℕ × Tagged)
  | taken _ r response | answered r response => some (r, response)
  | _ => none

/-- A call that has drawn `0xFFFF`, and draws again. -/
def Stage.isSkipping : Stage → Bool
  | skipping _ => true
  | _ => false

/-- What thread `i` of a client is waiting with. -/
def wait (k : Client) (i : ThreadId) : Option (UInt16 × ℕ × Option Tagged) :=
  (k.threads[i]?).bind fun th => th.stage.wait

variable {k k' : Client} {number : ℕ} {a : Action} {sent : List Packet}

/-- What a step does to the transactions, the calls that use an id, and the inbound queue. -/
inductive TransactionChange (k k' : Client) (number : ℕ) : Action → List Packet → Prop
  /-- Nothing, except that a response is made use of. -/
  | other (a : Action) (ha : ∀ i, a ≠ .timeout i) (hin : k'.inbound = k.inbound) (hx : k'.mTransactions = k.mTransactions)
      (hid : ∀ {i : ThreadId} {th : Thread}, th.stage.id ≠ none →
        (k'.threads[i]? = some th ↔ k.threads[i]? = some th))
      (hres : ∀ {i : ThreadId} {th : Thread}, th.stage.response ≠ none →
        k'.threads[i]? = some th → k.threads[i]? = some th) :
      TransactionChange k k' number a []
  | draw (i : ThreadId) (call stage q) (ht : k.threads[i]? = some ⟨call, stage⟩)
      (hnone : stage.id = none)
      (hid : stage = .begun q ∧ k.mTransactioIdCtr ≠ notificationId ∨ stage = .skipping q)
      (hin : k'.inbound = k.inbound) (hx : k'.mTransactions = k.mTransactions)
      (hth : k'.threads = k.threads.insert i ⟨call, .numbered q k.mTransactioIdCtr⟩) :
      TransactionChange k k' number (.fetchId i) []
  | send (i : ThreadId) (call q trId) (ht : k.threads[i]? = some ⟨call, .numbered q trId⟩)
      (hin : k'.inbound = k.inbound)
      (hx : k'.mTransactions = k.mTransactions.insertIfNew trId .new)
      (hth : k'.threads = k.threads.insert i ⟨call, .waiting trId number⟩) :
      TransactionChange k k' number (.send i) [⟨number, trId, q⟩]
  | take (i : ThreadId) (call trId r response)
      (ht : k.threads[i]? = some ⟨call, .waiting trId r⟩)
      (hsat : k.mTransactions[trId]? = some ⟨true, response⟩)
      (hin : k'.inbound = k.inbound) (hx : k'.mTransactions = k.mTransactions)
      (hth : k'.threads = k.threads.insert i ⟨call, .taken trId r response⟩) :
      TransactionChange k k' number (.take i) []
  | timeout (i : ThreadId) (call trId r) (ht : k.threads[i]? = some ⟨call, .waiting trId r⟩)
      (hin : k'.inbound = k.inbound) (hx : k'.mTransactions = k.mTransactions)
      (hth : k'.threads = k.threads.erase i) :
      TransactionChange k k' number (.timeout i) []
  | erase (i : ThreadId) (call trId r response)
      (ht : k.threads[i]? = some ⟨call, .taken trId r response⟩)
      (hin : k'.inbound = k.inbound) (hx : k'.mTransactions = k.mTransactions.erase trId)
      (hth : k'.threads = k.threads.insert i ⟨call, .answered r response⟩) :
      TransactionChange k k' number (.erase i) []
  | satisfy (p : Packet) (x) (hin : k.inbound = p :: k'.inbound)
      (hsat : k.mTransactions[p.message.transactionId]? = some x)
      (hx : k'.mTransactions =
        k.mTransactions.insert p.message.transactionId ⟨true, p.body⟩)
      (hth : k'.threads = k.threads) :
      TransactionChange k k' number .read []
  | dispatch (p : Packet) (sent) (hin : k.inbound = p :: k'.inbound)
      (hnone : k.mTransactions[p.message.transactionId]? = none)
      (hx : k'.mTransactions = k.mTransactions) (hth : k'.threads = k.threads)
      (hsent : ∀ q ∈ sent, q.message.message.isRequest = false) :
      TransactionChange k k' number .read sent

section Threads

variable {i : ThreadId} {th : Thread}

/-- A thread after thread `i` has gone on. -/
theorem thread_of_insert {threads : Std.ExtTreeMap ThreadId Thread} {j : ThreadId} {th' : Thread}
    (h : (threads.insert i th)[j]? = some th') :
    j = i ∧ th' = th ∨ j ≠ i ∧ threads[j]? = some th' := by
  grind

/-- A thread after thread `i` has ended its call. -/
theorem thread_of_erase {threads : Std.ExtTreeMap ThreadId Thread} {j : ThreadId} {th' : Thread}
    (h : (threads.erase i)[j]? = some th') : j ≠ i ∧ threads[j]? = some th' := by
  grind

/-- A stage that uses no id waits with none. -/
theorem Stage.wait_of_id {stage : Stage} (h : stage.id = none) : stage.wait = none := by
  cases stage <;> first | rfl | cases h

theorem wait_of_insert (hth : k'.threads = k.threads.insert i th) (j : ThreadId) :
    k'.wait j = if j = i then th.stage.wait else k.wait j := by
  simp only [wait, hth]
  split_ifs with hji
  · subst hji
    simp
  · grind

theorem wait_of_erase (hth : k'.threads = k.threads.erase i) (j : ThreadId) :
    k'.wait j = if j = i then none else k.wait j := by
  simp only [wait, hth]
  grind

theorem wait_of_getElem? (h : k.threads[i]? = some th) : k.wait i = th.stage.wait := by
  rw [wait, h, Option.bind_some]

/-- Calls that use the same ids wait with the same. -/
theorem wait_congr (hid : ∀ {i : ThreadId} {th : Thread}, th.stage.id ≠ none →
    (k'.threads[i]? = some th ↔ k.threads[i]? = some th)) (i : ThreadId) : k'.wait i = k.wait i := by
  apply Option.ext
  intro x
  simp only [wait, Option.bind_eq_some_iff]
  constructor
  · rintro ⟨th, hth, hx⟩
    refine ⟨th, (hid fun hnone => ?_).mp hth, hx⟩
    rw [Stage.wait_of_id hnone] at hx
    cases hx
  · rintro ⟨th, hth, hx⟩
    refine ⟨th, (hid fun hnone => ?_).mpr hth, hx⟩
    rw [Stage.wait_of_id hnone] at hx
    cases hx

/-- A thread goes on to a stage that uses no id and holds no response. -/
theorem TransactionChange.of_insert (ha : ∀ i, a ≠ .timeout i) (hin : k'.inbound = k.inbound)
    (hx : k'.mTransactions = k.mTransactions) (hth : k'.threads = k.threads.insert i th)
    (hold : ∀ th', k.threads[i]? = some th' → th'.stage.id = none) (hid : th.stage.id = none)
    (hres : th.stage.response = none) : TransactionChange k k' number a [] := by
  refine .other _ ha hin hx (fun {j th'} hne => ?_) (fun {j th'} hne hj => ?_)
  · rw [hth]
    have := hold th'
    grind
  · rw [hth] at hj
    grind

/-- A call that is past its wait ends. -/
theorem TransactionChange.of_erase (ha : ∀ i, a ≠ .timeout i) (hin : k'.inbound = k.inbound)
    (hx : k'.mTransactions = k.mTransactions) (hth : k'.threads = k.threads.erase i)
    (hold : ∀ th', k.threads[i]? = some th' → th'.stage.id = none) :
    TransactionChange k k' number a [] := by
  refine .other _ ha hin hx (fun {j th'} hne => ?_) (fun {j th'} hne hj => ?_)
  · rw [hth]
    have := hold th'
    grind
  · rw [hth] at hj
    grind

end Threads

/-- The reply to an `RpcRequest` is no request. -/
theorem isRequest_rpcReply (k : Client) (uuid : UInt64) (param : Buffer) :
    (k.rpcReply uuid param).isRequest = false := by
  unfold rpcReply
  split
  · rfl
  · split <;> rfl

/-- The transactions in a step of a client. -/
theorem StepResult.transactionChange (h : StepResult k number a k' sent) :
    TransactionChange k k' number a sent := by
  have hstage : ∀ {i : ThreadId} {th : Thread}, k.threads[i]? = some th → th.stage.id = none →
      ∀ th', k.threads[i]? = some th' → th'.stage.id = none := by
    intro i th hi hid th' hi'
    rw [hi] at hi'
    cases hi'
    exact hid
  have hnone : ∀ {i : ThreadId}, k.threads[i]? = none →
      ∀ th', k.threads[i]? = some th' → th'.stage.id = none := by
    intro i hi th' hi'
    rw [hi] at hi'
    cases hi'
  cases h with
  | found i call a hs hi => exact .of_erase nofun rfl rfl rfl (hnone hi)
  | start i call node hs hi => exact .of_insert nofun rfl rfl rfl (hnone hi) rfl rfl
  | startSet i a value node hs hi => exact .of_insert nofun rfl rfl rfl (hnone hi) rfl rfl
  | skip i call q ht => exact .of_insert nofun rfl rfl rfl (hstage ht rfl) rfl rfl
  | draw i call q stage ht hid =>
    refine .draw _ _ _ _ ht ?_ hid rfl rfl rfl
    rcases hid with ⟨rfl, -⟩ | rfl <;> rfl
  | send i call q trId ht => exact .send _ _ _ _ ht rfl rfl rfl
  | take i call trId r response ht hx => exact .take _ _ _ _ _ ht hx rfl rfl rfl
  | timeout i call trId r ht => exact .timeout _ _ _ _ ht rfl rfl rfl
  | erase i call trId r response ht => exact .erase _ _ _ _ _ ht rfl rfl rfl
  | signin i r tag sessionId ht => exact .of_erase nofun rfl rfl rfl (hstage ht rfl)
  | create i a name r tag uuid ht => exact .of_erase nofun rfl rfl rfl (hstage ht rfl)
  | list i a name recursive r tag l ht => exact .of_insert nofun rfl rfl rfl (hstage ht rfl) rfl rfl
  | fetch i a r tag data ht => exact .of_erase nofun rfl rfl rfl (hstage ht rfl)
  | destroy i a r tag ht => exact .of_erase nofun rfl rfl rfl (hstage ht rfl)
  | respond i call r response result hc ht => exact .of_erase nofun rfl rfl rfl (hstage ht rfl)
  | fail i call r response what ht => exact .of_erase nofun rfl rfl rfl (hstage ht rfl)
  | add i call l j todo ht => exact .of_insert nofun rfl rfl rfl (hstage ht rfl) rfl rfl
  | get i call l ht => exact .of_erase nofun rfl rfl rfl (hstage ht rfl)
  | satisfy p inbound x hr hin hx => exact .satisfy _ _ hin hx rfl rfl
  | treeUpdate tag trId add del inbound hr hin hx =>
    exact .dispatch _ _ hin hx rfl rfl (by simp)
  | updateNotification tag trId uuid data inbound hr hin hx =>
    exact .dispatch _ _ hin hx rfl rfl (by simp)
  | rpcRequest tag trId uuid param inbound hr hin hx =>
    refine .dispatch _ _ hin hx rfl rfl fun q hq => ?_
    obtain rfl := List.mem_singleton.mp hq
    exact k.isRequest_rpcReply uuid param
  | ignore p inbound hr hin hx => exact .dispatch _ _ hin hx rfl rfl (by simp)
  | update => exact .other _ nofun rfl rfl (fun _ => Iff.rfl) fun _ h => h
  | setup => exact .other _ nofun rfl rfl (fun _ => Iff.rfl) fun _ h => h
  | free => exact .other _ nofun rfl rfl (fun _ => Iff.rfl) fun _ h => h
  | close => exact .other _ nofun rfl rfl (fun _ => Iff.rfl) fun _ h => h

/-- A step of a client at most takes a message from the inbound queue. -/
theorem inbound_of_change (hchange : TransactionChange k k' number a sent) :
    k'.inbound = k.inbound ∨ ∃ p, k.inbound = p :: k'.inbound := by
  cases hchange with
  | satisfy p x hin => exact .inr ⟨p, hin⟩
  | dispatch p sent hin => exact .inr ⟨p, hin⟩
  | other a ha hin => exact .inl hin
  | draw i call stage q ht hnone hid hin => exact .inl hin
  | send i call q trId ht hin => exact .inl hin
  | take i call trId r response ht hsat hin => exact .inl hin
  | timeout i call trId r ht hin => exact .inl hin
  | erase i call trId r response ht hin => exact .inl hin

/-- A call that waits after a step has waited before, unless it has just sent its request. -/
theorem waiting_of_change (hchange : TransactionChange k k' number a sent) {i : ThreadId}
    {call : ApiCall} {t : UInt16} {r : ℕ} (h : k'.threads[i]? = some ⟨call, .waiting t r⟩)
    (hr : r ≠ number) : k.threads[i]? = some ⟨call, .waiting t r⟩ := by
  have hinsert : ∀ {j th}, k'.threads = k.threads.insert j th → th.stage ≠ .waiting t r →
      k.threads[i]? = some ⟨call, .waiting t r⟩ := by
    intro j th hth hne
    rw [hth] at h
    rcases thread_of_insert h with ⟨-, rfl⟩ | ⟨-, h⟩
    · exact absurd rfl hne
    · exact h
  cases hchange with
  | other a ha hin hx hid => exact (hid (by simp [Stage.id])).mp h
  | draw j call' stage q ht hnone hid hin hx hth => exact hinsert hth nofun
  | send j call' q trId ht hin hx hth =>
    refine hinsert hth fun heq => ?_
    cases heq
    exact hr rfl
  | take j call' trId r' response ht hsat hin hx hth => exact hinsert hth nofun
  | timeout j call' trId r' ht hin hx hth => exact (thread_of_erase (hth ▸ h)).2
  | erase j call' trId r' response ht hin hx hth => exact hinsert hth nofun
  | satisfy p x hin hsat hx hth => exact hth ▸ h
  | dispatch p sent hin hnone hx hth => exact hth ▸ h

/-- What a step does to the update the reader has in hand. -/
theorem StepResult.reader_cases (h : StepResult k number a k' sent) :
    k'.reader = k.reader ∨ k'.reader = none ∨ ∃ tag trId u data,
      k.inbound = ⟨tag, trId, .updateNotification u data⟩ :: k'.inbound ∧
        k'.reader = (k.mirror.mTree[u]?).map fun a => (a, data) := by
  cases h with
  | updateNotification tag trId uuid data inbound hr hin hx =>
    exact .inr (.inr ⟨_, _, _, _, hin, rfl⟩)
  | update => exact .inr (.inl rfl)
  | _ => exact .inl rfl

end PropertyTree.Client
