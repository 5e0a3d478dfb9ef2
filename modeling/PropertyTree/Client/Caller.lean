import PropertyTree.Client.Transactions

/-!
# A client with one caller

One thread of the application calls the API, one call after the other, and no wait ends by the timeout.
Then at most one request is under way: it is still with the caller, or on its way to the server, or its
response is on its way back, among the notifications, or the caller has it.  `Calling` says where it is,
and `Advance` what the steps of the client do to it.
-/

namespace PropertyTree.Client

variable {i j : ThreadId} {k k' : Client} {number : ℕ} {a : Action} {sent : List Packet}
  {call : ApiCall} {q m : PropertyTreeMessages} {w : Option (ApiCall × Exchange)}

/-- Where the request of a call is, or its response: in the queue it has notifications before and after
it. -/
inductive Exchange where
  | unsent (q : PropertyTreeMessages)
  | asked (q : PropertyTreeMessages)
  | coming (m : PropertyTreeMessages) (before after : List Packet)
  | got (m : PropertyTreeMessages)

/-- A notification of changes of the tree. -/
def IsTreeUpdate (p : Packet) : Prop :=
  ∃ tag add del, p = ⟨tag, notificationId, .treeUpdateNotification add del⟩

/-- There is one transaction, `e` under the id `t`. -/
def Only (mTransactions : Std.ExtTreeMap UInt16 Transaction) (t : UInt16) (e : Transaction) : Prop :=
  ∀ t' : UInt16, mTransactions[t']? = if t' = t then some e else none

/-- The caller has the request `q`, and the id that it has drawn or draws next is that of no
notification. -/
def Stage.Draws (mTransactioIdCtr : UInt16) (q : PropertyTreeMessages) : Stage → Prop
  | begun q' => q' = q
  | skipping q' => q' = q ∧ mTransactioIdCtr ≠ notificationId
  | numbered q' t => q' = q ∧ t ≠ notificationId
  | _ => False

/-- The caller has the response `m`, in its transaction or taken out of it. -/
def Stage.Gets (mTransactions : Std.ExtTreeMap UInt16 Transaction) (m : PropertyTreeMessages) :
    Stage → Prop
  | waiting t _ => t ≠ notificationId ∧ ∃ tag, Only mTransactions t ⟨true, tag, m⟩
  | taken t _ x => t ≠ notificationId ∧ x.message = m ∧ ∃ e, Only mTransactions t e
  | answered _ x => x.message = m ∧ ∀ t : UInt16, mTransactions[t]? = none
  | _ => False

/-- The call of thread `i`, and where its request or its response is. -/
inductive Calling (i : ThreadId) (k : Client) : Option (ApiCall × Exchange) → Prop
  | idle (ht : k.threads[i]? = none) (hx : ∀ t : UInt16, k.mTransactions[t]? = none)
      (hout : k.outbound = []) (hin : ∀ p ∈ k.inbound, IsTreeUpdate p) : Calling i k none
  | unsent (call q stage) (ht : k.threads[i]? = some ⟨call, stage⟩)
      (hstage : stage.Draws k.mTransactioIdCtr q) (hx : ∀ t : UInt16, k.mTransactions[t]? = none)
      (hout : k.outbound = []) (hin : ∀ p ∈ k.inbound, IsTreeUpdate p) :
      Calling i k (some (call, .unsent q))
  | asked (call q t r) (ht : k.threads[i]? = some ⟨call, .waiting t r⟩) (hid : t ≠ notificationId)
      (hx : Only k.mTransactions t .new) (hout : k.outbound = [⟨r, t, q⟩])
      (hin : ∀ p ∈ k.inbound, IsTreeUpdate p) : Calling i k (some (call, .asked q))
  | coming (call m t r tag before after) (ht : k.threads[i]? = some ⟨call, .waiting t r⟩)
      (hid : t ≠ notificationId) (hx : Only k.mTransactions t .new) (hout : k.outbound = [])
      (hin : k.inbound = before ++ ⟨tag, t, m⟩ :: after) (hbefore : ∀ p ∈ before, IsTreeUpdate p)
      (hafter : ∀ p ∈ after, IsTreeUpdate p) : Calling i k (some (call, .coming m before after))
  | got (call m stage) (ht : k.threads[i]? = some ⟨call, stage⟩) (hstage : stage.Gets k.mTransactions m)
      (hout : k.outbound = []) (hin : ∀ p ∈ k.inbound, IsTreeUpdate p) : Calling i k (some (call, .got m))

/-- Thread `i` is the only one that is in a call, and the reader waits for no lock. -/
structure OneCaller (i : ThreadId) (w : Option (ApiCall × Exchange)) (k : Client) : Prop where
  running : k.status = .running
  reader : k.reader = none
  alone : ∀ {j : ThreadId} {th : Thread}, k.threads[j]? = some th → j = i
  calling : Calling i k w

/-- What is left of the exchange when the first message of the queue, a notification, has been read. -/
def Exchange.afterNotice : Exchange → Exchange
  | coming m before after => coming m before.tail after
  | x => x

/-- What is left of the exchange when messages have arrived at the end of the queue. -/
def Exchange.receive (new : List Packet) : Exchange → Exchange
  | coming m before after => coming m before (after ++ new)
  | x => x

/-- The request that is with the caller or on its way. -/
def Exchange.request : Exchange → Option PropertyTreeMessages
  | unsent q | asked q => some q
  | _ => none

/-- The response that is on its way back or with the caller. -/
def Exchange.response : Exchange → Option PropertyTreeMessages
  | coming m _ _ | got m => some m
  | _ => none

/-- What is not before the response in the queue. -/
def Exchange.behind (inbound : List Packet) : Exchange → List Packet
  | coming _ _ after => after
  | _ => inbound

/-- What a step does in the course of a call. -/
inductive Advance (k k' : Client) :
    Action → Option (ApiCall × Exchange) → Option (ApiCall × Exchange) → Prop
  | within (a : Action) (w) (hm : k'.mirror = k.mirror) (hin : k'.inbound = k.inbound) : Advance k k' a w w
  | free (b w) (hm : k'.mirror = k.mirror.free b) (hin : k'.inbound = k.inbound)
      (hb : k.mirror.isReferenced b = false) (huses : k.uses b = false) : Advance k k' (.free b) w w
  | send (a : Action) (call q) (hm : k'.mirror = k.mirror) (hin : k'.inbound = k.inbound) :
      Advance k k' a (some (call, .unsent q)) (some (call, .asked q))
  | notice (tag add del w) (hin : k.inbound =
        ⟨tag, notificationId, .treeUpdateNotification add del⟩ :: k'.inbound)
      (hbefore : ∀ call m before after, w = some (call, .coming m before after) → before ≠ [])
      (hm : k'.mirror = k.mirror.handleTreeUpdateNotification add del) :
      Advance k k' .read w (w.map fun x => (x.1, x.2.afterNotice))
  | response (call m after) (hm : k'.mirror = k.mirror) (hin : k'.inbound = after) :
      Advance k k' .read (some (call, .coming m [] after)) (some (call, .got m))

/-- The steps in the course of a call. -/
def Action.isQuiet : Action → Bool
  | .fetchId _ | .send _ | .take _ | .erase _ | .read | .free _ => true
  | _ => false

/-! ## The steps -/

theorem Only.ne {mTransactions : Std.ExtTreeMap UInt16 Transaction} {t t' : UInt16} {e : Transaction}
    (h : Only mTransactions t e) (hne : t' ≠ t) : mTransactions[t']? = none := by
  rw [h t', if_neg hne]

theorem Only.self {mTransactions : Std.ExtTreeMap UInt16 Transaction} {t : UInt16} {e : Transaction}
    (h : Only mTransactions t e) : mTransactions[t]? = some e := by
  rw [h t, if_pos rfl]

/-- The response stays on its way. -/
theorem Advance.response_eq {x : Exchange} {w' : Option (ApiCall × Exchange)}
    (h : Advance k k' a (some (call, x)) w') (hx : x.response = some m) :
    ∃ x', w' = some (call, x') ∧ x'.response = some m := by
  cases h with
  | within a w hm hin => exact ⟨x, rfl, hx⟩
  | free b w hm hin => exact ⟨x, rfl, hx⟩
  | send a call q => cases hx
  | notice tag add del w hin => exact ⟨_, rfl, by cases x <;> exact hx⟩
  | response call m' after => exact ⟨_, rfl, hx⟩

namespace OneCaller

/-- A notification is in no transaction. -/
theorem not_notice (h : OneCaller i w k) : k.mTransactions[notificationId]? = none := by
  cases h.calling with
  | idle ht hx => exact hx _
  | unsent call q stage ht hstage hx => exact hx _
  | asked call q t r ht hid hx => exact hx.ne hid.symm
  | coming call m t r tag before after ht hid hx => exact hx.ne hid.symm
  | got call m stage ht hstage =>
    cases stage with
    | waiting t r =>
      obtain ⟨hid, tag, hx⟩ := hstage
      exact hx.ne hid.symm
    | taken t r x =>
      obtain ⟨hid, -, e, hx⟩ := hstage
      exact hx.ne hid.symm
    | answered r x => exact hstage.2 _
    | _ => exact hstage.elim

/-- The caller goes on in the course of its call. -/
theorem setStage (h : OneCaller i w k) {stage : Stage} {w' : Option (ApiCall × Exchange)}
    (hstatus : k'.status = k.status) (hreader : k'.reader = k.reader)
    (hth : k'.threads = k.threads.insert i ⟨call, stage⟩) (hcalling : Calling i k' w') :
    OneCaller i w' k' := by
  refine ⟨hstatus.trans h.running, hreader.trans h.reader, fun {j th} hj => ?_, hcalling⟩
  rw [hth] at hj
  rcases thread_of_insert hj with ⟨rfl, -⟩ | ⟨-, hj⟩
  · rfl
  · exact h.alone hj

/-- The call ends. -/
theorem finish (h : OneCaller i w k) (hstatus : k'.status = k.status) (hreader : k'.reader = k.reader)
    (hth : k'.threads = k.threads.erase i) (hcalling : Calling i k' none) : OneCaller i none k' := by
  refine ⟨hstatus.trans h.running, hreader.trans h.reader, fun {j th} hj => ?_, hcalling⟩
  rw [hth] at hj
  exact h.alone (thread_of_erase hj).2

/-- Nothing happens to the call. -/
theorem congr (h : OneCaller i w k) (hstatus : k'.status = k.status) (hreader : k'.reader = k.reader)
    (hth : k'.threads = k.threads) (hx : k'.mTransactions = k.mTransactions)
    (hctr : k'.mTransactioIdCtr = k.mTransactioIdCtr) (hout : k'.outbound = k.outbound)
    (hin : k'.inbound = k.inbound) : OneCaller i w k' := by
  refine ⟨hstatus.trans h.running, hreader.trans h.reader, fun hj => h.alone (hth ▸ hj), ?_⟩
  cases h.calling with
  | idle ht hx₀ hout₀ hin₀ => exact .idle (by rwa [hth]) (by rwa [hx]) (by rwa [hout]) (by rwa [hin])
  | unsent call q stage ht hstage hx₀ hout₀ hin₀ =>
    exact .unsent call q stage (by rwa [hth]) (by rwa [hctr]) (by rwa [hx]) (by rwa [hout]) (by rwa [hin])
  | asked call q t r ht hid hx₀ hout₀ hin₀ =>
    exact .asked call q t r (by rwa [hth]) hid (by rwa [hx]) (by rwa [hout]) (by rwa [hin])
  | coming call m t r tag before after ht hid hx₀ hout₀ hin₀ hbefore hafter =>
    exact .coming call m t r tag before after (by rwa [hth]) hid (by rwa [hx]) (by rwa [hout])
      (by rwa [hin]) hbefore hafter
  | got call m stage ht hstage hout₀ hin₀ =>
    exact .got call m stage (by rwa [hth]) (by rwa [hx]) (by rwa [hout]) (by rwa [hin])

/-- The reader takes a notification. -/
theorem notice (h : OneCaller i w k) {p : Packet} {inbound : List Packet}
    (hin : k.inbound = p :: inbound) (hresp : ∀ call m after, w ≠ some (call, .coming m [] after))
    (hstatus : k'.status = k.status) (hreader : k'.reader = k.reader) (hth : k'.threads = k.threads)
    (hx : k'.mTransactions = k.mTransactions) (hctr : k'.mTransactioIdCtr = k.mTransactioIdCtr)
    (hout : k'.outbound = k.outbound) (hin' : k'.inbound = inbound) :
    OneCaller i (w.map fun x => (x.1, x.2.afterNotice)) k' := by
  refine ⟨hstatus.trans h.running, hreader.trans h.reader, fun hj => h.alone (hth ▸ hj), ?_⟩
  have hrest : ∀ q ∈ k'.inbound, q ∈ k.inbound := by
    rw [hin, hin']
    exact fun q hq => List.mem_cons_of_mem p hq
  cases h.calling with
  | idle ht hx₀ hout₀ hin₀ =>
    exact .idle (by rwa [hth]) (by rwa [hx]) (by rwa [hout]) fun q hq => hin₀ q (hrest q hq)
  | unsent call q stage ht hstage hx₀ hout₀ hin₀ =>
    exact .unsent call q stage (by rwa [hth]) (by rwa [hctr]) (by rwa [hx]) (by rwa [hout])
      fun q hq => hin₀ q (hrest q hq)
  | asked call q t r ht hid hx₀ hout₀ hin₀ =>
    exact .asked call q t r (by rwa [hth]) hid (by rwa [hx]) (by rwa [hout]) fun q hq => hin₀ q (hrest q hq)
  | got call m stage ht hstage hout₀ hin₀ =>
    exact .got call m stage (by rwa [hth]) (by rwa [hx]) (by rwa [hout]) fun q hq => hin₀ q (hrest q hq)
  | coming call m t r tag before after ht hne hx₀ hout₀ hin₀ hbefore hafter =>
    cases before with
    | nil => exact absurd rfl (hresp call m after)
    | cons p' before =>
      obtain ⟨rfl, hin₁⟩ := List.cons.inj (hin₀.symm.trans hin)
      exact .coming call m t r tag before after (by rwa [hth]) hne (by rwa [hx]) (by rwa [hout])
        (hin'.trans hin₁.symm) (fun q hq => hbefore q (List.mem_cons_of_mem _ hq)) hafter

/-- The reader takes a message: a notification, or the response that the caller waits for. -/
theorem read (h : OneCaller i w k) {p : Packet} {inbound : List Packet}
    (hin : k.inbound = p :: inbound) :
    (IsTreeUpdate p ∧ ∀ call m after, w ≠ some (call, .coming m [] after)) ∨
      ∃ call m t r, w = some (call, .coming m [] inbound) ∧ k.threads[i]? = some ⟨call, .waiting t r⟩ ∧
        t ≠ notificationId ∧ Only k.mTransactions t .new ∧ k.outbound = [] ∧
        p.message = ⟨t, m⟩ ∧ ∀ q ∈ inbound, IsTreeUpdate q := by
  have hp : p ∈ k.inbound := hin ▸ List.mem_cons_self
  cases h.calling with
  | idle ht hx hout hin₀ => exact .inl ⟨hin₀ p hp, by simp⟩
  | unsent call q stage ht hstage hx hout hin₀ => exact .inl ⟨hin₀ p hp, by simp⟩
  | asked call q t r ht hid hx hout hin₀ => exact .inl ⟨hin₀ p hp, by simp⟩
  | got call m stage ht hstage hout hin₀ => exact .inl ⟨hin₀ p hp, by simp⟩
  | coming call m t r tag before after ht hid hx hout hin₀ hbefore hafter =>
    cases before with
    | nil =>
      obtain ⟨rfl, rfl⟩ := List.cons.inj (hin₀.symm.trans hin)
      exact .inr ⟨call, m, t, r, rfl, ht, hid, hx, hout, rfl, hafter⟩
    | cons p' before =>
      obtain ⟨rfl, -⟩ := List.cons.inj (hin₀.symm.trans hin)
      exact .inl ⟨hbefore _ List.mem_cons_self, by simp⟩

/-- In the course of a call the request or the response is taken further, and nothing else happens but
that notifications are handled and objects freed. -/
theorem step (h : OneCaller i w k) (hstep : StepResult k number a k' sent) (ha : a.isQuiet = true) :
    ∃ w', OneCaller i w' { k' with outbound := k'.outbound ++ sent } ∧ Advance k k' a w w' ∧
      k'.results = k.results := by
  have hcalling := h.calling
  cases hstep with
  | skip j call q ht hid =>
    obtain rfl := h.alone ht
    cases hcalling with
    | unsent call' q' stage ht' hstage hx hout hin =>
      cases ht'.symm.trans ht
      refine ⟨_, h.setStage rfl rfl rfl (.unsent call q' (.skipping q) ?_ ⟨hstage, ?_⟩ hx ?_ hin),
        .within _ _ rfl rfl, rfl⟩
      · simp [Client.setStage]
      · simp only [Client.setStage, hid]
        decide
      · simp [Client.setStage, hout]
    | got call' m stage ht' hstage =>
      cases ht'.symm.trans ht
      exact hstage.elim
    | idle ht' => cases ht'.symm.trans ht
    | asked call' q' t r ht' => cases ht'.symm.trans ht
    | coming call' m t r tag before after ht' => cases ht'.symm.trans ht
  | draw j call q stage ht hid =>
    obtain rfl := h.alone ht
    cases hcalling with
    | unsent call' q' stage' ht' hstage hx hout hin =>
      cases ht'.symm.trans ht
      have hdrawn : q = q' ∧ k.mTransactioIdCtr ≠ notificationId := by
        rcases hid with ⟨rfl, hid⟩ | rfl
        · exact ⟨hstage, hid⟩
        · exact hstage
      refine ⟨_, h.setStage rfl rfl rfl
        (.unsent call q' (.numbered q k.mTransactioIdCtr) ?_ hdrawn hx ?_ hin),
        .within _ _ rfl rfl, rfl⟩
      · simp [Client.setStage]
      · simp [Client.setStage, hout]
    | got call' m stage' ht' hstage =>
      cases ht'.symm.trans ht
      rcases hid with ⟨rfl, -⟩ | rfl <;> exact hstage.elim
    | idle ht' => cases ht'.symm.trans ht
    | asked call' q' t r ht' =>
      cases ht'.symm.trans ht
      rcases hid with ⟨heq, -⟩ | heq <;> cases heq
    | coming call' m t r tag before after ht' =>
      cases ht'.symm.trans ht
      rcases hid with ⟨heq, -⟩ | heq <;> cases heq
  | send j call q trId ht =>
    obtain rfl := h.alone ht
    cases hcalling with
    | unsent call' q' stage ht' hstage hx hout hin =>
      cases ht'.symm.trans ht
      obtain ⟨rfl, hid⟩ := hstage
      refine ⟨_, h.setStage rfl rfl rfl (.asked call q trId number ?_ hid ?_ ?_ hin),
        .send _ _ _ rfl rfl, rfl⟩
      · simp [Client.setStage]
      · intro t'
        have hnew : trId ∉ k.mTransactions := by
          rw [← Std.ExtTreeMap.isSome_getElem?_iff_mem, hx]
          nofun
        simp [Client.setStage, Std.ExtTreeMap.getElem?_insertIfNew, hx, hnew, @eq_comm _ t' trId]
      · simp [Client.setStage, hout]
    | got call' m stage ht' hstage =>
      cases ht'.symm.trans ht
      exact hstage.elim
    | idle ht' => cases ht'.symm.trans ht
    | asked call' q' t r ht' => cases ht'.symm.trans ht
    | coming call' m t r tag before after ht' => cases ht'.symm.trans ht
  | take j call trId r response ht hsat =>
    obtain rfl := h.alone ht
    cases hcalling with
    | got call' m stage ht' hstage hout hin =>
      cases ht'.symm.trans ht
      obtain ⟨hid, tag, hx⟩ := hstage
      cases hx.self.symm.trans hsat
      refine ⟨_, h.setStage rfl rfl rfl
        (.got call m (.taken trId r ⟨tag, m⟩) ?_ ⟨hid, rfl, _, hx⟩ ?_ hin), .within _ _ rfl rfl, rfl⟩
      · simp [Client.setStage]
      · simp [Client.setStage, hout]
    | asked call' q t r' ht' hid hx =>
      cases ht'.symm.trans ht
      cases hx.self.symm.trans hsat
    | coming call' m t r' tag before after ht' hid hx =>
      cases ht'.symm.trans ht
      cases hx.self.symm.trans hsat
    | idle ht' => cases ht'.symm.trans ht
    | unsent call' q stage ht' hstage =>
      cases ht'.symm.trans ht
      exact hstage.elim
  | erase j call trId r response ht =>
    obtain rfl := h.alone ht
    cases hcalling with
    | got call' m stage ht' hstage hout hin =>
      cases ht'.symm.trans ht
      obtain ⟨hid, hm, e, hx⟩ := hstage
      refine ⟨_, h.setStage rfl rfl rfl (.got call m (.answered r response) ?_ ⟨hm, fun t => ?_⟩ ?_ hin),
        .within _ _ rfl rfl, rfl⟩
      · simp [Client.setStage]
      · have := hx t
        simp only [Client.setStage]
        grind
      · simp [Client.setStage, hout]
    | unsent call' q stage ht' hstage =>
      cases ht'.symm.trans ht
      exact hstage.elim
    | idle ht' => cases ht'.symm.trans ht
    | asked call' q t r' ht' => cases ht'.symm.trans ht
    | coming call' m t r' tag before after ht' => cases ht'.symm.trans ht
  | satisfy p inbound x hr hin hx =>
    rcases h.read hin with ⟨⟨tag, add, del, rfl⟩, -⟩ | ⟨call, m, t, r, rfl, ht, hid, hx', hout, hp, hrest⟩
    · cases h.not_notice.symm.trans hx
    · refine ⟨_, ⟨h.running, h.reader, h.alone, .got call m _ ht ⟨hid, p.tag, fun t' => ?_⟩ ?_ hrest⟩,
        .response call m inbound rfl rfl, rfl⟩
      · have := hx' t'
        simp only [hp, Packet.body]
        grind
      · simp [hout]
  | treeUpdate tag trId add del inbound hr hin hx =>
    rcases h.read hin with
      ⟨⟨tag', add', del', hp⟩, hresp⟩ | ⟨call, m, t, r, rfl, ht, hid, hx', hout, hp, -⟩
    · cases hp
      refine ⟨_, h.notice hin hresp rfl rfl rfl rfl rfl (by simp) rfl,
        .notice tag add del w hin ?_ rfl, rfl⟩
      rintro call m before after rfl rfl
      exact hresp call m after rfl
    · cases hp
      cases hx'.self.symm.trans hx
  | updateNotification tag trId uuid data inbound hr hin hx =>
    rcases h.read hin with ⟨⟨tag', add, del, hp⟩, -⟩ | ⟨call, m, t, r, rfl, ht, hid, hx', hout, hp, -⟩
    · cases hp
    · cases hp
      cases hx'.self.symm.trans hx
  | rpcRequest tag trId uuid param inbound hr hin hx =>
    rcases h.read hin with ⟨⟨tag', add, del, hp⟩, -⟩ | ⟨call, m, t, r, rfl, ht, hid, hx', hout, hp, -⟩
    · cases hp
    · cases hp
      cases hx'.self.symm.trans hx
  | ignore p inbound hr hin hx hm =>
    rcases h.read hin with ⟨⟨tag, add, del, rfl⟩, -⟩ | ⟨call, m, t, r, rfl, ht, hid, hx', hout, hp, -⟩
    · cases hm
    · rw [hp] at hx
      cases hx'.self.symm.trans hx
  | free b hb huses =>
    exact ⟨w, h.congr rfl rfl rfl rfl rfl (by simp) rfl, .free b w rfl rfl hb huses, rfl⟩
  | _ => cases ha

/-! ## The messages of the server -/

/-- Notifications arrive. -/
theorem receive (h : OneCaller i w k) {new : List Packet} (hnew : ∀ p ∈ new, IsTreeUpdate p) :
    OneCaller i (w.map fun x => (x.1, x.2.receive new)) { k with inbound := k.inbound ++ new } := by
  refine ⟨h.running, h.reader, h.alone, ?_⟩
  have hall : (∀ p ∈ k.inbound, IsTreeUpdate p) → ∀ p ∈ k.inbound ++ new, IsTreeUpdate p :=
    fun hin p hp => (List.mem_append.mp hp).elim (hin p) (hnew p)
  cases h.calling with
  | idle ht hx hout hin => exact .idle ht hx hout (hall hin)
  | unsent call q stage ht hstage hx hout hin => exact .unsent call q stage ht hstage hx hout (hall hin)
  | asked call q t r ht hid hx hout hin => exact .asked call q t r ht hid hx hout (hall hin)
  | got call m stage ht hstage hout hin => exact .got call m stage ht hstage hout (hall hin)
  | coming call m t r tag before after ht hid hx hout hin hbefore hafter =>
    refine .coming call m t r tag before (after ++ new) ht hid hx hout ?_ hbefore
      fun p hp => (List.mem_append.mp hp).elim (hafter p) (hnew p)
    rw [hin, List.append_assoc, List.cons_append]

/-- The request that is on its way is answered. -/
theorem answer (h : OneCaller i w k) {p : Packet} {outbound : List Packet}
    (hout : k.outbound = p :: outbound) : outbound = [] ∧ ∃ call, w = some (call, .asked p.message.message) ∧
      ∀ (tag : ℕ) {m : PropertyTreeMessages} {new : List Packet}, (∀ p ∈ new, IsTreeUpdate p) →
        OneCaller i (some (call, .coming m k.inbound new))
          { k with
            inbound := k.inbound ++ ⟨tag, p.message.transactionId, m⟩ :: new
            outbound := [] } := by
  cases h.calling with
  | asked call q t r ht hid hx hout' hin =>
    obtain ⟨rfl, rfl⟩ := List.cons.inj (hout.symm.trans hout')
    refine ⟨rfl, call, rfl, fun tag {m new} hnew => ⟨h.running, h.reader, h.alone, ?_⟩⟩
    exact .coming call m t r tag k.inbound new ht hid hx rfl rfl hin hnew
  | idle ht hx hnil => rw [hout] at hnil; cases hnil
  | unsent call q stage ht hstage hx hnil => rw [hout] at hnil; cases hnil
  | coming call m t r tag before after ht hid hx hnil => rw [hout] at hnil; cases hnil
  | got call m stage ht hstage hnil => rw [hout] at hnil; cases hnil

/-! ## The start and the end of a call -/

/-- The thread of a call. -/
theorem thread {x : Exchange} (h : OneCaller i (some (call, x)) k) :
    ∃ stage, k.threads[i]? = some ⟨call, stage⟩ := by
  cases h.calling with
  | unsent call q stage ht => exact ⟨stage, ht⟩
  | asked call q t r ht => exact ⟨_, ht⟩
  | coming call m t r tag before after ht => exact ⟨_, ht⟩
  | got call m stage ht => exact ⟨stage, ht⟩

/-- A caller that has looked at the response has one. -/
theorem eq_got {r : ℕ} {y : Tagged} (h : OneCaller i w k)
    (ht : k.threads[i]? = some ⟨call, .answered r y⟩) : w = some (call, .got y.message) := by
  cases h.calling with
  | idle ht' => cases ht'.symm.trans ht
  | asked call' q t r' ht' => cases ht'.symm.trans ht
  | coming call' m t r' tag before after ht' => cases ht'.symm.trans ht
  | unsent call' q stage ht' hstage =>
    cases ht'.symm.trans ht
    exact hstage.elim
  | got call' m stage ht' hstage =>
    cases ht'.symm.trans ht
    rw [hstage.1]

/-- A message on its way that is no notification is the response. -/
theorem eq_coming {p : Packet} (h : OneCaller i w k) (hp : p ∈ k.inbound) (hno : ¬ IsTreeUpdate p) :
    ∃ call before after, w = some (call, .coming p.message.message before after) := by
  cases h.calling with
  | idle ht hx hout hin => exact absurd (hin p hp) hno
  | unsent call q stage ht hstage hx hout hin => exact absurd (hin p hp) hno
  | asked call q t r ht hid hx hout hin => exact absurd (hin p hp) hno
  | got call m stage ht hstage hout hin => exact absurd (hin p hp) hno
  | coming call m t r tag before after ht hid hx hout hin hbefore hafter =>
    rw [hin] at hp
    rcases List.mem_append.mp hp with hp | hp
    · exact absurd (hbefore p hp) hno
    rcases List.mem_cons.mp hp with rfl | hp
    · exact ⟨call, before, after, rfl⟩
    · exact absurd (hafter p hp) hno

/-- A caller that waits has its request on its way, or its response. -/
theorem eq_of_waiting {t : UInt16} {r : ℕ} (h : OneCaller i w k)
    (ht : k.threads[i]? = some ⟨call, .waiting t r⟩) :
    (∃ x m, w = some (call, x) ∧ x.response = some m) ∨ ∃ p, k.outbound = [p] := by
  cases h.calling with
  | idle ht' => cases ht'.symm.trans ht
  | asked call' q t r' ht' hid hx hout => exact .inr ⟨_, hout⟩
  | coming call' m t r' tag before after ht' =>
    cases ht'.symm.trans ht
    exact .inl ⟨_, m, rfl, rfl⟩
  | unsent call' q stage ht' hstage =>
    cases ht'.symm.trans ht
    exact hstage.elim
  | got call' m stage ht' =>
    cases ht'.symm.trans ht
    exact .inl ⟨_, m, rfl, rfl⟩

/-- The caller of a call that begins is in none. -/
theorem eq_none_of_start (h : OneCaller i w k)
    (hstep : k.step number (.start i call) = some (k', sent)) : w = none := by
  have hnone : k.threads[i]? = none := by
    cases (step_cases hstep).2 with
    | found _ _ _ hs hi => exact hi
    | start _ _ _ hs hi => exact hi
    | startSet _ _ _ _ hs hi => exact hi
  cases w with
  | none => rfl
  | some y =>
    obtain ⟨stage, ht⟩ := h.thread
    cases hnone.symm.trans ht

/-- A caller that is in no call can begin one that asks the server. -/
theorem step_start (h : OneCaller i w k) (ht : k.threads[i]? = none) (hfound : call.found k.mirror = none)
    (hsignin : call ≠ .signin) (hset : ∀ x value, call ≠ .set x value) {node : Node}
    (hnode : call.object k.mirror = some node) (number : ℕ) :
    k.step number (.start i call) = some (k.setStage i call (.begun (call.request node)), []) := by
  have hidle : i ∉ k.threads := by
    rw [← Std.ExtTreeMap.isSome_getElem?_iff_mem, ht]
    nofun
  have hassign : k.assign i call = some k := by
    cases call with
    | set x value => exact absurd rfl (hset x value)
    | _ => rfl
  simp [Client.step, Client.start, h.running, hidle, hsignin, hfound, hassign, hnode]

/-- The caller begins a call that asks the server. -/
theorem start (h : OneCaller i none k) (hfound : call.found k.mirror = none)
    (hset : ∀ x value, call ≠ .set x value) {node : Node} (hnode : call.object k.mirror = some node)
    (hstep : k.step number (.start i call) = some (k', sent)) :
    k' = k.setStage i call (.begun (call.request node)) ∧ sent = [] ∧
      OneCaller i (some (call, .unsent (call.request node))) { k' with outbound := k'.outbound ++ sent } := by
  obtain ⟨rfl, rfl⟩ : k' = k.setStage i call (.begun (call.request node)) ∧ sent = [] := by
    cases (step_cases hstep).2 with
    | found _ _ a hs hi hc hf =>
      rw [hfound] at hf
      cases hf
    | start _ _ node' hs hi hc hset' hn =>
      rw [hnode] at hn
      cases hn
      exact ⟨rfl, rfl⟩
    | startSet _ x value => exact absurd rfl (hset x value)
  refine ⟨rfl, rfl, ?_⟩
  cases h.calling with
  | idle ht hx hout hin =>
    refine h.setStage rfl rfl rfl (.unsent call _ (.begun _) ?_ rfl hx ?_ hin)
    · simp [Client.setStage]
    · simp [Client.setStage, hout]

/-- The caller has a response and goes on with it. -/
theorem proceed (h : OneCaller i w k) (hstep : k.step number (.proceed j) = some (k', sent)) :
    j = i ∧ sent = [] ∧ ∃ call m, w = some (call, .got m) ∧ k.respond i call m = some k' ∧
      (∀ t : UInt16, k.mTransactions[t]? = none) ∧ k.outbound = [] ∧ ∀ p ∈ k.inbound, IsTreeUpdate p := by
  simp only [Client.step] at hstep
  split_ifs at hstep
  obtain ⟨k₁, hk₁, heq⟩ := Option.map_eq_some_iff.mp hstep
  cases heq
  cases hth : k.threads[j]? with
  | none => simp [Client.proceed, hth] at hk₁
  | some th =>
    obtain rfl := h.alone hth
    refine ⟨rfl, rfl, ?_⟩
    cases h.calling with
    | idle ht => simp [Client.proceed, ht] at hk₁
    | asked call q t r ht => simp [Client.proceed, ht] at hk₁
    | coming call m t r tag before after ht => simp [Client.proceed, ht] at hk₁
    | unsent call q stage ht hstage =>
      cases stage <;> first | exact hstage.elim | simp [Client.proceed, ht] at hk₁
    | got call m stage ht hstage hout hin =>
      cases stage with
      | answered r x =>
        obtain ⟨rfl, hx⟩ := hstage
        simp only [Client.proceed, ht] at hk₁
        exact ⟨call, _, rfl, hk₁, hx, hout, hin⟩
      | waiting t r => simp [Client.proceed, ht] at hk₁
      | taken t r x => simp [Client.proceed, ht] at hk₁
      | _ => exact hstage.elim

/-! ## The way to the response -/

/-- How many steps there are at most until the response is with the caller, if nothing more arrives. -/
def left (i : ThreadId) (k : Client) : ℕ :=
  match k.threads[i]? with
  | some ⟨_, .waiting _ _⟩ => k.inbound.length + 3
  | some ⟨_, .taken _ _ _⟩ => 2
  | _ => 1

/-- The response that is on its way is read, or the notification before it, or the caller takes it. -/
theorem exists_quiet {x : Exchange} (h : OneCaller i (some (call, x)) k) (hx : x.response = some m)
    (number : ℕ) : (∃ r y, k.threads[i]? = some ⟨call, .answered r y⟩) ∨
      ∃ a k', a.isQuiet = true ∧ k.step number a = some (k', []) ∧ left i k' < left i k := by
  have hopen : k.status ≠ .closed := by simp [h.running]
  cases h.calling with
  | unsent call q stage => cases hx
  | asked call q t r => cases hx
  | coming call m' t r tag before after ht hid hxt hout hin hbefore hafter =>
    refine .inr ⟨.read, ?_⟩
    have hread : ∀ {p : Packet} {inbound : List Packet}, k.inbound = p :: inbound →
        k.step number .read = some ({ k with inbound := inbound }.handle p) := by
      intro p inbound hp
      simp [Client.step, hopen, Client.read, h.reader, hp]
    cases before with
    | nil =>
      refine ⟨_, rfl, (hread hin).trans (by simp only [handle, hxt.self]; rfl), ?_⟩
      simp [left, ht, hin]
    | cons p before =>
      obtain ⟨tag', add, del, rfl⟩ := hbefore p List.mem_cons_self
      refine ⟨_, rfl, (hread hin).trans (by simp only [handle, h.not_notice, dispatch]; rfl), ?_⟩
      simp [left, ht, hin]
  | got call m' stage ht hstage hout hin =>
    cases Option.some.inj hx
    cases stage with
    | waiting t r =>
      obtain ⟨hid, tag, hxt⟩ := hstage
      refine .inr ⟨.take i, _, rfl, by simp [Client.step, hopen, Client.take, ht, hxt.self]; rfl, ?_⟩
      simp [left, Client.setStage, ht]
    | taken t r y =>
      refine .inr ⟨.erase i, _, rfl, by simp [Client.step, hopen, Client.erase, ht]; rfl, ?_⟩
      simp [left, Client.setStage, ht]
    | answered r y => exact .inl ⟨r, y, ht⟩
    | _ => exact hstage.elim

end OneCaller

end PropertyTree.Client
