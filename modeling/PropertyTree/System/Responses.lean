import PropertyTree.Client.Transactions
import PropertyTree.System.Correlation

/-!
# Responses and the messages of the server's own

A message of the server satisfies a transaction when its id is in `mTransactions`, whatever kind of
message it is.  The notifications bear an id that no request has; the key of an `RpcRequest` may be
any.  While no client gets an `RpcRequest` whose key is the id of one of its transactions, every
transaction is satisfied by the response to the request that was sent under its id.
-/

namespace PropertyTree.System

open Library Server Client PropertyTreeMessages

variable {s s' : System} {act : System.Action} {c d : Conn} {k k' : Client}

/-! ## Conditions -/

/-- The key of an `RpcRequest` that a client reads is not the id of a transaction of it, and no
thread that has drawn `0xFFFF` draws it again. -/
def IdsApart (s : System) : System.Action → Prop
  | .client c .read => ∀ p ∈ (s.client c).inbound.head?, (rpcCall p).isSome = true →
      (s.client c).mTransactions[p.message.transactionId]? = none
  | .client c (.fetchId i) => ∀ th ∈ (s.client c).threads[i]?, th.stage.isSkipping = true →
      (s.client c).mTransactioIdCtr ≠ notificationId
  | _ => True

/-- What the properties of this file need of a step. -/
def Undisturbed (s : System) (a : System.Action) : Prop :=
  (FewSignins s a ∧ KeyUnused s a) ∧ IdsApart s a

instance (s : System) (a : System.Action) : Decidable (IdsApart s a) :=
  match a with
  | .client c .read => inferInstanceAs (Decidable (∀ p ∈ (s.client c).inbound.head?,
      (rpcCall p).isSome = true → (s.client c).mTransactions[p.message.transactionId]? = none))
  | .client c (.fetchId i) => inferInstanceAs (Decidable (∀ th ∈ (s.client c).threads[i]?,
      th.stage.isSkipping = true → (s.client c).mTransactioIdCtr ≠ notificationId))
  | .client _ (.start _ _) | .client _ (.send _) | .client _ (.take _) | .client _ (.timeout _)
  | .client _ (.erase _) | .client _ (.proceed _) | .client _ .update | .client _ (.setup _)
  | .client _ (.free _) | .client _ .close | .connect _ | .serve _ | .disconnect _ => .isTrue trivial

instance (s : System) (a : System.Action) : Decidable (Undisturbed s a) :=
  inferInstanceAs (Decidable ((FewSignins s a ∧ KeyUnused s a) ∧ IdsApart s a))

/-! ## The property -/

/-- The packet is the response of the server to the request of `c` with its number and id: what the
server has sent when it handled the request, or the owner's reply it has forwarded. -/
structure Responded (s : System) (c : Conn) (p : Packet) : Prop where
  isServerInitiated : p.message.message.isServerInitiated = false
  request : ∃ q, s.requests[p.tag]? = some (c, ⟨p.message.transactionId, q⟩) ∧
    ((∃ o, (.message c ⟨p.message.transactionId, q⟩, o) ∈ s.log ∧ .send c p.message ∈ o) ∨
      (p.tag, c, p.message) ∈ s.delivered)

/-- The reader of `c` has handed the packet `p` to its handler, which leaves the transactions alone. -/
def Dispatched (c : Conn) (k : Client) (p : Packet) (inbound : List Packet)
    (s' : System) : Prop :=
  ∃ k' sent, { k with inbound := inbound }.dispatch p = (k', sent) ∧
    s'.clients[c]? = some { k' with outbound := k'.outbound ++ sent } ∧
    k'.mTransactions = k.mTransactions

/-- No transaction is satisfied by anything but a response. -/
def SatisfiedByResponses (s : System) : Prop :=
  ∀ (c : Conn) (k : Client) (t : UInt16) (m : Tagged), s.clients[c]? = some k →
    k.mTransactions[t]? = some ⟨true, m⟩ → Responded s c ⟨m.tag, t, m.message⟩

/-- If the step is the reading of a message of the server's own, the message goes to its handler. -/
def Dispatches (s : System) (a : System.Action) (s' : System) : Prop :=
  ∀ (c : Conn) (k : Client) (p : Packet) (inbound : List Packet), a = .client c .read →
    s.clients[c]? = some k → k.inbound = p :: inbound →
      p.message.message.isServerInitiated = true → Dispatched c k p inbound s'

/-! ## The invariant -/

/-- A message on its way to the client on `c`. -/
def Incoming (s : System) (c : Conn) (p : Packet) : Prop :=
  p.message.message.isNotification = true ∧ p.message.transactionId = notificationId ∨
    (rpcCall p).isSome = true ∨ Responded s c p

/-- What is on its way to the client `k` on `c` is as it should be, ids of transactions are no
notification's, and transactions are satisfied by responses. -/
structure Apart (s : System) (c : Conn) (k : Client) : Prop where
  inbound : ∀ {p}, p ∈ k.inbound → Incoming s c p
  transactions : ∀ {t : UInt16} {x}, k.mTransactions[t]? = some x → t ≠ notificationId ∧
    (x.satisfied = true → Responded s c ⟨x.message.tag, t, x.message.message⟩)
  ids : ∀ {i : ThreadId} {th : Thread} {t}, k.threads[i]? = some th → th.stage.id = some t →
    t ≠ notificationId

/-- The record of `s` is part of that of `s'`. -/
structure Recorded (s s' : System) : Prop where
  requests : ∀ {r : ℕ} {x}, s.requests[r]? = some x → s'.requests[r]? = some x
  log : s.log ⊆ s'.log
  delivered : s.delivered ⊆ s'.delivered

/-- The record only grows. -/
theorem StepResult.recorded (h : StepResult s act s') : Recorded s s' := by
  cases h with
  | connect => exact ⟨id, List.Subset.refl _, List.Subset.refl _⟩
  | client => exact ⟨fun h => getElem?_append_of_some h _, List.Subset.refl _, List.Subset.refl _⟩
  | serve => exact ⟨id, List.subset_append_left _ _, List.subset_append_left _ _⟩
  | disconnect => exact ⟨id, List.subset_append_left _ _, List.Subset.refl _⟩

theorem Responded.mono {p : Packet} (h : Responded s c p) (hs : Recorded s s') :
    Responded s' c p := by
  obtain ⟨hm, q, hq, hor⟩ := h
  refine ⟨hm, q, hs.requests hq, hor.imp ?_ fun hd => hs.delivered hd⟩
  rintro ⟨o, ho, hx⟩
  exact ⟨o, hs.log ho, hx⟩

theorem Incoming.mono {p : Packet} (h : Incoming s c p) (hs : Recorded s s') : Incoming s' c p :=
  h.imp_right fun h => h.imp_right fun h => h.mono hs

/-- What the server sends when it handles a message is on its way as it should be. -/
theorem incoming_of_serve (hsound : Sound s) {p : Packet} {outbound : List Packet}
    {server : ProtocolHandler} {o : List Output} (hk : s.clients[c]? = some k)
    (hout : k.outbound = p :: outbound)
    (hres : Server.StepResult s.server (.message c p.message) server o)
    (hcorr : Correlated (afterServe s c k p outbound server o)) {m : PropertyTreeMessage}
    (hm : Output.send d m ∈ o) :
    Incoming (afterServe s c k p outbound server o) d ⟨p.tag, m⟩ := by
  obtain ⟨tag, t, q⟩ := p
  have hlog : (Event.message c ⟨t, q⟩, o) ∈ (afterServe s c k ⟨tag, t, q⟩ outbound server o).log :=
    List.mem_append_right _ List.mem_cons_self
  have hchange := hres.rpcChange
  generalize he : Event.message c ⟨t, q⟩ = e at hchange
  cases hchange with
  | forward c' t' uuid param sid owner hc ho =>
    obtain ⟨-, rfl⟩ : d = owner ∧ m = ⟨s.server.mTrIdCtr.toUInt16, .rpcRequest uuid param⟩ := by
      simpa using hm
    exact .inr (.inl rfl)
  | reply c' t' m' translation hm' ht =>
    cases he
    obtain ⟨hd, rfl⟩ : (s.server.mSessions[translation.1]?).bind Session.connectionSession = some d ∧
        m = ⟨translation.2, q⟩ := by
      cases hd : (s.server.mSessions[translation.1]?).bind Session.connectionSession with
      | none => simp [hd] at hm
      | some d' => simpa [hd, eq_comm] using hm
    have hdel : (tag, d, (⟨translation.2, q⟩ : PropertyTreeMessage)) ∈
        (afterServe s c k ⟨tag, t, q⟩ outbound (s.server.takeTranslation t)
          (send ⟨translation.2, q⟩ ((s.server.mSessions[translation.1]?).bind
            Session.connectionSession))).delivered := by
      simp [afterServe, deliveredBy, hm', hd]
    obtain ⟨uuid, param, key, o', hreq, -⟩ := hcorr.answered hdel
    exact .inr (.inr ⟨isServerInitiated_of_isRpcReply hm', _, hreq, .inr hdel⟩)
  | unknown => cases hm
  | other e s' o hno htable hresp =>
    subst he
    rcases hresp _ hm with hn | ⟨q', hq', hreq, hrep⟩
    · exact .inl ⟨hn, hres.transactionId_of_isNotification hm hn⟩
    · cases hq'
      have hrec : s.requests[tag]? = some (c, ⟨m.transactionId, q⟩) := by
        rcases hsound.outbound hk (hout ▸ List.mem_cons_self) with ⟨-, hrec⟩ | hrpc
        · exact hrec
        · rw [isRequest_of_isRpcReply hrpc] at hreq
          cases hreq
      exact .inr (.inr ⟨hrep, _, hrec, .inl ⟨_, hlog, hm⟩⟩)

theorem Apart.mono (h : Apart s c k) (hs : Recorded s s') : Apart s' c k :=
  ⟨fun hp => (h.inbound hp).mono hs,
    fun hx => (h.transactions hx).imp_right fun hr hsat => (hr hsat).mono hs, h.ids⟩

/-- A step of the client keeps the invariant. -/
theorem Apart.client_step {number : ℕ} {a : Client.Action} {sent : List Packet} (h : Apart s c k)
    (hread : a = .read → ∀ p ∈ k.inbound.head?, (rpcCall p).isSome = true →
      k.mTransactions[p.message.transactionId]? = none)
    (hfetch : ∀ i : ThreadId, a = .fetchId i → ∀ th ∈ k.threads[i]?, th.stage.isSkipping = true →
      k.mTransactioIdCtr ≠ notificationId)
    (hchange : TransactionChange k k' number a sent) : Apart s c k' := by
  have hinsert : ∀ {i : ThreadId} {th : Thread}, (∀ t, th.stage.id = some t → t ≠ notificationId) →
      ∀ {j : ThreadId} {th' : Thread} {t}, (k.threads.insert i th)[j]? = some th' →
        th'.stage.id = some t → t ≠ notificationId := by
    intro i th hth j th' t hj ht
    rcases thread_of_insert hj with ⟨-, rfl⟩ | ⟨-, hj⟩
    · exact hth t ht
    · exact h.ids hj ht
  cases hchange with
  | other a ha hin hx hid hres =>
    refine ⟨hin ▸ h.inbound, hx ▸ h.transactions, fun {i th t} hi ht => ?_⟩
    exact h.ids ((hid (by simp [ht])).mp hi) ht
  | draw i call stage q ht hnone hid hin hx hth =>
    refine ⟨hin ▸ h.inbound, hx ▸ h.transactions, hth ▸ hinsert fun t hid' => ?_⟩
    cases hid'
    rcases hid with ⟨-, hne⟩ | rfl
    · exact hne
    · exact hfetch i rfl _ ht rfl
  | send i call q trId ht hin hx hth =>
    have hne : trId ≠ notificationId := h.ids ht rfl
    refine ⟨hin ▸ h.inbound, fun {t x} htx => ?_, hth ▸ hinsert fun t hid => ?_⟩
    rw [hx, Std.ExtTreeMap.getElem?_insertIfNew] at htx
    split_ifs at htx with hnew
    · cases htx
      obtain ⟨rfl, -⟩ : trId = t ∧ _ := by simpa using hnew
      exact ⟨hne, nofun⟩
    · exact h.transactions htx
    · cases hid
      exact hne
  | take i call trId r response ht hsat hin hx hth =>
    have hne : trId ≠ notificationId := h.ids ht rfl
    refine ⟨hin ▸ h.inbound, hx ▸ h.transactions, hth ▸ hinsert fun t hid => ?_⟩
    cases hid
    exact hne
  | timeout i call trId r ht hin hx hth =>
    refine ⟨hin ▸ h.inbound, hx ▸ h.transactions, fun {j th t} hj hjt => ?_⟩
    exact h.ids (thread_of_erase (hth ▸ hj)).2 hjt
  | erase i call trId r response ht hin hx hth =>
    refine ⟨hin ▸ h.inbound, fun {t x} htx => h.transactions (t := t) ?_,
      hth ▸ hinsert fun t hid => ?_⟩
    · rw [hx] at htx
      grind
    · cases hid
  | satisfy p x hin hsat hx hth =>
    have hp : Incoming s c p := h.inbound (hin ▸ List.mem_cons_self)
    refine ⟨fun hq => h.inbound (hin ▸ List.mem_cons_of_mem p hq), fun {t y} hty => ?_, hth ▸ h.ids⟩
    rw [hx] at hty
    by_cases htp : t = p.message.transactionId
    · subst htp
      obtain rfl : _ = y := by simpa using hty
      obtain ⟨hne, -⟩ := h.transactions hsat
      refine ⟨hne, fun _ => ?_⟩
      -- a message with the id of a transaction is neither a notification nor an `RpcRequest`
      rcases hp with ⟨-, hid⟩ | hcall | hp
      · exact absurd hid hne
      · rw [hread rfl p (by simp [hin]) hcall] at hsat
        cases hsat
      · exact hp
    · exact h.transactions (t := t) (by grind)
  | dispatch p sent hin hnone hx hth hsent =>
    exact ⟨fun hq => h.inbound (hin ▸ List.mem_cons_of_mem p hq), hx ▸ h.transactions, hth ▸ h.ids⟩

/-- A step of the system keeps the invariant of every client. -/
theorem apart_step (h : ∀ c, Apart s c (s.client c)) (hsound : Sound s) (hcorr : Correlated s')
    (hgap : IdsApart s act) (hstep : StepResult s act s') : ∀ d, Apart s' d (s'.client d) := by
  intro d
  have hrec := hstep.recorded
  have hd := (h d).mono hrec
  cases hstep with
  | connect c hc =>
    rw [client_connect hc]
    exact hd
  | client c a k k' sent hk hopen hres =>
    rw [client_of_clients rfl d]
    split_ifs with hdc
    · subst hdc
      have hkd := client_of_some hk
      have hk' := (h d).client_step
        (fun ha p hp hcall => by subst ha; exact hkd ▸ hgap p (hkd ▸ hp) hcall)
        (fun i ha th hi hskip => by subst ha; exact hkd ▸ hgap th (hkd ▸ hi) hskip)
        (hkd ▸ hres.transactionChange)
      exact ⟨(hk'.mono hrec).inbound, (hk'.mono hrec).transactions, hk'.ids⟩
    · exact hd
  | serve c k p outbound server o hk hout ht hok =>
    change Apart (afterServe s c k p outbound server o) d
      ((afterServe s c k p outbound server o).client d)
    obtain ⟨ms, hms, hcl⟩ := exists_client_afterServe hk p outbound server o d
    rw [hcl]
    refine ⟨fun {q} hq => ?_, hd.transactions, hd.ids⟩
    rcases List.mem_append.mp hq with hq | hq
    · exact hd.inbound hq
    · obtain ⟨m, hm, rfl⟩ := List.mem_map.mp hq
      exact incoming_of_serve hsound hk hout (Server.step_cases hok) hcorr
        (mem_sentTo (hms.subset hm))
  | disconnect c k server o hk hclosed hok =>
    rw [client_of_clients rfl d]
    split_ifs with hdc
    · subst hdc
      rw [client_of_some hk] at hd
      exact ⟨hd.inbound, hd.transactions, hd.ids⟩
    · exact hd

/-! ## The runs -/

/-- Before the first client nothing is on its way. -/
theorem apart_init (c : Conn) : Apart .init c (System.init.client c) := by
  have hnew : System.init.client c = .new := by simp [client, init]
  rw [hnew]
  refine ⟨by simp [Client.new], by simp [Client.new], fun {i th t} hi ht => ?_⟩
  obtain ⟨-, rfl⟩ | ⟨-, hi⟩ := thread_of_insert hi
  · cases ht
  · simp at hi

/-- The invariant holds in the runs whose steps meet the conditions. -/
theorem apart_of_run {C : System → System.Action → Prop}
    (hC : ∀ {s a}, C s a → Undisturbed s a) {as : List System.Action}
    (h : Run (Guarded C Step) .init as s) (c : Conn) : Apart s c (s.client c) := by
  generalize hinit : System.init = s₀ at h
  induction h generalizing c with
  | nil =>
    subst hinit
    exact apart_init c
  | snoc run step ih =>
    subst hinit
    exact apart_step ih (sound_of_run run.of_guarded)
      (correlated_of_run (fun h => (hC h).1) (run.snoc step)) (hC step.1).2 (step_cases step.2) c

/-- A message whose id is in no transaction goes to its handler. -/
theorem dispatched_of_read {p : Packet} {inbound : List Packet} (hk : s.clients[c]? = some k)
    (hin : k.inbound = p :: inbound) (hnone : k.mTransactions[p.message.transactionId]? = none)
    (hstep : Step s (.client c .read) s') : Dispatched c k p inbound s' := by
  have hhandle : { k with inbound := inbound }.handle p = { k with inbound := inbound }.dispatch p := by
    simp only [Client.handle, hnone]
  have hsame : ({ k with inbound := inbound }.dispatch p).1.mTransactions = k.mTransactions := by
    unfold dispatch
    split <;> rfl
  change s.step _ = some s' at hstep
  simp only [System.step, act, hk, Client.step] at hstep
  split_ifs at hstep with hopen
  split at hstep
  · cases hstep
  rename_i k' sent hread
  unfold Client.read at hread
  split at hread
  · rename_i p' inbound' hr hin'
    rw [hin] at hin'
    cases hin'
    rw [hhandle, Option.some.injEq] at hread
    cases hstep
    exact ⟨k', sent, hread, by simp, by rw [hread] at hsame; exact hsame⟩
  · cases hread

/-- While the ids of requests and the keys of RPCs do not meet, and no RPC is mistaken for another,
transactions are satisfied by responses only, and the messages of the server's own go to their
handlers. -/
theorem responses_of_run {as : List System.Action}
    (h : Run (Guarded Undisturbed Step) .init as s) :
    SatisfiedByResponses s ∧
      ∀ a s', Guarded Undisturbed Step s a s' → Dispatches s a s' := by
  constructor
  · intro c k t m hk ht
    have hapart := apart_of_run id h c
    rw [client_of_some hk] at hapart
    exact (hapart.transactions ht).2 rfl
  · rintro a s' ⟨hgap, hstep⟩ c k p inbound rfl hk hin hp
    have hapart := apart_of_run id h c
    rw [client_of_some hk] at hapart
    refine dispatched_of_read hk hin ?_ hstep
    rcases hapart.inbound (hin ▸ List.mem_cons_self) with ⟨-, hid⟩ | hcall | hresp
    · cases hx : k.mTransactions[p.message.transactionId]? with
      | none => rfl
      | some x => exact absurd hid (hapart.transactions hx).1
    · have := hgap.2 p (by simp [client_of_some hk, hin]) hcall
      rwa [client_of_some hk] at this
    · rw [hresp.isServerInitiated] at hp
      cases hp

/-- A client whose call of its own node has been answered. -/
theorem responses_call : ∃ as s, Run (Guarded Undisturbed Step) .init as s ∧
    ((s.client 1).mTransactions[(2 : UInt16)]? = some ⟨true, 2, .rpcReject .noHandler⟩) ∧
      SatisfiedByResponses s ∧ ∀ a s', Guarded Undisturbed Step s a s' → Dispatches s a s' := by
  obtain ⟨s, hs, ht⟩ := (Option.any_eq_true _ _).mp (show (follow System.step
      (fun s a => decide (Undisturbed s a)) .init
      (signinActions 1 ++ askActions 1 (.create 0 [97]) ++ [.client 1 .read, .client 1 .read] ++
        takeActions 1 ++ askActions 1 (.call 1 []) ++
        [.client 1 .read, .serve 1, .client 1 .read])).any
      (fun s => decide ((s.client 1).mTransactions[(2 : UInt16)]? =
        some ⟨true, 2, .rpcReject .noHandler⟩)) = true by decide +kernel)
  have hrun := (run_of_follow System.step hs).mono fun s a t hst =>
    (⟨of_decide_eq_true hst.1, hst.2⟩ : Guarded Undisturbed Step s a t)
  exact ⟨_, s, hrun, of_decide_eq_true ht, responses_of_run hrun⟩

/-- Three threads call the node of their own client: the key of the last RPC is the id of the first
request. -/
def collisionActions : List System.Action :=
  signinActions 1 ++ askActions 1 (.create 0 [97]) ++ [.client 1 .read, .client 1 .read] ++
    takeActions 1 ++ [1, 2, 3].flatMap (fun i => [.client 1 (.start i (.call 1 [])),
      .client 1 (.fetchId i), .client 1 (.send i), .serve 1]) ++
    [.client 1 .read, .client 1 .read]

/-- An `RpcRequest` is taken for the response to a request of its receiver. -/
theorem not_responses_collision : ∃ s s', Run Step .init collisionActions s ∧
    Step s (.client 1 .read) s' ∧ ¬ Dispatches s (.client 1 .read) s' ∧
      ¬ SatisfiedByResponses s' := by
  obtain ⟨s, hs, h⟩ := (Option.any_eq_true _ _).mp (show (follow System.step
      (fun _ _ => true) .init collisionActions).any (fun s => (s.step (.client 1 .read)).any fun s' =>
        (s.clients[(1 : Conn)]?).any fun k => (s'.clients[(1 : Conn)]?).any fun k' =>
          decide (k.inbound = [⟨4, 2, .rpcRequest 1 []⟩]) &&
          decide (k.mTransactions[(2 : UInt16)]? = some .new) &&
          decide (k'.mTransactions[(2 : UInt16)]? = some ⟨true, 4, .rpcRequest 1 []⟩)) = true by
    decide +kernel)
  obtain ⟨s', hstep, h⟩ := (Option.any_eq_true _ _).mp h
  obtain ⟨k, hk, h⟩ := (Option.any_eq_true _ _).mp h
  obtain ⟨k', hk', h⟩ := (Option.any_eq_true _ _).mp h
  simp only [Bool.and_eq_true, decide_eq_true_eq] at h
  obtain ⟨⟨hin, hnew⟩, hsat⟩ := h
  refine ⟨s, s', (run_of_follow System.step hs).of_guarded, hstep, fun hd => ?_, fun hr => ?_⟩
  · obtain ⟨k₁, sent, -, hk₁, hx⟩ := hd 1 k _ _ rfl hk hin rfl
    rw [hk', Option.some.injEq] at hk₁
    rw [hk₁] at hsat
    simp only [hx, hnew] at hsat
    cases hsat
  · cases (hr 1 k' 2 _ hk' hsat).isServerInitiated

end PropertyTree.System
