import PropertyTree.Client.Transactions
import PropertyTree.System.Requests

/-!
# The reader and the mutex of a node

`Property::set` holds the node's `dataMutex` while it waits for the response to its request, and the
reader takes the same mutex to handle an `UpdateNotification` of the node.  When the notification is
in front of the response, neither goes on before the timeout.  This happens exactly where the server
accepts a value while a notification of the node is still waiting for the client that sets it.
-/

namespace PropertyTree.System

open Library Server Client

variable {s s' : System} {act : System.Action} {c d : Conn} {k k' : Client}

/-- Whether the message is an `UpdateNotification` of the node `u`. -/
def isUpdateOf (u : UInt64) (p : Packet) : Bool :=
  match p.message.message with
  | .updateNotification v _ => v == u
  | _ => false

/-- The call of thread `i` of the client on `c` waits for its `SetValueAccept`, which is behind the
notification that the reader cannot handle before the call gives up the mutex. -/
structure Stuck (k : Client) (i : ThreadId) (a : Addr) (value : Buffer) (t : UInt16) (r : ℕ) : Prop
    where
  waits : k.threads[i]? = some ⟨.set a value, .waiting t r⟩
  holds : k.dataMutex[a]? = some i
  blocked : ∃ data, k.reader = some (a, data)
  arrived : ∃ spare, ⟨r, t, .setValueAccept spare⟩ ∈ k.inbound

/-- No caller keeps the reader from its own response. -/
def NoneStuck (s : System) : Prop :=
  ∀ (c : Conn) (k : Client) i a value t r, s.clients[c]? = some k → ¬ Stuck k i a value t r

/-- Whether a notification of the node `u`, which is at `a`, waits for the client. -/
def updateWaits (k : Client) (u : UInt64) (a : Addr) : Bool :=
  (k.reader.any fun x => x.1 == a) || k.inbound.any (isUpdateOf u)

/-- Whether the thread is in the `set` that has sent request number `r`, on the node `u`, while a
notification of it waits. -/
def isHindered (k : Client) (r : ℕ) (u : UInt64) (th : Thread) : Bool :=
  match th with
  | ⟨.set a _, .waiting _ r'⟩ => r' == r && updateWaits k u a
  | _ => false

/-- Whether the server, if it handles `p` next, accepts the value of a `set` for whose node an
`UpdateNotification` still waits for the client. -/
def acceptsHindered (s : System) (c : Conn) (p : Packet) : Bool :=
  match p.message.message with
  | .setValueRequest u data =>
    !ProtocolHandler.isTerminate u data && s.server.mTree.contains u &&
      (s.client c).threads.toList.any fun e => isHindered (s.client c) p.tag u e.2
  | _ => false

/-- When the value of a `set` is accepted, no notification of its node waits for its client. -/
def SetsFree (s : System) : System.Action → Prop
  | .serve c => ∀ p ∈ (s.client c).outbound.head?, s.acceptsHindered c p = false
  | _ => True

instance (s : System) (a : System.Action) : Decidable (SetsFree s a) :=
  match a with
  | .serve c => inferInstanceAs (Decidable (∀ p ∈ (s.client c).outbound.head?,
      s.acceptsHindered c p = false))
  | .connect _ | .client _ _ | .disconnect _ => .isTrue trivial

/-! ## The invariant -/

/-- In front of the response to a `set` that waits there is no notification of its node. -/
structure Clear (requests : List (Conn × PropertyTreeMessage)) (c : Conn) (k : Client) : Prop where
  before : ∀ {i : ThreadId} {a value t r t' u data pre p post spare},
    k.threads[i]? = some ⟨.set a value, .waiting t r⟩ →
      requests[r]? = some (c, ⟨t', .setValueRequest u data⟩) → k.inbound = pre ++ p :: post →
        p.tag = r → p.message.message = .setValueAccept spare →
          (∀ data, k.reader ≠ some (a, data)) ∧ ∀ q ∈ pre, isUpdateOf u q = false

/-- A step of the client keeps the way to its responses clear. -/
theorem Clear.client_step {a : Client.Action} {sent : List Packet} (h : Clear s.requests c k)
    (hm : k.mirror.WellFormed) (hth : ThreadsSound s.requests c k.mirror k.threads)
    (hnum : ∀ p ∈ k.inbound, p.tag < s.requests.length)
    (hres : Client.StepResult k s.requests.length a k' sent) :
    Clear (s.requests ++ requestsOf c sent) c k' := by
  have hchange := hres.transactionChange
  constructor
  intro i a value t r t' u data pre p post spare hi hreq hin hp hm'
  obtain ⟨front, hfront⟩ : ∃ front, k.inbound = front ++ k'.inbound := by
    rcases inbound_of_change hchange with heq | ⟨q, heq⟩
    · exact ⟨[], heq.symm⟩
    · exact ⟨[q], heq⟩
  have hin₀ : k.inbound = (front ++ pre) ++ p :: post := by
    rw [hfront, hin, List.append_assoc]
  have hlt : r < s.requests.length := hp ▸ hnum p (by simp [hin₀])
  have hi₀ := waiting_of_change hchange hi hlt.ne
  rw [List.getElem?_append_left hlt] at hreq
  obtain ⟨hreader, hpre⟩ := h.before hi₀ hreq hin₀ hp hm'
  refine ⟨fun data' hr => ?_, fun q hq => hpre q (List.mem_append_right _ hq)⟩
  rcases hres.reader_cases with heq | heq | ⟨tag, trId, v, data'', hhead, heq⟩
  · exact hreader data' (heq ▸ hr)
  · rw [heq] at hr
    cases hr
  · -- a notification of another node leads to another object
    rw [heq] at hr
    obtain ⟨b, hb, hba⟩ := Option.map_eq_some_iff.mp hr
    cases hba
    obtain ⟨n, hn, rfl⟩ := hm.mTree_heap hb
    obtain ⟨t₀, q, hq, node, rfl, hnode⟩ := (hth i _ hi₀).sent rfl
    obtain ⟨n', hn', hu⟩ := hnode a rfl
    rw [hreq] at hq
    cases hq
    rw [hn] at hn'
    cases hn'
    obtain rfl : front = [⟨tag, trId, .updateNotification n.uuid data'⟩] :=
      List.append_cancel_right (hfront.symm.trans hhead)
    have hfalse := hpre _ (List.mem_append_left _ List.mem_cons_self)
    simp [isUpdateOf, hu] at hfalse

/-- After the first of its messages the server sends notifications only. -/
theorem mem_tail_of_sentTo {o : List Output} {m : PropertyTreeMessage}
    (h : m ∈ (sentTo d o).tail) : Output.send d m ∈ o.tail := by
  cases o with
  | nil => cases h
  | cons x rest =>
    have hrest : m ∈ sentTo d rest := by
      cases x with
      | terminate => exact List.mem_of_mem_tail h
      | send e m' =>
        by_cases hed : e = d
        · simpa [sentTo, hed] using h
        · refine List.mem_of_mem_tail ?_
          simpa [sentTo, hed] using h
    exact mem_sentTo hrest

/-- What the server sends when it handles a message keeps the ways clear. -/
theorem Clear.serve {p : Packet} {outbound : List Packet} {server : ProtocolHandler}
    {o : List Output} (h : Clear s.requests d (s.client d)) (hsound : Sound s)
    (hk : s.clients[c]? = some k) (hout : k.outbound = p :: outbound)
    (hres : Server.StepResult s.server (.message c p.message) server o)
    (hfree : s.acceptsHindered c p = false) {ms : List PropertyTreeMessage}
    (hms : ms.Sublist (sentTo d o))
    (hth : k'.threads = (s.client d).threads) (hreader : k'.reader = (s.client d).reader)
    (hin : k'.inbound = (s.client d).inbound ++ ms.map (⟨p.tag, ·⟩)) :
    Clear s.requests d k' := by
  constructor
  intro i a value t r t' u data pre p' post spare hi hreq hsplit hp hm'
  rw [hth] at hi
  rw [hreader]
  -- the response has just been sent: it is the first message, and the queue holds no notification
  have hsent : ∀ l, pre = (s.client d).inbound ++ l → ms.map (Packet.mk p.tag) = l ++ p' :: post →
      (∀ data, (s.client d).reader ≠ some (a, data)) ∧ ∀ q ∈ pre, isUpdateOf u q = false := by
    rintro l rfl hl
    have hp' : p' ∈ ms.map (Packet.mk p.tag) := by simp [hl]
    obtain ⟨⟨t₁, m₁⟩, hmem, rfl⟩ := List.mem_map.mp hp'
    cases hm'
    have hsend := mem_sentTo (hms.subset hmem)
    obtain ⟨v, data', b, he, hterm, hb⟩ := hres.setValue_of_accept hsend
    obtain ⟨rfl, hpm⟩ : c = d ∧ p.message = ⟨t₁, .setValueRequest v data'⟩ := by simpa using he
    obtain rfl : p.tag = r := hp
    obtain ⟨rfl, rfl, rfl⟩ : t₁ = t' ∧ v = u ∧ data' = data := by
      rcases hsound.outbound hk (hout ▸ List.mem_cons_self) with ⟨-, hrec⟩ | hrep
      · rw [hrec, hpm] at hreq
        simpa using hreq
      · rw [hpm] at hrep
        cases hrep
    have hnil : l = [] := by
      cases l with
      | nil => rfl
      | cons x l =>
        have htail : (⟨t₁, .setValueAccept spare⟩ : PropertyTreeMessage) ∈ ms.tail := by
          obtain ⟨y, ms', rfl, -, hl'⟩ := List.map_eq_cons_iff.mp hl
          obtain ⟨m₂, hm₂, heq⟩ := List.mem_map.mp
            (show (⟨p.tag, t₁, .setValueAccept spare⟩ : Packet) ∈ ms'.map (Packet.mk p.tag) by
              simp [hl'])
          cases heq
          exact hm₂
        have := hres.isNotice_of_mem_tail _ (mem_tail_of_sentTo (hms.tail.subset htail))
        cases this.2
    subst hnil
    have hwaits : updateWaits (s.client c) v a = false := by
      simp only [acceptsHindered, hpm, hterm, Bool.not_false, Bool.true_and, Bool.and_eq_false_iff,
        List.any_eq_false] at hfree
      rcases hfree with hno | hfree
      · rw [Std.ExtTreeMap.contains_eq_isSome_getElem?, hb] at hno
        cases hno
      · have := hfree _ (Std.ExtTreeMap.mem_toList_iff_getElem?_eq_some.mpr hi)
        simpa [isHindered] using this
    simp only [updateWaits, Bool.or_eq_false_iff, List.any_eq_false] at hwaits
    refine ⟨fun data hr => ?_, fun q hq => ?_⟩
    · simp [hr] at hwaits
    · simpa using hwaits.2 q (by simpa using hq)
  rw [hin, List.append_eq_append_iff] at hsplit
  rcases hsplit with ⟨l, hpre, hnew⟩ | ⟨l, hold, hnew⟩
  · exact hsent l hpre hnew
  · cases l with
    | nil => exact hsent [] (by simpa using hold.symm) (by simpa using hnew.symm)
    | cons x l =>
      obtain ⟨rfl, -⟩ : p' = x ∧ _ := by simpa using hnew
      exact h.before hi hreq hold hp hm'

/-! ## The runs -/

/-- A step keeps the ways to all clients clear, if no `set` is accepted behind a notification. -/
theorem clear_step (h : ∀ c, Clear s.requests c (s.client c)) (hsound : Sound s) (hnum : Numbered s)
    (hfree : SetsFree s act) (hstep : StepResult s act s') :
    ∀ d, Clear s'.requests d (s'.client d) := by
  intro d
  cases hstep with
  | connect c hc =>
    rw [client_connect hc]
    exact h d
  | client c a k k' sent hk hopen hres =>
    rw [client_of_clients rfl d]
    split_ifs with hdc
    · subst hdc
      have hkc := client_of_some hk
      have hd := (hkc ▸ h d).client_step (hsound.mirror hk) (hsound.threads hk)
        (fun p hp => hnum.inbound (hkc ▸ hp)) hres
      exact ⟨hd.before⟩
    · refine ⟨fun {i a value t r t' u data pre p post spare} hi hreq hin hp => ?_⟩
      have hlt : r < s.requests.length := hp ▸ @Numbered.inbound s hnum d p (by simp [hin])
      rw [List.getElem?_append_left hlt] at hreq
      exact (h d).before hi hreq hin hp
  | serve c k p outbound server o hk hout ht hok =>
    obtain ⟨ms, hms, hcl⟩ := exists_client_receive hk outbound p.tag o d
    refine (h d).serve hsound hk hout (Server.step_cases hok) (hfree p ?_) hms ?_ ?_ ?_
    · simp [client_of_some hk, hout]
    all_goals rw [client, hcl]
  | disconnect c k server o hk hclosed hok =>
    rw [client_disconnect hk rfl d]
    exact ⟨(h d).before⟩

/-- A client subscribes to its own node and sets it. -/
def subscribedSet (value : Buffer) : List System.Action :=
  signinActions 1 ++ askActions 1 (.create 0 [97]) ++ [.client 1 .read, .client 1 .read] ++
    takeActions 1 ++ askActions 1 (.subscribe 1) ++ [.client 1 .read] ++ takeActions 1 ++
    askActions 1 (.set 1 value) ++ [.client 1 .read]

/-- The client sets the node once more before its reader has handled the notification of the first
value, and the reader takes it up. -/
def secondSet : List System.Action :=
  subscribedSet [5] ++ takeActions 1 ++ askActions 1 (.set 1 [6]) ++ [.client 1 .read]

end PropertyTree.System
