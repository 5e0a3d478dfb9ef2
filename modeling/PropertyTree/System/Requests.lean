import PropertyTree.Client.Objects
import PropertyTree.System.Model

/-!
# The requests of a run

The record of a run is true to it: what the server has handled is a run of the server, every request
on its way is the recorded one with its number, and a call that waits for a response waits for the
one to the request it has sent.
-/

namespace PropertyTree.System

open Library Server Client

variable {s s' : System} {c d : Conn} {k k' : Client} {act : Action}

/-! ## The clients after a step -/

/-- The client of the connection `c`; before it is constructed nothing is in its queues. -/
def client (s : System) (c : Conn) : Client :=
  (s.clients[c]?).getD .new

theorem client_of_some (h : s.clients[c]? = some k) : s.client c = k := by
  rw [client, h, Option.getD_some]

/-- The client of a connection after a step of the client on `c`. -/
theorem getElem?_clients_insert (s : System) (c : Conn) (k : Client) (d : Conn) :
    (s.clients.insert c k)[d]? = if d = c then some k else s.clients[d]? := by
  grind

/-- The clients after a change of the one on `c`. -/
theorem client_of_clients (h : s'.clients = s.clients.insert c k) (d : Conn) :
    s'.client d = if d = c then k else s.client d := by
  simp only [client, h, getElem?_clients_insert]
  split_ifs <;> rfl

/-- The end of a connection empties the outbound queue of its client. -/
theorem client_disconnect (hk : s.clients[c]? = some k)
    (h : s'.clients = s.clients.insert c { k with outbound := [] }) (d : Conn) :
    s'.client d = { s.client d with outbound := if d = c then [] else (s.client d).outbound } := by
  rw [client_of_clients h]
  split_ifs with hdc
  · rw [hdc, client_of_some hk]
  · rfl

/-- After the server has handled a message of `c`, of a client at most its queues are changed. -/
theorem exists_of_receive (hk : s.clients[c]? = some k) {outbound : List Packet} {tag : ℕ}
    {o : List Output} {kd : Client}
    (hkd : ((s.clients.insert c { k with outbound := outbound }).map (receive tag o))[d]? =
      some kd) :
    ∃ k₀ : Client, s.clients[d]? = some k₀ ∧
      kd = { k₀ with
        inbound := k₀.inbound ++ (sentTo d o).map (⟨tag, ·⟩)
        outbound := if d = c then outbound else k₀.outbound } := by
  rw [Std.ExtTreeMap.getElem?_map, getElem?_clients_insert] at hkd
  split_ifs at hkd with hdc
  · cases hkd
    subst hdc
    exact ⟨k, hk, by simp [receive]⟩
  · obtain ⟨k₀, hk₀, rfl⟩ := Option.map_eq_some_iff.mp hkd
    exact ⟨k₀, hk₀, by simp [receive, hdc]⟩

/-- After the end of the connection `c`, of a client at most its outbound queue is changed. -/
theorem exists_of_disconnect (hk : s.clients[c]? = some k) {kd : Client}
    (hkd : (s.clients.insert c { k with outbound := [] })[d]? = some kd) :
    ∃ k₀ : Client, s.clients[d]? = some k₀ ∧
      kd = { k₀ with outbound := if d = c then [] else k₀.outbound } := by
  rw [getElem?_clients_insert] at hkd
  split_ifs at hkd with hdc
  · cases hkd
    subst hdc
    exact ⟨k, hk, by simp⟩
  · exact ⟨kd, hkd, by simp [hdc]⟩

/-- The construction of a client leaves the queues as they are. -/
theorem client_connect (hc : s.clients[c]? = none) (d : Conn) :
    client { s with clients := s.clients.insert c .new } d = s.client d := by
  simp only [client, getElem?_clients_insert]
  split_ifs with hdc
  · rw [hdc, hc, Option.getD_some, Option.getD_none]
  · rfl

/-- A message the server sends to a connection is among its outputs. -/
theorem mem_sentTo {o : List Output} {m : PropertyTreeMessage} (h : m ∈ sentTo c o) :
    Output.send c m ∈ o := by
  obtain ⟨x, hx, hxm⟩ := List.mem_filterMap.mp h
  cases x with
  | send d m' =>
    simp only at hxm
    split_ifs at hxm with hdc
    cases hxm
    exact hdc ▸ hx
  | terminate => cases hxm

/-- The server handles a message of `c`: what it sends arrives at the clients that exist. -/
theorem exists_client_receive (hk : s.clients[c]? = some k) (outbound : List Packet) (tag : ℕ)
    (o : List Output) (d : Conn) :
    ∃ ms : List PropertyTreeMessage, ms.Sublist (sentTo d o) ∧
      (((s.clients.insert c { k with outbound := outbound }).map (receive tag o))[d]?).getD .new =
        { s.client d with
          inbound := (s.client d).inbound ++ ms.map (⟨tag, ·⟩)
          outbound := if d = c then outbound else (s.client d).outbound } := by
  rw [Std.ExtTreeMap.getElem?_map, getElem?_clients_insert]
  split_ifs with hdc
  · subst hdc
    rw [client_of_some hk]
    exact ⟨_, .refl _, rfl⟩
  · cases hd : s.clients[d]? with
    | none =>
      refine ⟨[], List.nil_sublist _, ?_⟩
      simp [client, hd]
    | some k₀ =>
      rw [client_of_some hd]
      exact ⟨_, .refl _, rfl⟩

/-! ## The run of the server -/

/-- What the server has handled is a run of it. -/
theorem log_of_run {as : List System.Action} (h : Run Step .init as s) :
    ServerRun .init s.log s.server := by
  refine h.invariant (P := fun s => ServerRun .init s.log s.server) ?_ (.nil _)
  intro t a u ih hstep
  cases step_cases hstep with
  | connect => exact ih
  | client => exact ih
  | serve c k p outbound server o hk hout ht hok => exact ih.snoc hok
  | disconnect c k server o hk hclosed hok => exact ih.snoc hok

/-! ## Threads and their requests -/

/-- A thread of the client on the connection `c` sends, and has sent, the request of its call. -/
structure ThreadSound (requests : List (Conn × PropertyTreeMessage)) (c : Conn) (m : Mirror)
    (th : Thread) : Prop where
  unsent : ∀ {q}, th.stage.unsent = some q → Asks m th.call q
  sent : ∀ {r}, th.stage.number = some r →
    ∃ t q, requests[r]? = some (c, ⟨t, q⟩) ∧ Asks m th.call q

section Threads

variable {requests l : List (Conn × PropertyTreeMessage)} {m m' : Mirror} {th : Thread}
  {sent : List Packet} {a : Client.Action}

theorem ThreadSound.extends (h : ThreadSound requests c m th) (hm : m.Extends m') :
    ThreadSound (requests ++ l) c m' th := by
  refine ⟨fun hq => (h.unsent hq).extends hm, fun hr => ?_⟩
  obtain ⟨t, q, hget, hask⟩ := h.sent hr
  exact ⟨t, q, getElem?_append_of_some hget l, hask.extends hm⟩

/-- The threads of a client are sound. -/
def ThreadsSound (requests : List (Conn × PropertyTreeMessage)) (c : Conn) (m : Mirror)
    (threads : Std.ExtTreeMap ThreadId Thread) : Prop :=
  ∀ (i : ThreadId) (th : Thread), threads[i]? = some th → ThreadSound requests c m th

variable {threads : Std.ExtTreeMap ThreadId Thread} {i : ThreadId}

theorem ThreadsSound.extends (h : ThreadsSound requests c m threads) (hm : m.Extends m') :
    ThreadsSound (requests ++ l) c m' threads :=
  fun i th hi => (h i th hi).extends hm

theorem ThreadsSound.erase (h : ThreadsSound requests c m threads) (i : ThreadId) :
    ThreadsSound requests c m (threads.erase i) := by
  intro j th hj
  have := h j th
  grind

theorem ThreadsSound.insert (h : ThreadsSound requests c m threads)
    (hth : ThreadSound requests c m th) : ThreadsSound requests c m (threads.insert i th) := by
  intro j th' hj
  have := h j th'
  grind

/-- A step of a client keeps its mirror well-formed and its threads sound. -/
theorem sound_of_stepResult (h : Client.StepResult k requests.length a k' sent)
    (hm : k.mirror.WellFormed) (hth : ThreadsSound requests c k.mirror k.threads) :
    k'.mirror.WellFormed ∧
      ThreadsSound (requests ++ requestsOf c sent) c k'.mirror k'.threads := by
  -- the threads after a change of the mirror, for the branches that send nothing
  have hsame : ThreadsSound (requests ++ []) c k.mirror k.threads := by simpa using hth
  have hgrow : ∀ {m'}, k.mirror.Grows m' → ThreadsSound (requests ++ []) c m' k.threads :=
    fun hg => hth.extends hg.objects
  have hstage : ∀ {i : ThreadId} {call : ApiCall} {stage stage' : Stage},
      k.threads[i]? = some ⟨call, stage⟩ → (∀ q, stage'.unsent = some q → stage.unsent = some q) →
      (∀ r, stage'.number = some r → stage.number = some r) →
      ThreadSound (requests ++ []) c k.mirror ⟨call, stage'⟩ := by
    intro i call stage stage' hi hq hr
    have := hsame _ _ hi
    exact ⟨fun h => this.unsent (hq _ h), fun h => this.sent (hr _ h)⟩
  cases h with
  | found => exact ⟨hm, hsame.erase _⟩
  | start i call node hs hi hc hset hn =>
    refine ⟨hm, hsame.insert ⟨?_, by rintro r ⟨⟩⟩⟩
    rintro q ⟨⟩
    refine ⟨node, rfl, fun x hx => ?_⟩
    simp only [ApiCall.object, hx] at hn
    exact ⟨node, hn, rfl⟩
  | startSet i x value node hs hi hl hn =>
    have hg := hm.modifyNode x (f := fun node => { node with data := value }) fun _ => rfl
    refine ⟨hg.wellFormed, (hgrow hg).insert ⟨?_, by rintro r ⟨⟩⟩⟩
    rintro q ⟨⟩
    refine ⟨{ node with data := value }, rfl, ?_⟩
    rintro y ⟨⟩
    obtain ⟨n, hn', hu⟩ := hg.objects hn
    exact ⟨n, hn', hu⟩
  | skip i call q ht hid => exact ⟨hm, hsame.insert (hstage ht (fun _ h => h) fun _ h => by cases h)⟩
  | draw i call q stage ht hid =>
    refine ⟨hm, hsame.insert (hstage ht (fun _ h => ?_) fun _ h => by cases h)⟩
    rcases hid with ⟨rfl, -⟩ | rfl <;> exact h
  | send i call q trId ht =>
    have hask : Asks k.mirror call q := (hth _ _ ht).unsent rfl
    refine ⟨hm, (hth.extends fun hn => ⟨_, hn, rfl⟩).insert ⟨by rintro q ⟨⟩, ?_⟩⟩
    rintro r ⟨⟩
    refine ⟨trId, q, ?_, hask⟩
    simp [requestsOf, hask.isRequest]
  | take i call trId r response ht hx => exact ⟨hm, hsame.insert (hstage ht (fun _ h => by cases h) fun _ h => h)⟩
  | timeout => exact ⟨hm, hsame.erase _⟩
  | erase i call trId r response ht => exact ⟨hm, hsame.insert (hstage ht (fun _ h => by cases h) fun _ h => h)⟩
  | signin => exact ⟨hm.emplaceRoot.wellFormed, (hgrow hm.emplaceRoot).erase _⟩
  | create i a name r tag uuid ht =>
    have hg := hm.createNode a name uuid
    exact ⟨hg.wellFormed, (hgrow hg).erase _⟩
  | list i a name recursive r tag nodeToAddList ht =>
    exact ⟨hm, hsame.insert (hstage ht (fun _ h => by cases h) fun _ h => by cases h)⟩
  | fetch i a r tag data ht hl =>
    have hg := hm.modifyNode a (f := fun node => { node with data := data }) fun _ => rfl
    exact ⟨hg.wellFormed, (hgrow hg).erase _⟩
  | destroy i a r tag ht =>
    have hg := hm.destroyNode a
    exact ⟨hg.wellFormed, (hgrow hg).erase _⟩
  | respond => exact ⟨hm, hsame.erase _⟩
  | fail => exact ⟨hm, hsame.erase _⟩
  | add i call nodeToAddList j todo ht =>
    have hg := hm.addNode j
    refine ⟨hg.wellFormed, (hgrow hg).insert ⟨by rintro q ⟨⟩, by rintro r ⟨⟩⟩⟩
  | get => exact ⟨hm, hsame.erase _⟩
  | satisfy => exact ⟨hm, hsame⟩
  | treeUpdate tag trId add del inbound hr hin hx =>
    have hg := hm.handleTreeUpdateNotification add del
    exact ⟨hg.wellFormed, hgrow hg⟩
  | updateNotification => exact ⟨hm, hsame⟩
  | rpcRequest tag trId uuid param inbound hr hin hx =>
    have hreply : ((k.rpcReply uuid param).isRequest) = false := by
      unfold rpcReply
      split
      · rfl
      · split <;> rfl
    refine ⟨hm, ?_⟩
    simpa [requestsOf, hreply] using hth
  | ignore => exact ⟨hm, hsame⟩
  | update a data hr hl =>
    have hdata : k.mirror.Grows (k.mirror.modifyNode a fun node => { node with data := data }) :=
      hm.modifyNode a fun _ => rfl
    have hg := hdata.trans (hdata.wellFormed.callUpdate a)
    exact ⟨hg.wellFormed, hgrow hg⟩
  | setup s hs => exact ⟨(hm.setup s).wellFormed, hgrow (hm.setup s)⟩
  | free a ha hu =>
    refine ⟨hm.free ha, fun i th hi => ?_⟩
    have hne := uses_eq_false hu hi
    have := hsame i th hi
    refine ⟨fun hq => (this.unsent hq).free hne, fun hr => ?_⟩
    obtain ⟨t, q, hget, hask⟩ := this.sent hr
    exact ⟨t, q, hget, hask.free hne⟩
  | close => exact ⟨hm, hsame⟩

/-- What a step of a client does to its inbound queue, and what it sends. -/
inductive QueueChange (number : ℕ) (k k' : Client) : List Packet → Prop
  | silent (hin : k'.inbound = k.inbound) : QueueChange number k k' []
  | request (t q) (hin : k'.inbound = k.inbound) (hq : q.isRequest = true) :
      QueueChange number k k' [⟨number, t, q⟩]
  | taken (p) (hin : k.inbound = p :: k'.inbound) : QueueChange number k k' []
  | reply (tag key uuid param m) (hm : m.isRpcReply = true)
      (hin : k.inbound = ⟨tag, key, .rpcRequest uuid param⟩ :: k'.inbound) :
      QueueChange number k k' [⟨tag, key, m⟩]

/-- A reply is a reply. -/
theorem isRpcReply_rpcReply (k : Client) (uuid : UInt64) (param : Buffer) :
    (k.rpcReply uuid param).isRpcReply = true := by
  unfold rpcReply
  split
  · rfl
  · split <;> rfl

/-- The queues in a step of a client. -/
theorem queueChange_of_stepResult (h : Client.StepResult k requests.length a k' sent)
    (hth : ThreadsSound requests c k.mirror k.threads) :
    QueueChange requests.length k k' sent ∧ k'.outbound = k.outbound := by
  cases h with
  | send i call q trId ht => exact ⟨.request _ _ rfl ((hth _ _ ht).unsent rfl).isRequest, rfl⟩
  | satisfy p inbound x hr hin hx => exact ⟨.taken _ hin, rfl⟩
  | treeUpdate tag trId add del inbound hr hin hx => exact ⟨.taken _ hin, rfl⟩
  | updateNotification tag trId uuid data inbound hr hin hx => exact ⟨.taken _ hin, rfl⟩
  | rpcRequest tag trId uuid param inbound hr hin hx =>
    exact ⟨.reply _ _ _ _ _ (isRpcReply_rpcReply k uuid param) hin, rfl⟩
  | ignore p inbound hr hin hx hm => exact ⟨.taken _ hin, rfl⟩
  | _ => exact ⟨.silent rfl, rfl⟩

end Threads

/-! ## Sound systems -/

/-- What a client sends is a recorded request, or a reply to an RPC. -/
def Outgoing (requests : List (Conn × PropertyTreeMessage)) (c : Conn) (p : Packet) : Prop :=
  p.message.message.isRequest = true ∧ requests[p.tag]? = some (c, p.message) ∨
    p.message.message.isRpcReply = true

/-- The mirrors are well-formed, and the threads and the outbound queues sound. -/
structure Sound (s : System) : Prop where
  mirror : ∀ {c : Conn} {k : Client}, s.clients[c]? = some k → k.mirror.WellFormed
  threads : ∀ {c : Conn} {k : Client}, s.clients[c]? = some k →
    ThreadsSound s.requests c k.mirror k.threads
  outbound : ∀ {c : Conn} {k : Client} {p : Packet}, s.clients[c]? = some k → p ∈ k.outbound → Outgoing s.requests c p

/-- A client that is just being constructed has a well-formed mirror and sound threads. -/
theorem sound_new (requests : List (Conn × PropertyTreeMessage)) (c : Conn) :
    Client.new.mirror.WellFormed ∧
      ThreadsSound requests c Client.new.mirror Client.new.threads := by
  refine ⟨⟨fun h => ?_, fun h => ?_⟩, fun i th hi => ?_⟩
  · simp [Client.new, Mirror.empty] at h
  · simp [Client.new, Mirror.empty] at h
  · obtain rfl : th = ⟨.signin, .begun (.signinRequest 0)⟩ := by
      simp only [Client.new] at hi
      grind
    refine ⟨?_, by rintro r ⟨⟩⟩
    rintro q ⟨⟩
    exact ⟨.make [] none 0, rfl, by rintro a ⟨⟩⟩

/-- A step of the system keeps it sound. -/
theorem Sound.step (h : Sound s) (hstep : StepResult s act s') : Sound s' := by
  cases hstep with
  | connect c hc =>
    have hnew := sound_new s.requests c
    refine ⟨fun {d k} hk => ?_, fun {d k} hk => ?_, fun {d k p} hk hp => ?_⟩ <;>
      rw [getElem?_clients_insert] at hk <;> split_ifs at hk with hdc
    · cases hk
      exact hnew.1
    · exact h.mirror hk
    · cases hk
      exact hdc ▸ hnew.2
    · exact h.threads hk
    · cases hk
      simp [Client.new] at hp
    · exact h.outbound hk hp
  | client c a k k' sent hk hopen hres =>
    obtain ⟨hm, hth⟩ := sound_of_stepResult hres (h.mirror hk) (h.threads hk)
    obtain ⟨hq, hout⟩ := queueChange_of_stepResult hres (h.threads hk)
    refine ⟨fun {d kd} hkd => ?_, fun {d kd} hkd => ?_, fun {d kd p} hkd hp => ?_⟩ <;>
      rw [getElem?_clients_insert] at hkd <;> split_ifs at hkd with hdc
    · cases hkd
      exact hm
    · exact h.mirror hkd
    · cases hkd
      exact hdc ▸ hth
    · exact (h.threads hkd).extends fun hn => ⟨_, hn, rfl⟩
    · cases hkd
      subst hdc
      simp only [hout, List.mem_append] at hp
      rcases hp with hp | hp
      · exact (h.outbound hk hp).imp_left fun hp => ⟨hp.1, getElem?_append_of_some hp.2 _⟩
      · cases hq with
        | silent => cases hp
        | request t q hin hq =>
          obtain rfl : p = ⟨s.requests.length, t, q⟩ := by simpa using hp
          exact .inl ⟨hq, by simp [requestsOf, hq]⟩
        | taken => cases hp
        | reply tag key uuid param m hm hin =>
          obtain rfl : p = ⟨tag, key, m⟩ := by simpa using hp
          exact .inr hm
    · exact (h.outbound hkd hp).imp_left fun hp => ⟨hp.1, getElem?_append_of_some hp.2 _⟩
  | serve c k p outbound server o hk hout ht hok =>
    refine ⟨fun {d kd} hkd => ?_, fun {d kd} hkd => ?_, fun {d kd q} hkd hq => ?_⟩ <;>
      obtain ⟨k₀, hk₀, rfl⟩ := exists_of_receive hk hkd
    · exact h.mirror (k := k₀) hk₀
    · exact h.threads (k := k₀) hk₀
    · split_ifs at hq with hdc
      · subst hdc
        exact h.outbound hk (hout ▸ List.mem_cons_of_mem p hq)
      · exact h.outbound hk₀ hq
  | disconnect c k server o hk hclosed hok =>
    refine ⟨fun {d kd} hkd => ?_, fun {d kd} hkd => ?_, fun {d kd q} hkd hq => ?_⟩ <;>
      obtain ⟨k₀, hk₀, rfl⟩ := exists_of_disconnect hk hkd
    · exact h.mirror (k := k₀) hk₀
    · exact h.threads (k := k₀) hk₀
    · split_ifs at hq with hdc
      · cases hq
      · exact h.outbound hk₀ hq

/-- Every state of every run is sound. -/
theorem sound_of_run {as : List System.Action} (h : Run Step .init as s) : Sound s := by
  refine h.invariant (P := Sound) (fun h hstep => h.step (step_cases hstep)) ⟨?_, ?_, ?_⟩ <;>
    simp [init]

/-! ## Numbers on record -/

/-- Every message on its way belongs to a request that is on record. -/
structure Numbered (s : System) : Prop where
  inbound : ∀ {c p}, p ∈ (s.client c).inbound → p.tag < s.requests.length
  outbound : ∀ {c p}, p ∈ (s.client c).outbound → p.tag < s.requests.length

/-- A step keeps the numbers on record. -/
theorem Numbered.step (h : Numbered s) (hsound : Sound s) (hstep : StepResult s act s') :
    Numbered s' := by
  cases hstep with
  | connect c hc =>
    have hcl := client_connect hc
    exact ⟨fun {d p} hp => h.inbound (hcl d ▸ hp), fun {d p} hp => h.outbound (hcl d ▸ hp)⟩
  | client c a k k' sent hk hopen hres =>
    obtain ⟨hq, hout⟩ := queueChange_of_stepResult hres (hsound.threads hk)
    have hkc := client_of_some hk
    have hle : s.requests.length ≤ (s.requests ++ requestsOf c sent).length := by simp
    refine ⟨fun {d p} hp => ?_, fun {d p} hp => ?_⟩ <;>
      rw [client_of_clients rfl d] at hp <;> split_ifs at hp with hdc
    · subst hdc
      refine lt_of_lt_of_le (h.inbound (c := d) ?_) hle
      rw [hkc]
      cases hq with
      | silent hin => exact hin ▸ hp
      | request t q hin => exact hin ▸ hp
      | taken p' hin => exact hin ▸ List.mem_cons_of_mem _ hp
      | reply tag key uuid param m hm hin => exact hin ▸ List.mem_cons_of_mem _ hp
    · exact lt_of_lt_of_le (h.inbound hp) hle
    · subst hdc
      simp only [hout, List.mem_append] at hp
      rcases hp with hp | hp
      · exact lt_of_lt_of_le (h.outbound (c := d) (hkc ▸ hp)) hle
      · cases hq with
        | silent => cases hp
        | request t q hin hq =>
          obtain rfl := List.mem_singleton.mp hp
          simp [requestsOf, hq]
        | taken => cases hp
        | reply tag key uuid param m hm hin =>
          obtain rfl := List.mem_singleton.mp hp
          exact lt_of_lt_of_le
            (@Numbered.inbound s h d ⟨tag, key, .rpcRequest uuid param⟩ (by simp [hkc, hin])) hle
    · exact lt_of_lt_of_le (h.outbound hp) hle
  | serve c k p outbound server o hk hout ht hok =>
    have hp₀ : p.tag < s.requests.length :=
      @Numbered.outbound s h c p (by simp [client_of_some hk, hout])
    refine ⟨fun {d q} hq => ?_, fun {d q} hq => ?_⟩ <;>
      obtain ⟨ms, -, hcl⟩ := exists_client_receive hk outbound p.tag o d <;>
      rw [client, hcl] at hq
    · rcases List.mem_append.mp hq with hq | hq
      · exact h.inbound hq
      · obtain ⟨m, -, rfl⟩ := List.mem_map.mp hq
        exact hp₀
    · simp only at hq
      split_ifs at hq with hdc
      · refine @Numbered.outbound s h c q ?_
        rw [client_of_some hk, hout]
        exact List.mem_cons_of_mem p hq
      · exact h.outbound hq
  | disconnect c k server o hk hclosed hok =>
    refine ⟨fun {d p} hp => ?_, fun {d p} hp => ?_⟩ <;> rw [client_disconnect hk rfl d] at hp
    · exact h.inbound hp
    · simp only at hp
      split_ifs at hp
      · cases hp
      · exact h.outbound hp

/-- The numbers are on record in every state of every run. -/
theorem numbered_of_run {as : List System.Action} (h : Run Step .init as s) : Numbered s := by
  suffices hinv : Sound s ∧ Numbered s from hinv.2
  refine h.invariant (P := fun s => Sound s ∧ Numbered s)
    (fun h hstep => ⟨h.1.step (step_cases hstep), h.2.step h.1 (step_cases hstep)⟩)
    ⟨sound_of_run (.nil _), ?_⟩
  have hnew : ∀ c, System.init.client c = .new := fun c => by simp [client, init]
  refine ⟨fun {c p} hp => ?_, fun {c p} hp => ?_⟩ <;> rw [hnew] at hp <;> cases hp

/-- The state after the server has handled the packet `p` of the connection `c`. -/
def afterServe (s : System) (c : Conn) (k : Client) (p : Packet) (outbound : List Packet)
    (server : ProtocolHandler) (o : List Output) : System :=
  { s with
    server := server
    terminated := o.contains .terminate
    clients := (s.clients.insert c { k with outbound := outbound }).map (receive p.tag o)
    log := s.log ++ [(.message c p.message, o)]
    forwarded := s.forwarded ++ forwardedBy s.server p.tag o
    delivered := s.delivered ++ deliveredBy p o }

/-- What the server sends to a client that has been constructed arrives. -/
theorem client_afterServe_of_some (hk : s.clients[d]? = some k) {kc : Client}
    (hc : s.clients[c]? = some kc) {p : Packet} {outbound : List Packet} {server : ProtocolHandler}
    {o : List Output} :
    (afterServe s d k p outbound server o).client c = { s.client c with
      inbound := (s.client c).inbound ++ (sentTo c o).map (⟨p.tag, ·⟩)
      outbound := if c = d then outbound else (s.client c).outbound } := by
  rw [client, afterServe, Std.ExtTreeMap.getElem?_map, getElem?_clients_insert, client_of_some hc]
  split_ifs with hcd
  · subst hcd
    rw [hk] at hc
    cases hc
    rfl
  · rw [hc]
    rfl

end PropertyTree.System
