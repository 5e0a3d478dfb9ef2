import PropertyTree.Client.Caller
import PropertyTree.Client.Placement
import PropertyTree.System.Knowledge

/-!
# Rounds of create and destroy

Any number of clients create and destroy, over and over, a node each, below one parent and under names
of their own.  `Phase` says for each of them how far it has come, what the server holds under its name,
what its own mirror does, and which notifications of the name may still be in its queue: none when the
name is unused, since the response to the `destroy` came behind them.  So a `create` never finds the node
that has just been destroyed, and every call of every client does what it is asked to.
-/

namespace PropertyTree.System

open Library Server Client

variable {s₀ s s' : System} {act : System.Action} {c d : Conn} {k k' : Client} {P u v : UInt64}
  {name : Name} {t : UInt16}

/-! ## The rounds -/

/-- Clients that create and destroy a node each, below one parent: the thread that does so, the object of
the parent in the client's mirror, and the name, which no other client uses. -/
structure Plan where
  parent : UInt64
  members : List Conn
  caller : Conn → ThreadId
  object : Conn → Addr
  name : Conn → Name
  name_inj : ∀ c ∈ members, ∀ d ∈ members, name c = name d → c = d

/-- How the calls of the client on `c` have ended since the state `s₀`. -/
def resultsSince (s₀ s : System) (c : Conn) : List (ThreadId × ApiCall × CallResult) :=
  (s.client c).results.drop (s₀.client c).results.length

/-- A step that ends no call of the client. -/
theorem resultsSince_congr (h : (s'.client c).results = (s.client c).results) :
    resultsSince s₀ s' c = resultsSince s₀ s c := by
  rw [resultsSince, h, resultsSince]

namespace Plan

variable (plan : Plan)

/-- The call that is next in the round of `c`: what the last `create` has returned is destroyed. -/
def next (s₀ s : System) (c : Conn) : ApiCall :=
  match (resultsSince s₀ s c).getLast? with
  | some (_, .create _ _, .property (some a)) => .destroy a
  | _ => .create (plan.object c) (plan.name c)

theorem next_congr {plan : Plan} (h : (s'.client c).results = (s.client c).results) :
    plan.next s₀ s' c = plan.next s₀ s c := by
  rw [next, resultsSince_congr h, next]

/-- What the client on `c` does in its rounds: no call times out, and nothing else is called. -/
def Takes (s₀ s : System) (c : Conn) : Client.Action → Prop
  | .start i call => i = plan.caller c ∧ call = plan.next s₀ s c
  | .timeout _ | .setup _ | .close => False
  | _ => True

/-- The steps of the clients in their rounds, and of the server, as long as it gives out few uuids. -/
def Loops (s₀ s : System) : System.Action → Prop
  | .client c a => c ∈ plan.members ∧ plan.Takes s₀ s c a
  | .serve c => c ∈ plan.members ∧ FewCreates s (.serve c)
  | .connect _ | .disconnect _ => False

/-- The client on `c` has nothing under way.  It holds the parent, and below it no node of its name. -/
structure Begins (s : System) (c : Conn) : Prop where
  client : s.clients[c]? ≠ none
  signedIn : s.server.mConnectionToSessionId[c]? ≠ none
  running : (s.client c).status = .running
  threads : (s.client c).threads.isEmpty = true
  mTransactions : (s.client c).mTransactions.isEmpty = true
  reader : (s.client c).reader = none
  inbound : (s.client c).inbound = []
  outbound : (s.client c).outbound = []
  object : (s.client c).mirror.mTree[plan.parent]? = some (plan.object c)
  lacks : (s.client c).mirror.Lacks (plan.object c) (plan.name c)

instance (s : System) (c : Conn) : Decidable (plan.Begins s c) :=
  decidable_of_iff (s.clients[c]? ≠ none ∧ s.server.mConnectionToSessionId[c]? ≠ none ∧
      (s.client c).status = .running ∧ (s.client c).threads.isEmpty = true ∧
      (s.client c).mTransactions.isEmpty = true ∧ (s.client c).reader = none ∧
      (s.client c).inbound = [] ∧ (s.client c).outbound = [] ∧
      (s.client c).mirror.mTree[plan.parent]? = some (plan.object c) ∧
      (s.client c).mirror.Lacks (plan.object c) (plan.name c))
    ⟨fun ⟨h₁, h₂, h₃, h₄, h₅, h₆, h₇, h₈, h₉, h⟩ => ⟨h₁, h₂, h₃, h₄, h₅, h₆, h₇, h₈, h₉, h⟩,
      fun ⟨h₁, h₂, h₃, h₄, h₅, h₆, h₇, h₈, h₉, h⟩ => ⟨h₁, h₂, h₃, h₄, h₅, h₆, h₇, h₈, h₉, h⟩⟩

/-- The rounds can begin: the server holds the parent and below it no node of the names. -/
structure Ready (s : System) : Prop where
  terminated : s.terminated = false
  parent : plan.parent ∈ s.server.mTree
  unused : ∀ c ∈ plan.members, ∀ p ∈ s.server.mTree[plan.parent]?, ∀ node ∈ s.server.heap[p]?,
    node.children[plan.name c]? = none
  begins : ∀ c ∈ plan.members, plan.Begins s c

instance (s : System) : Decidable (plan.Ready s) :=
  decidable_of_iff (s.terminated = false ∧ plan.parent ∈ s.server.mTree ∧
      (∀ c ∈ plan.members, ∀ p ∈ s.server.mTree[plan.parent]?, ∀ node ∈ s.server.heap[p]?,
        node.children[plan.name c]? = none) ∧ ∀ c ∈ plan.members, plan.Begins s c)
    ⟨fun ⟨h₁, h₂, h₃, h⟩ => ⟨h₁, h₂, h₃, h⟩, fun ⟨h₁, h₂, h₃, h⟩ => ⟨h₁, h₂, h₃, h⟩⟩

instance (s₀ s : System) (c : Conn) (a : Client.Action) : Decidable (plan.Takes s₀ s c a) :=
  match a with
  | .start i call => inferInstanceAs (Decidable (i = plan.caller c ∧ call = plan.next s₀ s c))
  | .timeout _ | .setup _ | .close => .isFalse id
  | .fetchId _ | .send _ | .take _ | .erase _ | .proceed _ | .read | .update | .free _ => .isTrue trivial

instance (s₀ s : System) (act : System.Action) : Decidable (plan.Loops s₀ s act) :=
  match act with
  | .client c a => inferInstanceAs (Decidable (c ∈ plan.members ∧ plan.Takes s₀ s c a))
  | .serve c => inferInstanceAs (Decidable (c ∈ plan.members ∧ FewCreates s (.serve c)))
  | .connect _ | .disconnect _ => .isFalse id

/-! ## How far a client has come -/

/-- A notification of one node that has been created below `P` or deleted. -/
def News (P : UInt64) (p : Packet) : Prop :=
  ∀ add del, p.message.message = .treeUpdateNotification add del →
    (∃ i, add = [i] ∧ del = [] ∧ i.parentUuid = P) ∨ ∃ v, add = [] ∧ del = [v]

/-- No notification tells of a creation under the name. -/
def Silent (name : Name) (l : List Packet) : Prop :=
  ∀ p ∈ l, ∀ add del, p.message.message = .treeUpdateNotification add del → ∀ i ∈ add, i.name ≠ name

/-- How far the client on `c` has come in its round. -/
inductive Phase (s₀ s : System) (c : Conn) : Option (ApiCall × Exchange) → Prop
  | vacant (hname : Unused s.server.entry plan.parent (plan.name c))
      (hin : Silent (plan.name c) (s.client c).inbound)
      (hlacks : (s.client c).mirror.Lacks (plan.object c) (plan.name c))
      (hnext : plan.next s₀ s c = .create (plan.object c) (plan.name c)) : Phase s₀ s c none
  | creating (x) (hx : x.request = some (.createRequest (plan.name c) plan.parent))
      (hname : Unused s.server.entry plan.parent (plan.name c)) :
      Phase s₀ s c (some (.create (plan.object c) (plan.name c), x))
  | accepted (x u) (hx : x.response = some (.createAccept u))
      (hname : InUse s.server.entry plan.parent (plan.name c) u)
      (hplaced : ∀ a, (s.client c).mirror.mTree[u]? = some a →
        (s.client c).mirror.Placed (plan.object c) (plan.name c) u a) :
      Phase s₀ s c (some (.create (plan.object c) (plan.name c), x))
  | created (u a) (hname : InUse s.server.entry plan.parent (plan.name c) u)
      (hu : (s.client c).mirror.mTree[u]? = some a)
      (ha : (s.client c).mirror.Placed (plan.object c) (plan.name c) u a)
      (hnext : plan.next s₀ s c = .destroy a) : Phase s₀ s c none
  | deleting (x u a) (hx : x.request = some (.deleteRequest u))
      (hname : InUse s.server.entry plan.parent (plan.name c) u)
      (hu : (s.client c).mirror.mTree[u]? = some a)
      (ha : (s.client c).mirror.Placed (plan.object c) (plan.name c) u a) :
      Phase s₀ s c (some (.destroy a, x))
  | deleted (x u a) (hx : x.response = some (.deleteResponse .ok))
      (hname : Unused s.server.entry plan.parent (plan.name c))
      (hin : Silent (plan.name c) (x.behind (s.client c).inbound))
      (hmem : ⟨plan.name c, u, plan.parent⟩ ∈ creations s.log)
      (ha : (s.client c).mirror.Placed (plan.object c) (plan.name c) u a) :
      Phase s₀ s c (some (.destroy a, x))

/-- A call has done what it was asked to: a `create` has returned a node, and a `destroy` true. -/
def IsRight (r : ThreadId × ApiCall × CallResult) : Prop :=
  (∃ x name a, r.2 = (.create x name, .property (some a))) ∨ ∃ a, r.2 = (.destroy a, .bool true)

/-- What holds of a client in its rounds. -/
structure Member (s₀ s : System) (c : Conn) : Prop where
  client : s.clients[c]? ≠ none
  signedIn : s.server.mConnectionToSessionId[c]? ≠ none
  anchored : (s.client c).mirror.Anchored plan.parent (plan.object c)
  news : ∀ p ∈ (s.client c).inbound, News plan.parent p
  results : (s₀.client c).results.length ≤ (s.client c).results.length
  right : ∀ r ∈ resultsSince s₀ s c, IsRight r
  phase : ∃ w, OneCaller (plan.caller c) w (s.client c) ∧ plan.Phase s₀ s c w

/-- What holds of all of them. -/
structure Looping (s₀ s : System) : Prop where
  terminated : s.terminated = false
  parent : s.server.entry plan.parent ≠ none
  member : ∀ c ∈ plan.members, plan.Member s₀ s c

/-! ## The steps of a client -/

section Client

variable {plan} {w : Option (ApiCall × Exchange)} {add : List NamedNode} {del : List UInt64}

/-- The name of a node that is there is the one it has been created with. -/
theorem mem_creations_of_inUse (hhist : History s.log s.server) (h : InUse s.server.entry P name u) :
    ⟨name, u, P⟩ ∈ creations s.log := by
  obtain ⟨e, he, hpar, rfl⟩ := h.entry
  exact hhist.live he hpar

/-- A node has one name. -/
theorem name_eq_of_mem (hhist : History s.log s.server) (hmem : ⟨name, u, P⟩ ∈ creations s.log)
    {i : NamedNode} (hi : i ∈ creations s.log) (hu : i.uuid = u) : i.name = name := by
  rw [hhist.inj hmem hi hu]

/-- The reader handles a notification. -/
theorem Phase.notice (h : plan.Phase s₀ s c w) (hhist : History s.log s.server)
    (hserver : s'.server = s.server) (hlog : s'.log = s.log) (hnext : plan.next s₀ s' c = plan.next s₀ s c)
    {p : Packet} (hin : (s.client c).inbound = p :: (s'.client c).inbound)
    (hp : p.message.message = .treeUpdateNotification add del)
    (hadd : ∀ i ∈ add, i ∈ creations s.log) (hdel : ∀ v ∈ del, s.server.entry v = none)
    (hl : (s.client c).mirror.Leaves (plan.object c) add del (s'.client c).mirror) :
    plan.Phase s₀ s' c (w.map fun x => (x.1, x.2.afterNotice)) := by
  have hrequest : ∀ x : Exchange, x.afterNotice.request = x.request := fun x => by cases x <;> rfl
  have hresponse : ∀ x : Exchange, x.afterNotice.response = x.response := fun x => by cases x <;> rfl
  have hsilent : Silent (plan.name c) (s.client c).inbound →
      Silent (plan.name c) (s'.client c).inbound := fun h q hq => h q (hin ▸ List.mem_cons_of_mem p hq)
  have hlive : ∀ {u}, InUse s.server.entry plan.parent (plan.name c) u → u ∉ del := by
    rintro u hu hmem
    obtain ⟨e, he, -⟩ := hu.entry
    rw [hdel u hmem] at he
    cases he
  have hname : ∀ {u}, ⟨plan.name c, u, plan.parent⟩ ∈ creations s.log →
      ∀ i ∈ add, i.uuid = u → i.name = plan.name c :=
    fun hmem i hi hu => name_eq_of_mem hhist hmem (hadd i hi) hu
  cases h with
  | vacant hfree hsil hlacks hn =>
    refine .vacant (hserver ▸ hfree) (hsilent hsil) (hl.lacks hlacks ?_) (hnext.trans hn)
    exact hsil p (hin ▸ List.mem_cons_self) add del hp
  | creating x hx hfree => exact .creating _ ((hrequest x).trans hx) (hserver ▸ hfree)
  | accepted x u hx hu hplaced =>
    refine .accepted _ u ((hresponse x).trans hx) (hserver ▸ hu) ?_
    exact hl.placed_of_known (hlive hu) (hname (mem_creations_of_inUse hhist hu)) hplaced
  | created u a hu ha hplaced hn =>
    exact .created u a (hserver ▸ hu) (hl.known ha (hlive hu))
      (hl.placed hplaced (hname (mem_creations_of_inUse hhist hu))) (hnext.trans hn)
  | deleting x u a hx hu ha hplaced =>
    exact .deleting _ u a ((hrequest x).trans hx) (hserver ▸ hu) (hl.known ha (hlive hu))
      (hl.placed hplaced (hname (mem_creations_of_inUse hhist hu)))
  | deleted x u a hx hfree hsil hmem hplaced =>
    refine .deleted _ u a ((hresponse x).trans hx) (hserver ▸ hfree) ?_ (hlog ▸ hmem)
      (hl.placed hplaced (hname hmem))
    cases x with
    | coming m before after => exact hsil
    | got m => exact hsilent hsil
    | _ => cases hx

/-- A step that leaves the client's queue and mirror alone. -/
theorem Phase.congr (h : plan.Phase s₀ s c w) (hserver : s'.server = s.server) (hlog : s'.log = s.log)
    (hnext : plan.next s₀ s' c = plan.next s₀ s c) (hin : (s'.client c).inbound = (s.client c).inbound)
    (hm : (s'.client c).mirror = (s.client c).mirror) : plan.Phase s₀ s' c w := by
  cases h with
  | vacant hfree hsil hlacks hn =>
    exact .vacant (hserver ▸ hfree) (hin ▸ hsil) (hm ▸ hlacks) (hnext.trans hn)
  | creating x hx hfree => exact .creating x hx (hserver ▸ hfree)
  | accepted x u hx hu hplaced => exact .accepted x u hx (hserver ▸ hu) (hm ▸ hplaced)
  | created u a hu ha hplaced hn =>
    exact .created u a (hserver ▸ hu) (hm ▸ ha) (hm ▸ hplaced) (hnext.trans hn)
  | deleting x u a hx hu ha hplaced => exact .deleting x u a hx (hserver ▸ hu) (hm ▸ ha) (hm ▸ hplaced)
  | deleted x u a hx hfree hsil hmem hplaced =>
    exact .deleted x u a hx (hserver ▸ hfree) (hin ▸ hsil) (hlog ▸ hmem) (hm ▸ hplaced)

/-- An object comes to its end that neither the mirror nor the caller refers to. -/
theorem Phase.free (h : plan.Phase s₀ s c w) (hserver : s'.server = s.server) (hlog : s'.log = s.log)
    (hnext : plan.next s₀ s' c = plan.next s₀ s c) (hin : (s'.client c).inbound = (s.client c).inbound)
    {b : Addr} (hm : (s'.client c).mirror = (s.client c).mirror.free b)
    (hcaller : OneCaller (plan.caller c) w (s.client c))
    (hanchored : (s.client c).mirror.Anchored plan.parent (plan.object c))
    (hb : (s.client c).mirror.isReferenced b = false) (huses : (s.client c).uses b = false) :
    plan.Phase s₀ s' c w := by
  obtain ⟨-, hlacks, hplaced⟩ := hanchored.free hb
  have hne : ∀ {u : UInt64} {a : Addr}, (s.client c).mirror.mTree[u]? = some a → a ≠ b := by
    rintro u a hu rfl
    rw [Bool.eq_false_iff, ne_eq, Mirror.isReferenced_iff, not_or] at hb
    exact hb.1 ⟨u, hu⟩
  cases h with
  | vacant hfree hsil hl hn =>
    exact .vacant (hserver ▸ hfree) (hin ▸ hsil) (hm ▸ hlacks hl) (hnext.trans hn)
  | creating x hx hfree => exact .creating x hx (hserver ▸ hfree)
  | accepted x u hx hu ha =>
    refine .accepted x u hx (hserver ▸ hu) fun a hua => ?_
    rw [hm] at hua ⊢
    exact hplaced (ha a hua) (hne hua)
  | created u a hu hua ha hn =>
    exact .created u a (hserver ▸ hu) (hm ▸ hua) (hm ▸ hplaced ha (hne hua)) (hnext.trans hn)
  | deleting x u a hx hu hua ha =>
    exact .deleting x u a hx (hserver ▸ hu) (hm ▸ hua) (hm ▸ hplaced ha (hne hua))
  | deleted x u a hx hfree hsil hmem ha =>
    -- the caller still has the object
    obtain ⟨stage, ht⟩ := hcaller.thread
    have hab : a ≠ b := by
      rintro rfl
      exact uses_eq_false huses ht rfl
    exact .deleted x u a hx (hserver ▸ hfree) (hin ▸ hsil) (hlog ▸ hmem) (hm ▸ hplaced ha hab)

/-- Where the request has been sent. -/
theorem Phase.send {call : ApiCall} {q : PropertyTreeMessages}
    (h : plan.Phase s₀ s c (some (call, .unsent q))) : plan.Phase s₀ s c (some (call, .asked q)) := by
  cases h with
  | creating x hx hfree => exact .creating _ hx hfree
  | deleting x u a hx hu ha hplaced => exact .deleting _ u a hx hu ha hplaced
  | accepted x u hx => cases hx
  | deleted x u a hx => cases hx

/-- Where the response has been read. -/
theorem Phase.read {call : ApiCall} {m : PropertyTreeMessages} {after : List Packet}
    (h : plan.Phase s₀ s c (some (call, .coming m [] after)))
    (hafter : (s'.client c).inbound = after) (hserver : s'.server = s.server) (hlog : s'.log = s.log)
    (hm : (s'.client c).mirror = (s.client c).mirror) : plan.Phase s₀ s' c (some (call, .got m)) := by
  cases h with
  | creating x hx => cases hx
  | deleting x u a hx => cases hx
  | accepted x u hx hu hplaced => exact .accepted _ u hx (hserver ▸ hu) (hm ▸ hplaced)
  | deleted x u a hx hfree hsil hmem hplaced =>
    exact .deleted _ u a hx (hserver ▸ hfree) (hafter ▸ hsil) (hlog ▸ hmem) (hm ▸ hplaced)

/-- A notification in the queue is told of what has happened below the parent. -/
theorem leaves_of_news {m : Mirror} {x : Addr} (hhist : History s.log s.server)
    (hm : m.Anchored P x) (hnews : (∃ i, add = [i] ∧ del = [] ∧ i.parentUuid = P) ∨
      ∃ v, add = [] ∧ del = [v]) (hadd : ∀ i ∈ add, i ∈ creations s.log) :
    m.Leaves x add del (m.handleTreeUpdateNotification add del) := by
  rcases hnews with ⟨i, rfl, rfl, hi⟩ | ⟨v, rfl, rfl⟩
  · exact hm.leaves_addNode hi (hi ▸ hhist.uuid_ne_parentUuid (hadd i List.mem_cons_self))
  · exact hm.wellFormed.leaves_removeNode x v

/-- A step in the course of a call. -/
theorem Member.quiet (h : plan.Member s₀ s c) (hP : s.server.entry plan.parent ≠ none)
    (hhist : History s.log s.server) (hinf : Informed s c (s.client c)) {number : ℕ}
    {b : Client.Action} {sent : List Packet}
    (hstep : Client.StepResult (s.client c) number b k' sent) (hb : b.isQuiet = true)
    (hcl : s'.client c = { k' with outbound := k'.outbound ++ sent }) (hclient : s'.clients[c]? ≠ none)
    (hserver : s'.server = s.server) (hlog : s'.log = s.log) : plan.Member s₀ s' c := by
  obtain ⟨w, hone, hphase⟩ := h.phase
  obtain ⟨w', hone', hadv, hres⟩ := hone.step hstep hb
  rw [← hcl] at hone'
  have hresults : (s'.client c).results = (s.client c).results := by rw [hcl]; exact hres
  have hsince : resultsSince s₀ s' c = resultsSince s₀ s c := resultsSince_congr hresults
  have hnext : plan.next s₀ s' c = plan.next s₀ s c := next_congr hresults
  -- the rest follows from what the step does to the mirror and to the queue
  suffices hrest : (s'.client c).mirror.Anchored plan.parent (plan.object c) ∧
      (∀ p ∈ (s'.client c).inbound, News plan.parent p) ∧ plan.Phase s₀ s' c w' from
    ⟨hclient, hserver ▸ h.signedIn, hrest.1, hrest.2.1, hresults ▸ h.results, hsince ▸ h.right,
      w', hone', hrest.2.2⟩
  have hmirror : (s'.client c).mirror = k'.mirror := by rw [hcl]
  have hinbound : (s'.client c).inbound = k'.inbound := by rw [hcl]
  cases hadv with
  | within a w hm hin =>
    refine ⟨?_, ?_, hphase.congr hserver hlog hnext (hinbound.trans hin) (hmirror.trans hm)⟩
    · rw [hmirror, hm]
      exact h.anchored
    · rw [hinbound, hin]
      exact h.news
  | free x w hm hin hx huses =>
    refine ⟨?_, ?_, hphase.free hserver hlog hnext (hinbound.trans hin) (hmirror.trans hm) hone h.anchored
      hx huses⟩
    · rw [hmirror, hm]
      exact (h.anchored.free hx).1
    · rw [hinbound, hin]
      exact h.news
  | send a call q hm hin =>
    refine ⟨?_, ?_, hphase.send.congr hserver hlog hnext (hinbound.trans hin) (hmirror.trans hm)⟩
    · rw [hmirror, hm]
      exact h.anchored
    · rw [hinbound, hin]
      exact h.news
  | notice tag add del w hin hbefore hm =>
    have hp : (⟨tag, notificationId, .treeUpdateNotification add del⟩ : Packet) ∈ (s.client c).inbound :=
      hin ▸ List.mem_cons_self
    have htold : Told s c ⟨tag, .treeUpdateNotification add del⟩ := hinf.inbound hp
    have hleaves := leaves_of_news hhist h.anchored (h.news _ hp add del rfl) htold.1
    rw [← hm, ← hmirror] at hleaves
    have hdel : ∀ v ∈ del, s.server.entry v = none := fun v hv => (htold.2 v hv).2.1
    refine ⟨h.anchored.of_leaves hleaves fun hmem => hP (hdel _ hmem), ?_,
      hphase.notice hhist hserver hlog hnext (hinbound ▸ hin) rfl htold.1 hdel hleaves⟩
    rw [hinbound]
    exact fun q hq => h.news q (hin ▸ List.mem_cons_of_mem _ hq)
  | response call m after hm hin =>
    refine ⟨?_, ?_, hphase.read (hinbound.trans hin) hserver hlog (hmirror.trans hm)⟩
    · rw [hmirror, hm]
      exact h.anchored
    · rw [hinbound]
      rcases inbound_of_stepResult hstep with ⟨hne, -⟩ | ⟨-, p, hp⟩
      · exact absurd rfl hne
      · exact fun q hq => h.news q (hp ▸ List.mem_cons_of_mem _ hq)

/-- A step of another client. -/
theorem Member.congr (h : plan.Member s₀ s c) (hcl : s'.client c = s.client c)
    (hclient : s'.clients[c]? ≠ none) (hserver : s'.server = s.server) (hlog : s'.log = s.log) :
    plan.Member s₀ s' c := by
  have hsince : resultsSince s₀ s' c = resultsSince s₀ s c := resultsSince_congr (by rw [hcl])
  obtain ⟨w, hone, hphase⟩ := h.phase
  refine ⟨hclient, hserver ▸ h.signedIn, hcl ▸ h.anchored, hcl ▸ h.news, hcl ▸ h.results,
    hsince ▸ h.right, w, hcl ▸ hone, ?_⟩
  exact hphase.congr hserver hlog (next_congr (by rw [hcl])) (by rw [hcl]) (by rw [hcl])

/-- The caller begins the next call. -/
theorem Member.start (h : plan.Member s₀ s c) {number : ℕ} {i : ThreadId} {call : ApiCall}
    {sent : List Packet} (hi : i = plan.caller c) (hcall : call = plan.next s₀ s c)
    (hstep : (s.client c).step number (.start i call) = some (k', sent))
    (hcl : s'.client c = { k' with outbound := k'.outbound ++ sent }) (hclient : s'.clients[c]? ≠ none)
    (hserver : s'.server = s.server) : plan.Member s₀ s' c := by
  obtain ⟨w, hone, hphase⟩ := h.phase
  subst hi
  obtain rfl := hone.eq_none_of_start hstep
  -- a request that the call sends is what is left to say
  have hbegun : ∀ node : Client.Node, call.found (s.client c).mirror = none →
      (∀ x value, call ≠ .set x value) → call.object (s.client c).mirror = some node →
      (∀ x : Exchange, x.request = some (call.request node) →
        (s'.client c).mirror = (s.client c).mirror → plan.Phase s₀ s' c (some (call, x))) →
      plan.Member s₀ s' c := by
    intro node hfound hset hnode hph
    obtain ⟨rfl, rfl, hone'⟩ := hone.start hfound hset hnode hstep
    rw [← hcl] at hone'
    have hresults : (s'.client c).results = (s.client c).results := by rw [hcl]; rfl
    have hmirror : (s'.client c).mirror = (s.client c).mirror := by rw [hcl]; rfl
    refine ⟨hclient, hserver ▸ h.signedIn, hmirror ▸ h.anchored, ?_, hresults ▸ h.results, ?_, _, hone',
      hph _ rfl hmirror⟩
    · rw [hcl]
      exact h.news
    · rw [resultsSince_congr hresults]
      exact h.right
  cases hphase with
  | vacant hfree hsil hlacks hn =>
    obtain rfl := hcall.trans hn
    obtain ⟨node, hnode, huuid⟩ := h.anchored.wellFormed.mTree_heap h.anchored.parent
    refine hbegun node hlacks.found_eq_none (fun x value => by simp) hnode fun x hx hm => ?_
    refine .creating x ?_ (hserver ▸ hfree)
    rw [hx, ApiCall.request, huuid]
  | created u a hu ha hplaced hn =>
    obtain rfl := hcall.trans hn
    obtain ⟨node, hnode, huuid, hsame⟩ := hplaced
    refine hbegun node rfl (fun x value => by simp) hnode fun x hx hm => ?_
    refine .deleting x u a ?_ (hserver ▸ hu) (hm ▸ ha) (hm ▸ ⟨node, hnode, huuid, hsame⟩)
    rw [hx, ApiCall.request, huuid]

/-- The caller has its response and ends the call. -/
theorem Member.proceed (h : plan.Member s₀ s c) {number : ℕ} {i : ThreadId} {sent : List Packet}
    (hstep : (s.client c).step number (.proceed i) = some (k', sent))
    (hcl : s'.client c = { k' with outbound := k'.outbound ++ sent }) (hclient : s'.clients[c]? ≠ none)
    (hserver : s'.server = s.server) : plan.Member s₀ s' c := by
  obtain ⟨w, hone, hphase⟩ := h.phase
  obtain ⟨rfl, rfl, call, m, rfl, hrespond, hx, hout, hin⟩ := hone.proceed hstep
  -- the call ends with the result `r`, and the mirror is `mirror`
  have hended : ∀ {mirror : Mirror} {r : CallResult} {adds : List NamedNode},
      k' = { s.client c with mirror := mirror }.finish (plan.caller c) call r →
      (s.client c).mirror.Leaves (plan.object c) adds [] mirror → IsRight (plan.caller c, call, r) →
      ((s'.client c).mirror = mirror → (s'.client c).inbound = (s.client c).inbound →
        resultsSince s₀ s' c = resultsSince s₀ s c ++ [(plan.caller c, call, r)] →
          plan.Phase s₀ s' c none) → plan.Member s₀ s' c := by
    intro mirror r adds hk' hleaves hright hph
    subst hk'
    have hresults : (s'.client c).results = (s.client c).results ++ [(plan.caller c, call, r)] := by
      rw [hcl]; rfl
    have hsince : resultsSince s₀ s' c = resultsSince s₀ s c ++ [(plan.caller c, call, r)] := by
      rw [resultsSince, hresults, List.drop_append_of_le_length h.results, resultsSince]
    have hmirror : (s'.client c).mirror = mirror := by rw [hcl]; rfl
    have hinbound : (s'.client c).inbound = (s.client c).inbound := by rw [hcl]; rfl
    refine ⟨hclient, hserver ▸ h.signedIn, ?_, hinbound ▸ h.news, ?_, ?_, none, ?_,
      hph hmirror hinbound hsince⟩
    · rw [hmirror]
      exact h.anchored.of_leaves hleaves (List.not_mem_nil)
    · rw [hresults, List.length_append]
      exact Nat.le_add_right_of_le h.results
    · intro x hx'
      rw [hsince] at hx'
      rcases List.mem_append.mp hx' with hx' | hx'
      · exact h.right x hx'
      · exact List.mem_singleton.mp hx' ▸ hright
    · rw [hcl]
      refine hone.finish rfl rfl rfl (.idle ?_ hx ?_ hin)
      · simp [Client.finish]
      · simp [Client.finish, hout]
  cases hphase with
  | creating x hx => cases hx
  | deleting x u a hx => cases hx
  | accepted x u hxr hu hplaced =>
    obtain rfl : m = .createAccept u := by simpa [Exchange.response] using hxr
    have hleaves := h.anchored.leaves_createNode (plan.name c) u
    have hsome : (((s.client c).mirror.createNode (plan.object c) (plan.name c) u).mTree[u]?).isSome := by
      rw [Mirror.isSome_mTree_createNode, lastOf_singleton, if_pos rfl]
      rfl
    obtain ⟨a, ha⟩ := Option.isSome_iff_exists.mp hsome
    have hk' := (Option.some.inj hrespond).symm
    simp only [property, ha] at hk'
    refine hended hk' hleaves (.inl ⟨_, _, a, rfl⟩) fun hm hin hs => ?_
    refine .created u a (hserver ▸ hu) (hm ▸ ha) (hm ▸ ?_) (by rw [next, hs, List.getLast?_concat])
    refine hleaves.placed_of_known List.not_mem_nil (fun i hi _ => ?_) hplaced a ha
    rw [List.mem_singleton.mp hi]
  | deleted x u a hxr hfree hsil hmem hplaced =>
    obtain rfl : m = .deleteResponse .ok := by simpa [Exchange.response] using hxr
    obtain ⟨hleaves, hlacks⟩ := hplaced.destroyNode h.anchored
    refine hended (Option.some.inj hrespond).symm hleaves (.inr ⟨a, rfl⟩) fun hm hin hs => ?_
    exact .vacant (hserver ▸ hfree) (hin ▸ hsil) (hm ▸ hlacks) (by rw [next, hs, List.getLast?_concat])

end Client

end Plan

end PropertyTree.System
