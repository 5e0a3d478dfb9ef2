import PropertyTree.Monitor.Calls
import PropertyTree.Monitor.Commands

/-!
# The requests of a command

Whatever becomes of a command, it is made of a few kinds of parts, of which one sends a request.
`Sends A σ τ` says that such parts lead from `σ` to `τ`, with requests in `A` only.  It holds of every
API call, for the requests this call can send, from every session and at every end, and so of the
commands made of them.  What every part keeps is kept by the whole command then, as that the server has
come from the one state to the other by a run on such requests.
-/

namespace PropertyTree.Monitor

open Library Server Client

/-! ## The parts of a call -/

/-- What of a session the caller does not change on its own. -/
structure Shared where
  connection : Conn
  server : ProtocolHandler
  requests : List PropertyTreeMessages
  inbound : List PropertyTreeMessage
  mAutowatch : Bool
  mToSubscribe : List Addr
  mTreeAddHandler : Bool
  calls : List HandlerCall

@[inherit_doc Shared] def Session.shared (σ : Session) : Shared where
  connection := σ.connection
  server := σ.server
  requests := σ.requests
  inbound := σ.inbound
  mAutowatch := σ.mAutowatch
  mToSubscribe := σ.mToSubscribe
  mTreeAddHandler := σ.mirror.mTreeAddHandler
  calls := σ.mirror.calls

/-- What happens at once in a call that sends requests in `A`. -/
inductive Part (A : PropertyTreeMessages → Prop) : Session → Session → Prop
  /-- The caller changes what is its own. -/
  | own {σ τ : Session} (h : τ.shared = σ.shared) : Part A σ τ
  /-- The reader handles a message. -/
  | read (σ : Session) : Part A σ σ.read
  | request (σ : Session) {q : PropertyTreeMessages} (hq : A q) :
      Part A σ { σ with requests := σ.requests ++ [q] }
  | serve (σ : Session) {t : UInt16} {q : PropertyTreeMessages} {server : ProtocolHandler}
      {o : List Server.Output} (hq : A q)
      (hstep : σ.server.step (.message σ.connection ⟨t, q⟩) = .ok (server, o)) :
      Part A σ { σ with
        server := server
        terminated := o.contains .terminate
        inbound := σ.inbound ++ System.sentTo σ.connection o }
  | wait (σ : Session) {t : UInt16} {m : Mirror} {inbound : List PropertyTreeMessage}
      {response : PropertyTreeMessages}
      (h : Session.satisfy t σ.dataMutex σ.mirror σ.inbound = some (m, inbound, response)) :
      Part A σ { σ.updateMirror m with inbound := inbound }
  /-- The caller adds an entry of a listing it has asked for. -/
  | addNode (σ : Session) (i : NamedNode) {u : UInt64} {name : Name} {recursive : UInt8}
      (hA : A (.treeInfoRequest u name recursive)) :
      Part A σ (σ.updateMirror (σ.mirror.addNode i))

/-- From `σ` to `τ` only requests in `A` have been sent. -/
def Sends (A : PropertyTreeMessages → Prop) : Session → Session → Prop :=
  Relation.ReflTransGen (Part A)

variable {A A' : PropertyTreeMessages → Prop} {σ τ υ : Session}

/-- Fewer requests. -/
theorem Part.mono (h : Part A σ τ) (hA : ∀ q, A q → A' q) : Part A' σ τ := by
  cases h with
  | own h => exact .own h
  | read => exact .read σ
  | request hq => exact .request σ (hA _ hq)
  | serve hq hstep => exact .serve σ (hA _ hq) hstep
  | wait h => exact .wait σ h
  | addNode i hi => exact .addNode σ i (hA _ hi)

namespace Sends

/-- Nothing has been sent yet. -/
theorem refl (σ : Session) : Sends A σ σ :=
  Relation.ReflTransGen.refl

/-- Two parts of a command. -/
theorem trans (h : Sends A σ τ) (h' : Sends A τ υ) : Sends A σ υ :=
  Relation.ReflTransGen.trans h h'

/-- Fewer requests. -/
theorem mono (h : Sends A σ τ) (hA : ∀ q, A q → A' q) : Sends A' σ τ :=
  Relation.ReflTransGen.mono (fun _ _ hpart => Part.mono hpart hA) _ _ h

end Sends

/-! ## The requests and the server -/

/-- The reader touches only its own part. -/
theorem outside_read (σ : Session) : σ.read.outside = σ.outside := by
  unfold Session.read
  split
  · rfl
  · split_ifs <;> rfl

/-- The requests that have been sent are in `A`, and the server has only handled such requests. -/
structure Sent (A : PropertyTreeMessages → Prop) (σ τ : Session) : Prop where
  connection : τ.connection = σ.connection
  requests : ∃ qs, (∀ q ∈ qs, A q) ∧ τ.requests = σ.requests ++ qs
  served : ∃ ls, ServerRun σ.server ls τ.server ∧
    ∀ l ∈ ls, ∃ t q, l.1 = .message σ.connection ⟨t, q⟩ ∧ A q

namespace Sent

/-- Nothing has been sent when neither the requests nor the server have changed. -/
theorem of_eq (hconnection : τ.connection = σ.connection) (hrequests : τ.requests = σ.requests)
    (hserver : τ.server = σ.server) : Sent A σ τ where
  connection := hconnection
  requests := ⟨[], by simp, hrequests.trans (List.append_nil _).symm⟩
  served := ⟨[], hserver ▸ .nil _, by simp⟩

/-- One part after the other. -/
theorem trans (h : Sent A σ τ) (h' : Sent A τ υ) : Sent A σ υ := by
  obtain ⟨qs, hqs, hreq⟩ := h.requests
  obtain ⟨qs', hqs', hreq'⟩ := h'.requests
  obtain ⟨ls, hrun, hls⟩ := h.served
  obtain ⟨ls', hrun', hls'⟩ := h'.served
  refine ⟨h'.connection.trans h.connection, ⟨qs ++ qs', fun q hq => ?_, ?_⟩,
    ⟨ls ++ ls', hrun.append hrun', fun l hl => ?_⟩⟩
  · exact (List.mem_append.mp hq).elim (hqs q) (hqs' q)
  · rw [hreq', hreq, List.append_assoc]
  · rcases List.mem_append.mp hl with hl | hl
    · exact hls l hl
    · exact h.connection ▸ hls' l hl

end Sent

/-- A part sends a request in `A` at most. -/
theorem Part.sent (h : Part A σ τ) : Sent A σ τ := by
  cases h with
  | own h =>
    exact .of_eq (congrArg Shared.connection h) (congrArg Shared.requests h)
      (congrArg Shared.server h)
  | read =>
    have h := outside_read σ
    exact .of_eq (congrArg Outside.connection h) (congrArg Outside.requests h)
      (congrArg Outside.server h)
  | @request q hq => exact ⟨rfl, ⟨[q], by simpa using hq, rfl⟩, [], .nil _, by simp⟩
  | @serve t q server o hq hstep =>
    refine ⟨rfl, ⟨[], by simp, (List.append_nil _).symm⟩, ?_⟩
    refine ⟨[(.message σ.connection ⟨t, q⟩, o)], .single hstep, fun l hl => ?_⟩
    obtain rfl := List.mem_singleton.mp hl
    exact ⟨t, q, rfl, hq⟩
  | wait h => exact .of_eq rfl rfl rfl
  | addNode i hA => exact .of_eq rfl rfl rfl

/-- So does a command. -/
theorem Sends.sent (h : Sends A σ τ) : Sent A σ τ := by
  induction h with
  | refl => exact .of_eq rfl rfl rfl
  | tail _ hpart ih => exact ih.trans hpart.sent

section Within

variable {α β : Type} {x : Command α} {f : α → Command β}

/-- A composition sends what its parts send. -/
theorem sends_bind (h : Within (Sends A) x) (h' : ∀ a, Within (Sends A) (f a)) :
    Within (Sends A) (x >>= f) :=
  h.bind Sends.trans h'

/-- A returned value sends nothing. -/
theorem sends_pure (a : α) : Within (Sends A) (pure a : Command α) :=
  within_pure .refl

/-- An exception sends nothing. -/
theorem sends_throw (e : Failure) : Within (Sends A) (throw e : Command α) :=
  within_throw .refl

/-- Reading the session sends nothing. -/
theorem sends_session : Within (Sends A) session :=
  within_get .refl

/-- A change of the session that is one of the parts. -/
theorem sends_part {g : Session → Session} (hg : ∀ σ, Part A σ (g σ)) :
    Within (Sends A) (modify g : Command PUnit) :=
  within_modify fun σ => .single (hg σ)

/-- A change of what is the caller's own sends nothing. -/
theorem sends_modify {g : Session → Session} (hg : ∀ σ, (g σ).shared = σ.shared) :
    Within (Sends A) (modify g : Command PUnit) :=
  sends_part fun σ => .own (hg σ)

/-! ## Transactions -/

/-- The reader sends nothing, however many messages it handles. -/
theorem sends_reads (σ : Session) (n : ℕ) : Sends A σ (σ.reads n) := by
  induction n generalizing σ with
  | zero => exact .refl σ
  | succ n ih => exact .trans (.single (.read σ)) (ih σ.read)

/-- Nor does the caller while it lets the reader have its turn. -/
theorem sends_pause : Within (Sends A) pause :=
  within_modify fun σ => (sends_reads σ (σ.reader 0)).trans (.single (.own rfl))

/-- Drawing an id sends nothing. -/
theorem sends_fetchId : Within (Sends A) fetchId := by
  refine sends_bind sends_session fun σ => ?_
  dsimp only
  split_ifs
  · exact sends_bind (sends_modify fun _ => rfl) fun _ => sends_pure _
  · exact sends_bind (sends_modify fun _ => rfl) fun _ => sends_pure _

/-- The server makes one step. -/
theorem sends_serve (trId : UInt16) {q : PropertyTreeMessages} (hq : A q) :
    Within (Sends A) (serve trId q) := by
  refine within_get_bind fun σ => ?_
  split_ifs
  · exact sends_pure _ σ
  · cases hstep : σ.server.step (.message σ.connection ⟨trId, q⟩) with
    | error f => exact sends_throw _ σ
    | ok r =>
      obtain ⟨server, o⟩ := r
      exact Relation.ReflTransGen.single (.serve σ hq hstep)

/-- Waiting sends nothing. -/
theorem sends_waitTransaction (trId : UInt16) : Within (Sends A) (waitTransaction trId) := by
  refine within_get_bind fun σ => ?_
  cases hsat : Session.satisfy trId σ.dataMutex σ.mirror σ.inbound with
  | none => exact sends_throw _ σ
  | some r =>
    obtain ⟨m, inbound, response⟩ := r
    exact Relation.ReflTransGen.single (.wait σ hsat)

/-- A transaction sends its request. -/
theorem sends_transact {q : PropertyTreeMessages} (hq : A q) : Within (Sends A) (transact q) := by
  refine sends_bind sends_pause fun _ => sends_bind sends_fetchId fun trId => ?_
  refine sends_bind (sends_part fun σ => .request σ hq) fun _ => ?_
  refine sends_bind (sends_serve trId hq) fun _ => sends_bind (sends_waitTransaction trId) fun _ => ?_
  exact sends_bind sends_pause fun _ => sends_pure _

/-! ## `Client` and `Property` -/

/-- Dereferencing sends nothing. -/
theorem sends_deref (prop : Option Addr) : Within (Sends A) (deref prop) := by
  cases prop with
  | none => exact sends_throw _
  | some a => exact sends_pure a

/-- Looking at an object sends nothing. -/
theorem sends_object (a : Addr) : Within (Sends A) (object a) := by
  refine sends_bind sends_pause fun _ => sends_bind sends_session fun σ => ?_
  split
  · exact sends_throw _
  · exact sends_pure _

/-- Looking at the root sends nothing. -/
theorem sends_root : Within (Sends A) root := by
  refine sends_bind sends_pause fun _ => sends_bind sends_session fun σ => ?_
  split
  · exact sends_throw _
  · exact sends_pure _

/-- Adding the nodes of a listing sends nothing. -/
theorem sends_addNodes (hA : ∀ u name recursive, A (.treeInfoRequest u name recursive))
    (nodeToAddList : List NamedNode) : Within (Sends A) (addNodes nodeToAddList) := by
  induction nodeToAddList with
  | nil => exact sends_pure _
  | cons i nodeToAddList ih =>
    exact sends_bind sends_pause fun _ =>
      sends_bind (sends_part fun σ => .addNode σ i (hA 0 [] 0)) fun _ => ih

/-- `get` sends a `TreeInfoRequest` at most. -/
theorem sends_get (hA : ∀ u name recursive, A (.treeInfoRequest u name recursive)) (parent : Addr)
    (name : Name) (recursive : Bool) : Within (Sends A) (get parent name recursive) := by
  refine sends_bind (sends_object parent) fun node => ?_
  split
  · exact sends_pure _
  · refine sends_bind (sends_transact (hA _ _ _)) fun response => ?_
    split
    · refine sends_bind (sends_addNodes hA _) fun _ => ?_
      split_ifs
      · exact sends_pure _
      · split
        · exact sends_throw _
        · refine sends_bind sends_pause fun _ => sends_bind sends_session fun σ => ?_
          split
          · exact sends_throw _
          · exact sends_pure _
    · exact sends_pure _
    · exact sends_throw _

/-- A call that sends a request for a node sends no other, when what it makes of the response sends
nothing. -/
theorem sends_ask {q : UInt64 → PropertyTreeMessages} (hA : ∀ u, A (q u)) (prop : Addr)
    {g : PropertyTreeMessages → Command α} (hg : ∀ response, Within (Sends A) (g response)) :
    Within (Sends A) (do
      let node ← object prop
      let response ← transact (q node.uuid)
      g response) :=
  sends_bind (sends_object prop) fun _ => sends_bind (sends_transact (hA _)) hg

/-- `fetch` sends a `GetRequest`. -/
theorem sends_fetch (hA : ∀ u, A (.getRequest u)) (prop : Addr) :
    Within (Sends A) (fetch prop) := by
  refine sends_ask hA prop fun response => ?_
  split
  · exact sends_modify fun _ => rfl
  · exact sends_pure _
  · exact sends_throw _

/-- `subscribe` sends a `SubscribeRequest`. -/
theorem sends_subscribe (hA : ∀ u, A (.subscribeRequest u)) (prop : Addr) :
    Within (Sends A) (subscribe prop) := by
  refine sends_ask hA prop fun response => ?_
  split
  · exact sends_pure _
  · exact sends_throw _

/-- `unsubscribe` sends an `UnsubscribeRequest`. -/
theorem sends_unsubscribe (hA : ∀ u, A (.unsubscribeRequest u)) (prop : Addr) :
    Within (Sends A) (unsubscribe prop) := by
  refine sends_ask hA prop fun response => ?_
  split
  · exact sends_pure _
  · exact sends_throw _

/-- Setting a handler sends nothing. -/
theorem sends_setUpdateHandler (prop : Addr) : Within (Sends A) (setUpdateHandler prop) :=
  sends_modify fun _ => rfl

/-- Taking a destroyed node out of its parent's children map is the caller's own. -/
theorem shared_destroyNode (σ : Session) (prop : Addr) :
    { σ with mirror := σ.mirror.destroyNode prop }.shared = σ.shared := by
  unfold Mirror.destroyNode
  split
  · rfl
  · split <;> rfl

/-- `destroy` sends a `DeleteRequest`. -/
theorem sends_destroy (hA : ∀ u, A (.deleteRequest u)) (prop : Addr) :
    Within (Sends A) (destroy prop) := by
  have hrecord : ∀ uuid result, Within (Sends A) (recordDestroy uuid result) := fun uuid result =>
    sends_bind (sends_modify fun _ => rfl) fun _ => sends_pure _
  refine sends_bind (sends_object prop) fun node => ?_
  refine sends_bind (sends_transact (hA _)) fun response => ?_
  split
  · split_ifs
    · exact hrecord _ _
    · exact sends_bind (sends_modify fun σ => shared_destroyNode σ prop) fun _ => hrecord _ _
  · exact sends_throw _

/-- `children` sends nothing. -/
theorem sends_children (prop : Addr) : Within (Sends A) (children prop) :=
  sends_bind (sends_object prop) fun _ => sends_pure _

/-- `childrenSize` sends nothing. -/
theorem sends_childrenSize (prop : Addr) : Within (Sends A) (childrenSize prop) :=
  sends_bind (sends_object prop) fun _ => sends_pure _

/-- `raw` sends nothing. -/
theorem sends_raw (prop : Addr) : Within (Sends A) (raw prop) :=
  sends_bind (sends_object prop) fun _ => sends_pure _

/-! ## `onCmdList` -/

/-- `getByPath` sends `TreeInfoRequest`s. -/
theorem sends_getByPath (hA : ∀ u name recursive, A (.treeInfoRequest u name recursive))
    (path : Name) : Within (Sends A) (getByPath path) := by
  have hwalk : ∀ names current, Within (Sends A) (walk current names) := by
    intro names
    induction names with
    | nil => exact fun current => sends_pure _
    | cons name names ih =>
      intro current
      refine sends_bind (sends_get hA current name false) fun found => ?_
      cases found with
      | none => exact sends_pure _
      | some next => exact ih next
  rw [getByPath]
  split_ifs
  · exact sends_bind sends_root fun _ => sends_pure _
  · exact sends_bind sends_root fun _ => hwalk _ _

/-- Finding the start node sends `TreeInfoRequest`s. -/
theorem sends_startNode (hA : ∀ u name recursive, A (.treeInfoRequest u name recursive))
    (args : ArgsMap) : Within (Sends A) (startNode args) := by
  refine sends_bind sends_root fun root => ?_
  split
  · exact sends_pure _
  · exact sends_bind (sends_getByPath hA _) fun _ => sends_deref _

/-- The requests the loop may send when `action` holds a value: those that read data, and those for the
action. -/
structure Permits (A : PropertyTreeMessages → Prop) (action : UInt32) : Prop where
  get : ∀ u, A (.getRequest u)
  subscribe : action = SUB → ∀ u, A (.subscribeRequest u)
  unsubscribe : action = UNSUB → ∀ u, A (.unsubscribeRequest u)
  delete : action = DEL → ∀ u, A (.deleteRequest u)

variable {action : UInt32}

/-- The visit of a node. -/
theorem sends_visit (hA : Permits A action) (levels : ℕ) (name : Name) (prop : Addr) :
    Within (Sends A) (visit action levels name prop) := by
  refine sends_bind (sends_fetch hA.get prop) fun _ => ?_
  have hrest : Within (Sends A) (do
      let data ← raw prop
      return (⟨levels * 2, name, (← object prop).uuid, data⟩ : Line)) :=
    sends_bind (sends_raw prop) fun _ => sends_bind (sends_object prop) fun _ => sends_pure _
  split_ifs with hsub hunsub
  · exact sends_bind (sends_bind (sends_subscribe (hA.subscribe hsub) prop) fun _ => sends_pure _)
      fun _ => sends_bind (sends_setUpdateHandler prop) fun _ => hrest
  · exact sends_bind (sends_bind (sends_unsubscribe (hA.unsubscribe hunsub) prop) fun _ =>
      sends_pure _) fun _ => hrest
  · exact hrest

/-- The turn of the loop after the visit of a child. -/
theorem sends_afterVisit (hA : Permits A action) (name : Name) (child : Addr)
    (levels : List TraversalContext) (ss : List Line) {fuel : ℕ}
    (hloop : ∀ levels ss, Within (Sends A) (listLoop action fuel levels ss)) :
    Within (Sends A) (do
      if (← childrenSize child) ≠ 0 then
        listLoop action fuel (⟨name, ← children child, 0⟩ :: levels) ss
      else
        if action = DEL then discard (destroy child)
        listLoop action fuel levels ss) := by
  refine sends_bind (sends_childrenSize _) fun size => ?_
  split_ifs with hsize hdel
  · exact sends_bind (sends_children _) fun _ => hloop _ _
  · exact sends_bind (sends_bind (sends_destroy (hA.delete hdel) _) fun _ => sends_pure _)
      fun _ => hloop _ _
  · exact hloop _ _

/-- The loop, turn by turn. -/
theorem sends_listLoop (hA : Permits A action) (fuel : ℕ) (levels : List TraversalContext)
    (ss : List Line) : Within (Sends A) (listLoop action fuel levels ss) := by
  induction fuel generalizing levels ss with
  | zero => exact sends_throw _
  | succ fuel ih =>
    rcases levels with _ | ⟨level, levels⟩
    · exact sends_throw _
    rw [listLoop.eq_def]
    dsimp only
    split
    · exact sends_bind (sends_visit hA _ _ _) fun line => sends_afterVisit hA _ _ _ _ ih
    · split
      · exact sends_pure _
      · split
        · exact sends_throw _
        · refine sends_bind (sends_childrenSize _) fun size => ?_
          split_ifs with hsize
          · exact sends_bind (sends_bind (sends_destroy (hA.delete hsize.2) _) fun _ =>
              sends_pure _) fun _ => ih _ _
          · exact ih _ _

/-- The whole command sends nothing but `TreeInfoRequest`s, `GetRequest`s and the requests for its
action. -/
theorem sends_onCmdList (htree : ∀ u name recursive, A (.treeInfoRequest u name recursive))
    {args : ArgsMap} {initial : UInt32} (hA : Permits A (assignAction args initial)) (fuel : ℕ) :
    Within (Sends A) (onCmdList fuel initial args) := by
  refine sends_bind (sends_startNode htree args) fun a => ?_
  refine sends_bind (sends_bind (sends_get htree _ _ _) fun _ => sends_pure _)
    fun _ => sends_bind (sends_children _) fun _ => ?_
  exact sends_bind (sends_listLoop hA _ _ _) fun _ => sends_pure _

end Within

/-! ## The worker -/

/-- The worker sends `SubscribeRequest`s. -/
theorem sends_subscribeTo (hA : ∀ u, A (.subscribeRequest u)) (tosub : List Addr) :
    Within (Sends A) (subscribeTo tosub) := by
  induction tosub with
  | nil => exact sends_pure _
  | cons prop tosub ih =>
    exact sends_bind (sends_bind (sends_subscribe hA prop) fun _ => sends_pure _)
      fun _ => sends_bind (sends_setUpdateHandler prop) fun _ => ih

end PropertyTree.Monitor
