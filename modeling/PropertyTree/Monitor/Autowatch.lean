import PropertyTree.Client.TreeAdds
import PropertyTree.Monitor.Requests
import PropertyTree.System.Requests

/-!
# The nodes to subscribe to

While autowatch is on the tree-add handler puts the nodes it is called with into `mToSubscribe`.  Every
part of a command keeps account of that, so that what a command has queued are the nodes it has made
the mirror call the handler with.  A command that asks for data only has nothing queued, unless a change
of the tree is already on its way to the client.
-/

namespace PropertyTree.Monitor

open Library Server Client

/-! ## The calls of the tree-add handler -/

section Calls

variable {m m' m'' : Mirror} {new new' : List HandlerCall}

@[simp] theorem treeAdds_append (calls calls' : List HandlerCall) :
    treeAdds (calls ++ calls') = treeAdds calls ++ treeAdds calls' :=
  List.filterMap_append

@[simp] theorem treeAdds_map (as : List Addr) : treeAdds (as.map .treeAdd) = as := by
  induction as with
  | nil => rfl
  | cons a as ih => exact congrArg (a :: ·) ih

/-- No node has been added when the handler has not been called. -/
theorem treeAdds_eq_nil (h : ∀ {a}, .treeAdd a ∉ new) : treeAdds new = [] := by
  rw [treeAdds, List.filterMap_eq_nil_iff]
  intro call hcall
  cases call with
  | treeAdd a => exact absurd hcall h
  | treeRemove a => rfl
  | update a => rfl

/-- Between the mirrors `m` and `m'` there have been the calls `new`, and none of the tree-add handler
when it is not set. -/
structure Called (m : Mirror) (new : List HandlerCall) (m' : Mirror) : Prop where
  mTreeAddHandler : m'.mTreeAddHandler = m.mTreeAddHandler
  calls : m'.calls = m.calls ++ new
  unset : m.mTreeAddHandler = false → treeAdds new = []

namespace Called

/-- Nothing has been called. -/
theorem of_eq (hset : m'.mTreeAddHandler = m.mTreeAddHandler) (hcalls : m'.calls = m.calls) :
    Called m [] m' :=
  ⟨hset, by rw [hcalls, List.append_nil], fun _ => rfl⟩

/-- One change after the other. -/
theorem trans (h : Called m new m') (h' : Called m' new' m'') : Called m (new ++ new') m'' where
  mTreeAddHandler := h'.mTreeAddHandler.trans h.mTreeAddHandler
  calls := by rw [h'.calls, h.calls, List.append_assoc]
  unset hset := by
    rw [treeAdds_append, h.unset hset, h'.unset (h.mTreeAddHandler.trans hset), List.append_nil]

end Called

/-- The call of the tree-add handler. -/
theorem called_callTreeAdd (m : Mirror) (a : Addr) : ∃ new, Called m new (m.callTreeAdd a) := by
  unfold Mirror.callTreeAdd
  split
  · rename_i hset
    exact ⟨[.treeAdd a], rfl, rfl, fun hno => absurd hset (by simp [hno])⟩
  · exact ⟨[], .of_eq rfl rfl⟩

/-- An entry is added. -/
theorem called_addNode (m : Mirror) (i : NamedNode) : ∃ new, Called m new (m.addNode i) := by
  have hparent : Called m [] (m.parentOrGhost i.parentUuid).1 := by
    unfold Mirror.parentOrGhost
    split <;> exact .of_eq rfl rfl
  have hcall : ∀ {m' : Mirror} (a : Addr), m'.mTreeAddHandler = m.mTreeAddHandler →
      m'.calls = m.calls → ∃ new, Called m new (m'.callTreeAdd a) := by
    intro m' a hset hcalls
    obtain ⟨new, hnew⟩ := called_callTreeAdd m' a
    exact ⟨_, (Called.of_eq hset hcalls).trans hnew⟩
  have hset := hparent.mTreeAddHandler
  have hcalls : (m.parentOrGhost i.parentUuid).1.calls = m.calls :=
    hparent.calls.trans (List.append_nil _)
  unfold Mirror.addNode
  dsimp only
  split
  · unfold Mirror.fillNode
    dsimp only
    split
    · exact hcall _ hset hcalls
    · exact ⟨[], .of_eq hset hcalls⟩
  · exact hcall _ hset hcalls

/-- Entries are added. -/
theorem called_addNodes (m : Mirror) (add : List NamedNode) : ∃ new, Called m new (m.addNodes add) := by
  induction add generalizing m with
  | nil => exact ⟨[], .of_eq rfl rfl⟩
  | cons i add ih =>
    obtain ⟨new, hnew⟩ := called_addNode m i
    obtain ⟨new', hnew'⟩ := ih (m.addNode i)
    exact ⟨_, hnew.trans hnew'⟩

/-- Nodes are removed. -/
theorem called_removeNodes (m : Mirror) (del : List UInt64) :
    ∃ new, Called m new (m.removeNodes del) := by
  induction del generalizing m with
  | nil => exact ⟨[], .of_eq rfl rfl⟩
  | cons u del ih =>
    obtain ⟨hset, new, hcalls, hno⟩ := Once.removeNode_calls m u
    obtain ⟨new', hnew'⟩ := ih (m.removeNode u)
    exact ⟨_, Called.trans ⟨hset, hcalls, fun _ => treeAdds_eq_nil hno⟩ hnew'⟩

/-- Whether a message changes the tree. -/
def isTreeUpdate : PropertyTreeMessages → Bool
  | .treeUpdateNotification _ _ => true
  | _ => false

/-- The reader handles a message, which calls the tree-add handler only for a change of the tree. -/
theorem called_dispatch (m : Mirror) (p : PropertyTreeMessage) : ∃ new, Called m new (dispatch m p) ∧
    (isTreeUpdate p.message = false → treeAdds new = []) := by
  obtain ⟨t, q⟩ := p
  unfold dispatch
  cases q with
  | treeUpdateNotification add del =>
    obtain ⟨new, hnew⟩ := called_addNodes m add
    obtain ⟨new', hnew'⟩ := called_removeNodes (m.addNodes add) del
    exact ⟨_, hnew.trans hnew', nofun⟩
  | updateNotification uuid data =>
    dsimp only
    split
    · exact ⟨[], .of_eq rfl rfl, fun _ => rfl⟩
    · rename_i a _
      unfold Mirror.callUpdate
      split
      · exact ⟨[.update a], ⟨rfl, rfl, fun _ => rfl⟩, fun _ => rfl⟩
      · exact ⟨[], .of_eq rfl rfl, fun _ => rfl⟩
  | _ => exact ⟨[], .of_eq rfl rfl, fun _ => rfl⟩

/-- The reader handles the messages before a response. -/
theorem called_satisfy {t : UInt16} {dataMutex : Option Addr} {response : PropertyTreeMessages}
    {inbound inbound' : List PropertyTreeMessage}
    (h : Session.satisfy t dataMutex m inbound = some (m', inbound', response)) :
    ∃ new, Called m new m' ∧ (∀ p ∈ inbound', p ∈ inbound) ∧
      ((∀ p ∈ inbound, isTreeUpdate p.message = false) → treeAdds new = []) := by
  induction inbound generalizing m with
  | nil => cases h
  | cons p inbound ih =>
    rw [Session.satisfy] at h
    split_ifs at h
    · cases h
      exact ⟨[], .of_eq rfl rfl, fun q hq => List.mem_cons_of_mem p hq, fun _ => rfl⟩
    · obtain ⟨new, hnew, hquiet⟩ := called_dispatch m p
      obtain ⟨new', hnew', hmem, hquiet'⟩ := ih h
      refine ⟨_, hnew.trans hnew', fun q hq => List.mem_cons_of_mem p (hmem q hq), fun hall => ?_⟩
      rw [treeAdds_append, hquiet (hall p List.mem_cons_self),
        hquiet' fun q hq => hall q (List.mem_cons_of_mem p hq), List.append_nil]

end Calls

/-! ## What is queued -/

variable {A : PropertyTreeMessages → Prop} {σ τ υ : Session} {new new' : List HandlerCall}

/-- Whether nodes that come into the mirror are queued. -/
def Session.Autowatches (σ : Session) : Prop :=
  σ.mirror.mTreeAddHandler = true ∧ σ.mAutowatch = true

/-- Between `σ` and `τ` there have been the calls `new`, for which the tree-add handler has done its
work. -/
structure Queued (σ : Session) (new : List HandlerCall) (τ : Session) : Prop where
  mAutowatch : τ.mAutowatch = σ.mAutowatch
  called : Called σ.mirror new τ.mirror
  mToSubscribe : τ.mToSubscribe = σ.mToSubscribe ++ if σ.mAutowatch then treeAdds new else []

namespace Queued

/-- Nothing is queued when nothing has been called. -/
theorem of_eq (h : τ.shared = σ.shared) : Queued σ [] τ where
  mAutowatch := congrArg Shared.mAutowatch h
  called := .of_eq (congrArg Shared.mTreeAddHandler h) (congrArg Shared.calls h)
  mToSubscribe := by
    have hsame : τ.mToSubscribe = σ.mToSubscribe := congrArg Shared.mToSubscribe h
    simp [hsame, treeAdds]

/-- One part after the other. -/
theorem trans (h : Queued σ new τ) (h' : Queued τ new' υ) : Queued σ (new ++ new') υ where
  mAutowatch := h'.mAutowatch.trans h.mAutowatch
  called := h.called.trans h'.called
  mToSubscribe := by
    rw [h'.mToSubscribe, h.mToSubscribe, h.mAutowatch, treeAdds_append]
    split <;> simp

/-- The mirror changes. -/
theorem updateMirror {m : Mirror} (h : Called σ.mirror new m) : Queued σ new (σ.updateMirror m) where
  mAutowatch := rfl
  called := h
  mToSubscribe := by rw [Session.updateMirror, h.calls, List.drop_left]

/-- The queue stays as it is exactly if autowatch is off or no node has been added. -/
theorem mToSubscribe_eq_iff (h : Queued σ new τ) :
    τ.mToSubscribe = σ.mToSubscribe ↔ (σ.Autowatches → treeAdds new = []) := by
  rw [h.mToSubscribe, List.append_right_eq_self]
  cases hauto : σ.mAutowatch with
  | false => exact iff_of_true rfl fun hwatch => absurd hwatch.2 (by simp [hauto])
  | true =>
    rw [if_pos rfl]
    refine ⟨fun hnil _ => hnil, fun hnil => ?_⟩
    cases hset : σ.mirror.mTreeAddHandler with
    | false => exact h.called.unset hset
    | true => exact hnil ⟨hset, hauto⟩

end Queued

/-- The reader is one who changes the mirror. -/
theorem queued_read (σ : Session) : ∃ new, Queued σ new σ.read ∧
    ((∀ p ∈ σ.inbound, isTreeUpdate p.message = false) → treeAdds new = []) := by
  unfold Session.read
  split
  · exact ⟨[], .of_eq rfl, fun _ => rfl⟩
  · rename_i p inbound hin
    split_ifs
    · exact ⟨[], .of_eq rfl, fun _ => rfl⟩
    · obtain ⟨new, hnew, hquiet⟩ := called_dispatch σ.mirror p
      have h := Queued.updateMirror hnew
      exact ⟨new, ⟨h.mAutowatch, h.called, h.mToSubscribe⟩,
        fun hall => hquiet (hall p (hin ▸ List.mem_cons_self))⟩

/-- What a part queues. -/
theorem Part.queued (h : Part A σ τ) : ∃ new, Queued σ new τ := by
  cases h with
  | own h => exact ⟨[], .of_eq h⟩
  | read =>
    obtain ⟨new, hnew, -⟩ := queued_read σ
    exact ⟨new, hnew⟩
  | request hq => exact ⟨[], rfl, .of_eq rfl rfl, by simp [treeAdds]⟩
  | serve hq hstep => exact ⟨[], rfl, .of_eq rfl rfl, by simp [treeAdds]⟩
  | wait hsat =>
    obtain ⟨new, hnew, -⟩ := called_satisfy hsat
    have h := Queued.updateMirror hnew
    exact ⟨new, h.mAutowatch, h.called, h.mToSubscribe⟩
  | addNode i hA =>
    obtain ⟨new, hnew⟩ := called_addNode σ.mirror i
    exact ⟨new, .updateMirror hnew⟩

/-- What a command queues. -/
theorem Sends.queued (h : Sends A σ τ) : ∃ new, Queued σ new τ := by
  induction h with
  | refl => exact ⟨[], .of_eq rfl⟩
  | tail _ hpart ih =>
    obtain ⟨new, hnew⟩ := ih
    obtain ⟨new', hnew'⟩ := hpart.queued
    exact ⟨_, hnew.trans hnew'⟩

/-- Without autowatch nothing is queued. -/
theorem Sends.mToSubscribe_eq (h : Sends A σ τ) (hoff : ¬ σ.Autowatches) :
    τ.mToSubscribe = σ.mToSubscribe := by
  obtain ⟨new, hnew⟩ := h.queued
  exact hnew.mToSubscribe_eq_iff.mpr fun hon => absurd hon hoff

/-! ## Asking for data -/

/-- No change of the tree is on its way to the client. -/
def Session.Quiet (σ : Session) : Prop :=
  ∀ p ∈ σ.inbound, isTreeUpdate p.message = false

/-- The server answers a `GetRequest` by data or a reject. -/
theorem isTreeUpdate_of_get {s s' : ProtocolHandler} {c d : Conn} {t : UInt16} {u : UInt64}
    {o : List Server.Output} (h : s.step (.message c ⟨t, .getRequest u⟩) = .ok (s', o))
    {p : PropertyTreeMessage} (hp : .send d p ∈ o) : isTreeUpdate p.message = false := by
  simp only [ProtocolHandler.step, ProtocolHandler.handle, ProtocolHandler.handleGetRequest] at h
  split at h
  · cases h
    obtain ⟨-, rfl⟩ : d = c ∧ p = _ := by simpa [Server.send] using hp
    rfl
  · split at h
    · cases h
    · cases h
      obtain ⟨-, rfl⟩ : d = c ∧ p = _ := by simpa [Server.send] using hp
      rfl

/-- A part of a call that asks for data queues nothing. -/
theorem Part.quiet (hA : ∀ q, A q → ∃ u, q = .getRequest u) (h : Part A σ τ) (hσ : σ.Quiet) :
    τ.Quiet ∧ τ.mToSubscribe = σ.mToSubscribe := by
  cases h with
  | own h =>
    have hinbound : τ.inbound = σ.inbound := congrArg Shared.inbound h
    exact ⟨fun p hp => hσ p (hinbound ▸ hp), congrArg Shared.mToSubscribe h⟩
  | read =>
    obtain ⟨new, hnew, hquiet⟩ := queued_read σ
    refine ⟨fun p hp => hσ p ?_, hnew.mToSubscribe_eq_iff.mpr fun _ => hquiet hσ⟩
    revert hp
    unfold Session.read
    split
    · exact id
    · rename_i hin
      split_ifs
      · exact id
      · exact fun hp => hin ▸ List.mem_cons_of_mem _ hp
  | request hq => exact ⟨hσ, rfl⟩
  | serve hq hstep =>
    refine ⟨fun p hp => ?_, rfl⟩
    obtain ⟨u, rfl⟩ := hA _ hq
    rcases List.mem_append.mp hp with hp | hp
    · exact hσ p hp
    · exact isTreeUpdate_of_get hstep (System.mem_sentTo hp)
  | wait hsat =>
    obtain ⟨new, hnew, hmem, hquiet⟩ := called_satisfy hsat
    exact ⟨fun p hp => hσ p (hmem p hp),
      (Queued.updateMirror hnew).mToSubscribe_eq_iff.mpr fun _ => hquiet hσ⟩
  | addNode i hA' =>
    obtain ⟨u, hu⟩ := hA _ hA'
    cases hu

/-- A command that asks for data queues nothing. -/
theorem Sends.quiet (hA : ∀ q, A q → ∃ u, q = .getRequest u) (h : Sends A σ τ) (hσ : σ.Quiet) :
    τ.Quiet ∧ τ.mToSubscribe = σ.mToSubscribe := by
  induction h with
  | refl => exact ⟨hσ, rfl⟩
  | tail _ hpart ih =>
    obtain ⟨hquiet, hsame⟩ := hpart.quiet hA ih.1
    exact ⟨hquiet, hsame.trans ih.2⟩

end PropertyTree.Monitor
