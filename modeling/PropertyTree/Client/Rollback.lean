import PropertyTree.Client.Calls
import PropertyTree.Client.Overlay

/-!
# Calls that throw

An API call that ends by an exception has used a transaction id, and `Property::set` has written the
value before the exception.  `watch` follows a client during one call: beside the client it keeps the
mirror that the steps of the reader and of the other threads alone would have left, and what has been
done to `mTransactions` under which id.
-/

namespace PropertyTree.Client

open Library

variable {k k' : Client} {number : ℕ} {a : Action} {sent : List Packet} {i j : ThreadId}
  {call : ApiCall} {m : Mirror} {x : Addr} {v : Buffer}

/-! ## The run of a client -/

/-- What happens to a client: a step of it, or its connection takes over what it has sent and brings
it something. -/
inductive Happening where
  | step (number : ℕ) (a : Action)
  | transfer (arrived outbound : List Packet)

/-- A client after a happening. -/
def occur (k : Client) : Happening → Option Client
  | .step number a => (k.step number a).map fun (k, sent) =>
      { k with outbound := k.outbound ++ sent }
  | .transfer arrived outbound =>
    some { k with inbound := k.inbound ++ arrived, outbound := outbound }

/-- The happenings as a relation. -/
abbrev Occurs : Client → Happening → Client → Prop :=
  Follows occur

/-! ## A call and what goes on beside it -/

/-- What is done to `mTransactions` by `addTransaction` and by `waitTransaction`. -/
inductive Use where
  | emplace
  | erase
  deriving DecidableEq

/-- A use of a transaction id by a thread. -/
structure IdUse where
  thread : ThreadId
  trId : UInt16
  use : Use
  deriving DecidableEq

/-- The use of a transaction id in a happening. -/
def usesOf (k : Client) : Happening → List IdUse
  | .step _ (.send i) =>
    match k.threads[i]? with
    | some ⟨_, .numbered _ trId⟩ => [⟨i, trId, .emplace⟩]
    | _ => []
  | .step _ (.erase i) =>
    match k.threads[i]? with
    | some ⟨_, .taken trId _ _⟩ => [⟨i, trId, .erase⟩]
    | _ => []
  | _ => []

/-- What was done last under the id. -/
def lastUse (trId : UInt16) (uses : List IdUse) : Option Use :=
  lastOf trId (uses.map fun x => (x.trId, x.use))

/-- What the step does to a mirror: the mirror after the same step of the client with that mirror. -/
def effect (k : Client) (number : ℕ) (a : Action) (m : Mirror) : Mirror :=
  match { k with mirror := m }.step number a with
  | none => m
  | some (k, _) => k.mirror

/-- What a happening does to a mirror, unless it is a step of thread `i`. -/
def effectBut (k : Client) (i : ThreadId) (m : Mirror) : Happening → Mirror
  | .step number a => if a.caller = some i then m else k.effect number a m
  | .transfer _ _ => m

/-- A client during a call, with the mirror that the others alone have made of the one before the call,
and the uses of transaction ids since then. -/
structure Watched where
  client : Client
  mirror : Mirror
  uses : List IdUse

/-- A happening during the call of thread `i`, which goes on. -/
def watch (i : ThreadId) (w : Watched) (e : Happening) : Option Watched :=
  (w.client.occur e).bind fun k =>
    if i ∈ k.threads then
      some ⟨k, w.client.effectBut i w.mirror e, w.uses ++ w.client.usesOf e⟩
    else none

/-- Thread `i` ends its call by an exception. -/
structure Throws (k : Client) (i : ThreadId) (call : ApiCall) (k' : Client) : Prop where
  step : ∃ number a, a.caller = some i ∧ Occurs k (.step number a) k'
  result : ∃ what, k'.results = k.results ++ [(i, call, .threw what)]

/-- The client `k'` is left as if the call of thread `i` had not been: no entry for an id the call has
used, and the registered nodes, the children maps and the data that the others alone have made. -/
structure Restored (i : ThreadId) (w : Watched) (k' : Client) : Prop where
  mTransactions : ∀ trId, ⟨i, trId, .emplace⟩ ∈ w.uses → k'.mTransactions[trId]? = none
  mTree : k'.mirror.mTree = w.mirror.mTree
  nodes : ∀ x : Addr, (k'.mirror.heap[x]?).map (fun n => (n.children, n.data)) =
    (w.mirror.heap[x]?).map fun n => (n.children, n.data)

/-- Every id the call of thread `i` has used has been erased since it was last entered. -/
def Erased (i : ThreadId) (uses : List IdUse) : Prop :=
  ∀ trId, ⟨i, trId, .emplace⟩ ∈ uses → lastUse trId uses = some .erase

/-- The call is a `set` that gives the node other data than it has. -/
def Overwrites (m : Mirror) : ApiCall → Prop
  | .set x value => ∃ n, m.heap[x]? = some n ∧ n.data ≠ value
  | _ => False

/-! ## The locks -/

/-- A thread in `set` holds the lock of its node. -/
def LocksHeld (k : Client) : Prop :=
  ∀ (j : ThreadId) (th : Thread) (x : Addr) (v : Buffer), k.threads[j]? = some th →
    th.call = .set x v → k.dataMutex[x]? = some j

/-- A lock that thread `i` holds stays when another thread leaves its call. -/
theorem LocksHeld.unlock (h : LocksHeld k) {th : Thread} (hj : k.threads[j]? = some th)
    (hl : k.dataMutex[x]? = some i) (hji : j ≠ i) :
    (th.call.unlock k.dataMutex)[x]? = some i := by
  cases hcall : th.call with
  | set y w =>
    have hy := h j th y w hj hcall
    have hxy : y ≠ x := by
      rintro rfl
      rw [hl] at hy
      exact hji (Option.some.inj hy).symm
    simp only [ApiCall.unlock]
    grind
  | _ => exact hl

/-- What a step does to the locks, and to the threads that hold them. -/
inductive LockChange (k k' : Client) (a : Action) : Prop
  | other (hl : k'.dataMutex = k.dataMutex)
      (hth : ∀ {j : ThreadId} {th : Thread}, k'.threads[j]? = some th →
        ∃ th₀ : Thread, k.threads[j]? = some th₀ ∧ th₀.call = th.call ∨ ∀ x v, th.call ≠ .set x v)
  | lock (i x v stage) (ha : a.caller = some i) (hfree : k.dataMutex[x]? = none)
      (hl : k'.dataMutex = k.dataMutex.insert x i)
      (hth : k'.threads = k.threads.insert i ⟨.set x v, stage⟩)
  | unlock (i : ThreadId) (th : Thread) (ha : a.caller = some i) (hi : k.threads[i]? = some th)
      (hl : k'.dataMutex = th.call.unlock k.dataMutex) (hth : k'.threads = k.threads.erase i)

theorem StepResult.lockChange (h : StepResult k number a k' sent) : LockChange k k' a := by
  have hsame : k'.dataMutex = k.dataMutex → k'.threads = k.threads → LockChange k k' a :=
    fun hl hth => .other hl fun {j th} hj => ⟨th, .inl ⟨hth ▸ hj, rfl⟩⟩
  have hinsert : ∀ {i call stage stage'}, k.threads[i]? = some ⟨call, stage⟩ →
      k'.dataMutex = k.dataMutex → k'.threads = k.threads.insert i ⟨call, stage'⟩ →
      LockChange k k' a := by
    intro i call stage stage' hi hl hth
    refine .other hl fun {j th} hj => ?_
    rcases thread_of_insert (hth ▸ hj) with ⟨rfl, rfl⟩ | ⟨-, hj⟩
    · exact ⟨_, .inl ⟨hi, rfl⟩⟩
    · exact ⟨th, .inl ⟨hj, rfl⟩⟩
  cases h with
  | found i call x hs hi hc hf =>
    refine .other ?_ fun {j th} hj => ⟨th, .inl ⟨(thread_of_erase hj).2, rfl⟩⟩
    cases call <;> first | rfl | cases hf
  | start i call node hs hi hc hset hn =>
    refine .other rfl fun {j th} hj => ⟨th, ?_⟩
    rcases thread_of_insert hj with ⟨-, rfl⟩ | ⟨-, hj⟩
    · exact .inr hset
    · exact .inl ⟨hj, rfl⟩
  | startSet i x v node hs hi hl hn => exact .lock i x v _ rfl hl rfl rfl
  | skip i call q ht => exact hinsert ht rfl rfl
  | draw i call q stage ht => exact hinsert ht rfl rfl
  | send i call q trId ht => exact hinsert ht rfl rfl
  | take i call trId r response ht => exact hinsert ht rfl rfl
  | erase i call trId r response ht => exact hinsert ht rfl rfl
  | list i a name recursive r tag l ht => exact hinsert ht rfl rfl
  | add i call l j todo ht => exact hinsert ht rfl rfl
  | timeout i call trId r ht => exact .unlock _ _ rfl ht rfl rfl
  | signin i r tag sessionId ht => exact .unlock _ _ rfl ht rfl rfl
  | create i a name r tag uuid ht => exact .unlock _ _ rfl ht rfl rfl
  | fetch i a r tag data ht => exact .unlock _ _ rfl ht rfl rfl
  | destroy i a r tag ht => exact .unlock _ _ rfl ht rfl rfl
  | respond i call r response result hc ht => exact .unlock _ _ rfl ht rfl rfl
  | fail i call r response what ht => exact .unlock _ _ rfl ht rfl rfl
  | get i call l ht => exact .unlock _ _ rfl ht rfl rfl
  | _ => exact hsame rfl rfl

/-- The threads in `set` hold their locks after a step. -/
theorem LocksHeld.step (h : LocksHeld k) (hchange : LockChange k k' a) : LocksHeld k' := by
  intro j th x v hj hcall
  cases hchange with
  | other hl hth =>
    obtain ⟨th₀, ⟨hj₀, heq⟩ | hne⟩ := hth hj
    · exact hl ▸ h j th₀ x v hj₀ (heq.trans hcall)
    · exact absurd hcall (hne x v)
  | lock i y w stage ha hfree hl hth =>
    rcases thread_of_insert (hth ▸ hj) with ⟨rfl, rfl⟩ | ⟨-, hj⟩
    · cases hcall
      simp [hl]
    · have := h j th x v hj hcall
      rw [hl]
      grind
  | unlock i th' ha hi hl hth =>
    obtain ⟨hji, hj⟩ := thread_of_erase (hth ▸ hj)
    exact hl ▸ h.unlock hi (h j th x v hj hcall) (Ne.symm hji)

/-! ## The objects -/

/-- A step makes the mirror grow, unless an object that nobody uses goes away. -/
theorem StepResult.grows (h : StepResult k number a k' sent) (hm : k.mirror.WellFormed) :
    k.mirror.Grows k'.mirror ∨ ∃ x, k.mirror.isReferenced x = false ∧ k.uses x = false ∧
      k'.mirror = k.mirror.free x := by
  have hdata : ∀ (x : Addr) (v : Buffer), k.mirror.Grows (k.mirror.withData x v) :=
    fun x v => hm.modifyNode x fun _ => rfl
  cases h with
  | startSet i x v node hs hi hl hn => exact .inl (hdata x v)
  | signin => exact .inl hm.emplaceRoot
  | create i x name r tag uuid ht => exact .inl (hm.createNode x name uuid)
  | fetch i x r tag data ht hl => exact .inl (hdata x data)
  | destroy i x r tag ht => exact .inl (hm.destroyNode x)
  | add i call l j todo ht => exact .inl (hm.addNode j)
  | treeUpdate tag trId add del inbound hr hin hx =>
    exact .inl (hm.handleTreeUpdateNotification add del)
  | update x data hr hl =>
    exact .inl ((hdata x data).trans ((hdata x data).wellFormed.callUpdate x))
  | setup s hs => exact .inl (hm.setup s)
  | free x ha hu => exact .inr ⟨x, ha, hu, rfl⟩
  | _ => exact .inl hm.grows_refl

/-- What every client satisfies: its mirror is well-formed and its locks are held. -/
structure Orderly (k : Client) : Prop where
  wellFormed : k.mirror.WellFormed
  locksHeld : LocksHeld k

theorem orderly_new : Orderly .new := by
  refine ⟨⟨fun h => ?_, fun h => ?_⟩, fun j th x v hj hcall => ?_⟩
  · simp [Client.new, Mirror.empty] at h
  · simp [Client.new, Mirror.empty] at h
  · rcases thread_of_insert hj with ⟨-, rfl⟩ | ⟨-, hj⟩
    · cases hcall
    · simp at hj

theorem Orderly.step (h : Orderly k) (hres : StepResult k number a k' sent) : Orderly k' := by
  refine ⟨?_, h.locksHeld.step hres.lockChange⟩
  rcases hres.grows h.wellFormed with hg | ⟨x, hx, -, heq⟩
  · exact hg.wellFormed
  · exact heq ▸ h.wellFormed.free hx

/-- A happening is a step, or changes nothing but queues. -/
theorem occur_cases {e : Happening} (h : Occurs k e k') :
    (∃ number a k₁ sent, e = .step number a ∧ k.step number a = some (k₁, sent) ∧
      k' = { k₁ with outbound := k₁.outbound ++ sent }) ∨
    (∃ arrived outbound, e = .transfer arrived outbound ∧
      k' = { k with inbound := k.inbound ++ arrived, outbound := outbound }) := by
  change k.occur e = some k' at h
  cases e with
  | step number a =>
    obtain ⟨⟨k₁, sent⟩, hstep, rfl⟩ := Option.map_eq_some_iff.mp h
    exact .inl ⟨_, _, _, _, rfl, hstep, rfl⟩
  | transfer arrived outbound =>
    cases h
    exact .inr ⟨_, _, rfl, rfl⟩

/-- Every client that can come about is orderly. -/
theorem orderly_of_run {es : List Happening} (h : Run Occurs .new es k) : Orderly k := by
  refine h.invariant (P := Orderly) ?_ orderly_new
  intro k e k' ih hstep
  rcases occur_cases hstep with ⟨number, a, k₁, sent, -, hk₁, rfl⟩ | ⟨arrived, outbound, -, rfl⟩
  · have := ih.step (step_cases hk₁).2
    exact ⟨this.wellFormed, this.locksHeld⟩
  · exact ⟨ih.wellFormed, ih.locksHeld⟩

/-- Every client that can come about is manned. -/
theorem manned_of_occurs {es : List Happening} (h : Run Occurs .new es k) : Manned k := by
  refine h.invariant (P := Manned) ?_ manned_new
  intro k e k' ih hstep
  rcases occur_cases hstep with ⟨number, a, k₁, sent, -, hk₁, rfl⟩ | ⟨arrived, outbound, -, rfl⟩
  · have := ih.step (step_cases hk₁).2.callChange
    exact ⟨this.constructing, this.signin, this.closed⟩
  · exact ⟨ih.constructing, ih.signin, ih.closed⟩

/-- The object a call works on stays. -/
theorem StepResult.exists_heap (h : StepResult k number a k' sent) (hm : k.mirror.WellFormed)
    {th : Thread} (hi : k.threads[i]? = some th) (hx : th.call.node = some x)
    (hn : ∃ n : Node, k.mirror.heap[x]? = some n) : ∃ n : Node, k'.mirror.heap[x]? = some n := by
  obtain ⟨n, hn⟩ := hn
  rcases h.grows hm with hg | ⟨y, -, hu, heq⟩
  · obtain ⟨n', hn', -⟩ := hg.objects hn
    exact ⟨n', hn'⟩
  · have hne : y ≠ x := by
      rintro rfl
      exact uses_eq_false hu hi hx
    refine ⟨n, ?_⟩
    simp only [heq, Mirror.free]
    grind

/-! ## The others do alike with the value and without it -/

section Effect

variable (hl : k.dataMutex[x]? = some i) (hu : k.uses x = true) (hlt : x < m.nextAddr)

/-- What a step does to the client's own mirror. -/
theorem effect_self (h : k.step number a = some (k', sent)) :
    k.effect number a k.mirror = k'.mirror := by
  simp only [effect, h]

theorem mem_dataMutex (hl : k.dataMutex[x]? = some i) : x ∈ k.dataMutex :=
  Std.ExtTreeMap.mem_iff_isSome_getElem?.mpr (by rw [hl]; rfl)

/-- A step that cannot change the mirror of the client changes no mirror. -/
theorem effect_eq_self (m : Mirror) (h : ∀ {k' : Client} {sent : List Packet},
    StepResult { k with mirror := m } number a k' sent → k'.mirror = m) :
    k.effect number a m = m := by
  unfold effect
  split
  · rfl
  · exact h (step_cases ‹_›).2

/-- Only `set` changes the mirror when it is entered. -/
theorem effect_start_of_ne_set (hcall : ∀ y w, call ≠ .set y w) (m : Mirror) :
    k.effect number (.start j call) m = m := by
  refine effect_eq_self m fun h => ?_
  cases h with
  | startSet => exact absurd rfl (hcall _ _)
  | _ => rfl

include hl in
theorem effect_start_withData (j : ThreadId) (call : ApiCall) :
    k.effect number (.start j call) (m.withData x v) =
      (k.effect number (.start j call) m).withData x v := by
  by_cases hcall : ∀ y w, call ≠ .set y w
  · rw [effect_start_of_ne_set hcall, effect_start_of_ne_set hcall]
  push Not at hcall
  obtain ⟨y, w, rfl⟩ := hcall
  have hx := mem_dataMutex hl
  simp only [effect, step, start]
  split_ifs
  · rfl
  · simp only [ApiCall.found, assign]
    split_ifs with hy
    · rfl
    · have hne : y ≠ x := fun heq => hy (heq ▸ hx)
      simp only [ApiCall.object, ApiCall.node, Mirror.modifyNode_heap, if_true,
        Mirror.withData_heap, if_neg hne]
      cases m.heap[y]? with
      | none => rfl
      | some n => exact Mirror.withData_modifyNode_of_ne hne
  · rfl

include hl hlt in
theorem effect_proceed_withData (j : ThreadId) :
    k.effect number (.proceed j) (m.withData x v) =
      (k.effect number (.proceed j) m).withData x v := by
  have hx := mem_dataMutex hl
  simp only [effect, step]
  split_ifs
  · rfl
  simp only [Client.proceed]
  cases hth : k.threads[j]? with
  | none => rfl
  | some th =>
    obtain ⟨call, stage⟩ := th
    cases stage with
    | answered r response =>
      obtain ⟨tag, q⟩ := response
      simp only
      cases call <;> cases q <;> try rfl
      case signin.signinAccept => exact Mirror.withData_emplaceRoot hlt
      case create.createAccept => exact Mirror.withData_createNode hlt
      case fetch.getAccept y data =>
        simp only [respond]
        split_ifs with hy
        · rfl
        · have hne : y ≠ x := fun heq => hy (heq ▸ hx)
          exact Mirror.withData_modifyNode_of_ne hne
      case destroy.deleteResponse cause =>
        cases cause <;> first | rfl | exact Mirror.withData_destroyNode
    | adding l todo =>
      cases todo with
      | nil => rfl
      | cons i todo => exact Mirror.withData_addNode hlt i
    | _ => rfl

include hlt in
theorem effect_read_withData : k.effect number .read (m.withData x v) =
    (k.effect number .read m).withData x v := by
  simp only [effect, step]
  split_ifs
  · rfl
  simp only [Client.read]
  cases k.reader with
  | some _ => rfl
  | none =>
    cases k.inbound with
    | nil => rfl
    | cons p inbound =>
      simp only [handle]
      cases k.mTransactions[p.message.transactionId]? with
      | some _ => rfl
      | none =>
        obtain ⟨tag, trId, q⟩ := p
        cases q <;> try rfl
        case treeUpdateNotification add del =>
          simp only [dispatch, Mirror.handleTreeUpdateNotification,
            Mirror.withData_addNodes hlt, Mirror.withData_removeNodes]

include hl in
theorem effect_update_withData : k.effect number .update (m.withData x v) =
    (k.effect number .update m).withData x v := by
  have hx := mem_dataMutex hl
  simp only [effect, step]
  split_ifs
  · rfl
  simp only [Client.update]
  cases k.reader with
  | none => rfl
  | some y =>
    obtain ⟨y, data⟩ := y
    simp only
    split_ifs with hy
    · rfl
    · have hne : y ≠ x := fun heq => hy (heq ▸ hx)
      simp only [Option.map_some, Mirror.withData_modifyNode_of_ne hne, Mirror.withData_callUpdate]

include hu in
theorem effect_free_withData (y : Addr) : k.effect number (.free y) (m.withData x v) =
    (k.effect number (.free y) m).withData x v := by
  have hfree : ∀ m : Mirror, { k with mirror := m }.free y =
      if m.isReferenced y || k.uses y then none else some { k with mirror := m.free y } :=
    fun _ => rfl
  simp only [effect, step, hfree, Mirror.withData_isReferenced]
  split_ifs with hopen hy
  · rfl
  · rfl
  · have hne : y ≠ x := by
      rintro rfl
      rw [hu, Bool.or_true] at hy
      exact hy rfl
    exact Mirror.withData_free hne

include hl hu hlt in
/-- What a step does to the mirror, while thread `i` holds the lock of the object at `x`, it does
whatever data that object has. -/
theorem effect_withData (a : Action) :
    k.effect number a (m.withData x v) = (k.effect number a m).withData x v := by
  cases a with
  | start j call => exact effect_start_withData hl j call
  | proceed j => exact effect_proceed_withData hl hlt j
  | read => exact effect_read_withData hlt
  | update => exact effect_update_withData hl
  | free y => exact effect_free_withData hu y
  | setup s =>
    simp only [effect, step, Client.setup]
    split_ifs <;> first | rfl | exact Mirror.withData_setup s
  | _ => rw [effect_eq_self m (by rintro _ _ ⟨⟩ <;> rfl),
      effect_eq_self (m.withData x v) (by rintro _ _ ⟨⟩ <;> rfl)]

end Effect

/-! ## The entries of `mTransactions` -/

section Uses

variable {uses : List IdUse} {t : UInt16} {y : IdUse}

@[simp] theorem lastUse_concat (uses : List IdUse) (y : IdUse) (t : UInt16) :
    lastUse t (uses ++ [y]) = if y.trId = t then some y.use else lastUse t uses := by
  simp only [lastUse, List.map_append, List.map_singleton, lastOf_concat]

/-- An id that is used has a last use. -/
theorem lastUse_ne_none (h : y ∈ uses) : lastUse y.trId uses ≠ none := by
  have hmem : (y.trId, y.use) ∈ uses.map fun x => (x.trId, x.use) := List.mem_map.mpr ⟨y, h, rfl⟩
  exact lastOf_ne_none hmem

/-- An id is in `mTransactions` or not as its last use says. -/
def Tracked (k : Client) (uses : List IdUse) : Prop :=
  ∀ t : UInt16, (lastUse t uses = some .emplace → k.mTransactions[t]? ≠ none) ∧
    (lastUse t uses = some .erase → k.mTransactions[t]? = none)

theorem Tracked.step (h : Tracked k uses) (hres : StepResult k number a k' sent) :
    Tracked k' (uses ++ k.usesOf (.step number a)) := by
  intro t
  obtain ⟨hin, hout⟩ := h t
  cases hres with
  | send i call q trId ht =>
    simp only [usesOf, ht, lastUse_concat, setStage]
    split_ifs with htr
    · refine ⟨fun _ => ?_, nofun⟩
      grind
    · grind
  | erase i call trId r response ht =>
    simp only [usesOf, ht, lastUse_concat, setStage]
    split_ifs with htr
    · refine ⟨nofun, fun _ => ?_⟩
      grind
    · grind
  | satisfy p inbound y hr hin' hx =>
    simp only [usesOf, List.append_nil]
    grind
  | _ => simpa only [usesOf, List.append_nil] using ⟨hin, hout⟩

end Uses

/-! ## The call that goes on -/

/-- Whether `get` is inside `addNodes`. -/
def Stage.isAdding : Stage → Bool
  | adding _ _ => true
  | _ => false

/-- The mirror with what the call has written into it. -/
def ApiCall.overlay (m : Mirror) : ApiCall → Mirror
  | set x value => m.withData x value
  | _ => m

/-- The call of thread `i` goes on.  Until `get` adds its entries the client has the mirror that the
others have made, with the value of `set`; and the others have left the data of its node as it was. -/
structure Ongoing (m₀ : Mirror) (i : ThreadId) (call : ApiCall) (w : Watched) : Prop where
  orderly : Orderly w.client
  tracked : Tracked w.client w.uses
  thread : ∃ stage, w.client.threads[i]? = some ⟨call, stage⟩ ∧
    (stage.isAdding = false → w.client.mirror = call.overlay w.mirror) ∧
    (stage.isAdding = true → ∀ x v, call ≠ .set x v)
  object : ∀ x v, call = .set x v → (∃ n : Node, w.client.mirror.heap[x]? = some n) ∧
    ∃ n : Node, m₀.heap[x]? = some n ∧ w.mirror.withData x n.data = w.mirror

/-- The steps of a call before it ends. -/
theorem StepResult.own_step {stage : Stage} (h : StepResult k number a k' sent)
    (ha : a.caller = some i) (hi : k.threads[i]? = some ⟨call, stage⟩) (hi' : i ∈ k'.threads) :
    ∃ stage', k'.threads[i]? = some ⟨call, stage'⟩ ∧
      (stage'.isAdding = false → k'.mirror = k.mirror ∧ stage.isAdding = false) ∧
      (stage'.isAdding = true → stage.isAdding = true ∨ ∀ x v, call ≠ .set x v) := by
  have hleave : ∀ {th : Std.ExtTreeMap ThreadId Thread}, i ∉ th.erase i := by
    intro th
    simp
  -- the thread goes on to a stage at which it adds nothing
  have hgo : ∀ {call' stage₁ stage₂} {th : Std.ExtTreeMap ThreadId Thread},
      k.threads[i]? = some ⟨call', stage₁⟩ → stage₁.isAdding = false → stage₂.isAdding = false →
      k'.mirror = k.mirror → k'.threads = th.insert i ⟨call', stage₂⟩ →
      ∃ stage', k'.threads[i]? = some ⟨call, stage'⟩ ∧
        (stage'.isAdding = false → k'.mirror = k.mirror ∧ stage.isAdding = false) ∧
        (stage'.isAdding = true → stage.isAdding = true ∨ ∀ x v, call ≠ .set x v) := by
    intro call' stage₁ stage₂ th ht h₁ h₂ hm hth
    rw [hi] at ht
    cases ht
    refine ⟨stage₂, by simp [hth], fun _ => ⟨hm, h₁⟩, fun hadd => ?_⟩
    rw [h₂] at hadd
    cases hadd
  cases h with
  | found j call' x hs hj => cases ha; exact absurd hi' hleave
  | start j call' node hs hj =>
    cases ha
    rw [hi] at hj
    cases hj
  | startSet j x v node hs hj =>
    cases ha
    rw [hi] at hj
    cases hj
  | skip j call' q ht => cases ha; exact hgo ht rfl rfl rfl rfl
  | draw j call' q stage' ht hid =>
    cases ha
    refine hgo ht ?_ rfl rfl rfl
    rcases hid with ⟨rfl, -⟩ | rfl <;> rfl
  | send j call' q trId ht => cases ha; exact hgo ht rfl rfl rfl rfl
  | take j call' trId r response ht => cases ha; exact hgo ht rfl rfl rfl rfl
  | erase j call' trId r response ht => cases ha; exact hgo ht rfl rfl rfl rfl
  | list j x name recursive r tag l ht =>
    cases ha
    rw [hi] at ht
    cases ht
    exact ⟨.adding l l, by simp [setStage], nofun, fun _ => .inr nofun⟩
  | add j call' l y todo ht =>
    cases ha
    rw [hi] at ht
    cases ht
    exact ⟨.adding l todo, by simp [setStage], nofun, fun _ => .inl rfl⟩
  | _ =>
    first
      | (cases ha; done)
      | cases ha; exact absurd hi' hleave

/-- The step in which a call throws. -/
theorem StepResult.throw_step {stage : Stage} {what : Failure} (h : StepResult k number a k' sent)
    (ha : a.caller = some i) (hi : k.threads[i]? = some ⟨call, stage⟩)
    (hres : k'.results = k.results ++ [(i, call, .threw what)]) :
    k'.mirror = k.mirror ∧ k'.mTransactions = k.mTransactions ∧ stage.isAdding = false := by
  have hsame : k'.results ≠ k.results := by
    intro heq
    rw [heq] at hres
    simpa using congrArg List.length hres
  have hresult : ∀ {j call' result}, k'.results = k.results ++ [(j, call', result)] →
      result = .threw what := by
    intro j call' result heq
    rw [heq, List.append_cancel_left_eq, List.cons.injEq, Prod.mk.injEq, Prod.mk.injEq] at hres
    exact hres.1.2.2
  have hthread : ∀ {call' stage'}, k.threads[i]? = some ⟨call', stage'⟩ →
      stage'.isAdding = false → stage.isAdding = false := by
    intro call' stage' ht hadd
    rw [hi] at ht
    cases ht
    exact hadd
  cases h with
  | found j call' x hs hj => cases hresult rfl
  | timeout j call' trId r ht => cases ha; exact ⟨rfl, rfl, hthread ht rfl⟩
  | fail j call' r response what' ht => cases ha; exact ⟨rfl, rfl, hthread ht rfl⟩
  | respond j call' r response result hc ht => cases ha; exact ⟨rfl, rfl, hthread ht rfl⟩
  | signin j r tag sessionId ht => cases hresult rfl
  | create j x name r tag uuid ht => cases hresult rfl
  | fetch j x r tag data ht => cases hresult rfl
  | destroy j x r tag ht => cases hresult rfl
  | get j call' l ht =>
    have := isThrow_found k call' l
    rw [hresult rfl] at this
    cases this
  | _ => exact absurd rfl hsame

/-- The call has been entered. -/
theorem Ongoing.enter (ho : Orderly k) (hstep : StepResult k number (.start i call) k' sent)
    (hi : i ∈ k'.threads) : Ongoing k.mirror i call ⟨k', k.mirror, []⟩ := by
  have horderly := ho.step hstep
  have htracked : Tracked k' [] := by
    intro t
    constructor <;> simp [lastUse]
  cases hstep with
  | found => simp [finish] at hi
  | start _ _ node hs hnone hc hset hn =>
    refine ⟨horderly, htracked, ⟨.begun (call.request node), by simp [setStage], fun _ => ?_, by simp [Stage.isAdding]⟩,
      fun x v hcall => absurd hcall (hset x v)⟩
    cases call <;> first | rfl | exact absurd rfl (hset _ _)
  | startSet _ x v node hs hnone hl hn =>
    refine ⟨horderly, htracked, ⟨.begun (.setValueRequest node.uuid v), by simp [setStage],
      fun _ => rfl, by simp [Stage.isAdding]⟩, ?_⟩
    rintro _ _ ⟨⟩
    refine ⟨⟨node.withData v, ?_⟩, node, hn, ?_⟩
    · exact (Mirror.withData_heap x).trans (by rw [if_pos rfl, hn]; rfl)
    · exact Mirror.withData_eq_self hn

section Held

variable {m₀ : Mirror} {w : Watched}

/-- A `set` that goes on holds the lock of its node and uses the object. -/
theorem Ongoing.held (h : Ongoing m₀ i (.set x v) w) :
    w.client.dataMutex[x]? = some i ∧ w.client.uses x = true ∧ x < w.mirror.nextAddr := by
  obtain ⟨stage, hi, hmirror, hset⟩ := h.thread
  refine ⟨h.orderly.locksHeld i _ x v hi rfl, ?_, ?_⟩
  · by_contra hu
    exact uses_eq_false (by simpa using hu) hi rfl
  · have hno : stage.isAdding = false := by
      cases hadd : stage.isAdding with
      | false => rfl
      | true => exact absurd rfl (hset hadd x v)
    obtain ⟨⟨n, hn⟩, -⟩ := h.object x v rfl
    have := h.orderly.wellFormed.heap_lt hn
    rwa [hmirror hno] at this

/-- What a step does to the mirror with the value of a `set` it does to the one without it. -/
theorem Ongoing.effect_overlay (h : Ongoing m₀ i call w) (a : Action) :
    w.client.effect number a (call.overlay w.mirror) =
      call.overlay (w.client.effect number a w.mirror) := by
  cases call with
  | set x v =>
    obtain ⟨hl, hu, hlt⟩ := h.held
    exact effect_withData hl hu hlt a
  | _ => rfl

end Held

/-- The call goes on when something happens that does not end it. -/
theorem Ongoing.goOn {m₀ : Mirror} {w w' : Watched} {e : Happening} (h : Ongoing m₀ i call w)
    (hw : watch i w e = some w') : Ongoing m₀ i call w' := by
  obtain ⟨k', hk', hw⟩ := Option.bind_eq_some_iff.mp hw
  split_ifs at hw with hi'
  cases hw
  obtain ⟨stage, hi, hmirror, hset⟩ := h.thread
  rcases occur_cases hk' with ⟨number, a, k₁, sent, rfl, hstep, rfl⟩ | ⟨arrived, outbound, rfl, rfl⟩
  swap
  · refine ⟨⟨h.orderly.wellFormed, h.orderly.locksHeld⟩, ?_, ⟨stage, hi, hmirror, hset⟩, h.object⟩
    simp only [usesOf, List.append_nil]
    exact h.tracked
  have hres := (step_cases hstep).2
  have horderly := h.orderly.step hres
  have htracked := h.tracked.step hres
  refine ⟨⟨horderly.wellFormed, horderly.locksHeld⟩, htracked, ?_, fun x v hcall => ?_⟩
  · by_cases ha : a.caller = some i
    · obtain ⟨stage', hi₁, hsame, hadd⟩ := hres.own_step ha hi hi'
      refine ⟨stage', hi₁, fun hno => ?_, fun hyes => (hadd hyes).elim hset id⟩
      simp only [effectBut, if_pos ha]
      obtain ⟨heq, hno'⟩ := hsame hno
      exact heq.trans (hmirror hno')
    · obtain ⟨hthread, -⟩ := hres.callChange.of_caller_ne (n := 0) ha (Nat.zero_le _)
      refine ⟨stage, hthread.trans hi, fun hno => ?_, hset⟩
      simp only [effectBut, if_neg ha]
      -- the others do to the two mirrors the same
      rw [← effect_self hstep, hmirror hno]
      exact h.effect_overlay a
  · obtain ⟨hobj, n, hn, hdata⟩ := h.object x v hcall
    refine ⟨hres.exists_heap h.orderly.wellFormed hi (by rw [hcall]; rfl) hobj, n, hn, ?_⟩
    simp only [effectBut]
    split_ifs with ha
    · exact hdata
    · subst hcall
      obtain ⟨hl, hu, hlt⟩ := h.held
      rw [← effect_withData hl hu hlt, hdata]

/-- A call that throws leaves the client as it was exactly when every id it has used has been erased
since, and it is no `set` that has changed the data of its node. -/
theorem restored_iff_of_run {k₀ k₁ : Client} {es es' : List Happening} {w : Watched}
    (hreach : Run Occurs .new es k₀) (hstart : Occurs k₀ (.step number (.start i call)) k₁)
    (hin : i ∈ k₁.threads) (hrun : Run (Follows (watch i)) ⟨k₁, k₀.mirror, []⟩ es' w)
    (hthrow : Throws w.client i call k') :
    Restored i w k' ↔ Erased i w.uses ∧ ¬ Overwrites k₀.mirror call := by
  have hongoing : Ongoing k₀.mirror i call w := by
    refine hrun.invariant (P := Ongoing k₀.mirror i call) (fun h hstep => h.goOn hstep) ?_
    rcases occur_cases hstart with ⟨number', a, k, sent, heq, hstep, rfl⟩ | ⟨_, _, heq, -⟩
    · cases heq
      have := Ongoing.enter (orderly_of_run hreach) (step_cases hstep).2 hin
      exact ⟨⟨this.orderly.wellFormed, this.orderly.locksHeld⟩, this.tracked, this.thread, this.object⟩
    · cases heq
  obtain ⟨stage, hi, hmirror, hset⟩ := hongoing.thread
  obtain ⟨⟨number', a, ha, hstep⟩, what, hresult⟩ := hthrow
  have hlast : k'.mirror = w.client.mirror ∧ k'.mTransactions = w.client.mTransactions ∧
      stage.isAdding = false := by
    rcases occur_cases hstep with ⟨n, b, k, sent, heq, hk, rfl⟩ | ⟨_, _, heq, -⟩
    · cases heq
      exact (step_cases hk).2.throw_step ha hi hresult
    · cases heq
  obtain ⟨hm, hx, hno⟩ := hlast
  have hm' : k'.mirror = call.overlay w.mirror := hm.trans (hmirror hno)
  constructor
  · rintro ⟨hnone, -, hnodes⟩
    refine ⟨fun t ht => ?_, fun hover => ?_⟩
    · cases hlast : lastUse t w.uses with
      | none => exact absurd hlast (lastUse_ne_none ht)
      | some use =>
        cases use with
        | erase => rfl
        | emplace => exact absurd (hx ▸ hnone t ht) ((hongoing.tracked t).1 hlast)
    · cases call with
      | set x v =>
        obtain ⟨⟨n', hn'⟩, n, hn, hdata⟩ := hongoing.object x v rfl
        obtain ⟨n₀, hn₀, hne⟩ := hover
        rw [hn] at hn₀
        cases hn₀
        rw [hmirror hno, ApiCall.overlay, Mirror.withData_heap, if_pos rfl] at hn'
        obtain ⟨n₁, hn₁, -⟩ := Option.map_eq_some_iff.mp hn'
        -- the node has its old data in the one mirror, and the value in the other
        have hold : n₁.data = n.data := by
          have := congrArg (fun m : Mirror => (m.heap[x]?).map Node.data) hdata
          simp only [Mirror.withData_heap, if_true, hn₁, Option.map_some, Option.some.injEq] at this
          exact this.symm
        have hnew := hnodes x
        rw [hm', ApiCall.overlay, Mirror.withData_heap, if_pos rfl, hn₁] at hnew
        simp only [Option.map_some, Option.some.injEq, Prod.mk.injEq] at hnew
        exact hne (hold.symm.trans hnew.2.symm)
      | _ => exact hover
  · rintro ⟨herased, hover⟩
    refine ⟨fun t ht => hx ▸ (hongoing.tracked t).2 (herased t ht), ?_, fun x => ?_⟩
    · rw [hm']
      cases call <;> rfl
    · cases call with
      | set y v =>
        obtain ⟨-, n, hn, hdata⟩ := hongoing.object y v rfl
        have hv : n.data = v := by
          by_contra hne
          exact hover ⟨n, hn, hne⟩
        rw [hm', ApiCall.overlay, ← hv, hdata]
      | _ => rw [hm']; rfl

/-- What happens until the constructor has returned. -/
def signinHappenings : List Happening :=
  [.step 0 (.fetchId 0), .step 0 (.send 0), .transfer [⟨0, 0, .signinAccept 0⟩] [], .step 0 .read,
    .step 0 (.take 0), .step 0 (.erase 0), .step 0 (.proceed 0)]

/-- What happens in a call of thread 0 up to the end of its wait with the message `m`. -/
def answerHappenings (m : PropertyTreeMessages) : List Happening :=
  [.step 1 (.fetchId 0), .step 1 (.send 0), .transfer [⟨1, 1, m⟩] [], .step 2 .read,
    .step 2 (.take 0), .step 2 (.erase 0)]

/-- The steps of a call and its end, as far as they are enabled. -/
def throwing (call : ApiCall) (es : List Happening) (last : Happening) :
    Option (Client × Client × Watched × Client) :=
  (follow occur (fun _ _ => true) .new signinHappenings).bind fun k₀ =>
    (k₀.occur (.step 1 (.start 0 call))).bind fun k₁ =>
      (follow (watch 0) (fun _ _ => true) ⟨k₁, k₀.mirror, []⟩ es).bind fun w =>
        (w.client.occur last).map fun k' => (k₀, k₁, w, k')

/-- What `throwing` has gone through. -/
theorem of_throwing {es : List Happening} {last : Happening} {k₀ k₁ : Client} {w : Watched}
    (h : throwing call es last = some (k₀, k₁, w, k')) :
    Run Occurs .new signinHappenings k₀ ∧ Occurs k₀ (.step 1 (.start 0 call)) k₁ ∧
      Run (Follows (watch 0)) ⟨k₁, k₀.mirror, []⟩ es w ∧ Occurs w.client last k' := by
  obtain ⟨k₀, hk₀, h⟩ := Option.bind_eq_some_iff.mp h
  obtain ⟨k₁, hk₁, h⟩ := Option.bind_eq_some_iff.mp h
  obtain ⟨w, hw, h⟩ := Option.bind_eq_some_iff.mp h
  obtain ⟨k', hk', heq⟩ := Option.map_eq_some_iff.mp h
  cases heq
  exact ⟨(run_of_follow occur hk₀).of_guarded, hk₁, (run_of_follow (watch 0) hw).of_guarded, hk'⟩

/-- A call that is rejected throws and leaves the client as it was. -/
theorem restored_call : ∃ k₀ k₁ w k', Run Occurs .new signinHappenings k₀ ∧
    Occurs k₀ (.step 1 (.start 0 (.call 0 [7]))) k₁ ∧
    Run (Follows (watch 0)) ⟨k₁, k₀.mirror, []⟩ (answerHappenings (.rpcReject .noHandler)) w ∧
    Throws w.client 0 (.call 0 [7]) k' ∧ ⟨0, 1, .emplace⟩ ∈ w.uses ∧ Restored 0 w k' := by
  obtain ⟨⟨k₀, k₁, w, k'⟩, h, hx⟩ := (Option.any_eq_true _ _).mp (show (throwing (.call 0 [7])
      (answerHappenings (.rpcReject .noHandler)) (.step 2 (.proceed 0))).any (fun x =>
        decide (0 ∈ x.2.1.threads) &&
        decide (x.2.2.1.uses = [⟨0, 1, .emplace⟩, ⟨0, 1, .erase⟩]) &&
        decide (x.2.2.2.results = x.2.2.1.client.results ++
          [(0, .call 0 [7], .threw .protocolError)])) = true by decide +kernel)
  obtain ⟨hrun, hstart, hwatch, hlast⟩ := of_throwing h
  simp only [Bool.and_eq_true, decide_eq_true_eq] at hx
  obtain ⟨⟨hin, huses⟩, hresult⟩ := hx
  have hthrow : Throws w.client 0 (.call 0 [7]) k' := ⟨⟨_, _, rfl, hlast⟩, _, hresult⟩
  refine ⟨k₀, k₁, w, k', hrun, hstart, hwatch, hthrow, by simp [huses], ?_⟩
  refine (restored_iff_of_run hrun hstart hin hwatch hthrow).mpr ⟨fun t ht => ?_, id⟩
  rw [huses] at ht ⊢
  obtain rfl : t = 1 := by simpa using ht
  rfl

/-- A heartbeat that times out leaves its entry behind. -/
theorem not_restored_timeout : ¬ ∀ es k₀ number i call k₁ es' w k', Run Occurs .new es k₀ →
    Occurs k₀ (.step number (.start i call)) k₁ → i ∈ k₁.threads →
    Run (Follows (watch i)) ⟨k₁, k₀.mirror, []⟩ es' w → Throws w.client i call k' →
    Restored i w k' := by
  intro hall
  obtain ⟨⟨k₀, k₁, w, k'⟩, h, hx⟩ := (Option.any_eq_true _ _).mp (show (throwing .beat
      [.step 1 (.fetchId 0), .step 1 (.send 0)] (.step 2 (.timeout 0))).any (fun x =>
        decide (0 ∈ x.2.1.threads) && decide (x.2.2.1.uses = [⟨0, 1, .emplace⟩]) &&
        decide (x.2.2.2.mTransactions[(1 : UInt16)]? = some .new) &&
        decide (x.2.2.2.results = x.2.2.1.client.results ++
          [(0, .beat, .threw .transactionFailure)])) = true by decide +kernel)
  obtain ⟨hrun, hstart, hwatch, hlast⟩ := of_throwing h
  simp only [Bool.and_eq_true, decide_eq_true_eq] at hx
  obtain ⟨⟨⟨hin, huses⟩, hnew⟩, hresult⟩ := hx
  have hrestored := hall _ k₀ 1 0 .beat k₁ _ w k' hrun hstart hin hwatch
    ⟨⟨_, _, rfl, hlast⟩, _, hresult⟩
  have := hrestored.mTransactions 1 (by simp [huses])
  rw [hnew] at this
  cases this

end PropertyTree.Client
