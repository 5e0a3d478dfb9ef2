import PropertyTree.Client.Transactions

/-!
# The data of one node of a mirror

Three steps write a value into a node object: the `set` of the application, the caller of `fetch` with
the `GetAccept` it has got, and the reader with an `UpdateNotification`.  `ValueChange` tells them, and
what carries the values to them, from the steps that leave the object's data alone.
-/

namespace PropertyTree.Client

variable {k k' : Client} {number : ℕ} {act : Action} {sent : List Packet} {x y : Addr} {i : ThreadId}
  {m m' m'' : Mirror}

/-! ## What leaves the data alone -/

/-- The object at `x` is still there, with the same data. -/
def Mirror.KeepsData (x : Addr) (m m' : Mirror) : Prop :=
  ∀ n : Node, m.heap[x]? = some n → x < m.nextAddr →
    (∃ n' : Node, m'.heap[x]? = some n' ∧ n'.data = n.data) ∧ x < m'.nextAddr

/-- The object at `x` is still there, with the data `data`. -/
def Mirror.Writes (x : Addr) (data : Buffer) (m m' : Mirror) : Prop :=
  ∀ n : Node, m.heap[x]? = some n → ∃ n' : Node, m'.heap[x]? = some n' ∧ n'.data = data

namespace Mirror.KeepsData

theorem refl (x : Addr) (m : Mirror) : m.KeepsData x m :=
  fun n hn hlt => ⟨⟨n, hn, rfl⟩, hlt⟩

theorem trans (h : m.KeepsData x m') (h' : m'.KeepsData x m'') : m.KeepsData x m'' := by
  intro n hn hlt
  obtain ⟨⟨n', hn', hd⟩, hlt'⟩ := h n hn hlt
  obtain ⟨⟨n'', hn'', hd'⟩, hlt''⟩ := h' n' hn' hlt'
  exact ⟨⟨n'', hn'', hd'.trans hd⟩, hlt''⟩

/-- Handlers and their calls do not matter, nor does `mTree`. -/
theorem of_eq (hheap : m'.heap = m.heap) (hnext : m'.nextAddr = m.nextAddr) : m.KeepsData x m' := by
  intro n hn hlt
  rw [hheap, hnext]
  exact ⟨⟨n, hn, rfl⟩, hlt⟩

/-- A change of an object that leaves the data alone. -/
theorem modifyNode (m : Mirror) (y : Addr) {f : Node → Node} (hf : ∀ n, (f n).data = n.data) :
    m.KeepsData x (m.modifyNode y f) := by
  intro n hn hlt
  refine ⟨?_, hlt⟩
  rw [Mirror.modifyNode_heap, hn]
  split_ifs
  · exact ⟨f n, rfl, hf n⟩
  · exact ⟨n, rfl, rfl⟩

/-- A change of another object. -/
theorem modifyNode_of_ne (m : Mirror) (f : Node → Node) (hy : x ≠ y) :
    m.KeepsData x (m.modifyNode y f) := by
  intro n hn hlt
  exact ⟨⟨n, by rw [Mirror.modifyNode_heap, if_neg hy, hn], rfl⟩, hlt⟩

theorem makeNode_emplace (m : Mirror) (name : Name) (parent : Option Addr) (v : UInt64) :
    m.KeepsData x ((m.makeNode name parent v).emplace v m.nextAddr) := by
  intro n hn hlt
  have hx : x ≠ m.nextAddr := ne_of_lt hlt
  refine ⟨⟨n, ?_, rfl⟩, Nat.lt_succ_of_lt hlt⟩
  simp only [Mirror.emplace, Mirror.makeNode]
  grind

theorem link (m : Mirror) (p : Addr) (name : Name) (a : Addr) : m.KeepsData x (m.link p name a) :=
  modifyNode m p fun _ => rfl

theorem unlink (m : Mirror) (p : Addr) (name : Name) : m.KeepsData x (m.unlink p name) :=
  modifyNode m p fun _ => rfl

theorem callTreeAdd (m : Mirror) (a : Addr) : m.KeepsData x (m.callTreeAdd a) :=
  of_eq (m.callTreeAdd_heap a) (m.callTreeAdd_nextAddr a)

theorem callUpdate (m : Mirror) (a : Addr) : m.KeepsData x (m.callUpdate a) :=
  of_eq (m.callUpdate_heap a) (m.callUpdate_nextAddr a)

theorem addNode (m : Mirror) (j : NamedNode) : m.KeepsData x (m.addNode j) := by
  have hparent : m.KeepsData x (m.parentOrGhost j.parentUuid).1 := by
    unfold Mirror.parentOrGhost
    split
    · exact refl x m
    · exact makeNode_emplace m _ _ _
  refine hparent.trans ?_
  unfold Mirror.addNode
  generalize m.parentOrGhost j.parentUuid = q
  obtain ⟨m', p⟩ := q
  cases m.mTree[j.uuid]? with
  | none => exact ((makeNode_emplace m' _ _ _).trans (link _ _ _ _)).trans (callTreeAdd _ _)
  | some a =>
    have hnode : m'.KeepsData x
        (m'.modifyNode a fun node => { node with name := j.name, parent := some p }) :=
      modifyNode m' a fun _ => rfl
    have hfill := hnode.trans (link _ p j.name a)
    simp only [Mirror.fillNode]
    split_ifs
    · exact hfill.trans (callTreeAdd _ _)
    · exact hfill

theorem addNodes (m : Mirror) (l : List NamedNode) : m.KeepsData x (m.addNodes l) := by
  induction l generalizing m with
  | nil => exact refl x m
  | cons j l ih => exact (addNode m j).trans (ih (m.addNode j))

theorem removeNode (m : Mirror) (v : UInt64) : m.KeepsData x (m.removeNode v) := by
  have herase : ∀ m' : Mirror, m'.KeepsData x { m' with mTree := m'.mTree.erase v } :=
    fun m' => of_eq rfl rfl
  unfold Mirror.removeNode
  split
  · exact refl x m
  · rename_i a ha
    have hcall : m.KeepsData x (m.callTreeRemove a) :=
      of_eq (m.callTreeRemove_heap a) (m.callTreeRemove_nextAddr a)
    refine (hcall.trans ?_).trans (herase _)
    split
    · exact refl x _
    · split
      · exact refl x _
      · exact unlink _ _ _

theorem removeNodes (m : Mirror) (l : List UInt64) : m.KeepsData x (m.removeNodes l) := by
  induction l generalizing m with
  | nil => exact refl x m
  | cons v l ih => exact (removeNode m v).trans (ih (m.removeNode v))

theorem createNode (m : Mirror) (p : Addr) (name : Name) (v : UInt64) :
    m.KeepsData x (m.createNode p name v) := by
  unfold Mirror.createNode
  split
  · exact refl x m
  · exact (makeNode_emplace m _ _ _).trans (modifyNode _ _ fun _ => rfl)

theorem destroyNode (m : Mirror) (a : Addr) : m.KeepsData x (m.destroyNode a) := by
  unfold Mirror.destroyNode
  split
  · exact refl x m
  · split
    · exact refl x m
    · exact unlink _ _ _

theorem emplaceRoot (m : Mirror) : m.KeepsData x m.emplaceRoot := by
  unfold Mirror.emplaceRoot
  split
  · exact refl x m
  · exact makeNode_emplace m _ _ _

theorem setup (m : Mirror) (s : Setup) : m.KeepsData x (s.apply m) := by
  cases s with
  | setTreeAddHandler handler => exact of_eq rfl rfl
  | setTreeRemoveHandler handler => exact of_eq rfl rfl
  | setHRcpHandler y handler => exact modifyNode m y fun _ => rfl
  | setUpdateHandler y handler => exact modifyNode m y fun _ => rfl

/-- The end of another object. -/
theorem free (m : Mirror) (hy : x ≠ y) : m.KeepsData x (m.free y) := by
  intro n hn hlt
  refine ⟨⟨n, ?_, rfl⟩, hlt⟩
  simp only [Mirror.free]
  grind

end Mirror.KeepsData

/-- A value that is assigned is there. -/
theorem Mirror.writes_modifyNode (m : Mirror) (x : Addr) (data : Buffer) :
    m.Writes x data (m.modifyNode x fun node => { node with data := data }) := by
  intro n hn
  exact ⟨{ n with data := data }, by rw [Mirror.modifyNode_heap, if_pos rfl, hn]; rfl, rfl⟩

/-- What keeps the data afterwards keeps the value. -/
theorem Mirror.Writes.trans {data : Buffer} (h : m.Writes x data m') (h' : m'.heap = m''.heap) :
    m.Writes x data m'' :=
  fun n hn => h' ▸ h n hn

/-! ## What a step does to the data -/

/-- What `waitTransaction` has to return: the message of the transaction that has been satisfied, or
the one that has been taken already. -/
def Stage.answer (mTransactions : Std.ExtTreeMap UInt16 Transaction) : Stage → Option Tagged
  | waiting trId _ =>
    (mTransactions[trId]?).bind fun e => if e.satisfied then some e.message else none
  | taken _ _ response | answered _ response => some response
  | _ => none

/-- The answer that a thread has got to its `fetch` of the object at `x`. -/
def Thread.answer (x : Addr) (mTransactions : Std.ExtTreeMap UInt16 Transaction) (th : Thread) :
    Option Tagged :=
  if th.call = .fetch x then th.stage.answer mTransactions else none

/-- The answer that thread `i` has got to its `fetch` of the object at `x`. -/
def answer (k : Client) (i : ThreadId) (x : Addr) : Option Tagged :=
  (k.threads[i]?).bind fun th => th.answer x k.mTransactions

/-- The value that the reader is about to write into the object at `x`. -/
def toWrite (k : Client) (x : Addr) : List Buffer :=
  match k.reader with
  | some (y, data) => if y = x then [data] else []
  | none => []

/-- No thread gets an answer. -/
def Unanswered (x : Addr) (k k' : Client) : Prop :=
  ∀ ⦃i : ThreadId⦄ ⦃r : Tagged⦄, k'.answer i x = some r → k.answer i x = some r

/-- The id that a thread enters is not that of a transaction that is satisfied. -/
def EntersUnsatisfied (k : Client) : Action → Prop
  | .send i => ∀ call q trId, k.threads[i]? = some ⟨call, .numbered q trId⟩ →
      ∀ e, k.mTransactions[trId]? = some e → e.satisfied = false
  | _ => True

/-- What a step does to the value of the object at `x`, and to what carries values to it. -/
inductive ValueChange (x : Addr) (k k' : Client) : Action → Prop
  | quiet (a) (hin : k'.inbound = k.inbound) (hto : k'.toWrite x = k.toWrite x)
      (hans : Unanswered x k k') (hkeep : k.mirror.KeepsData x k'.mirror) : ValueChange x k k' a
  | set (i value) (hin : k'.inbound = k.inbound) (hto : k'.toWrite x = k.toWrite x)
      (hans : Unanswered x k k') (hm : k.mirror.Writes x value k'.mirror) :
      ValueChange x k k' (.start i (.set x value))
  | fetch (i tag data) (hi : k.answer i x = some ⟨tag, .getAccept data⟩)
      (hin : k'.inbound = k.inbound) (hto : k'.toWrite x = k.toWrite x)
      (hans : Unanswered x k k') (hm : k.mirror.Writes x data k'.mirror) :
      ValueChange x k k' (.proceed i)
  | satisfy (p) (hin : k.inbound = p :: k'.inbound) (hto : k.toWrite x = [])
      (hto' : k'.toWrite x = []) (hx : k.mTransactions[p.message.transactionId]? ≠ none)
      (hans : ∀ {i r}, k'.answer i x = some r → k.answer i x = some r ∨ r = p.body ∧
        ∃ n, k'.threads[i]? = some ⟨.fetch x, .waiting p.message.transactionId n⟩ ∧
          k'.mTransactions[p.message.transactionId]? = some ⟨true, r⟩)
      (hkeep : k.mirror.KeepsData x k'.mirror) : ValueChange x k k' .read
  | dispatch (p) (hin : k.inbound = p :: k'.inbound) (hto : k.toWrite x = [])
      (hto' : k'.toWrite x = match p.message.message with
        | .updateNotification v data => if k.mirror.mTree[v]? = some x then [data] else []
        | _ => [])
      (hx : k.mTransactions[p.message.transactionId]? = none)
      (hans : Unanswered x k k') (hkeep : k.mirror.KeepsData x k'.mirror) : ValueChange x k k' .read
  | update (data) (hin : k'.inbound = k.inbound) (hto : k.toWrite x = [data])
      (hto' : k'.toWrite x = []) (hans : Unanswered x k k')
      (hm : k.mirror.Writes x data k'.mirror) : ValueChange x k k' .update

/-- A thread that waits has the answer that satisfies its transaction. -/
theorem Stage.answer_waiting {mTransactions : Std.ExtTreeMap UInt16 Transaction} {t : UInt16} {n : ℕ}
    {r : Tagged} :
    (waiting t n).answer mTransactions = some r ↔
      mTransactions[t]? = some (⟨true, r⟩ : Transaction) := by
  simp only [answer, Option.bind_eq_some_iff]
  constructor
  · rintro ⟨⟨satisfied, m⟩, he, hr⟩
    simp only at hr
    split_ifs at hr with hs
    cases hr
    rw [he, hs]
  · intro h
    exact ⟨_, h, rfl⟩

/-- A thread with an answer is one of a `fetch` of the object. -/
theorem Thread.answer_eq_some {mTransactions : Std.ExtTreeMap UInt16 Transaction} {th : Thread}
    {r : Tagged} : th.answer x mTransactions = some r ↔
      th.call = .fetch x ∧ th.stage.answer mTransactions = some r := by
  unfold answer
  split_ifs with hc
  · simp [hc]
  · simp [hc]

/-- An answer is still the one that it was where the transactions that are satisfied were. -/
theorem Thread.answer_of_satisfied {mTransactions mTransactions' : Std.ExtTreeMap UInt16 Transaction}
    (hx : ∀ {t : UInt16} {r : Tagged}, mTransactions'[t]? = some (⟨true, r⟩ : Transaction) →
      mTransactions[t]? = some (⟨true, r⟩ : Transaction)) {th : Thread} {r : Tagged}
    (h : th.answer x mTransactions' = some r) : th.answer x mTransactions = some r := by
  obtain ⟨call, stage⟩ := th
  rw [answer_eq_some] at h ⊢
  refine ⟨h.1, ?_⟩
  cases stage with
  | waiting t n => exact Stage.answer_waiting.mpr (hx (Stage.answer_waiting.mp h.2))
  | _ => exact h.2

/-- No thread gets an answer where the transactions that are satisfied were, and so were the threads
apart from those without a new answer. -/
theorem unanswered_of
    (hx : ∀ {t : UInt16} {r : Tagged}, k'.mTransactions[t]? = some (⟨true, r⟩ : Transaction) →
      k.mTransactions[t]? = some (⟨true, r⟩ : Transaction))
    (hth : ∀ {j : ThreadId} {th : Thread}, k'.threads[j]? = some th → k.threads[j]? = some th ∨
      ∀ r, th.answer x k'.mTransactions = some r → k.answer j x = some r) : Unanswered x k k' := by
  intro j r h
  obtain ⟨th, hj, hr⟩ := Option.bind_eq_some_iff.mp h
  rcases hth hj with hold | hnew
  · rw [answer, hold]
    exact Thread.answer_of_satisfied hx hr
  · exact hnew r hr

/-- The transactions and the threads are the same. -/
theorem unanswered_of_eq (hx : k'.mTransactions = k.mTransactions) (hth : k'.threads = k.threads) :
    Unanswered x k k' :=
  unanswered_of (fun ht => hx ▸ ht) fun hj => .inl (hth ▸ hj)

/-- A call has ended. -/
theorem unanswered_of_erase (hx : k'.mTransactions = k.mTransactions)
    (hth : k'.threads = k.threads.erase i) : Unanswered x k k' := by
  refine unanswered_of (fun ht => hx ▸ ht) fun hj => .inl ?_
  rw [hth] at hj
  exact (thread_of_erase hj).2

/-- A thread has gone on without a new answer. -/
theorem unanswered_of_insert (hx : k'.mTransactions = k.mTransactions) {th : Thread}
    (hth : k'.threads = k.threads.insert i th)
    (hans : ∀ r, th.answer x k.mTransactions = some r → k.answer i x = some r) :
    Unanswered x k k' := by
  refine unanswered_of (fun ht => hx ▸ ht) fun {j th'} hj => ?_
  rw [hth] at hj
  rcases thread_of_insert hj with ⟨rfl, rfl⟩ | ⟨-, hj⟩
  · exact .inr (hx ▸ hans)
  · exact .inl hj

/-- A call that does not wait, and has not waited, has no answer. -/
theorem Thread.answer_eq_none {th : Thread} (hwait : th.stage.wait = none)
    (hres : th.stage.response = none) (mTransactions : Std.ExtTreeMap UInt16 Transaction) :
    th.answer x mTransactions = none := by
  obtain ⟨call, stage⟩ := th
  rw [Option.eq_none_iff_forall_ne_some]
  intro r hr
  obtain ⟨-, hr⟩ := answer_eq_some.mp hr
  cases stage with
  | waiting t n => cases hwait
  | taken t n response => cases hres
  | answered n response => cases hres
  | _ => cases hr

/-- A thread has gone on to a stage in which it does not wait. -/
theorem unanswered_of_setStage {call : ApiCall} {stage : Stage} (hwait : stage.wait = none)
    (hres : stage.response = none) (hx : k'.mTransactions = k.mTransactions)
    (hth : k'.threads = k.threads.insert i ⟨call, stage⟩) : Unanswered x k k' := by
  refine unanswered_of_insert hx hth fun r hr => ?_
  rw [Thread.answer_eq_none hwait hres] at hr
  cases hr

/-- What a step does to the value of an object that `mTree` refers to. -/
theorem StepResult.valueChange (h : StepResult k number act k' sent) {u : UInt64}
    (hu : k.mirror.mTree[u]? = some x) (henters : EntersUnsatisfied k act) :
    ValueChange x k k' act := by
  have hkeep := Mirror.KeepsData.refl x k.mirror
  cases h with
  | found i call y hs hi hc hf =>
    exact .quiet _ rfl rfl (unanswered_of_erase rfl rfl) hkeep
  | start i call node hs hi hc hset hn =>
    exact .quiet _ rfl rfl (unanswered_of_setStage rfl rfl rfl rfl) hkeep
  | startSet i y value node hs hi hl hn =>
    by_cases hxy : x = y
    · subst hxy
      exact .set i value rfl rfl (unanswered_of_setStage rfl rfl rfl rfl)
        (k.mirror.writes_modifyNode x value)
    · exact .quiet _ rfl rfl (unanswered_of_setStage rfl rfl rfl rfl)
        (.modifyNode_of_ne k.mirror _ hxy)
  | skip i call q ht hid =>
    exact .quiet _ rfl rfl (unanswered_of_setStage rfl rfl rfl rfl) hkeep
  | draw i call q stage ht hid =>
    exact .quiet _ rfl rfl (unanswered_of_setStage rfl rfl rfl rfl) hkeep
  | send i call q trId ht =>
    have hold : ∀ {t : UInt16} {r : Tagged}, (k.mTransactions.insertIfNew trId .new)[t]? =
        some ⟨true, r⟩ → k.mTransactions[t]? = some ⟨true, r⟩ := by
      intro t r hx
      rw [Std.ExtTreeMap.getElem?_insertIfNew] at hx
      split_ifs at hx with hnew
      · cases hx
      · exact hx
    refine .quiet _ rfl rfl (unanswered_of hold fun {j th} hj => ?_) hkeep
    rcases thread_of_insert hj with ⟨rfl, rfl⟩ | ⟨-, hj⟩
    · refine .inr fun r hr => ?_
      -- the transaction that the thread waits for is not satisfied
      have hsat := Stage.answer_waiting.mp (Thread.answer_eq_some.mp hr).2
      cases henters call q trId ht _ (hold hsat)
    · exact .inl hj
  | take i call trId r response ht hsat =>
    refine .quiet _ rfl rfl (unanswered_of_insert rfl rfl fun r' hr => ?_) hkeep
    obtain ⟨hc, hr⟩ := Thread.answer_eq_some.mp hr
    cases hr
    rw [answer, ht]
    exact Thread.answer_eq_some.mpr ⟨hc, Stage.answer_waiting.mpr hsat⟩
  | timeout i call trId r ht hx => exact .quiet _ rfl rfl (unanswered_of_erase rfl rfl) hkeep
  | erase i call trId r response ht =>
    have hold : ∀ {t : UInt16} {r : Tagged}, (k.mTransactions.erase trId)[t]? = some ⟨true, r⟩ →
        k.mTransactions[t]? = some ⟨true, r⟩ := by
      intro t r hx
      grind
    refine .quiet _ rfl rfl (unanswered_of hold fun {j th} hj => ?_) hkeep
    rcases thread_of_insert hj with ⟨rfl, rfl⟩ | ⟨-, hj⟩
    · refine .inr fun r' hr => ?_
      rw [answer, ht]
      exact hr
    · exact .inl hj
  | signin i r tag sessionId ht =>
    exact .quiet _ rfl rfl (unanswered_of_erase rfl rfl) (.emplaceRoot _)
  | create i y name r tag uuid ht =>
    exact .quiet _ rfl rfl (unanswered_of_erase rfl rfl) (.createNode _ _ _ _)
  | list i y name recursive r tag nodeToAddList ht =>
    exact .quiet _ rfl rfl (unanswered_of_setStage rfl rfl rfl rfl) hkeep
  | fetch i y r tag data ht hl =>
    by_cases hxy : x = y
    · subst hxy
      refine .fetch i tag data ?_ rfl rfl (unanswered_of_erase rfl rfl)
        (k.mirror.writes_modifyNode x data)
      rw [answer, ht]
      exact Thread.answer_eq_some.mpr ⟨rfl, rfl⟩
    · exact .quiet _ rfl rfl (unanswered_of_erase rfl rfl) (.modifyNode_of_ne k.mirror _ hxy)
  | destroy i y r tag ht => exact .quiet _ rfl rfl (unanswered_of_erase rfl rfl) (.destroyNode _ _)
  | respond i call r response result hc ht =>
    exact .quiet _ rfl rfl (unanswered_of_erase rfl rfl) hkeep
  | fail i call r response what ht => exact .quiet _ rfl rfl (unanswered_of_erase rfl rfl) hkeep
  | add i call nodeToAddList j todo ht =>
    exact .quiet _ rfl rfl (unanswered_of_setStage rfl rfl rfl rfl) (.addNode _ _)
  | get i call nodeToAddList ht => exact .quiet _ rfl rfl (unanswered_of_erase rfl rfl) hkeep
  | satisfy p inbound e hr hin hx =>
    have hto : k.toWrite x = [] := by simp [toWrite, hr]
    refine .satisfy p hin hto hto (by simp [hx]) (fun {i r} h => ?_) hkeep
    obtain ⟨⟨call, stage⟩, hi, hth⟩ := Option.bind_eq_some_iff.mp h
    rw [answer, show k.threads[i]? = some ⟨call, stage⟩ from hi]
    obtain ⟨hc, hans⟩ := Thread.answer_eq_some.mp hth
    by_cases hsame : stage.answer k.mTransactions = some r
    · exact .inl (Thread.answer_eq_some.mpr ⟨hc, hsame⟩)
    · refine .inr ?_
      cases stage with
      | waiting t n =>
        rw [Stage.answer_waiting] at hans hsame
        by_cases htp : t = p.message.transactionId
        · subst htp
          obtain rfl : call = .fetch x := hc
          refine ⟨?_, n, rfl, hans⟩
          have hnew : (k.mTransactions.insert p.message.transactionId
              (⟨true, p.body⟩ : Transaction))[p.message.transactionId]? = some ⟨true, r⟩ := hans
          rw [Std.ExtTreeMap.getElem?_insert_self] at hnew
          cases hnew
          rfl
        · refine absurd ?_ hsame
          change (k.mTransactions.insert p.message.transactionId ⟨true, p.body⟩)[t]? = _ at hans
          rwa [Std.ExtTreeMap.getElem?_insert, if_neg (by simpa using Ne.symm htp)] at hans
      | _ => exact absurd hans hsame
  | treeUpdate tag trId add del inbound hr hin hx =>
    have hto : k.toWrite x = [] := by simp [toWrite, hr]
    exact .dispatch _ hin hto hto hx (unanswered_of_eq rfl rfl)
      ((Mirror.KeepsData.addNodes k.mirror add).trans (.removeNodes _ del))
  | updateNotification tag trId uuid data inbound hr hin hx =>
    have hto : k.toWrite x = [] := by simp [toWrite, hr]
    refine .dispatch _ hin hto ?_ hx (unanswered_of_eq rfl rfl) hkeep
    cases hm : k.mirror.mTree[uuid]? with
    | none => simp [toWrite, hm]
    | some y => simp [toWrite, hm]
  | rpcRequest tag trId uuid param inbound hr hin hx =>
    have hto : k.toWrite x = [] := by simp [toWrite, hr]
    exact .dispatch _ hin hto hto hx (unanswered_of_eq rfl rfl) hkeep
  | ignore p inbound hr hin hx hm =>
    have hto : k.toWrite x = [] := by simp [toWrite, hr]
    refine .dispatch _ hin hto ?_ hx (unanswered_of_eq rfl rfl) hkeep
    cases hp : p.message.message <;> first | exact hto | (rw [hp] at hm; cases hm)
  | update y data hr hl =>
    by_cases hxy : x = y
    · subst hxy
      refine .update data rfl (by simp [toWrite, hr]) rfl (unanswered_of_eq rfl rfl) ?_
      exact (k.mirror.writes_modifyNode x data).trans (Mirror.callUpdate_heap _).symm
    · refine .quiet _ rfl ?_ (unanswered_of_eq rfl rfl)
        ((Mirror.KeepsData.modifyNode_of_ne k.mirror _ hxy).trans (.callUpdate _ _))
      simp [toWrite, hr, Ne.symm hxy]
  | setup s hs => exact .quiet _ rfl rfl (unanswered_of_eq rfl rfl) (.setup _ _)
  | free y hy huses =>
    refine .quiet _ rfl rfl (unanswered_of_eq rfl rfl) (.free _ ?_)
    rintro rfl
    rw [Bool.eq_false_iff, ne_eq, Mirror.isReferenced_iff, not_or] at hy
    exact hy.1 ⟨u, hu⟩
  | close hs ht => exact .quiet _ rfl rfl (unanswered_of_eq rfl rfl) hkeep

/-- What carries a value is not in the outbound queue. -/
theorem ValueChange.outbound (h : ValueChange x k k' act) (outbound : List Packet) :
    ValueChange x k { k' with outbound := outbound } act := by
  cases h with
  | quiet a hin hto hans hkeep => exact .quiet _ hin hto hans hkeep
  | set i value hin hto hans hm => exact .set i value hin hto hans hm
  | fetch i tag data hi hin hto hans hm => exact .fetch i tag data hi hin hto hans hm
  | satisfy p hin hto hto' hx hans hkeep => exact .satisfy p hin hto hto' hx hans hkeep
  | dispatch p hin hto hto' hx hans hkeep => exact .dispatch p hin hto hto' hx hans hkeep
  | update data hin hto hto' hans hm => exact .update data hin hto hto' hans hm

/-- The value that the step writes into the object at `x` because the server has sent it. -/
def applied (k : Client) (x : Addr) : Action → Option Buffer
  | .update => (k.toWrite x).head?
  | .proceed i =>
    match k.threads[i]? with
    | some ⟨.fetch y, .answered _ ⟨_, .getAccept data⟩⟩ => if y = x then some data else none
    | _ => none
  | _ => none

/-- A call with a `GetAccept` writes its value. -/
theorem writes_of_fetch {r tag : ℕ} {data : Buffer}
    (hi : k.threads[i]? = some ⟨.fetch x, .answered r ⟨tag, .getAccept data⟩⟩)
    (h : k.step number (.proceed i) = some (k', sent)) : k.mirror.Writes x data k'.mirror := by
  rw [step] at h
  split_ifs at h with hs
  simp only [proceed, hi, respond, Option.map_eq_some_iff] at h
  obtain ⟨k₁, hk₁, hk⟩ := h
  cases hk
  split_ifs at hk₁ with hl
  cases hk₁
  exact k.mirror.writes_modifyNode x data

/-- The reader writes the value that it has for the object. -/
theorem StepResult.writes_of_update (h : StepResult k number .update k' sent) {data : Buffer}
    (hto : (k.toWrite x).head? = some data) : k.mirror.Writes x data k'.mirror ∧
      k.toWrite x = [data] ∧ k'.toWrite x = [] ∧ k'.inbound = k.inbound := by
  cases h with
  | update y d hr hl =>
    by_cases hyx : y = x
    · subst hyx
      have hd : k.toWrite y = [d] := by simp [toWrite, hr]
      rw [hd, List.head?_cons, Option.some.injEq] at hto
      subst hto
      exact ⟨(k.mirror.writes_modifyNode y d).trans (Mirror.callUpdate_heap _).symm, hd, rfl, rfl⟩
    · simp [toWrite, hr, hyx] at hto

end PropertyTree.Client
