import PropertyTree.Library.Transition

/-!
# Shared objects as their users see them

Several callers use one object at the same time.  A history tells when a call is made and when it
returns; it is linearizable if the calls can be put into an order in which the object, used by one
caller after the other, gives the same results, and in which a call that has returned before another one
was made comes first.  A call without a return may have taken effect or not.

`Linearization` is such an order.  It grows with the history: when a call is made, when it takes effect,
and when it returns.  So a system has one if every call takes effect at one step between the two.

Of a register a user who is told of its writes knows the value before he asks for it: `Tells` says that
what is on its way to him fits to the values that the register has had.
-/

namespace Library

variable {σ α β : Type*}

/-- The call number `n` is made, or returns. -/
inductive CallEvent (α β : Type*) where
  | invoke (n : ℕ) (q : α)
  | ret (n : ℕ) (r : β)

deriving instance DecidableEq for CallEvent

/-- The number of a call that is made. -/
def CallEvent.invoked : CallEvent α β → Option ℕ
  | invoke n _ => some n
  | ret _ _ => none

/-- The operations `ops`, with the numbers of their calls, explain the history: the object carries them
out from `s₀` to `s`, every call that has returned is among them with its result, and a call that has
returned before another one was made comes before it. -/
structure Linearization (Step : σ → α × Option β → σ → Prop) (s₀ : σ)
    (history : List (CallEvent α β)) (ops : List (ℕ × α × Option β)) (s : σ) : Prop where
  run : Run Step s₀ (ops.map Prod.snd) s
  nodup : (ops.map Prod.fst).Nodup
  invoked_nodup : (history.filterMap CallEvent.invoked).Nodup
  invoked : ∀ {n q r}, (n, q, r) ∈ ops → .invoke n q ∈ history
  returned : ∀ {n r}, .ret n r ∈ history → ∃ q, (n, q, some r) ∈ ops
  order : ∀ {h₁ h₂ m r n q}, history = h₁ ++ .invoke n q :: h₂ → .ret m r ∈ h₁ →
    ∀ {ops₁ ops₂ x}, ops = ops₁ ++ (n, x) :: ops₂ → m ∈ ops₁.map Prod.fst

namespace Linearization

variable {Step : σ → α × Option β → σ → Prop} {s₀ s t : σ} {history : List (CallEvent α β)}
  {ops : List (ℕ × α × Option β)} {n : ℕ} {q : α} {r : β}

theorem nil (Step : σ → α × Option β → σ → Prop) (s₀ : σ) : Linearization Step s₀ [] [] s₀ where
  run := .nil s₀
  nodup := List.nodup_nil
  invoked_nodup := List.nodup_nil
  invoked := by simp
  returned := by simp
  order := by simp

/-- A call that has not been made has not taken effect. -/
theorem not_mem (h : Linearization Step s₀ history ops s)
    (hnew : n ∉ history.filterMap CallEvent.invoked) : n ∉ ops.map Prod.fst := by
  intro hmem
  obtain ⟨⟨n, q, r⟩, hop, rfl⟩ := List.mem_map.mp hmem
  exact hnew (List.mem_filterMap.mpr ⟨_, h.invoked hop, rfl⟩)

/-- A call is made under a new number. -/
theorem invoke (h : Linearization Step s₀ history ops s)
    (hnew : n ∉ history.filterMap CallEvent.invoked) (q : α) :
    Linearization Step s₀ (history ++ [.invoke n q]) ops s where
  run := h.run
  nodup := h.nodup
  invoked_nodup := by
    rw [List.filterMap_append]
    refine List.Nodup.append h.invoked_nodup (List.nodup_singleton n) ?_
    exact List.disjoint_singleton.mpr hnew
  invoked := fun hmem => List.mem_append_left _ (h.invoked hmem)
  returned := by
    intro n r hr
    simp only [List.mem_append, List.mem_singleton, reduceCtorEq, or_false] at hr
    exact h.returned hr
  order := by
    intro h₁ h₂ m r n' q' heq hr ops₁ ops₂ x hops
    rcases List.eq_nil_or_concat h₂ with rfl | ⟨l, e, rfl⟩
    · -- the call has not taken effect
      obtain ⟨-, hlast⟩ := List.append_inj' heq rfl
      cases hlast
      exact absurd (by simp [hops]) (h.not_mem hnew)
    · rw [List.concat_eq_append, ← List.cons_append, ← List.append_assoc] at heq
      exact h.order (List.append_inj_left' heq rfl) hr hops

/-- A call that has not returned takes effect. -/
theorem commit (h : Linearization Step s₀ history ops s) {r : Option β} (hstep : Step s (q, r) t)
    (hq : .invoke n q ∈ history) (hnew : n ∉ ops.map Prod.fst) :
    Linearization Step s₀ history (ops ++ [(n, q, r)]) t where
  run := by
    rw [List.map_append]
    exact h.run.snoc hstep
  nodup := by
    rw [List.map_append]
    exact List.Nodup.append h.nodup (List.nodup_singleton n) (by simpa using hnew)
  invoked_nodup := h.invoked_nodup
  invoked := by
    intro n' q' r' hmem
    rcases List.mem_append.mp hmem with hmem | hmem
    · exact h.invoked hmem
    · cases List.mem_singleton.mp hmem
      exact hq
  returned := by
    intro n' r' hr
    obtain ⟨q', hmem⟩ := h.returned hr
    exact ⟨q', List.mem_append_left _ hmem⟩
  order := by
    intro h₁ h₂ m r' n' q' heq hr ops₁ ops₂ x hops
    obtain ⟨q₀, hm⟩ := h.returned (heq ▸ List.mem_append_left _ hr)
    rcases List.eq_nil_or_concat ops₂ with rfl | ⟨l, y, rfl⟩
    · -- what has returned has taken effect before
      obtain ⟨rfl, -⟩ := List.append_inj' hops rfl
      exact List.mem_map_of_mem hm
    · rw [List.concat_eq_append, ← List.cons_append, ← List.append_assoc] at hops
      exact h.order heq hr (List.append_inj_left' hops rfl)

/-- A call that has taken effect returns. -/
theorem ret (h : Linearization Step s₀ history ops s) (hmem : (n, q, some r) ∈ ops) :
    Linearization Step s₀ (history ++ [.ret n r]) ops s where
  run := h.run
  nodup := h.nodup
  invoked_nodup := by
    rw [List.filterMap_append]
    exact (List.append_nil _).symm ▸ h.invoked_nodup
  invoked := fun hmem => List.mem_append_left _ (h.invoked hmem)
  returned := by
    intro n' r' hr
    rcases List.mem_append.mp hr with hr | hr
    · exact h.returned hr
    · cases List.mem_singleton.mp hr
      exact ⟨q, hmem⟩
  order := by
    intro h₁ h₂ m r' n' q' heq hr ops₁ ops₂ x hops
    rcases List.eq_nil_or_concat h₂ with rfl | ⟨l, e, rfl⟩
    · obtain ⟨-, hlast⟩ := List.append_inj' heq rfl
      cases hlast
    · rw [List.concat_eq_append, ← List.cons_append, ← List.append_assoc] at heq
      exact h.order (List.append_inj_left' heq rfl) hr hops

/-- A number belongs to one call. -/
theorem eq_of_invoke (h : Linearization Step s₀ history ops s) {q' : α} (hq : .invoke n q ∈ history)
    (hq' : .invoke n q' ∈ history) : q = q' := by
  obtain ⟨h₁, h₂, hsplit⟩ := List.append_of_mem hq
  have hnodup := h.invoked_nodup
  rw [hsplit, List.filterMap_append, show (CallEvent.invoke n q :: h₂).filterMap CallEvent.invoked =
    n :: h₂.filterMap CallEvent.invoked from rfl, List.nodup_middle, List.nodup_cons,
    ← List.filterMap_append] at hnodup
  rw [hsplit, List.mem_append, List.mem_cons] at hq'
  by_contra hne
  refine hnodup.1 (List.mem_filterMap.mpr ⟨.invoke n q', ?_, rfl⟩)
  rcases hq' with hmem | heq | hmem
  · exact List.mem_append_left _ hmem
  · exact absurd (CallEvent.invoke.inj heq).2.symm hne
  · exact List.mem_append_right _ hmem

/-- A call that has returned before another one was made comes before it, with its result. -/
theorem exists_before (h : Linearization Step s₀ history ops s) {h₁ h₂ : List (CallEvent α β)} {m : ℕ}
    {r' : β} (hcall : history = h₁ ++ .invoke n q :: h₂) (hm : .ret m r ∈ h₁)
    (hn : .ret n r' ∈ history) : ∃ ops₁ ops₂ ops₃ q', .invoke m q' ∈ history ∧
      ops = ops₁ ++ (m, q', some r) :: (ops₂ ++ (n, q, some r') :: ops₃) := by
  obtain ⟨q₂, hop⟩ := h.returned hn
  obtain rfl : q₂ = q := h.eq_of_invoke (h.invoked hop) (hcall ▸ by simp)
  obtain ⟨q', hop'⟩ := h.returned (hcall ▸ List.mem_append_left _ hm)
  obtain ⟨before, after, hops⟩ := List.append_of_mem hop
  have hbefore := h.order hcall hm hops
  -- the call is among the operations only once
  have hmem : (m, q', some r) ∈ before := by
    rw [hops] at hop'
    rcases List.mem_append.mp hop' with hmem | hmem
    · exact hmem
    · have hnodup := h.nodup
      rw [hops, List.map_append, List.nodup_append'] at hnodup
      exact absurd (List.mem_map_of_mem (f := Prod.fst) hmem) (hnodup.2.2 hbefore)
  obtain ⟨ops₁, ops₂, rfl⟩ := List.append_of_mem hmem
  exact ⟨ops₁, ops₂, after, q', h.invoked hop', by rw [hops]; simp⟩

end Linearization

/-! ## A register watched from afar

A register is written at one place, and an observer is told of it by a queue of reports: its writes are
pushed to him, and he can ask for its value. -/

section Register

/-- What an observer is told: a value that has been written, or the value at the time of a request. -/
inductive Report (α : Type*) where
  | update (a : α)
  | got (a : α)
  deriving DecidableEq

/-- The value of a report. -/
def Report.value : Report α → α
  | update a | got a => a

/-- Whether the report is one of a write. -/
def Report.isUpdate : Report α → Bool
  | update _ => true
  | got _ => false

/-- The reports on their way fit to the values that the register has had in turn, when the value with
number `n` is the last one before them: what has been written is told in order, and an answer tells the
value again that has been told last. -/
def Tells (values : List α) : ℕ → List (Report α) → Prop
  | n, [] => n + 1 = values.length
  | n, .update a :: rs => values[n + 1]? = some a ∧ Tells values (n + 1) rs
  | n, .got a :: rs => values[n]? = some a ∧ Tells values n rs

namespace Tells

variable {values : List α} {rs : List (Report α)} {n : ℕ} {v : α}

/-- A write is reported. -/
theorem update (h : Tells values n rs) (w : α) : Tells (values ++ [w]) n (rs ++ [.update w]) := by
  induction rs generalizing n with
  | nil =>
    have hlength : n + 1 = values.length := h
    refine ⟨?_, ?_⟩
    · rw [hlength, List.getElem?_append_right le_rfl, Nat.sub_self]
      rfl
    · rw [Tells, hlength, List.length_append, List.length_singleton]
  | cons r rs ih =>
    cases r with
    | update a => exact ⟨getElem?_append_of_some h.1 _, ih h.2⟩
    | got a => exact ⟨getElem?_append_of_some h.1 _, ih h.2⟩

/-- When the reports have arrived, the last value is the one that is known. -/
theorem getElem?_eq_getLast? (h : Tells values n []) : values[n]? = values.getLast? := by
  have hlength : n + 1 = values.length := h
  rw [List.getLast?_eq_getElem?, ← hlength, Nat.add_sub_cancel]

/-- A request is answered. -/
theorem got (h : Tells values n rs) (hv : values.getLast? = some v) :
    Tells values n (rs ++ [.got v]) := by
  induction rs generalizing n with
  | nil => exact ⟨h.getElem?_eq_getLast?.trans hv, h⟩
  | cons r rs ih =>
    cases r with
    | update a => exact ⟨h.1, ih h.2⟩
    | got a => exact ⟨h.1, ih h.2⟩

/-- The last value is the last one that is on its way, or the one that is known. -/
theorem getLast?_eq (h : Tells values n rs) (hv : values[n]? = some v) :
    values.getLast? = some ((rs.map Report.value).getLastD v) := by
  induction rs generalizing n v with
  | nil => exact h.getElem?_eq_getLast?.symm.trans hv
  | cons r rs ih =>
    rw [List.map_cons, List.getLastD_cons]
    cases r with
    | update a => exact ih h.2 h.1
    | got a => exact ih h.2 h.1

/-- The reports of writes tell how many values there are after the one that is known. -/
theorem add_countP (h : Tells values n rs) : n + rs.countP Report.isUpdate + 1 = values.length := by
  induction rs generalizing n with
  | nil => exact h
  | cons r rs ih =>
    rw [List.countP_cons]
    cases r with
    | update a =>
      have hlength := ih h.2
      simp only [Report.isUpdate, if_true]
      omega
    | got a => exact ih h.2

end Tells

end Register

end Library
