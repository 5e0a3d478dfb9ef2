import Mathlib

/-!
# Labelled transition systems

A step relation `Step : σ → ε → σ → Prop` reads "from the first state, with this label, to the
second".  `Run Step s es t` is a finite run, the labels in the order they happened; runs grow at
their end, so that an invariant of the past of a run is proved by one case for the last step.
`Guarded C Step` keeps the steps whose source state and label satisfy `C`: a run of it is a run
all of whose steps meet the condition.  `Completes` looks at a run from its first step instead and
is what a fallible step function needs.  What a run does under the keys of a map can be kept beside it
as a log, of which `lastOf` reads the last entry.
-/

namespace Library

universe u v w

variable {σ : Type u} {ε : Type v}

/-- Finite runs of a labelled step relation, in the order of their labels. -/
inductive Run (Step : σ → ε → σ → Prop) : σ → List ε → σ → Prop
  /-- The run without a step. -/
  | nil (s : σ) : Run Step s [] s
  /-- One further step at the end of a run. -/
  | snoc {s t u : σ} {es : List ε} {e : ε} (run : Run Step s es t) (step : Step t e u) :
      Run Step s (es ++ [e]) u

/-- The steps of `Step` whose source state and label satisfy `C`. -/
def Guarded (C : σ → ε → Prop) (Step : σ → ε → σ → Prop) : σ → ε → σ → Prop :=
  fun s e t => C s e ∧ Step s e t

/-- The steps of `Step` that lead to a state with `P`. -/
def Reaching (P : σ → Prop) (Step : σ → ε → σ → Prop) : σ → ε → σ → Prop :=
  fun s e t => Step s e t ∧ P t

namespace Run

variable {Step Step' : σ → ε → σ → Prop} {s t u : σ} {es fs : List ε} {e : ε}

/-- A single step is a run. -/
theorem single (h : Step s e t) : Run Step s [e] t :=
  (Run.nil s).snoc h

/-- Runs compose. -/
theorem append (h : Run Step s es t) (h' : Run Step t fs u) : Run Step s (es ++ fs) u := by
  induction h' with
  | nil => simpa using h
  | snoc _ step ih =>
    rw [← List.append_assoc]
    exact ih.snoc step

/-- A step in front of a run. -/
theorem cons (h : Step s e t) (h' : Run Step t fs u) : Run Step s (e :: fs) u :=
  (single h).append h'

/-- A run of length zero stays where it is. -/
theorem eq_of_nil (h : Run Step s [] t) : s = t := by
  generalize hes : ([] : List ε) = es at h
  cases h with
  | nil => rfl
  | snoc _ _ => simp at hes

/-- The last step of a run. -/
theorem exists_of_concat (h : Run Step s (es ++ [e]) u) : ∃ t, Run Step s es t ∧ Step t e u := by
  generalize hfs : es ++ [e] = fs at h
  cases h with
  | nil => simp at hfs
  | snoc run step =>
    obtain ⟨rfl, hlast⟩ := List.append_inj' hfs rfl
    obtain rfl : e = _ := by simpa using hlast
    exact ⟨_, run, step⟩

/-- A run along a concatenation passes through a state in between. -/
theorem exists_of_append (h : Run Step s (es ++ fs) u) : ∃ t, Run Step s es t ∧ Run Step t fs u := by
  induction fs using List.reverseRecOn generalizing u with
  | nil => exact ⟨u, by simpa using h, .nil u⟩
  | append_singleton fs e ih =>
    rw [← List.append_assoc] at h
    obtain ⟨v, hrun, hstep⟩ := h.exists_of_concat
    obtain ⟨t, hst, htv⟩ := ih hrun
    exact ⟨t, hst, htv.snoc hstep⟩

/-- The first step of a run. -/
theorem exists_of_cons (h : Run Step s (e :: es) u) : ∃ t, Step s e t ∧ Run Step t es u := by
  obtain ⟨t, hst, htu⟩ := exists_of_append (show Run Step s ([e] ++ es) u from h)
  obtain ⟨v, hsv, hstep⟩ := exists_of_concat (show Run Step s ([] ++ [e]) t from hst)
  exact ⟨t, hsv.eq_of_nil ▸ hstep, htu⟩

/-- A label of a run is that of one of its steps. -/
theorem exists_step_of_mem (h : Run Step s es t) (he : e ∈ es) : ∃ u v, Step u e v := by
  induction h with
  | nil => cases he
  | snoc run step ih =>
    rcases List.mem_append.mp he with he | he
    · exact ih he
    · obtain rfl := List.mem_singleton.mp he
      exact ⟨_, _, step⟩

/-- Runs are monotone in the step relation. -/
theorem mono (hmono : ∀ s e t, Step s e t → Step' s e t) (h : Run Step s es t) :
    Run Step' s es t := by
  induction h with
  | nil => exact .nil _
  | snoc _ step ih => exact ih.snoc (hmono _ _ _ step)

/-- A function that takes steps to steps takes runs to runs. -/
theorem map {τ : Type w} {Step' : τ → ε → τ → Prop} {f : σ → τ}
    (hmap : ∀ s e t, Step s e t → Step' (f s) e (f t)) (h : Run Step s es t) :
    Run Step' (f s) es (f t) := by
  induction h with
  | nil => exact .nil _
  | snoc _ step ih => exact ih.snoc (hmap _ _ _ step)

/-- What holds at the start and is kept by every step holds at the end of every run. -/
theorem invariant {P : σ → Prop} (hstep : ∀ {t e u}, P t → Step t e u → P u) (h0 : P s)
    (h : Run Step s es t) : P t := by
  induction h with
  | nil => exact h0
  | snoc _ step ih => exact hstep ih step

/-- The same for a property of the labels so far and the state reached by them. -/
theorem history {P : List ε → σ → Prop}
    (hstep : ∀ {es t e u}, P es t → Step t e u → P (es ++ [e]) u) (h0 : P [] s)
    (h : Run Step s es t) : P es t := by
  induction h with
  | nil => exact h0
  | snoc _ step ih => exact hstep ih step

/-- Forward simulation: if every step of a run that starts in related states is matched by a run of
the second system along the labels `f e`, so is the whole run. -/
theorem simulate {τ : Type w} {δ : Type*} {AStep : τ → δ → τ → Prop} {R : σ → τ → Prop}
    {f : ε → List δ}
    (hstep : ∀ {t e u a}, R t a → Step t e u → ∃ b, Run AStep a (f e) b ∧ R u b)
    {a : τ} (h0 : R s a) (h : Run Step s es t) :
    ∃ b, Run AStep a (es.flatMap f) b ∧ R t b := by
  induction h with
  | nil => exact ⟨a, .nil a, h0⟩
  | snoc _ step ih =>
    obtain ⟨b, hab, hb⟩ := ih
    obtain ⟨c, hbc, hc⟩ := hstep hb step
    exact ⟨c, by simpa using hab.append hbc, hc⟩

/-- A guarded run is a run. -/
theorem of_guarded {C : σ → ε → Prop} (h : Run (Guarded C Step) s es t) : Run Step s es t :=
  h.mono fun _ _ _ hst => hst.2

/-- If from the states with `P` exactly the steps with `C` lead to states with `P`, at every state
that satisfies an invariant `I` of all steps, then the runs through states with `P` are the runs
whose steps all meet `C`. -/
theorem guarded_iff_reaching {C : σ → ε → Prop} {P I : σ → Prop}
    (hI : ∀ {t e u}, I t → Step t e u → I u)
    (hiff : ∀ {t e u}, I t → P t → Step t e u → (C t e ↔ P u)) (hI0 : I s) (h0 : P s) :
    Run (Guarded C Step) s es t ↔ Run (Reaching P Step) s es t := by
  constructor
  · intro h
    suffices hinv : Run (Reaching P Step) s es t ∧ I t ∧ P t from hinv.1
    refine h.history (P := fun es t => Run (Reaching P Step) s es t ∧ I t ∧ P t) ?_
      ⟨.nil s, hI0, h0⟩
    rintro es t e u ⟨hrun, hIt, hPt⟩ ⟨hC, hstep⟩
    have hPu := (hiff hIt hPt hstep).mp hC
    exact ⟨hrun.snoc ⟨hstep, hPu⟩, hI hIt hstep, hPu⟩
  · intro h
    suffices hinv : Run (Guarded C Step) s es t ∧ I t ∧ P t from hinv.1
    refine h.history (P := fun es t => Run (Guarded C Step) s es t ∧ I t ∧ P t) ?_
      ⟨.nil s, hI0, h0⟩
    rintro es t e u ⟨hrun, hIt, hPt⟩ ⟨hstep, hPu⟩
    exact ⟨hrun.snoc ⟨(hiff hIt hPt hstep).mpr hPu, hstep⟩, hI hIt hstep, hPu⟩

/-- If from the states with `P` exactly the steps with `C` lead to states with `P`, and no step leads
back to one, then a run has come to a state with `P` exactly when all its steps meet `C`. -/
theorem guarded_iff_of_stable {C : σ → ε → Prop} {P I : σ → Prop}
    (hI : ∀ {t e u}, I t → Step t e u → I u)
    (hiff : ∀ {t e u}, I t → P t → Step t e u → (C t e ↔ P u))
    (hstable : ∀ {t e u}, Step t e u → P u → P t) (hI0 : I s) (h0 : P s)
    (h : Run Step s es t) : Run (Guarded C Step) s es t ↔ P t := by
  constructor
  · intro hrun
    suffices hinv : I t ∧ P t from hinv.2
    refine hrun.invariant (P := fun t => I t ∧ P t) ?_ ⟨hI0, h0⟩
    rintro t e u ⟨hIt, hPt⟩ ⟨hC, hstep⟩
    exact ⟨hI hIt hstep, (hiff hIt hPt hstep).mp hC⟩
  · suffices hinv : I t ∧ (P t → Run (Guarded C Step) s es t) from hinv.2
    refine h.history (P := fun es t => I t ∧ (P t → Run (Guarded C Step) s es t)) ?_
      ⟨hI0, fun _ => .nil s⟩
    rintro es t e u ⟨hIt, hrun⟩ hstep
    refine ⟨hI hIt hstep, fun hPu => ?_⟩
    have hPt := hstable hstep hPu
    exact (hrun hPt).snoc ⟨(hiff hIt hPt hstep).mpr hPu, hstep⟩

/-- If a step meets `C` exactly when its label has `P`, at every state that satisfies an invariant `I`
of all steps, then a run has only labels with `P` exactly when all its steps meet `C`. -/
theorem guarded_iff_labels {C : σ → ε → Prop} {P : ε → Prop} {I : σ → Prop}
    (hI : ∀ {t e u}, I t → Step t e u → I u)
    (hiff : ∀ {t e u}, I t → Step t e u → (C t e ↔ P e)) (hI0 : I s) (h : Run Step s es t) :
    Run (Guarded C Step) s es t ↔ ∀ e ∈ es, P e := by
  constructor
  · intro hrun
    suffices hinv : I t ∧ ∀ e ∈ es, P e from hinv.2
    refine hrun.history (P := fun es t => I t ∧ ∀ e ∈ es, P e) ?_ ⟨hI0, by simp⟩
    rintro es t e u ⟨hIt, hall⟩ ⟨hC, hstep⟩
    have hP := (hiff hIt hstep).mp hC
    exact ⟨hI hIt hstep, by simpa [or_imp, forall_and] using ⟨hall, hP⟩⟩
  · suffices hinv : I t ∧ ((∀ e ∈ es, P e) → Run (Guarded C Step) s es t) from hinv.2
    refine h.history
      (P := fun es t => I t ∧ ((∀ e ∈ es, P e) → Run (Guarded C Step) s es t)) ?_
      ⟨hI0, fun _ => .nil s⟩
    rintro es t e u ⟨hIt, hrun⟩ hstep
    refine ⟨hI hIt hstep, fun hall => ?_⟩
    have hC := (hiff hIt hstep).mpr (hall e (by simp))
    exact (hrun fun e' he' => hall e' (by simp [he'])).snoc ⟨hC, hstep⟩

/-- A run whose labels all have `P` is one that is guarded by `P`. -/
theorem guarded_of_labels {P : ε → Prop} (hall : ∀ e ∈ es, P e) (h : Run Step s es t) :
    Run (Guarded (fun _ e => P e) Step) s es t :=
  (h.guarded_iff_labels (C := fun _ e => P e) (I := fun _ => True) (fun _ _ => trivial)
    (fun _ _ => Iff.rfl) trivial).mpr hall

end Run

/-! ## Fallible step functions -/

section Fallible

variable {φ : Type w} {ω : Type*} (step : σ → ε → Except φ (σ × ω))

/-- The step relation of a fallible step function; its labels are the events with the outputs. -/
def StepOf : σ → ε × ω → σ → Prop :=
  fun s l t => step s l.1 = .ok (t, l.2)

/-- The events `es` can all be processed in order from `s`, none of them failing. -/
def Completes : σ → List ε → Prop
  | _, [] => True
  | s, e :: es => ∃ t o, step s e = .ok (t, o) ∧ Completes t es

/-- `C` holds at every step of the processing of `es` from `s`, up to and including the first step
that fails. -/
def Along (C : σ → ε → Prop) : σ → List ε → Prop
  | _, [] => True
  | s, e :: es => C s e ∧ ∀ t o, step s e = .ok (t, o) → Along C t es

/-- If a step fails exactly where `C` is violated, at every state that satisfies an invariant of the
completed steps, then a sequence of events completes exactly when all its steps meet `C`. -/
theorem completes_iff_along {P : σ → Prop} {C : σ → ε → Prop}
    (hstep : ∀ {s e t o}, P s → step s e = .ok (t, o) → P t)
    (hfail : ∀ {s e}, P s → ((∃ f, step s e = .error f) ↔ ¬ C s e)) {s : σ} (hs : P s)
    (es : List ε) : Completes step s es ↔ Along step C s es := by
  induction es generalizing s with
  | nil => exact Iff.rfl
  | cons e es ih =>
    constructor
    · rintro ⟨t, o, hok, hes⟩
      refine ⟨by_contra fun hC => ?_, fun t' o' hok' => ?_⟩
      · obtain ⟨f, hf⟩ := (hfail hs).mpr hC
        rw [hok] at hf
        cases hf
      · rw [hok] at hok'
        cases hok'
        exact (ih (hstep hs hok)).mp hes
    · rintro ⟨hC, hes⟩
      cases hok : step s e with
      | error f => exact absurd hC ((hfail hs).mp ⟨f, hok⟩)
      | ok r => exact ⟨r.1, r.2, hok, (ih (hstep hs hok)).mpr (hes _ _ hok)⟩

/-- The processing of events one after the other as long as a test passes, with the outputs of
each. -/
def execute (guard : σ → ε → Bool) : σ → List ε → Option (σ × List (ε × ω))
  | s, [] => some (s, [])
  | s, e :: es =>
    if guard s e then
      match step s e with
      | .error _ => none
      | .ok (t, o) =>
        match execute guard t es with
        | none => none
        | some (u, ls) => some (u, (e, o) :: ls)
    else none

/-- What is executed is a run whose steps all pass the test. -/
theorem run_of_execute {guard : σ → ε → Bool} {s t : σ} {es : List ε} {ls : List (ε × ω)}
    (h : execute step guard s es = some (t, ls)) :
    Run (Guarded (fun s l => guard s l.1 = true) (StepOf step)) s ls t := by
  induction es generalizing s ls with
  | nil =>
    cases h
    exact .nil _
  | cons e es ih =>
    unfold execute at h
    split_ifs at h with hguard
    split at h
    · cases h
    rename_i u o hok
    split at h
    · cases h
    rename_i hes
    cases h
    exact .cons ⟨hguard, hok⟩ (ih hes)

/-- What is executed are the events that were given. -/
theorem map_fst_of_execute {guard : σ → ε → Bool} {s t : σ} {es : List ε} {ls : List (ε × ω)}
    (h : execute step guard s es = some (t, ls)) : ls.map Prod.fst = es := by
  induction es generalizing s ls with
  | nil =>
    cases h
    rfl
  | cons e es ih =>
    unfold execute at h
    split_ifs at h
    split at h
    · cases h
    split at h
    · cases h
    rename_i hes
    cases h
    exact congrArg (e :: ·) (ih hes)

end Fallible

/-! ## Step functions that are not everywhere defined -/

section Enabled

variable (step : σ → ε → Option σ)

/-- The step relation of a step function that is defined where the step is enabled. -/
def Follows : σ → ε → σ → Prop :=
  fun s e t => step s e = some t

/-- The steps `es` one after the other, as long as they are enabled and a test passes. -/
def follow (guard : σ → ε → Bool) : σ → List ε → Option σ
  | s, [] => some s
  | s, e :: es =>
    if guard s e then
      match step s e with
      | none => none
      | some t => follow guard t es
    else none

/-- What can be followed is a run whose steps all pass the test. -/
theorem run_of_follow {guard : σ → ε → Bool} {s t : σ} {es : List ε}
    (h : follow step guard s es = some t) :
    Run (Guarded (fun s e => guard s e = true) (Follows step)) s es t := by
  induction es generalizing s with
  | nil =>
    cases h
    exact .nil _
  | cons e es ih =>
    unfold follow at h
    split_ifs at h with hguard
    split at h
    · cases h
    · exact .cons ⟨hguard, ‹_›⟩ (ih h)

end Enabled

/-! ## Logs beside a run

A log of keyed entries says of a key what its last entry with that key says, and nothing if there is
none.  What a state holds under a key follows from what it held before the log began. -/

section KeyedLog

variable {κ β : Type*} [DecidableEq κ]

/-- What the last entry of the log with the key says. -/
def lastOf (key : κ) (log : List (κ × β)) : Option β :=
  (log.reverse.find? fun x => x.1 = key).map Prod.snd

variable {key : κ} {log log' : List (κ × β)} {x : κ × β}

/-- An entry stays at its place when the log grows. -/
theorem getElem?_append_of_some {l : List β} {n : ℕ} {b : β} (h : l[n]? = some b) (l' : List β) :
    (l ++ l')[n]? = some b := by
  rw [List.getElem?_append_left (List.getElem?_eq_some_iff.mp h).1, h]

@[simp] theorem lastOf_nil : lastOf key ([] : List (κ × β)) = none := rfl

theorem lastOf_append (key : κ) (log log' : List (κ × β)) :
    lastOf key (log ++ log') = (lastOf key log').or (lastOf key log) := by
  simp only [lastOf, List.reverse_append, List.find?_append]
  cases List.find? (fun x => decide (x.1 = key)) log'.reverse <;> rfl

theorem lastOf_singleton (key : κ) (x : κ × β) :
    lastOf key [x] = if x.1 = key then some x.2 else none := by
  by_cases h : x.1 = key <;> simp [lastOf, h]

@[simp] theorem lastOf_concat (key : κ) (log : List (κ × β)) (x : κ × β) :
    lastOf key (log ++ [x]) = if x.1 = key then some x.2 else lastOf key log := by
  rw [lastOf_append, lastOf_singleton]
  split_ifs <;> rfl

/-- A key of the log has a last entry. -/
theorem lastOf_ne_none (h : x ∈ log) : lastOf x.1 log ≠ none := by
  intro hnone
  have := List.find?_eq_none.mp (Option.map_eq_none_iff.mp hnone) x (List.mem_reverse.mpr h)
  simp at this

/-- What the last entry says is said in the log. -/
theorem mem_of_lastOf {b : β} (h : lastOf key log = some b) : (key, b) ∈ log := by
  obtain ⟨x, hx, rfl⟩ := Option.map_eq_some_iff.mp h
  obtain rfl : x.1 = key := by simpa using List.find?_some hx
  exact List.mem_reverse.mp (List.mem_of_find?_eq_some hx)

/-- A key that has a last entry has one in every longer log. -/
theorem lastOf_append_ne_none (h : lastOf key log ≠ none) (log' : List (κ × β)) :
    lastOf key (log ++ log') ≠ none := by
  rw [lastOf_append]
  cases lastOf key log' with
  | none => exact h
  | some b => exact Option.some_ne_none b

/-- A state after two logs in turn. -/
theorem getD_lastOf_append (b : β) :
    (lastOf key (log ++ log')).getD b = (lastOf key log').getD ((lastOf key log).getD b) := by
  rw [lastOf_append]
  cases lastOf key log' <;> rfl

end KeyedLog

end Library
