import Mathlib

/-!
# Programs with a state and exceptions

A program is a function of type `ExceptT ε (StateM σ) α`: it keeps its state when it throws.
`Returns x s Q` says that `x` returns when it is started in `s`, and that its result and its last state
satisfy `Q`.  `Ends x s Q` and `Within R x` look at every end of `x`, also at an exception: the last
state satisfies `Q`, or is related to the first one by `R`, from wherever `x` is started.  All three
are composed along `>>=`, the last one for a reflexive and transitive `R`.
-/

namespace Library

universe u

variable {σ ε α β : Type u}

/-- The programs over the states `σ` with the exceptions `ε`. -/
abbrev Program (σ ε α : Type u) : Type u := ExceptT ε (StateM σ) α

/-- How a program ends when it is started in a state, and in which state. -/
def Program.result (x : Program σ ε α) (s : σ) : Except ε α × σ :=
  x.run.run s

/-- The program returns, and its result and its last state satisfy `Q`. -/
def Returns (x : Program σ ε α) (s : σ) (Q : α → σ → Prop) : Prop :=
  ∃ a t, x.result s = (.ok a, t) ∧ Q a t

/-- However the program ends, its last state satisfies `Q`. -/
def Ends (x : Program σ ε α) (s : σ) (Q : σ → Prop) : Prop :=
  Q (x.result s).2

/-- However the program ends, `R` relates the state it is started in to its last state. -/
def Within (R : σ → σ → Prop) (x : Program σ ε α) : Prop :=
  ∀ s, Ends x s (R s)

variable {x : Program σ ε α} {f : α → Program σ ε β} {s : σ} {a : α} {e : ε}

@[simp] theorem result_pure : (pure a : Program σ ε α).result s = (.ok a, s) := rfl

@[simp] theorem result_throw : (throw e : Program σ ε α).result s = (.error e, s) := rfl

@[simp] theorem result_get : (get : Program σ ε σ).result s = (.ok s, s) := rfl

@[simp] theorem result_modify (g : σ → σ) :
    (modify g : Program σ ε PUnit).result s = (.ok ⟨⟩, g s) := rfl

/-- A composition goes on when its first part returns. -/
theorem result_bind (x : Program σ ε α) (f : α → Program σ ε β) (s : σ) :
    (x >>= f).result s = match x.result s with
      | (.ok a, t) => (f a).result t
      | (.error e, t) => (.error e, t) := by
  have hbind : (x >>= f).result s = match x.result s with
      | (r, t) => (match r with
        | .ok a => f a
        | .error e => throw e : Program σ ε β).result t := rfl
  rw [hbind]
  rcases x.result s with ⟨_ | _, t⟩ <;> rfl

/-! ## Programs that return -/

section Returns

variable {P Q : α → σ → Prop} {R : β → σ → Prop}

/-- A result is returned at once. -/
theorem returns_pure (h : Q a s) : Returns (pure a : Program σ ε α) s Q :=
  ⟨a, s, rfl, h⟩

/-- A change of the state returns. -/
theorem returns_modify {g : σ → σ} {Q : PUnit → σ → Prop} (h : Q ⟨⟩ (g s)) :
    Returns (modify g : Program σ ε PUnit) s Q :=
  ⟨⟨⟩, g s, rfl, h⟩

/-- Reading the state before going on. -/
theorem returns_get_bind {f : σ → Program σ ε β} (h : Returns (f s) s R) : Returns (get >>= f) s R :=
  h

/-- Changing the state before going on. -/
theorem returns_modify_bind {g : σ → σ} {f : PUnit → Program σ ε β} (h : Returns (f ⟨⟩) (g s) R) :
    Returns (modify g >>= f) s R :=
  h

/-- A composition returns when its parts do, one after the other. -/
theorem Returns.bind (h : Returns x s P) (h' : ∀ a t, P a t → Returns (f a) t R) :
    Returns (x >>= f) s R := by
  obtain ⟨a, t, hx, ha⟩ := h
  obtain ⟨b, u, hf, hb⟩ := h' a t ha
  refine ⟨b, u, ?_, hb⟩
  rw [result_bind, hx]
  exact hf

/-- A weaker statement about the end of a program. -/
theorem Returns.mono (h : Returns x s P) (hPQ : ∀ a t, P a t → Q a t) : Returns x s Q := by
  obtain ⟨a, t, hx, ha⟩ := h
  exact ⟨a, t, hx, hPQ a t ha⟩

end Returns

/-! ## What holds at every end of a program -/

section Within

variable {R : σ → σ → Prop}

/-- Returning at once changes nothing. -/
theorem within_pure (hrefl : ∀ s, R s s) : Within R (pure a : Program σ ε α) :=
  fun s => hrefl s

/-- Throwing changes nothing. -/
theorem within_throw (hrefl : ∀ s, R s s) : Within R (throw e : Program σ ε α) :=
  fun s => hrefl s

/-- Reading the state changes nothing. -/
theorem within_get (hrefl : ∀ s, R s s) : Within R (get : Program σ ε σ) :=
  fun s => hrefl s

/-- Changing the state. -/
theorem within_modify {g : σ → σ} (h : ∀ s, R s (g s)) :
    Within R (modify g : Program σ ε PUnit) :=
  h

/-- Reading the state before going on. -/
theorem within_get_bind {f : σ → Program σ ε β} (h : ∀ s, Ends (f s) s (R s)) :
    Within R (get >>= f) :=
  h

/-- A composition, wherever it ends. -/
theorem Within.bind (htrans : ∀ {s t u}, R s t → R t u → R s u) (h : Within R x)
    (h' : ∀ a, Within R (f a)) : Within R (x >>= f) := by
  intro s
  have hx := h s
  rw [Ends, result_bind]
  rw [Ends] at hx
  rcases hres : x.result s with ⟨e | a, t⟩
  · rwa [hres] at hx
  · rw [hres] at hx
    exact htrans hx (h' a t)

/-- A program that returns stays within what all its ends stay in. -/
theorem Returns.within {P : α → σ → Prop} (h : Returns x s P) (h' : Within R x) :
    Returns x s fun a t => P a t ∧ R s t := by
  obtain ⟨a, t, hx, ha⟩ := h
  have ht := h' s
  rw [Ends, hx] at ht
  exact ⟨a, t, hx, ha, ht⟩

variable {Q : σ → Prop}

/-- The ends of a composition whose first part returns are those of its second part. -/
theorem Returns.ends_bind {P : α → σ → Prop} (h : Returns x s P)
    (h' : ∀ a t, P a t → Ends (f a) t Q) : Ends (x >>= f) s Q := by
  obtain ⟨a, t, hx, ha⟩ := h
  rw [Ends, result_bind, hx]
  exact h' a t ha

/-- What holds at every end of the first part, and is not lost by the second one. -/
theorem Ends.bind (h : Ends x s Q) (hQ : ∀ {t u}, Q t → R t u → Q u) (h' : ∀ a, Within R (f a)) :
    Ends (x >>= f) s Q := by
  rw [Ends] at h
  rw [Ends, result_bind]
  rcases hres : x.result s with ⟨e | a, t⟩
  · rwa [hres] at h
  · rw [hres] at h
    exact hQ h (h' a t)

end Within

end Library
