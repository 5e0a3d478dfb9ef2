import PropertyTree.Library.NamedStore

/-!
# Names in a trace of a store

Of two creations under one name below one key the first one's entry has been deleted in between, and a
creation that is refused because of its name comes after one under the same name that was not.  So a name
below a key is held by one creation at a time.
-/

namespace Library

deriving instance DecidableEq for Request, Response

namespace Store

variable {κ ν δ : Type*} [DecidableEq κ]

/-- What a request does to the entries. -/
inductive Change (empty : δ) (σ : Store κ ν δ) :
    Request κ ν δ × Option (Response κ δ) → Store κ ν δ → Prop
  | same (l : Request κ ν δ × Option (Response κ δ))
      (hl : ∀ p name u, l ≠ (.create p name, some (.created u))) : Change empty σ l σ
  | create (p : κ) (name : ν) (u : κ) (hu : u ∉ σ) (hname : ¬ σ.HasChildNamed p name) :
      Change empty σ (.create p name, some (.created u)) (σ.insert u ⟨some p, name, empty⟩)
  | delete (u : κ) : Change empty σ (.delete u, some .deleted) (σ.erase u)
  | set (u : κ) (data : δ) (e : Entry κ ν δ) (hu : σ.lookup u = some e) :
      Change empty σ (.set u data, some .stored) (σ.insert u { e with data := data })

variable {empty : δ} {σ τ : Store κ ν δ}
  {l : Request κ ν δ × Option (Response κ δ)} {ls ls' ls'' : List (Request κ ν δ × Option (Response κ δ))}
  {p u v : κ} {name : ν}

/-- The entry under the key `u` has the parent `p` and the name `name`. -/
def Holds (σ : Store κ ν δ) (u p : κ) (name : ν) : Prop :=
  ∃ e, σ.lookup u = some e ∧ e.parent = some p ∧ e.name = name

theorem Step.change (h : Step empty σ l τ) : Change empty σ l τ := by
  obtain ⟨request, response⟩ := l
  obtain ⟨fresh, hfresh, hres⟩ := h
  cases request with
  | create parent name' =>
    simp only [respond] at hres
    split_ifs at hres with hp hname <;> cases hres
    · exact .same _ (by simp)
    · exact .create parent name' fresh hfresh hname
    · exact .same _ (by simp)
  | delete key =>
    simp only [respond] at hres
    split_ifs at hres <;> cases hres
    · exact .same _ (by simp)
    · exact .delete key
    · exact .same _ (by simp)
  | set key data =>
    simp only [respond] at hres
    cases hkey : σ.lookup key with
    | none =>
      simp only [hkey] at hres
      cases hres
      exact .same _ (by simp)
    | some entry =>
      simp only [hkey] at hres
      cases hres
      exact .set key data entry hkey
  | get key =>
    cases hres
    exact .same _ (by simp)

/-- An entry keeps its parent and its name until it is deleted. -/
theorem Holds.step (h : σ.Holds u p name) (hstep : Step empty σ l τ)
    (hdel : l ≠ (.delete u, some .deleted)) : τ.Holds u p name := by
  obtain ⟨e, hu, hp, hname⟩ := h
  cases hstep.change with
  | same => exact ⟨e, hu, hp, hname⟩
  | create p' name' v hv =>
    have hne : u ≠ v := by
      rintro rfl
      exact hv (Finmap.mem_of_lookup_eq_some hu)
    exact ⟨e, (Finmap.lookup_insert_of_ne _ hne).trans hu, hp, hname⟩
  | delete v =>
    have hne : u ≠ v := by
      rintro rfl
      exact hdel rfl
    exact ⟨e, (Finmap.lookup_erase_ne hne).trans hu, hp, hname⟩
  | set v data e' hv =>
    by_cases hne : u = v
    · subst hne
      cases hv.symm.trans hu
      exact ⟨_, Finmap.lookup_insert _, hp, hname⟩
    · exact ⟨e, (Finmap.lookup_insert_of_ne _ hne).trans hu, hp, hname⟩

/-- What an entry is has been so before, or the entry has just been created. -/
theorem Holds.of_step (h : τ.Holds u p name) (hstep : Step empty σ l τ) :
    σ.Holds u p name ∨ l = (.create p name, some (.created u)) := by
  obtain ⟨e, hu, hp, hname⟩ := h
  cases hstep.change with
  | same => exact .inl ⟨e, hu, hp, hname⟩
  | create p' name' v hv =>
    by_cases hne : u = v
    · subst hne
      rw [Finmap.lookup_insert, Option.some.injEq] at hu
      subst hu
      cases hp
      cases hname
      exact .inr rfl
    · exact .inl ⟨e, (Finmap.lookup_insert_of_ne _ hne).symm.trans hu, hp, hname⟩
  | delete v =>
    by_cases hne : u = v
    · subst hne
      rw [Finmap.lookup_erase] at hu
      cases hu
    · exact .inl ⟨e, (Finmap.lookup_erase_ne hne).symm.trans hu, hp, hname⟩
  | set v data e' hv =>
    by_cases hne : u = v
    · subst hne
      rw [Finmap.lookup_insert, Option.some.injEq] at hu
      subst hu
      exact .inl ⟨e', hv, hp, hname⟩
    · exact .inl ⟨e, (Finmap.lookup_insert_of_ne _ hne).symm.trans hu, hp, hname⟩

/-- A creation that succeeds has found the name free, and holds it. -/
theorem holds_of_created (h : Step empty σ (.create p name, some (.created u)) τ) :
    ¬ σ.HasChildNamed p name ∧ τ.Holds u p name := by
  cases h.change with
  | same _ hl => exact absurd rfl (hl p name u)
  | create _ _ _ hu hname => exact ⟨hname, _, Finmap.lookup_insert _, rfl, rfl⟩

/-- A creation that is refused because of its name has found it held. -/
theorem holds_of_refused (h : Step empty σ (.create p name, some .alreadyExist) τ) :
    ∃ v, σ.Holds v p name := by
  obtain ⟨fresh, hfresh, hres⟩ := h
  simp only [respond] at hres
  split_ifs at hres with hp hname <;> cases hres
  exact hname

/-- An entry keeps its parent and its name over a trace in which it is not deleted. -/
theorem Holds.run (h : σ.Holds u p name) (hrun : Run (Step empty) σ ls τ)
    (hdel : (.delete u, some .deleted) ∉ ls) : τ.Holds u p name := by
  induction hrun with
  | nil => exact h
  | snoc run step ih =>
    rw [List.mem_append, not_or, List.mem_singleton] at hdel
    exact (ih hdel.1).step step (Ne.symm hdel.2)

/-- Of two creations under one name below one key the first one's entry has been deleted in between. -/
theorem deleted_of_run (hrun : Run (Step empty) σ (ls ++ (.create p name, some (.created u)) :: (ls' ++
    (.create p name, some (.created v)) :: ls'')) τ) : (.delete u, some .deleted) ∈ ls' := by
  by_contra hdel
  obtain ⟨σ₁, -, hrun⟩ := hrun.exists_of_append
  obtain ⟨σ₂, hfirst, hrun⟩ := hrun.exists_of_cons
  obtain ⟨σ₃, hbetween, hrun⟩ := hrun.exists_of_append
  obtain ⟨σ₄, hsecond, -⟩ := hrun.exists_of_cons
  obtain ⟨e, he⟩ := (holds_of_created hfirst).2.run hbetween hdel
  exact (holds_of_created hsecond).1 ⟨u, e, he⟩

/-- What holds a name at the end of a trace has been created in it, if the name was free before. -/
theorem created_of_run (hfree : ∀ u, ¬ σ.Holds u p name) (hrun : Run (Step empty) σ ls τ)
    (h : τ.Holds u p name) : (.create p name, some (.created u)) ∈ ls := by
  induction hrun with
  | nil => exact absurd h (hfree u)
  | snoc run step ih =>
    rcases h.of_step step with hold | rfl
    · exact List.mem_append_left _ (ih hold)
    · exact List.mem_append_right _ (List.mem_singleton.mpr rfl)

/-- A creation that is refused because of its name comes after one that was not. -/
theorem created_of_refused (hfree : ∀ u, ¬ σ.Holds u p name)
    (hrun : Run (Step empty) σ (ls ++ (.create p name, some .alreadyExist) :: ls') τ) :
    ∃ u, (.create p name, some (.created u)) ∈ ls := by
  obtain ⟨σ₁, hbefore, hrun⟩ := hrun.exists_of_append
  obtain ⟨σ₂, hstep, -⟩ := hrun.exists_of_cons
  obtain ⟨u, hu⟩ := holds_of_refused hstep
  exact ⟨u, created_of_run hfree hbefore hu⟩

end Store

end Library
