import PropertyTree.Library.Transition

/-!
# A store of named entries

The abstract object behind a property tree: a finite map from keys to entries, each with the key of
its parent, a name and a datum.  `respond` says what the four requests answer and how they change
the map; the key of a new entry is any key that is not in use.  `lookup_data_of_run` identifies the
datum of an entry from the trace alone: it is the last one set since the entry was created.
-/

namespace Library

/-- What a store knows about a key. -/
structure Entry (κ ν δ : Type*) where
  parent : Option κ
  name : ν
  data : δ

/-- Entries form a tree below the key `root`: parents have entries, the root alone has no parent, and
siblings have different names. -/
structure NamedTree {κ ν δ : Type*} (root : κ) (ent : κ → Option (Entry κ ν δ)) : Prop where
  parent : ∀ {k p e}, ent k = some e → e.parent = some p → k ≠ p ∧ ent p ≠ none
  parent_eq_none_iff : ∀ {k e}, ent k = some e → (e.parent = none ↔ k = root)
  sibling : ∀ {k l p e e'}, ent k = some e → ent l = some e' → e.parent = some p →
    e'.parent = some p → e.name = e'.name → k = l

/-- `ChildOf ent k l`: the entry of `l` has the parent `k`. -/
def ChildOf {κ ν δ : Type*} (ent : κ → Option (Entry κ ν δ)) (k l : κ) : Prop :=
  ∃ e, ent l = some e ∧ e.parent = some k

/-- `Below ent k l`: the key `l` lies in the subtree of `k`. -/
def Below {κ ν δ : Type*} (ent : κ → Option (Entry κ ν δ)) : κ → κ → Prop :=
  Relation.ReflTransGen (ChildOf ent)

/-- A finite map from keys to entries. -/
abbrev Store (κ ν δ : Type*) := Finmap fun _ : κ => Entry κ ν δ

/-- The requests to a store. -/
inductive Request (κ ν δ : Type*) where
  | create (parent : κ) (name : ν)
  | delete (key : κ)
  | set (key : κ) (data : δ)
  | get (key : κ)

/-- The answers of a store. -/
inductive Response (κ δ : Type*) where
  | created (key : κ)
  | parentNotFound
  | alreadyExist
  | deleted
  | deleteNotFound
  | notEmpty
  | stored
  | value (data : δ)
  | getNotFound

/-- The answer to a `get` of a key with the datum `v`, if it has one. -/
def Response.ofData {κ δ : Type*} (v : Option δ) : Response κ δ :=
  match v with
  | none => .getNotFound
  | some data => .value data

namespace Store

variable {κ ν δ : Type*} [DecidableEq κ]

/-- Some entry has the parent `k`. -/
def HasChild (σ : Store κ ν δ) (k : κ) : Prop :=
  ∃ v e, σ.lookup v = some e ∧ e.parent = some k

/-- Some entry has the parent `k` and the name `name`. -/
def HasChildNamed (σ : Store κ ν δ) (k : κ) (name : ν) : Prop :=
  ∃ v e, σ.lookup v = some e ∧ e.parent = some k ∧ e.name = name

/-- The store that holds a root only. -/
def root (k : κ) (name : ν) (data : δ) : Store κ ν δ :=
  Finmap.singleton k ⟨none, name, data⟩

variable (empty : δ)

open Classical in
/-- The answer to a request and the store after it.  A new entry is put under the key `fresh`; its
datum is `empty`.  Setting the datum of an unknown key is not answered. -/
noncomputable def respond (σ : Store κ ν δ) (fresh : κ) :
    Request κ ν δ → Store κ ν δ × Option (Response κ δ)
  | .create parent name =>
    if parent ∉ σ then (σ, some .parentNotFound)
    else if σ.HasChildNamed parent name then (σ, some .alreadyExist)
    else (σ.insert fresh ⟨some parent, name, empty⟩, some (.created fresh))
  | .delete key =>
    if key ∉ σ then (σ, some .deleteNotFound)
    else if σ.HasChild key then (σ, some .notEmpty)
    else (σ.erase key, some .deleted)
  | .set key data =>
    match σ.lookup key with
    | none => (σ, none)
    | some entry => (σ.insert key { entry with data := data }, some .stored)
  | .get key => (σ, some (.ofData ((σ.lookup key).map Entry.data)))

/-- A request is answered, with some unused key at hand for a new entry. -/
def Step (σ : Store κ ν δ) (l : Request κ ν δ × Option (Response κ δ)) (τ : Store κ ν δ) : Prop :=
  ∃ fresh, fresh ∉ σ ∧ respond empty σ fresh l.1 = (τ, l.2)

/-- The datum of the key `k` after one more exchange, when it was `v` before. -/
def track (k : κ) (v : Option δ) : Request κ ν δ × Option (Response κ δ) → Option δ
  | (.create _ _, some (.created k')) => if k' = k then some empty else v
  | (.delete k', some .deleted) => if k' = k then none else v
  | (.set k' data, some .stored) => if k' = k then some data else v
  | _ => v

/-- The datum last set under the key `k` in a trace, since the key was created; `none` when it has
not been created or has been deleted since. -/
def valueAfter (k : κ) (v : Option δ) (ls : List (Request κ ν δ × Option (Response κ δ))) :
    Option δ :=
  ls.foldl (track empty k) v

variable {empty} {σ τ : Store κ ν δ}

/-- One exchange changes the datum of a key as `track` says. -/
theorem lookup_data_of_step {l : Request κ ν δ × Option (Response κ δ)} (h : Step empty σ l τ)
    (k : κ) : (τ.lookup k).map Entry.data = track empty k ((σ.lookup k).map Entry.data) l := by
  obtain ⟨request, response⟩ := l
  obtain ⟨fresh, hfresh, h⟩ := h
  cases request with
  | create parent name =>
    simp only [respond] at h
    split_ifs at h <;> cases h
    · rfl
    · by_cases hk : fresh = k
      · subst hk
        simp [track]
      · simp [track, hk, Finmap.lookup_insert_of_ne _ (Ne.symm hk)]
    · rfl
  | delete key =>
    simp only [respond] at h
    split_ifs at h <;> cases h
    · rfl
    · by_cases hk : key = k
      · subst hk
        simp [track]
      · simp [track, hk, Finmap.lookup_erase_ne (Ne.symm hk)]
    · rfl
  | set key data =>
    simp only [respond] at h
    cases hkey : σ.lookup key with
    | none =>
      simp only [hkey] at h
      cases h
      rfl
    | some entry =>
      simp only [hkey] at h
      cases h
      by_cases hk : key = k
      · subst hk
        simp [track]
      · simp [track, hk, Finmap.lookup_insert_of_ne _ (Ne.symm hk)]
  | get key =>
    cases h
    rfl

/-- The datum of a key is the last one its trace set since its creation. -/
theorem lookup_data_of_run {ls : List (Request κ ν δ × Option (Response κ δ))}
    (h : Run (Step empty) σ ls τ) (k : κ) :
    (τ.lookup k).map Entry.data = valueAfter empty k ((σ.lookup k).map Entry.data) ls := by
  induction h with
  | nil => rfl
  | snoc _ step ih =>
    rw [valueAfter, List.foldl_append]
    simp only [List.foldl_cons, List.foldl_nil]
    rw [lookup_data_of_step step, ih, valueAfter]

/-- A `get` answers with the last datum set since the key was created. -/
theorem get_of_run {ls ls₁ ls₂ : List (Request κ ν δ × Option (Response κ δ))} {k : κ}
    {r : Option (Response κ δ)} (h : Run (Step empty) σ ls τ)
    (hls : ls = ls₁ ++ (.get k, r) :: ls₂) :
    r = some (.ofData (valueAfter empty k ((σ.lookup k).map Entry.data) ls₁)) := by
  subst hls
  obtain ⟨ρ, hpre, hpost⟩ := h.exists_of_append
  obtain ⟨ρ', hstep, -⟩ := hpost.exists_of_cons
  obtain ⟨fresh, -, hres⟩ := hstep
  rw [← lookup_data_of_run hpre]
  cases hres
  rfl

end Store

/-! ## The use of a name

Below a parent a name is unused, or in use by a leaf, as long as the entries that are inserted and erased
are those of other names. -/

section Names

variable {κ ν δ : Type*} {root p k l : κ} {name name' : ν} {data : δ} {ent ent' : κ → Option (Entry κ ν δ)}

/-- No entry below `p` has the name. -/
def Unused (ent : κ → Option (Entry κ ν δ)) (p : κ) (name : ν) : Prop :=
  ∀ {k e}, ent k = some e → e.parent = some p → e.name ≠ name

/-- The leaf `k` has the name below `p`. -/
structure InUse (ent : κ → Option (Entry κ ν δ)) (p : κ) (name : ν) (k : κ) : Prop where
  entry : ∃ e, ent k = some e ∧ e.parent = some p ∧ e.name = name
  leaf : ∀ {l e}, ent l = some e → e.parent ≠ some k

variable [DecidableEq κ]

/-- The entry of another name is inserted. -/
theorem Unused.insert (h : Unused ent p name)
    (hent : ∀ l, ent' l = if l = k then some ⟨some p, name', data⟩ else ent l) (hne : name' ≠ name) :
    Unused ent' p name := by
  intro l e hl hpar
  rw [hent] at hl
  split_ifs at hl
  · cases hl
    exact hne
  · exact h hl hpar

/-- An entry is erased. -/
theorem Unused.erase (h : Unused ent p name) (hent : ∀ l, ent' l = if l = k then none else ent l) :
    Unused ent' p name := by
  intro l e hl hpar
  rw [hent] at hl
  split_ifs at hl
  exact h hl hpar

/-- A new entry uses its name, and is a leaf. -/
theorem NamedTree.inUse (h : NamedTree root ent) (hk : ent k = none) (hp : ent p ≠ none)
    (hent : ∀ l, ent' l = if l = k then some ⟨some p, name, data⟩ else ent l) :
    InUse ent' p name k := by
  refine ⟨⟨_, (hent k).trans (if_pos rfl), rfl, rfl⟩, fun {l e} hl hpar => ?_⟩
  rw [hent] at hl
  split_ifs at hl
  · cases hl
    cases hpar
    exact hp hk
  · exact (h.parent hl hpar).2 hk

/-- Another entry is inserted below the parent. -/
theorem InUse.insert (h : InUse ent p name l) (hk : ent k = none)
    (hent : ∀ l, ent' l = if l = k then some ⟨some p, name', data⟩ else ent l) :
    InUse ent' p name l := by
  obtain ⟨⟨e, he, hpar, hname⟩, hleaf⟩ := h
  refine ⟨⟨e, ?_, hpar, hname⟩, fun {l' e'} hl' hpar' => ?_⟩
  · rw [hent, if_neg, he]
    rintro rfl
    rw [hk] at he
    cases he
  · rw [hent] at hl'
    split_ifs at hl'
    · cases hl'
      cases hpar'
      exact hleaf he hpar
    · exact hleaf hl' hpar'

/-- Another entry is erased. -/
theorem InUse.erase (h : InUse ent p name l) (hne : l ≠ k)
    (hent : ∀ l, ent' l = if l = k then none else ent l) : InUse ent' p name l := by
  obtain ⟨⟨e, he, hpar, hname⟩, hleaf⟩ := h
  refine ⟨⟨e, by rw [hent, if_neg hne, he], hpar, hname⟩, fun {l' e'} hl' => ?_⟩
  rw [hent] at hl'
  split_ifs at hl'
  exact hleaf hl'

/-- Once its entry is erased a name is unused. -/
theorem InUse.unused (h : InUse ent p name k) (ht : NamedTree root ent)
    (hent : ∀ l, ent' l = if l = k then none else ent l) : Unused ent' p name := by
  obtain ⟨⟨e, he, hpar, hname⟩, -⟩ := h
  intro l e' hl hpar' hname'
  rw [hent] at hl
  split_ifs at hl with hlk
  exact hlk (ht.sibling hl he hpar' hpar (hname'.trans hname.symm))

end Names

end Library
