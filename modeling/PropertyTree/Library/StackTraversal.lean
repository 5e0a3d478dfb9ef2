import Mathlib

/-!
# Listing a tree with an explicit stack

A tree is given by its children, `kids : α → List (κ × α)`, each with the key it has in its parent.
`listing` is the recursive preorder listing of the proper descendants of a node: every child is
listed by `emit parent key child`, right before its own descendants.  `stackLoop` computes the same
with a stack of levels, each holding the children that are still to be visited.

`stackLoop_eq` says that a level costs one turn of the loop and an entry of the listing at most two,
and that with this much fuel the loop returns the listing.  When every node has one parent the
listing has no repetition, which bounds the fuel by the number of nodes.
-/

namespace Library

variable {α κ ε : Type*} {kids : α → List (κ × α)} {rank : α → ℕ}

section Listing

variable (kids) (emit : α → κ → α → ε)

/-- The proper descendants of a node in preorder, for a tree whose ranks decrease downwards. -/
def listing (hrank : ∀ a, ∀ kc ∈ kids a, rank kc.2 < rank a) (a : α) : List ε :=
  (kids a).attach.flatMap fun kc => emit a kc.1.1 kc.1.2 :: listing hrank kc.1.2
termination_by rank a
decreasing_by exact hrank a kc.1 kc.2

/-- The stack loop.  The head of the stack is its top; a level is a node with its children not yet
visited, and an exhausted level is popped. -/
def stackLoop (descend : Bool) : ℕ → List (α × List (κ × α)) → List ε → Option (List ε)
  | 0, _, _ => none
  | _ + 1, [], _ => none
  | fuel + 1, (_, []) :: levels, out =>
    if levels.isEmpty then some out else stackLoop descend fuel levels out
  | fuel + 1, (p, (k, a) :: current) :: levels, out =>
    if (kids a).length ≠ 0 && descend then
      stackLoop descend fuel ((a, kids a) :: (p, current) :: levels) (out ++ [emit p k a])
    else stackLoop descend fuel ((p, current) :: levels) (out ++ [emit p k a])

end Listing

variable {emit : α → κ → α → ε}

/-- The defining equation of the listing. -/
theorem listing_eq (hrank : ∀ a, ∀ kc ∈ kids a, rank kc.2 < rank a) (a : α) :
    listing kids emit hrank a =
      (kids a).flatMap fun kc => emit a kc.1 kc.2 :: listing kids emit hrank kc.2 := by
  rw [listing, List.flatMap_def, List.flatMap_def]
  exact congrArg List.flatten (List.attach_map_val
    (f := fun kc : κ × α => emit a kc.1 kc.2 :: listing kids emit hrank kc.2))

/-- Listing through a function is listing and then applying it. -/
theorem map_listing {δ : Type*} (emit : α → κ → α → ε) (f : ε → δ)
    (hrank : ∀ a, ∀ kc ∈ kids a, rank kc.2 < rank a) (a : α) : (listing kids emit hrank a).map f =
      listing kids (fun p k c => f (emit p k c)) hrank a := by
  induction hr : rank a using Nat.strong_induction_on generalizing a with
  | _ r ih =>
    subst hr
    rw [listing_eq, listing_eq, List.map_flatMap]
    refine List.flatMap_congr fun kc hkc => ?_
    rw [List.map_cons, ih _ (hrank a kc hkc) kc.2 rfl]

/-- A node without children has an empty listing. -/
theorem listing_of_kids_eq_nil {hrank : ∀ a, ∀ kc ∈ kids a, rank kc.2 < rank a} {a : α}
    (h : kids a = []) : listing kids emit hrank a = [] := by
  rw [listing_eq, h, List.flatMap_nil]

/-! ## The loop computes the listing -/

section Loop

variable (kids emit) (descend : Bool) (hrank : ∀ a, ∀ kc ∈ kids a, rank kc.2 < rank a)

/-- What is listed below an entry: its own listing if the loop descends, and nothing otherwise. -/
def below (a : α) : List ε :=
  if descend then listing kids emit hrank a else []

/-- What a level still has to contribute to the output. -/
def remaining (level : α × List (κ × α)) : List ε :=
  level.2.flatMap fun kc => emit level.1 kc.1 kc.2 :: below kids emit descend hrank kc.2

end Loop

variable {descend : Bool} {hrank : ∀ a, ∀ kc ∈ kids a, rank kc.2 < rank a}

/-- The level pushed for a node contributes what is listed below it. -/
theorem remaining_kids (hd : descend = true) (a : α) :
    remaining kids emit descend hrank (a, kids a) = below kids emit descend hrank a := by
  rw [remaining, below, if_pos hd, listing_eq]
  simp only [below, if_pos hd]

/-- Below an entry for which the loop pushes no level, nothing is listed. -/
theorem below_eq_nil (emit : α → κ → α → ε)
    (hrank : ∀ a, ∀ kc ∈ kids a, rank kc.2 < rank a) {a : α} (h : ¬ ((kids a).length ≠ 0 && descend) = true) :
    below kids emit descend hrank a = [] := by
  unfold below
  split_ifs with hd
  · refine listing_of_kids_eq_nil (List.length_eq_zero_iff.mp ?_)
    simpa [hd] using h
  · rfl

/-- The loop, run with one unit of fuel for every level and two for every entry that is still to be
listed, appends exactly these entries, level by level.  The induction is on the fuel; every turn of
the loop removes a level, or lists an entry and pushes at most one level for it. -/
theorem stackLoop_eq (hrank : ∀ a, ∀ kc ∈ kids a, rank kc.2 < rank a) (fuel : ℕ)
    (levels : List (α × List (κ × α))) (out : List ε) (hne : levels ≠ [])
    (hfuel : levels.length +
      2 * (levels.flatMap (remaining kids emit descend hrank)).length ≤ fuel) :
    stackLoop kids emit descend fuel levels out =
      some (out ++ levels.flatMap (remaining kids emit descend hrank)) := by
  induction fuel generalizing levels out with
  | zero =>
    have : levels.length = 0 := by omega
    exact absurd (List.length_eq_zero_iff.mp this) hne
  | succ fuel ih =>
    obtain ⟨⟨p, current⟩, levels, rfl⟩ := List.exists_cons_of_ne_nil hne
    cases current with
    | nil =>
      rw [stackLoop]
      cases levels with
      | nil => simp [remaining]
      | cons level levels =>
        have hrest := ih (level :: levels) out (by simp) (by
          simp only [List.flatMap_cons, List.length_cons, remaining] at hfuel ⊢
          simp only [List.flatMap_nil, List.nil_append] at hfuel
          omega)
        simpa [remaining] using hrest
    | cons entry current =>
      obtain ⟨k, a⟩ := entry
      -- the entry's own contribution is itself followed by what is below it
      have hentry : remaining kids emit descend hrank (p, (k, a) :: current) =
          emit p k a :: (below kids emit descend hrank a ++
            remaining kids emit descend hrank (p, current)) := by
        simp [remaining]
      rw [stackLoop]
      simp only [List.flatMap_cons, hentry, List.length_cons, List.length_append,
        List.cons_append] at hfuel
      split_ifs with hpush
      · have hd : descend = true := by
          simp only [Bool.and_eq_true] at hpush
          exact hpush.2
        rw [ih _ _ (by simp) (by
          simp only [List.flatMap_cons, remaining_kids hd, List.length_cons, List.length_append]
          omega)]
        simp only [List.flatMap_cons, hentry, remaining_kids hd, List.append_assoc,
          List.cons_append, List.nil_append]
      · have hbelow := below_eq_nil emit hrank hpush
        rw [ih _ _ (by simp) (by
          simp only [List.flatMap_cons, List.length_cons, List.length_append]
          omega)]
        simp only [List.flatMap_cons, hentry, hbelow, List.append_assoc, List.cons_append,
          List.nil_append]

/-- The loop started on the children of a node returns its listing. -/
theorem stackLoop_eq_listing (hrank : ∀ a, ∀ kc ∈ kids a, rank kc.2 < rank a) {a : α} {fuel : ℕ} {out : List ε}
    (hfuel : 2 * (listing kids emit hrank a).length + 1 ≤ fuel) :
    stackLoop kids emit true fuel [(a, kids a)] out = some (out ++ listing kids emit hrank a) := by
  have hrem : [(a, kids a)].flatMap (remaining kids emit true hrank) =
      listing kids emit hrank a := by
    simp [remaining_kids, below]
  rw [stackLoop_eq hrank fuel _ _ (by simp) (by rw [hrem]; simp; omega), hrem]

/-- The loop that does not descend returns the children. -/
theorem stackLoop_eq_map (hrank : ∀ a, ∀ kc ∈ kids a, rank kc.2 < rank a) {a : α} {fuel : ℕ}
    {out : List ε} (hfuel : 2 * (kids a).length + 1 ≤ fuel) :
    stackLoop kids emit false fuel [(a, kids a)] out =
      some (out ++ (kids a).map fun kc => emit a kc.1 kc.2) := by
  have hrem : [(a, kids a)].flatMap (remaining kids emit false hrank) =
      (kids a).map fun kc => emit a kc.1 kc.2 := by
    simp [remaining, below, ← List.map_eq_flatMap]
  rw [stackLoop_eq hrank fuel _ _ (by simp) (by rw [hrem]; simp; omega), hrem]

/-! ## What is listed -/

/-- `IsKid kids a b`: the node `b` is a child of `a`. -/
def IsKid (kids : α → List (κ × α)) (a b : α) : Prop :=
  ∃ k, (k, b) ∈ kids a

/-- The entries of a listing are the children of the nodes reachable from the start. -/
theorem mem_listing_iff {a : α} {x : ε} :
    x ∈ listing kids emit hrank a ↔
      ∃ p k c, Relation.ReflTransGen (IsKid kids) a p ∧ (k, c) ∈ kids p ∧ emit p k c = x := by
  induction hr : rank a using Nat.strong_induction_on generalizing a with
  | _ r ih =>
    subst hr
    rw [listing_eq, List.mem_flatMap]
    constructor
    · rintro ⟨⟨k, c⟩, hkc, hx⟩
      rcases List.mem_cons.mp hx with rfl | hx
      · exact ⟨a, k, c, .refl, hkc, rfl⟩
      · obtain ⟨p, k', c', hreach, hkc', rfl⟩ := (ih _ (hrank a _ hkc) rfl).mp hx
        exact ⟨p, k', c', .head ⟨k, hkc⟩ hreach, hkc', rfl⟩
    · rintro ⟨p, k, c, hreach, hkc, rfl⟩
      rcases hreach.cases_head with rfl | ⟨b, ⟨k', hb⟩, hreach⟩
      · exact ⟨(k, c), hkc, List.mem_cons_self⟩
      · exact ⟨(k', b), hb, List.mem_cons_of_mem _
          ((ih _ (hrank a _ hb) rfl).mpr ⟨p, k, c, hreach, hkc, rfl⟩)⟩

/-- Ranks do not increase downwards. -/
theorem rank_le_of_reach (hrank : ∀ a, ∀ kc ∈ kids a, rank kc.2 < rank a) {a b : α}
    (h : Relation.ReflTransGen (IsKid kids) a b) : rank b ≤ rank a := by
  induction h with
  | refl => exact le_rfl
  | tail _ hkid ih =>
    obtain ⟨k, hk⟩ := hkid
    exact (hrank _ _ hk).le.trans ih

/-- Two nodes above the same node lie on one path, if every node has one parent. -/
theorem reach_total (hparent : ∀ {a b c}, IsKid kids a c → IsKid kids b c → a = b) {a b x : α}
    (ha : Relation.ReflTransGen (IsKid kids) a x) (hb : Relation.ReflTransGen (IsKid kids) b x) :
    Relation.ReflTransGen (IsKid kids) a b ∨ Relation.ReflTransGen (IsKid kids) b a := by
  have := Relation.ReflTransGen.total_of_right_unique
    (r := Function.swap (IsKid kids)) (fun _ _ _ h h' => hparent h h')
    (Relation.reflTransGen_swap.mpr ha) (Relation.reflTransGen_swap.mpr hb)
  exact this.symm.imp Relation.reflTransGen_swap.mp Relation.reflTransGen_swap.mp

/-- The listing of the nodes themselves has no repetition, if every node has one parent and is a
child of it only once. -/
theorem listing_nodup (hrank : ∀ a, ∀ kc ∈ kids a, rank kc.2 < rank a)
    (hparent : ∀ {a b c}, IsKid kids a c → IsKid kids b c → a = b)
    (honce : ∀ a, ((kids a).map Prod.snd).Nodup) (a : α) :
    (listing kids (fun _ _ c => c) hrank a).Nodup := by
  induction hr : rank a using Nat.strong_induction_on generalizing a with
  | _ r ih =>
    subst hr
    -- a node of the block of `kc` is reachable from the child
    have hblock : ∀ kc ∈ kids a, ∀ x ∈ kc.2 :: listing kids (fun _ _ c => c) hrank kc.2,
        Relation.ReflTransGen (IsKid kids) kc.2 x := by
      intro kc hkc x hx
      rcases List.mem_cons.mp hx with rfl | hx
      · exact .refl
      · obtain ⟨p, k, c, hreach, hk, rfl⟩ := mem_listing_iff.mp hx
        exact hreach.tail ⟨k, hk⟩
    -- a child is not reachable from another child
    have hsep : ∀ kc ∈ kids a, ∀ kc' ∈ kids a, kc.2 ≠ kc'.2 →
        ¬ Relation.ReflTransGen (IsKid kids) kc.2 kc'.2 := by
      intro kc hkc kc' hkc' hne hreach
      rcases hreach.cases_tail with h | ⟨p, hp, hkid⟩
      · exact hne h.symm
      · obtain rfl : p = a := hparent hkid ⟨kc'.1, hkc'⟩
        exact absurd (rank_le_of_reach hrank hp) (not_le.mpr (hrank _ _ hkc))
    rw [listing_eq, List.nodup_flatMap]
    constructor
    · intro kc hkc
      refine List.nodup_cons.mpr ⟨fun hmem => ?_, ih _ (hrank a _ hkc) _ rfl⟩
      obtain ⟨p, k, c, hreach, hk, rfl⟩ := mem_listing_iff.mp hmem
      exact absurd (rank_le_of_reach hrank hreach) (not_le.mpr (hrank p (k, kc.2) hk))
    · have hpw := List.pairwise_map.mp (honce a)
      refine List.Pairwise.imp_of_mem (fun {kc kc'} hkc hkc' hne x hx hx' => ?_) hpw
      rcases reach_total hparent (hblock kc hkc x hx) (hblock kc' hkc' x hx') with h | h
      · exact hsep kc hkc kc' hkc' hne h
      · exact hsep kc' hkc' kc hkc (Ne.symm hne) h

/-! ## Children first -/

section Postorder

variable (kids)

/-- The proper descendants of a node in postorder. -/
def postorder (hrank : ∀ a, ∀ kc ∈ kids a, rank kc.2 < rank a) (a : α) : List α :=
  (kids a).attach.flatMap fun kc => postorder hrank kc.1.2 ++ [kc.1.2]
termination_by rank a
decreasing_by exact hrank a kc.1 kc.2

/-- Every node of the list comes after its children. -/
def ChildrenFirst (l : List α) : Prop :=
  ∀ l₁ p l₂, l = l₁ ++ p :: l₂ → ∀ kc ∈ kids p, kc.2 ∈ l₁

end Postorder

/-- The defining equation of the postorder. -/
theorem postorder_eq (hrank : ∀ a, ∀ kc ∈ kids a, rank kc.2 < rank a) (a : α) :
    postorder kids hrank a = (kids a).flatMap fun kc => postorder kids hrank kc.2 ++ [kc.2] := by
  rw [postorder, List.flatMap_def, List.flatMap_def]
  exact congrArg List.flatten (List.attach_map_val
    (f := fun kc : κ × α => postorder kids hrank kc.2 ++ [kc.2]))

/-- The postorder holds the same nodes as the preorder. -/
theorem postorder_perm (hrank : ∀ a, ∀ kc ∈ kids a, rank kc.2 < rank a) (a : α) :
    (postorder kids hrank a).Perm (listing kids (fun _ _ c => c) hrank a) := by
  induction hr : rank a using Nat.strong_induction_on generalizing a with
  | _ r ih =>
    subst hr
    rw [postorder_eq, listing_eq]
    refine List.Perm.flatMap_left _ fun kc hkc => ?_
    exact (List.perm_append_singleton _ _).trans ((ih _ (hrank a kc hkc) kc.2 rfl).cons _)

/-- The children of a node are in its postorder. -/
theorem kid_mem_postorder (hrank : ∀ a, ∀ kc ∈ kids a, rank kc.2 < rank a) {a : α} {kc : κ × α}
    (h : kc ∈ kids a) : kc.2 ∈ postorder kids hrank a := by
  rw [postorder_eq, List.mem_flatMap]
  exact ⟨kc, h, by simp⟩

/-- Two lists one after the other. -/
theorem ChildrenFirst.append {l l' : List α} (h : ChildrenFirst kids l)
    (h' : ChildrenFirst kids l') : ChildrenFirst kids (l ++ l') := by
  intro l₁ p l₂ heq kc hkc
  rcases List.append_eq_append_iff.mp heq with ⟨l₃, rfl, hl'⟩ | ⟨l₃, rfl, hl₃⟩
  · exact List.mem_append_right _ (h' l₃ p l₂ hl' kc hkc)
  · cases l₃ with
    | nil =>
      obtain rfl : p :: l₂ = l' := by simpa using hl₃
      have := h' [] p l₂ rfl kc hkc
      cases this
    | cons q l₃ =>
      obtain ⟨rfl, -⟩ := List.cons.inj hl₃
      exact h l₁ p l₃ rfl kc hkc

/-- A postorder lists children first. -/
theorem childrenFirst_postorder (hrank : ∀ a, ∀ kc ∈ kids a, rank kc.2 < rank a) (a : α) :
    ChildrenFirst kids (postorder kids hrank a) := by
  induction hr : rank a using Nat.strong_induction_on generalizing a with
  | _ r ih =>
    subst hr
    rw [postorder_eq]
    -- the blocks of the children, one after the other; a block ends with the child itself
    have hblocks : ∀ l : List (κ × α), (∀ kc ∈ l, kc ∈ kids a) →
        ChildrenFirst kids (l.flatMap fun kc => postorder kids hrank kc.2 ++ [kc.2]) := by
      intro l hl
      induction l with
      | nil =>
        intro l₁ p l₂ heq
        cases l₁ <;> cases heq
      | cons kc l ihl =>
        rw [List.flatMap_cons]
        refine ChildrenFirst.append ?_ (ihl fun kc' h => hl kc' (List.mem_cons_of_mem _ h))
        have hkc := ih _ (hrank a kc (hl kc List.mem_cons_self)) kc.2 rfl
        intro l₁ p l₂ heq kc' hkc'
        rcases List.eq_nil_or_concat' l₂ with rfl | ⟨l₂, q, rfl⟩
        · obtain ⟨rfl, heq⟩ := List.append_inj' heq rfl
          obtain rfl : kc.2 = p := by simpa using heq
          exact kid_mem_postorder hrank hkc'
        · rw [← List.cons_append, ← List.append_assoc] at heq
          obtain ⟨heq, -⟩ := List.append_inj' heq rfl
          exact hkc l₁ p l₂ heq kc' hkc'
    exact hblocks (kids a) fun _ h => h

/-! ## Processing a listing -/

/-- Folding over a listing, when an entry can be processed once the node it is listed under is known:
if processing an entry makes the child known and forgets nothing, then in the end every node
reachable from the start is known. -/
theorem foldl_listing {β : Type*} (kids : α → List (κ × α)) (emit : α → κ → α → ε)
    (hrank : ∀ a, ∀ kc ∈ kids a, rank kc.2 < rank a) (f : β → ε → β) (I : β → Prop)
    (Known : α → β → Prop)
    (hstep : ∀ {b a k c}, I b → Known a b → (k, c) ∈ kids a → I (f b (emit a k c)) ∧
      Known c (f b (emit a k c)) ∧ ∀ x, Known x b → Known x (f b (emit a k c)))
    {a : α} {b : β} (hI : I b) (ha : Known a b) :
    I ((listing kids emit hrank a).foldl f b) ∧
      (∀ x, Known x b → Known x ((listing kids emit hrank a).foldl f b)) ∧
      ∀ x, Relation.ReflTransGen (IsKid kids) a x →
        Known x ((listing kids emit hrank a).foldl f b) := by
  induction hr : rank a using Nat.strong_induction_on generalizing a b with
  | _ r ih =>
    subst hr
    -- the blocks of the children, one after the other
    have hblocks : ∀ (l : List (κ × α)), (∀ kc ∈ l, kc ∈ kids a) → ∀ b, I b → Known a b →
        I ((l.flatMap fun kc => emit a kc.1 kc.2 :: listing kids emit hrank kc.2).foldl f b) ∧
          (∀ x, Known x b → Known x
            ((l.flatMap fun kc => emit a kc.1 kc.2 :: listing kids emit hrank kc.2).foldl f b)) ∧
          ∀ kc ∈ l, ∀ x, Relation.ReflTransGen (IsKid kids) kc.2 x → Known x
            ((l.flatMap fun kc => emit a kc.1 kc.2 :: listing kids emit hrank kc.2).foldl f b) := by
      intro l
      induction l with
      | nil => exact fun _ b hI _ => ⟨hI, fun x hx => hx, by simp⟩
      | cons kc l ihl =>
        intro hl b hI ha
        have hkc := hl kc List.mem_cons_self
        obtain ⟨hI₁, hc₁, hmono₁⟩ := hstep hI ha hkc
        obtain ⟨hI₂, hmono₂, hreach₂⟩ := ih _ (hrank a kc hkc) hI₁ hc₁ rfl
        obtain ⟨hI₃, hmono₃, hreach₃⟩ := ihl (fun kc' h => hl kc' (List.mem_cons_of_mem _ h)) _ hI₂
          (hmono₂ a (hmono₁ a ha))
        rw [List.flatMap_cons, List.foldl_append, List.foldl_cons]
        refine ⟨hI₃, fun x hx => hmono₃ x (hmono₂ x (hmono₁ x hx)), fun kc' hkc' x hx => ?_⟩
        rcases List.mem_cons.mp hkc' with rfl | hkc'
        · exact hmono₃ x (hreach₂ x hx)
        · exact hreach₃ kc' hkc' x hx
    obtain ⟨hI', hmono, hreach⟩ := hblocks (kids a) (fun _ h => h) b hI ha
    rw [listing_eq]
    refine ⟨hI', hmono, fun x hx => ?_⟩
    rcases hx.cases_head with rfl | ⟨c, ⟨k, hk⟩, hx⟩
    · exact hmono _ ha
    · exact hreach (k, c) hk x hx

/-- In a listing every entry comes after the one of the node it is listed under, if that is not the
start. -/
theorem parent_before (hrank : ∀ a, ∀ kc ∈ kids a, rank kc.2 < rank a) {a : α}
    {l₁ l₂ : List (α × κ × α)} {e : α × κ × α}
    (h : listing kids (fun p k c => (p, k, c)) hrank a = l₁ ++ e :: l₂) :
    e.1 = a ∨ ∃ e' ∈ l₁, e'.2.2 = e.1 := by
  -- the listing is put together entry by entry, and a node is known once it has been listed
  have hfold := foldl_listing kids (fun p k c => (p, k, c)) hrank (fun b e => b ++ [e])
    (fun b => ∀ l₁ e l₂, b = l₁ ++ e :: l₂ → e.1 = a ∨ ∃ e' ∈ l₁, e'.2.2 = e.1)
    (fun x b => x = a ∨ ∃ e ∈ b, e.2.2 = x) ?_ (a := a) (b := []) (by simp) (.inl rfl)
  · rw [List.foldl_append_eq_append, List.nil_append, ← List.flatMap_def,
      List.flatMap_singleton'] at hfold
    exact hfold.1 l₁ e l₂ h
  · intro b p k c hb hp hkc
    refine ⟨fun l₁ e l₂ heq => ?_, .inr ⟨(p, k, c), by simp, rfl⟩, fun x hx => ?_⟩
    · rcases List.eq_nil_or_concat l₂ with rfl | ⟨l₃, x, rfl⟩
      · obtain ⟨rfl, hlast⟩ := List.append_inj' heq rfl
        cases hlast
        exact hp
      · rw [List.concat_eq_append, ← List.cons_append, ← List.append_assoc] at heq
        exact hb l₁ e l₃ (List.append_inj' heq rfl).1
    · exact hx.imp_right fun ⟨e, he, hex⟩ => ⟨e, List.mem_append_left _ he, hex⟩

end Library
