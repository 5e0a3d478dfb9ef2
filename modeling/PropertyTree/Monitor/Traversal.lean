import PropertyTree.Monitor.Deleting

/-!
# The loop of `onCmdList`

A level of the stack is a snapshot of a node's children with the number of those that have been
visited.  `Empties` says what the loop does with the children that have not: each is printed, then
everything below it is printed and deleted, and at last the child itself.  A child without children is
deleted at once, any other when its level has been taken off the stack.
-/

namespace PropertyTree.Monitor

open Library Server Client

/-! ## One turn -/

section Turn

variable {action : UInt32} {fuel : ℕ} {level parent : TraversalContext}
  {levels : List TraversalContext} {ss : List Line} {name : Name} {child : Addr}

/-- The loop comes to the next child of the level. -/
theorem listLoop_of_child (h : level.children[level.index]? = some (name, child)) :
    listLoop action (fuel + 1) (level :: levels) ss = (do
      let line ← visit action (levels.length + 1) name child
      let levels := { level with index := level.index + 1 } :: levels
      if (← childrenSize child) ≠ 0 then
        listLoop action fuel (⟨name, ← children child, 0⟩ :: levels) (ss ++ [line])
      else
        if action = DEL then discard (destroy child)
        listLoop action fuel levels (ss ++ [line])) := by
  rw [listLoop.eq_def]
  simp only [h]

/-- The level has no more children: the loop goes back to the child of the level below. -/
theorem listLoop_of_end (h : level.children[level.index]? = none)
    (hchild : parent.children[parent.index - 1]? = some (name, child)) :
    listLoop action (fuel + 1) (level :: parent :: levels) ss = (do
      if (← childrenSize child) = 0 ∧ action = DEL then discard (destroy child)
      listLoop action fuel (parent :: levels) ss) := by
  rw [listLoop.eq_def]
  simp only [h, hchild]

/-- The last level has no more children. -/
theorem listLoop_of_last (h : level.children[level.index]? = none) :
    listLoop action (fuel + 1) [level] ss = return ss := by
  rw [listLoop.eq_def]
  simp only [h]

end Turn

/-! ## The children of a node -/

section Empties

variable {s : ProtocolHandler} {b₀ p c : Addr} {obj : Addr → Addr}
  {done todo : List (Name × Addr)} {name : Name} {n : ℕ}

/-- The level of the node `p` when `index` of its children have been visited. -/
def levelOf (s : ProtocolHandler) (obj : Addr → Addr) (name : Name) (p : Addr) (index : ℕ) :
    TraversalContext :=
  ⟨name, (kids s.heap p).map fun kc => (kc.1, obj kc.2), index⟩

/-- The child that is next. -/
theorem levelOf_child (hkids : kids s.heap p = done ++ (name, c) :: todo) (nm : Name) :
    (levelOf s obj nm p done.length).children[(levelOf s obj nm p done.length).index]? =
      some (name, obj c) := by
  simp [levelOf, hkids]

/-- There is no next child. -/
theorem levelOf_end (nm : Name) : (levelOf s obj nm p (kids s.heap p).length).children[
    (levelOf s obj nm p (kids s.heap p).length).index]? = none := by
  simp [levelOf]

variable (hw : WellLinked s)

/-- The given children with what is below them, in the order of their deletion. -/
noncomputable def postBlocks (todo : List (Name × Addr)) : List Addr :=
  todo.flatMap fun kc => postorder (kids s.heap) hw.rank_kids kc.2 ++ [kc.2]

/-- The given children with what is below them, in the order in which they are printed. -/
noncomputable def preBlocks (todo : List (Name × Addr)) : List Addr :=
  todo.flatMap fun kc => kc.2 :: listing (kids s.heap) (fun _ _ c => c) hw.rank_kids kc.2

/-- All children of a node. -/
theorem postBlocks_kids (p : Addr) :
    postBlocks hw (kids s.heap p) = postorder (kids s.heap) hw.rank_kids p :=
  (postorder_eq hw.rank_kids p).symm

/-- All children of a node. -/
theorem preBlocks_kids (p : Addr) :
    preBlocks hw (kids s.heap p) = listing (kids s.heap) (fun _ _ c => c) hw.rank_kids p := by
  rw [preBlocks, listing_eq]

/-- No node comes twice below another one. -/
theorem nodup_postorder (p : Addr) : (postorder (kids s.heap) hw.rank_kids p).Nodup :=
  (postorder_perm hw.rank_kids p).nodup_iff.mpr (listing_nodup hw.rank_kids
    (fun h h' => hw.nodeTree.isKid_unique h h') hw.nodeTree.kids_nodup p)

/-- Nor below some of the children of a node. -/
theorem nodup_postBlocks (hkids : kids s.heap p = done ++ todo) : (postBlocks hw todo).Nodup := by
  have h := nodup_postorder hw p
  rw [← postBlocks_kids hw, hkids, postBlocks, List.flatMap_append] at h
  exact (List.nodup_append.mp h).2.1

/-- With `n` units of fuel the loop, at a level of `p` where the children in `done` have been visited,
prints and deletes the others and what is below them. -/
def Empties (s : ProtocolHandler) (b₀ : Addr) (hw : WellLinked s) (p : Addr)
    (done todo : List (Name × Addr)) (n : ℕ) : Prop :=
  ∀ {obj : Addr → Addr} {destroyed : List (UInt64 × Bool)} {gone : List Addr} {σ : Session}
    {fuel : ℕ} {levels : List TraversalContext} {ss : List Line} {name : Name}
    {Q : List Line → Session → Prop},
    Pruning s b₀ obj destroyed gone σ → (∀ x ∈ postBlocks hw todo, x ∉ gone) →
    (∀ lines τ, lines.map Line.uuid = (preBlocks hw todo).map (uuidAt s.heap) →
      Pruning s b₀ obj destroyed (gone ++ postBlocks hw todo) τ →
      Returns (listLoop DEL fuel (levelOf s obj name p (done ++ todo).length :: levels)
        (ss ++ lines)) τ Q) →
    Returns (listLoop DEL (fuel + n) (levelOf s obj name p done.length :: levels) ss) σ Q

/-- There is nothing left to visit. -/
theorem empties_nil : Empties s b₀ hw p done [] 0 := by
  intro obj destroyed gone σ fuel levels ss name Q h _ hnext
  have := hnext [] σ rfl (by simpa [postBlocks] using h)
  rwa [List.append_nil, List.append_nil] at this

variable (hi : Indexed s) (hb₀ : ∃ n, s.heap[b₀]? = some n)

include hi hb₀

/-- A child without children is deleted at once. -/
theorem Empties.cons_leaf (hp : Reached s b₀ p) (hkids : kids s.heap p = done ++ (name, c) :: todo)
    (hleaf : kids s.heap c = [])
    (hrest : Empties s b₀ hw p (done ++ [(name, c)]) todo n) :
    Empties s b₀ hw p done ((name, c) :: todo) (n + 1) := by
  intro obj destroyed gone σ fuel levels ss nm Q h hgone hnext
  have hk : (name, c) ∈ kids s.heap p := by simp [hkids]
  have hc : Reached s b₀ c := hp.tail ⟨name, hk⟩
  have hpost : postBlocks hw ((name, c) :: todo) = c :: postBlocks hw todo := by
    simp [postBlocks, postorder_eq hw.rank_kids c, hleaf]
  have hpre : preBlocks hw ((name, c) :: todo) = c :: preBlocks hw todo := by
    simp [preBlocks, listing_of_kids_eq_nil hleaf]
  have hcgone : c ∉ gone := hgone c (by simp [hpost])
  rw [← Nat.add_assoc, listLoop_of_child (levelOf_child hkids nm)]
  refine (h.returns_visit hw hi hb₀ hc hcgone _).bind ?_
  rintro line σ₁ ⟨hline, h₁⟩
  refine (h₁.returns_childrenSize hw hi hb₀ hc (by simp [hleaf])).bind ?_
  rintro k σ₂ ⟨hk₀, h₂⟩
  rw [if_neg (by simp [hk₀, hleaf]), if_pos rfl]
  refine Returns.bind ((h₂.returns_destroy hw hi hb₀ hp hk hcgone (by simp [hleaf])).bind
    fun r σ₃ hr => returns_pure
      (Q := fun _ τ => Pruning s b₀ obj destroyed (gone ++ [c]) τ) hr.2) fun _ σ₃ h₃ => ?_
  have hlevel : { levelOf s obj nm p done.length with index := done.length + 1 } =
      levelOf s obj nm p (done ++ [(name, c)]).length := by
    simp [levelOf]
  have hnodup : (c :: postBlocks hw todo).Nodup := hpost ▸ nodup_postBlocks hw hkids
  refine hlevel ▸ hrest h₃ ?_ fun lines τ hlines hτ => ?_
  · intro x hx hmem
    rcases List.mem_append.mp hmem with hmem | hmem
    · exact hgone x (by simp [hpost, hx]) hmem
    · obtain rfl := List.mem_singleton.mp hmem
      exact (List.nodup_cons.mp hnodup).1 hx
  · have := hnext (line :: lines) τ (by simp [hpre, hline, hlines]) (by
      rw [hpost]
      simpa using hτ)
    simpa using this

/-- A child with children is deleted when they have been. -/
theorem Empties.cons {nc : ℕ} (hp : Reached s b₀ p)
    (hkids : kids s.heap p = done ++ (name, c) :: todo) (hne : kids s.heap c ≠ [])
    (hchild : Empties s b₀ hw c [] (kids s.heap c) nc)
    (hrest : Empties s b₀ hw p (done ++ [(name, c)]) todo n) :
    Empties s b₀ hw p done ((name, c) :: todo) (n + 1 + nc + 1) := by
  intro obj destroyed gone σ fuel levels ss nm Q h hgone hnext
  have hk : (name, c) ∈ kids s.heap p := by simp [hkids]
  have hc : Reached s b₀ c := hp.tail ⟨name, hk⟩
  have hpost : postBlocks hw ((name, c) :: todo) =
      postBlocks hw (kids s.heap c) ++ [c] ++ postBlocks hw todo := by
    rw [postBlocks_kids]
    simp [postBlocks]
  have hpre : preBlocks hw ((name, c) :: todo) =
      c :: preBlocks hw (kids s.heap c) ++ preBlocks hw todo := by
    rw [preBlocks_kids]
    simp [preBlocks]
  have hnodup : (postBlocks hw (kids s.heap c) ++ [c] ++ postBlocks hw todo).Nodup :=
    hpost ▸ nodup_postBlocks hw hkids
  have hcgone : c ∉ gone := hgone c (by simp [hpost])
  have hkid : ∀ kc ∈ kids s.heap c, kc.2 ∈ postBlocks hw (kids s.heap c) := fun kc hkc => by
    rw [postBlocks_kids]
    exact kid_mem_postorder hw.rank_kids hkc
  have hkgone : ∀ kc ∈ kids s.heap c, kc.2 ∉ gone :=
    fun kc hkc => hgone kc.2 (by simp [hpost, hkid kc hkc])
  rw [show fuel + (n + 1 + nc + 1) = fuel + n + 1 + nc + 1 by omega,
    listLoop_of_child (levelOf_child hkids nm)]
  refine (h.returns_visit hw hi hb₀ hc hcgone _).bind ?_
  rintro line σ₁ ⟨hline, h₁⟩
  refine (h₁.returns_childrenSize hw hi hb₀ hc hkgone).bind ?_
  rintro k σ₂ ⟨hk₀, h₂⟩
  rw [if_pos (by simpa [hk₀] using hne)]
  refine (h₂.returns_children hw hi hb₀ hc hkgone).bind ?_
  rintro l σ₃ ⟨rfl, h₃⟩
  have hlevel : { levelOf s obj nm p done.length with index := done.length + 1 } =
      levelOf s obj nm p (done ++ [(name, c)]).length := by
    simp [levelOf]
  -- the level of the child, down to its end
  refine hlevel ▸ hchild h₃ (fun x hx => hgone x (by simp [hpost, hx])) ?_
  intro lines σ₄ hlines h₄
  have hback : (levelOf s obj nm p (done ++ [(name, c)]).length).children[
      (levelOf s obj nm p (done ++ [(name, c)]).length).index - 1]? = some (name, obj c) := by
    simp [levelOf, hkids]
  rw [List.nil_append, listLoop_of_end (levelOf_end name) hback]
  refine (h₄.returns_childrenSize_zero hw hi hb₀ hc fun kc hkc =>
    List.mem_append_right _ (hkid kc hkc)).bind ?_
  rintro k' σ₅ ⟨rfl, h₅⟩
  rw [if_pos ⟨rfl, rfl⟩]
  have hcgone' : c ∉ gone ++ postBlocks hw (kids s.heap c) := by
    rw [List.mem_append, not_or]
    refine ⟨hcgone, fun hmem => ?_⟩
    have := (List.nodup_append.mp (List.nodup_append.mp hnodup).1).2.2
    exact this c hmem c (by simp) rfl
  refine Returns.bind ((h₅.returns_destroy hw hi hb₀ hp hk hcgone' fun kc hkc =>
    List.mem_append_right _ (hkid kc hkc)).bind fun r σ₆ hr => returns_pure
      (Q := fun _ τ => Pruning s b₀ obj destroyed (gone ++ postBlocks hw (kids s.heap c) ++ [c]) τ)
      hr.2) fun _ σ₆ h₆ => ?_
  -- the other children
  refine hrest h₆ ?_ fun lines' τ hlines' hτ => ?_
  · intro x hx hmem
    rw [List.append_assoc, List.mem_append] at hmem
    rcases hmem with hmem | hmem
    · exact hgone x (by simp [hpost, hx]) hmem
    · exact (List.nodup_append.mp hnodup).2.2 x hmem x hx rfl
  · have := hnext (line :: lines ++ lines') τ (by simp [hpre, hline, hlines, hlines']) (by
      rw [hpost]
      simpa using hτ)
    simpa using this

/-- The loop gets to the end of every level: the induction is on the height of the node, and for
one node on the children that are left. -/
theorem exists_empties {p : Addr} (hp : Reached s b₀ p) :
    ∃ n, Empties s b₀ hw p [] (kids s.heap p) n := by
  induction hr : hw.nodeTree.height p using Nat.strong_induction_on generalizing p with
  | _ r ih =>
    subst hr
    suffices hall : ∀ todo done, kids s.heap p = done ++ todo →
        ∃ n, Empties s b₀ hw p done todo n from hall _ [] rfl
    intro todo
    induction todo with
    | nil => exact fun _ _ => ⟨0, empties_nil hw⟩
    | cons kc todo ihtodo =>
      obtain ⟨name, c⟩ := kc
      intro done hkids
      obtain ⟨n, hn⟩ := ihtodo (done ++ [(name, c)]) (by simpa using hkids)
      have hk : (name, c) ∈ kids s.heap p := by simp [hkids]
      by_cases hleaf : kids s.heap c = []
      · exact ⟨_, hn.cons_leaf hw hi hb₀ hp hkids hleaf⟩
      · obtain ⟨nc, hnc⟩ := ih _ (hw.rank_kids p _ hk) (hp.tail ⟨name, hk⟩) rfl
        exact ⟨_, Empties.cons hw hi hb₀ hp hkids hleaf hnc hn⟩

end Empties

end PropertyTree.Monitor
