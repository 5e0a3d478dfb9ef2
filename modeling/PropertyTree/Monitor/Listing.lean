import PropertyTree.Monitor.Autowatch
import PropertyTree.Monitor.RecursiveDelete
import PropertyTree.Server.Refusals

/-!
# `onCmdList` without an action

Without a known action `onCmdList` leaves its variable `action` as it is, which is not initialised.
When the variable does not happen to hold the value of an action, the command itself only reads, whatever
becomes of it.  When it does and the start node has children, the command carries the action out.  While
autowatch is on, there is another way to change the server: the nodes that the listing brings into the
mirror are queued, and the worker subscribes to them.
-/

namespace PropertyTree.Monitor

open Library Server Client

variable {σ τ : Session} {u : UInt64} {args : ArgsMap} {initial : UInt32}

/-- Only `TreeInfoRequest`s and `GetRequest`s have been sent, the server is as it was, its tree, its data
and its listeners, and the worker has got nothing more to subscribe to. -/
def OnlyReads (σ τ : Session) : Prop :=
  τ.server = σ.server ∧ τ.mToSubscribe = σ.mToSubscribe ∧
    ∃ qs, (∀ q ∈ qs, isRead q = true) ∧ τ.requests = σ.requests ++ qs

/-- Without a known action the variable keeps what it holds. -/
theorem assignAction_of_none (hdel : args[actionArg]? ≠ some deleteAction)
    (hsub : args[actionArg]? ≠ some subscribeAction)
    (hunsub : args[actionArg]? ≠ some unsubscribeAction) (initial : UInt32) :
    assignAction args initial = initial := by
  rw [assignAction, if_neg hdel, if_neg hsub, if_neg hunsub]

/-! ## What only reads -/

/-- A server that handles only requests that read stays as it is. -/
theorem server_eq_of_reads {s s' : ProtocolHandler} {ls : List (Event × List Server.Output)}
    {c : Conn} (h : ServerRun s ls s')
    (hls : ∀ l ∈ ls, ∃ t q, l.1 = .message c ⟨t, q⟩ ∧ isRead q = true) : s' = s := by
  induction h with
  | nil => rfl
  | @snoc s₁ s₂ ls l _ hstep ih =>
    obtain ⟨t, q, hl, hq⟩ := hls l (by simp)
    have heq : s₁ = _ := ih fun l' hl' => hls l' (List.mem_append_left _ hl')
    subst heq
    obtain ⟨e, o⟩ := l
    obtain rfl : e = _ := hl
    refine (unchanged_of_refused ?_ hstep (.inr (.inr (.inr ?_)))).1
    · cases q <;> first | rfl | cases hq
    · cases q <;> first | rfl | cases hq

/-- A command that sends only requests that read, when it leaves the worker nothing to do. -/
theorem Sends.onlyReads_iff (h : Sends (fun q => isRead q = true) σ τ) :
    OnlyReads σ τ ↔ τ.mToSubscribe = σ.mToSubscribe := by
  obtain ⟨ls, hrun, hls⟩ := h.sent.served
  exact ⟨fun hreads => hreads.2.1, fun hsame =>
    ⟨server_eq_of_reads hrun hls, hsame, h.sent.requests⟩⟩

/-- The variable `action` holds no action. -/
def Plain (action : UInt32) : Prop :=
  action ≠ DEL ∧ action ≠ SUB ∧ action ≠ UNSUB

instance (action : UInt32) : Decidable (Plain action) :=
  inferInstanceAs (Decidable (_ ∧ _ ∧ _))

/-- When the variable holds no action, the loop may send whatever requests contain the `GetRequest`s. -/
theorem Plain.permits {A : PropertyTreeMessages → Prop} (h : Plain initial)
    (hA : ∀ u, A (.getRequest u)) : Permits A initial where
  get := hA
  subscribe hsub := absurd hsub h.2.1
  unsubscribe hunsub := absurd hunsub h.2.2
  delete hdel := absurd hdel h.1

/-- When the variable holds no action and autowatch is off, `onCmdList` only reads. -/
theorem onCmdList_onlyReads (hassign : assignAction args initial = initial) (hplain : Plain initial)
    (fuel : ℕ) (hoff : ¬ σ.Autowatches) :
    OnlyReads σ ((onCmdList fuel initial args).result σ).2 := by
  have h : Sends (fun q => isRead q = true) σ ((onCmdList fuel initial args).result σ).2 :=
    sends_onCmdList (fun _ _ _ => rfl) (hassign.symm ▸ hplain.permits fun _ => rfl) fuel σ
  exact h.onlyReads_iff.mpr (h.mToSubscribe_eq hoff)

/-- What comes before the loop only reads. -/
theorem sends_firstLevel (args : ArgsMap) :
    Within (Sends fun q => isRead q = true) (firstLevel args) :=
  sends_bind (sends_startNode (fun _ _ _ => rfl) args) fun _ =>
    sends_bind (sends_bind (sends_get (fun _ _ _ => rfl) _ _ _) fun _ => sends_pure _)
      fun _ => sends_children _

/-- Autowatch is off, or the nodes the command comes by have their parents in the mirror already. -/
def NothingNew (args : ArgsMap) (u : UInt64) (σ : Session) : Prop :=
  σ.Autowatches → ∀ v, ComesBy σ.server.entry (startNames args) u v → σ.mirror.parentOf v ≠ none

/-- Listing a subtree leaves the worker nothing to do exactly then. -/
theorem Sends.mToSubscribe_eq_iff {A : PropertyTreeMessages → Prop} (h : Sends A σ τ)
    (hlisted : Listed σ.server.entry (startNames args) u σ.mirror τ.mirror) :
    τ.mToSubscribe = σ.mToSubscribe ↔ NothingNew args u σ := by
  obtain ⟨new, hnew⟩ := h.queued
  obtain ⟨as, hcalls, hnil⟩ := hlisted.grown.calls
  obtain rfl := List.append_cancel_left (hnew.called.calls.symm.trans hcalls)
  rw [hnew.mToSubscribe_eq_iff, treeAdds_map, hnil, hlisted.parentOf_iff]
  exact ⟨fun hall hon => hall hon hon.1, fun hall hon _ => hall hon⟩

/-- When the variable holds no action, nothing is queued but what comes before the loop has queued. -/
theorem InSync.onlyReads_iff_of_plain (h : InSync σ)
    (hu : Leads σ.server.entry 0 (startNames args) u)
    (hassign : assignAction args initial = initial) (hplain : Plain initial) (fuel : ℕ) :
    Ends (onCmdList fuel initial args) σ fun υ => OnlyReads σ υ ↔ NothingNew args u σ := by
  obtain ⟨b₀, hb₀⟩ := h.exists_start hu
  rw [onCmdList_eq, hassign]
  refine ((h.returns_firstLevel hu hb₀).within (sends_firstLevel args)).ends_bind ?_
  rintro l τ ⟨⟨obj, -, -, hin, hlisted⟩, hs⟩
  have hloop : Within (Sends fun q => ∃ v, q = .getRequest v) (do
      return Output.listing (← listLoop initial fuel [⟨[], l, 0⟩] [])) :=
    sends_bind (sends_listLoop (hplain.permits fun v => ⟨v, rfl⟩) fuel _ _) fun _ => sends_pure _
  have hsent := hloop τ
  rw [Ends] at hsent ⊢
  obtain ⟨-, hsame⟩ := hsent.quiet (fun _ => id) fun p hp => by simp [hin] at hp
  have hread : ∀ q, (∃ v, q = .getRequest v) → isRead q = true := by
    rintro q ⟨v, rfl⟩
    rfl
  have hreads := hs.trans (hsent.mono hread)
  rw [hreads.onlyReads_iff, hsame, hs.mToSubscribe_eq_iff hlisted]

/-- Below a start node without children there is nothing to do, whatever the variable holds. -/
theorem InSync.onlyReads_iff_of_leaf (h : InSync σ)
    (hu : Leads σ.server.entry 0 (startNames args) u)
    (hleaf : ∀ v, ¬ ChildOf σ.server.entry u v) (fuel : ℕ) :
    Ends (onCmdList (fuel + 1) initial args) σ fun υ => OnlyReads σ υ ↔ NothingNew args u σ := by
  obtain ⟨b₀, hb₀⟩ := h.exists_start hu
  have hkids : kids σ.server.heap b₀ = [] := by
    rw [List.eq_nil_iff_forall_not_mem]
    rintro ⟨name, c⟩ hk
    obtain ⟨e, he, hpar, -⟩ := entry_of_mem_kids h.wellLinked h.indexed hk
    exact hleaf _ ⟨e, he, uuidAt_of_mTree h.wellLinked hb₀ ▸ hpar⟩
  rw [onCmdList_eq]
  refine ((h.returns_firstLevel hu hb₀).within (sends_firstLevel args)).ends_bind ?_
  rintro l τ ⟨⟨obj, rfl, -, -, hlisted⟩, hs⟩
  -- the only level is at its end
  rw [hkids, listLoop_of_last rfl]
  exact hs.onlyReads_iff.trans (hs.mToSubscribe_eq_iff hlisted)

/-! ## What does not only read -/

/-- A request has been sent that does not only read. -/
def Writes (σ τ : Session) : Prop :=
  ∃ qs, τ.requests = σ.requests ++ qs ∧ ∃ q ∈ qs, isRead q = false

namespace Writes

variable {A : PropertyTreeMessages → Prop} {υ : Session}

/-- Such a command does not only read. -/
theorem not_onlyReads (h : Writes σ τ) : ¬ OnlyReads σ τ := by
  rintro ⟨-, -, qs, hqs, hreq⟩
  obtain ⟨qs', hreq', q, hq, hread⟩ := h
  obtain rfl := List.append_cancel_left (hreq.symm.trans hreq')
  rw [hqs q hq] at hread
  cases hread

/-- Something has been sent before. -/
theorem after (h : Writes τ υ) (hs : Sends A σ τ) : Writes σ υ := by
  obtain ⟨qs, -, hreq⟩ := hs.sent.requests
  obtain ⟨qs', hreq', q, hq, hread⟩ := h
  exact ⟨qs ++ qs', by rw [hreq', hreq, List.append_assoc], q, List.mem_append_right _ hq, hread⟩

/-- Something is sent afterwards. -/
theorem followed (h : Writes σ τ) (hs : Sends A τ υ) : Writes σ υ := by
  obtain ⟨qs, hreq, q, hq, hread⟩ := h
  obtain ⟨qs', -, hreq'⟩ := hs.sent.requests
  exact ⟨qs ++ qs', by rw [hreq', hreq, List.append_assoc], q, List.mem_append_left _ hq, hread⟩

end Writes

/-- However a transaction ends, its request has been sent. -/
theorem ends_transact {out : Outside} {P : Knowledge} (hP : Stable P) (h : Holds out P σ)
    {q : PropertyTreeMessages} (hq : isRead q = false) : Ends (transact q) σ (Writes σ) := by
  refine ((returns_pause hP h).within (sends_pause (A := fun _ => True))).ends_bind
    fun _ σ₁ ⟨h₁, hs₁⟩ => ?_
  refine ((returns_fetchId h₁).within (sends_fetchId (A := fun _ => True))).ends_bind
    fun trId σ₂ ⟨_, hs₂⟩ => ?_
  refine (returns_modify (Q := fun _ τ => Writes σ τ) ?_).ends_bind fun _ σ₃ hσ₃ => ?_
  · exact Writes.after ⟨[q], rfl, q, List.mem_singleton_self q, hq⟩ (hs₁.trans hs₂)
  · exact hσ₃.followed (sends_bind (A := fun _ => True) (sends_serve trId trivial) (fun _ =>
      sends_bind (sends_waitTransaction trId) fun _ => sends_bind sends_pause fun _ => sends_pure _) σ₃)

/-- However a call ends that sends a request for a node, the request has been sent. -/
theorem ends_request {out : Outside} {P : Knowledge} {a : Addr} (hP : Stable P) (h : Holds out P σ)
    (hobj : ∀ m inbound, P m inbound → m.heap[a]? ≠ none) {q : UInt64 → PropertyTreeMessages}
    (hq : ∀ u, isRead (q u) = false) {f : PropertyTreeMessages → Command Bool}
    (hf : ∀ r, Within (Sends fun _ => True) (f r)) :
    Ends (do
      let node ← object a
      let response ← transact (q node.uuid)
      f response) σ (Writes σ) := by
  refine ((returns_object hP h hobj).within (sends_object (A := fun _ => True) a)).ends_bind
    fun n σ₁ ⟨⟨_, h₁⟩, hs₁⟩ => ?_
  exact Ends.bind (R := Sends fun _ => True) ((ends_transact hP h₁ (hq n.uuid)).after hs₁)
    Writes.followed fun r => hf r

/-- However it ends, `subscribe` has sent a `SubscribeRequest`. -/
theorem ends_subscribe {out : Outside} {P : Knowledge} {a : Addr} (hP : Stable P) (h : Holds out P σ)
    (hobj : ∀ m inbound, P m inbound → m.heap[a]? ≠ none) :
    Ends (subscribe a) σ (Writes σ) :=
  ends_request hP h hobj (q := .subscribeRequest) (fun _ => rfl) fun r => by
    split
    · exact sends_pure _
    · exact sends_throw _

/-- A turn of the worker subscribes to what is queued, beginning with the first node. -/
theorem ends_mToSubscribeWorker {out : Outside} {P : Knowledge} {a : Addr} {as : List Addr}
    (hP : Stable P) (h : Holds out P σ) (hqueue : σ.mToSubscribe = a :: as)
    (hobj : ∀ m inbound, P m inbound → m.heap[a]? ≠ none) :
    Ends mToSubscribeWorker σ (Writes σ) := by
  have h' : Holds out P { σ with mToSubscribe := [] } := { h with }
  change Ends (subscribeTo σ.mToSubscribe) { σ with mToSubscribe := [] }
    (Writes { σ with mToSubscribe := [] })
  rw [hqueue]
  refine Ends.bind (R := Sends fun _ => True) ((ends_subscribe hP h' hobj).bind
    (R := Sends fun _ => True) Writes.followed fun _ => sends_pure _) Writes.followed fun _ => ?_
  exact sends_bind (sends_setUpdateHandler a) fun _ => sends_subscribeTo (fun _ => trivial) as

section Subscribing

variable {s : ProtocolHandler} {b₀ b : Addr} {obj : Addr → Addr} {destroyed : List (UInt64 × Bool)}
  {gone : List Addr} {action : UInt32} {name : Name}
  (hw : WellLinked s) (hi : Indexed s) (hb₀ : ∃ n, s.heap[b₀]? = some n)

include hw hi hb₀

/-- The visit of a node, when there is something to subscribe to or to unsubscribe from. -/
theorem Pruning.ends_visit (h : Pruning s b₀ obj destroyed gone σ) (hb : Reached s b₀ b)
    (hgone : b ∉ gone) (haction : action = SUB ∨ action = UNSUB) (levels : ℕ) :
    Ends (visit action levels name (obj b)) σ (Writes σ) := by
  have hrest : Within (Sends fun _ => True) (do
      let data ← raw (obj b)
      return (⟨levels * 2, name, (← object (obj b)).uuid, data⟩ : Line)) :=
    sends_bind (sends_raw _) fun _ => sends_bind (sends_object _) fun _ => sends_pure _
  refine ((h.returns_fetch hw hi hb₀ hb hgone).within (sends_fetch (A := fun _ => True)
    (fun _ => trivial) _)).ends_bind fun _ σ₁ ⟨h₁, hs₁⟩ => ?_
  suffices hends : Ends _ σ₁ (Writes σ₁) from Writes.after hends hs₁
  have hobj : ∀ m inbound, Pruned s b₀ obj gone [] m inbound → m.heap[obj b]? ≠ none := by
    intro m inbound hm
    obtain ⟨n, hn, -⟩ := hm.object hb
    simp [hn]
  have hstable : Stable (Pruned s b₀ obj gone []) := Pruned.stable hw hi hb₀
  rcases haction with rfl | rfl
  · rw [if_pos rfl]
    have hsub := ends_subscribe hstable h₁.holds hobj
    exact Ends.bind (R := Sends fun _ => True) (hsub.bind (R := Sends fun _ => True) Writes.followed
      fun _ => sends_pure _) Writes.followed fun _ => sends_bind (sends_setUpdateHandler _)
        fun _ => hrest
  · rw [if_neg (by decide), if_pos rfl]
    have hunsub : Ends (unsubscribe (obj b)) σ₁ (Writes σ₁) :=
      ends_request hstable h₁.holds hobj (q := .unsubscribeRequest) (fun _ => rfl) fun r => by
        split
        · exact sends_pure _
        · exact sends_throw _
    exact Ends.bind (R := Sends fun _ => True) (hunsub.bind (R := Sends fun _ => True) Writes.followed
      fun _ => sends_pure _) Writes.followed fun _ => hrest

end Subscribing

/-- When the start node has children, the first of them is subscribed to or unsubscribed from. -/
theorem InSync.ends_writes (h : InSync σ) (hu : Leads σ.server.entry 0 (startNames args) u)
    {v : UInt64} (hv : ChildOf σ.server.entry u v)
    (haction : assignAction args initial = SUB ∨ assignAction args initial = UNSUB) (fuel : ℕ) :
    Ends (onCmdList (fuel + 1) initial args) σ (Writes σ) := by
  obtain ⟨b₀, hb₀⟩ := h.exists_start hu
  obtain ⟨n₀, hn₀, -⟩ := h.wellLinked.mTree_heap hb₀
  obtain ⟨c, -, name, hk⟩ := exists_kid_of_childOf h.wellLinked h.indexed hb₀ hv
  obtain ⟨⟨first, c₁⟩, todo, hkids⟩ := List.exists_cons_of_ne_nil (List.ne_nil_of_mem hk)
  rw [onCmdList_eq]
  refine ((h.returns_firstLevel hu hb₀).within (sends_firstLevel args)).ends_bind ?_
  rintro l τ ⟨⟨obj, rfl, hτ, -⟩, hs⟩
  refine Writes.after (τ := τ) ?_ hs
  have hfirst : Reached σ.server b₀ c₁ := .single ⟨first, by simp [hkids]⟩
  have hnext : (levelOf σ.server obj [] b₀ 0).children[0]? = some (first, obj c₁) := by
    simp [levelOf, hkids]
  refine Ends.bind (R := Sends fun _ => True) ?_ Writes.followed fun _ => sends_pure _
  change Ends (listLoop _ _ [levelOf σ.server obj [] b₀ 0] []) τ _
  rw [listLoop_of_child hnext]
  refine Ends.bind (R := Sends fun _ => True)
    (hτ.ends_visit h.wellLinked h.indexed ⟨n₀, hn₀⟩ hfirst (by simp) haction 1) Writes.followed
    fun line => ?_
  -- the rest of the turn and of the loop may send what it wants
  have hpermits : Permits (fun _ => True) (assignAction args initial) :=
    ⟨fun _ => trivial, fun _ _ => trivial, fun _ _ => trivial, fun _ _ => trivial⟩
  exact sends_afterVisit hpermits _ _ _ _ (sends_listLoop hpermits fuel)

/-! ## The command -/

/-- Plain listing.  Without a known action `onCmdList` only reads, from every session and wherever it
ends, when its uninitialised variable does not hold the value of an action and autowatch is off.  With
the mirror in sync it only reads exactly when the variable does not hold such a value or there is
nothing below the start node, and autowatch is off or the nodes that the command comes by are in the
mirror already. -/
theorem onCmdList_onlyReads_iff (hdel : args[actionArg]? ≠ some deleteAction)
    (hsub : args[actionArg]? ≠ some subscribeAction)
    (hunsub : args[actionArg]? ≠ some unsubscribeAction) (initial : UInt32) :
    (Plain initial → ∀ fuel σ, ¬ σ.Autowatches →
      OnlyReads σ ((onCmdList fuel initial args).result σ).2) ∧
    ∀ σ u, InSync σ → Leads σ.server.entry 0 (startNames args) u →
      ∃ fuel₀, ∀ fuel, fuel₀ ≤ fuel → (OnlyReads σ ((onCmdList fuel initial args).result σ).2 ↔
        (Plain initial ∨ ∀ v, ¬ ChildOf σ.server.entry u v) ∧
          (σ.Autowatches → ∀ v, ComesBy σ.server.entry (startNames args) u v →
            σ.mirror.parentOf v ≠ none)) := by
  have hassign := assignAction_of_none hdel hsub hunsub initial
  refine ⟨fun hplain fuel σ => onCmdList_onlyReads hassign hplain fuel, fun σ u h hu => ?_⟩
  by_cases hplain : Plain initial
  · refine ⟨0, fun fuel _ => ?_⟩
    rw [and_iff_right (.inl hplain)]
    exact h.onlyReads_iff_of_plain hu hassign hplain fuel
  by_cases hleaf : ∀ v, ¬ ChildOf σ.server.entry u v
  · refine ⟨1, fun fuel hfuel => ?_⟩
    obtain ⟨fuel, rfl⟩ := Nat.exists_eq_add_of_le' hfuel
    rw [and_iff_right (.inr hleaf)]
    exact h.onlyReads_iff_of_leaf hu hleaf fuel
  obtain ⟨v, hv⟩ := not_forall_not.mp hleaf
  have hnot : ¬ (Plain initial ∨ ∀ v, ¬ ChildOf σ.server.entry u v) := not_or.mpr ⟨hplain, hleaf⟩
  by_cases hdelete : initial = DEL
  · -- the node `v` is deleted
    obtain ⟨fuel₀, hfuel₀⟩ := h.onCmdList_deletesBelow (hassign.trans hdelete) hu
    refine ⟨fuel₀, fun fuel hfuel => iff_of_false ?_ fun hboth => hnot hboth.1⟩
    obtain ⟨lines, τ, hres, hdeletes⟩ := hfuel₀ fuel hfuel
    rw [hres]
    rintro ⟨hserver, -⟩
    exact hdeletes.empty v (hserver ▸ hv)
  · refine ⟨1, fun fuel hfuel => iff_of_false ?_ fun hboth => hnot hboth.1⟩
    obtain ⟨fuel, rfl⟩ := Nat.exists_eq_add_of_le' hfuel
    have haction : initial = SUB ∨ initial = UNSUB := by
      by_contra hne
      rw [not_or] at hne
      exact hplain ⟨hdelete, hne⟩
    exact Writes.not_onlyReads (h.ends_writes hu hv (hassign.symm ▸ haction) fuel)

/-- `autowatch` changes nothing else. -/
theorem InSync.onCmdAutoWatch (h : InSync σ) (args : ArgsMap) :
    InSync ((onCmdAutoWatch args).result σ).2 := by
  unfold Monitor.onCmdAutoWatch
  split_ifs
  · exact { h with }
  · exact { h with }

/-- With no arguments and nothing in the variable the server with the nodes `"/a"` and `"/a/b"` is only
read, but not with the value of `SUB` in it, nor after `autowatch`. -/
theorem onCmdList_onlyReads_smallTree : ∃ σ, InSync σ ∧ ∃ fuel₀, ∀ fuel, fuel₀ ≤ fuel →
    OnlyReads σ ((onCmdList fuel 0 ∅).result σ).2 ∧
      ¬ OnlyReads σ ((onCmdList fuel SUB ∅).result σ).2 ∧
      ∃ τ, (onCmdAutoWatch ∅).result σ = (.ok (.text "autowatch enabled!"), τ) ∧
        ¬ OnlyReads τ ((onCmdList fuel 0 ∅).result τ).2 := by
  have hrun : ∃ r, execute ProtocolHandler.step (fun _ _ => true) .init smallTree = some r ∧
      acceptedCreates r.2 < 2 ^ 32 - 1 ∧ (r.1.entry 1).any fun e => e.parent = some 0 :=
    ⟨_, rfl, by decide, by decide +kernel⟩
  obtain ⟨⟨s, ls⟩, hexec, hacc, hentry⟩ := hrun
  obtain ⟨e, he, hpar⟩ := (Option.any_eq_true _ _).mp hentry
  have hchild : ChildOf s.entry 0 1 := ⟨e, he, by simpa using hpar⟩
  have hsync := inSync_fresh 7 (run_of_execute _ hexec).of_guarded hacc
  have hiff := fun {σ} (hσ : InSync σ) initial => (onCmdList_onlyReads_iff
    (show (∅ : ArgsMap)[actionArg]? ≠ some deleteAction by decide) (by decide) (by decide)
    initial).2 σ 0 hσ rfl
  obtain ⟨fuel₁, hfuel₁⟩ := hiff hsync 0
  obtain ⟨fuel₂, hfuel₂⟩ := hiff hsync SUB
  obtain ⟨fuel₃, hfuel₃⟩ := hiff (hsync.onCmdAutoWatch ∅) 0
  refine ⟨_, hsync, max fuel₁ (max fuel₂ fuel₃), fun fuel hfuel => ⟨?_, ?_, _, rfl, ?_⟩⟩
  · exact (hfuel₁ fuel (le_of_max_le_left hfuel)).mpr
      ⟨.inl (by decide), fun hon => Bool.noConfusion hon.2⟩
  · rw [hfuel₂ fuel (le_of_max_le_left (le_of_max_le_right hfuel))]
    rintro ⟨hplain | hleaf, -⟩
    · exact absurd hplain (by decide)
    · exact hleaf 1 hchild
  · intro hreads
    refine ((hfuel₃ fuel (le_of_max_le_right (le_of_max_le_right hfuel))).mp hreads).2 ⟨rfl, rfl⟩ 1
      (.inr ⟨.single hchild, by decide⟩) ?_
    change (Session.fresh 7 s).mirror.parentOf 1 = none
    simp only [Session.fresh]
    decide

/-- With the value of `DEL` in the variable, listing the whole tree deletes it. -/
theorem not_onCmdList_onlyReads : ¬ ∀ (args : ArgsMap) (initial : UInt32) (σ : Session) (u : UInt64)
    (fuel : ℕ), args[actionArg]? ≠ some deleteAction → args[actionArg]? ≠ some subscribeAction →
    args[actionArg]? ≠ some unsubscribeAction → InSync σ →
    Leads σ.server.entry 0 (startNames args) u →
    OnlyReads σ ((onCmdList fuel initial args).result σ).2 := by
  intro hall
  have hrun : ∃ r, execute ProtocolHandler.step (fun _ _ => true) .init smallTree = some r ∧
      acceptedCreates r.2 < 2 ^ 32 - 1 ∧ (r.1.entry 1).isSome ∧
      (((onCmdList 9 DEL ∅).result (.fresh 7 r.1)).2.server.entry 1).isNone :=
    ⟨_, rfl, by decide, by decide +kernel, by decide +kernel⟩
  obtain ⟨⟨s, ls⟩, hexec, hacc, hsome, hnone⟩ := hrun
  have hsync := inSync_fresh 7 (run_of_execute _ hexec).of_guarded hacc
  obtain ⟨hserver, -⟩ := hall ∅ DEL _ 0 9 (by decide) (by decide) (by decide) hsync rfl
  rw [hserver, Option.isNone_iff_eq_none] at hnone
  have hentry : s.entry 1 = none := hnone
  rw [hentry] at hsome
  cases hsome

end PropertyTree.Monitor
