import PropertyTree.Client.Mentions
import PropertyTree.System.Replies

/-!
# What `get` finds

`get` adds the entries of the listing one by one, and then looks the first of them up, under another
lock and without a test.  Between the two the reader may handle the deletion of that node.  `note`
keeps beside the system what a client has been told of which uuid, so that the lookup succeeds exactly
when the last thing the client was told of the first entry's uuid was not its deletion.
-/

namespace PropertyTree.System

open Library Server Client PropertyTreeMessages

variable {s s' : System} {act : System.Action} {c : Conn} {i : ThreadId} {a : Addr} {name : Name}
  {recursive : Bool} {l : List NamedNode} {n r tag : ℕ}

/-- The uuids that a step puts into the `mTree` of the client on `c`, and takes out of it. -/
def mentionsIn (s : System) (c : Conn) : System.Action → List (UInt64 × Bool)
  | .client d b => if d = c then (s.client c).mentionsOf b else []
  | _ => []

/-- A system with the uuids that one of its clients has been told of. -/
structure Noted where
  system : System
  mentions : List (UInt64 × Bool)

/-- A step of the system, of which what the client on `c` is told is noted. -/
def note (c : Conn) (x : Noted) (act : System.Action) : Option Noted :=
  (x.system.step act).map fun s => ⟨s, x.mentions ++ mentionsIn x.system c act⟩

/-- The `get` of thread `i`, which had `n` results before it, has found the node of the first entry of
the listing `l`. -/
structure Found (s : System) (c : Conn) (i : ThreadId) (call : ApiCall) (l : List NamedNode) (n : ℕ) :
    Prop where
  ne_nil : l ≠ []
  result : ∃ b, (s.client c).ended n i = some (call, .property (some b))

/-- While `get` adds the entries of the listing `l`, the mirror knows the uuids it was last told of
as those of nodes, and the first entry is one it has been told of once it is added. -/
structure Adding (i : ThreadId) (call : ApiCall) (l : List NamedNode) (n : ℕ) (k : Client)
    (mentions : List (UInt64 × Bool)) : Prop where
  length : n ≤ k.results.length
  known : ∀ {v b}, lastOf v mentions = some b → (k.mirror.mTree[v]?).isSome = b
  stage : k.ended n i = none →
    (∃ r tag, k.threads[i]? = some ⟨call, .answered r ⟨tag, .treeInfoResponse l⟩⟩) ∨
    ∃ pre todo, l = pre ++ todo ∧ k.threads[i]? = some ⟨call, .adding l todo⟩ ∧
      ∀ j ∈ pre.head?, lastOf j.uuid mentions ≠ none

variable {k k' : Client} {mentions : List (UInt64 × Bool)}

/-- The queues are of no concern to `get`. -/
theorem Adding.congr {call : ApiCall} (h : Adding i call l n k mentions)
    (hth : k'.threads = k.threads) (hres : k'.results = k.results) (hm : k'.mirror = k.mirror) :
    Adding i call l n k' mentions := by
  have hended : k'.ended n i = k.ended n i := by rw [ended, ended, hres]
  exact ⟨hres ▸ h.length, fun hv => hm ▸ h.known hv, fun hno => hth ▸ h.stage (hended ▸ hno)⟩

/-- An entry that is added is mentioned. -/
theorem lastOf_entryMentions (mentions : List (UInt64 × Bool)) (j : NamedNode) :
    lastOf j.uuid (mentions ++ entryMentions j) ≠ none := by
  refine lastOf_ne_none (x := (j.uuid, true)) (List.mem_append_right _ ?_)
  simp [entryMentions]

/-- A step of the client keeps the invariant. -/
theorem Adding.client_step {number : ℕ} {b : Client.Action} {sent : List Packet}
    (h : Adding i (.get a name recursive) l n k mentions)
    (hstep : k.step number b = some (k', sent)) :
    Adding i (.get a name recursive) l n k' (mentions ++ k.mentionsOf b) := by
  have hchange := (Client.step_cases hstep).2.callChange
  refine ⟨h.length.trans (results_of_callChange hchange).length_le, fun {v p} hv => ?_,
    fun hno => ?_⟩
  · refine (isSome_mTree_of_step hstep v).trans ?_
    rw [lastOf_append] at hv
    cases hm : lastOf v (k.mentionsOf b) with
    | some p' =>
      rw [hm] at hv
      cases hv
      rfl
    | none =>
      rw [hm] at hv
      exact h.known hv
  have hno₀ : k.ended n i = none := by
    cases hx : k.ended n i with
    | none => rfl
    | some _ =>
      rw [ended_mono (results_of_callChange hchange) hx] at hno
      cases hno
  by_cases hb : b.caller = some i
  swap
  · obtain ⟨hthread, -⟩ := hchange.of_caller_ne hb h.length
    rcases h.stage hno₀ with ⟨r, tag, ht⟩ | ⟨pre, todo, hl, ht, hpre⟩
    · exact .inl ⟨r, tag, hthread ▸ ht⟩
    · exact .inr ⟨pre, todo, hl, hthread ▸ ht, fun j hj => lastOf_append_ne_none (hpre j hj) _⟩
  rcases h.stage hno₀ with ⟨r, tag, ht⟩ | ⟨pre, todo, hl, ht, hpre⟩
  · obtain ⟨rfl, hk'⟩ := proceed_of_isPast hstep hb ht rfl
    simp only [Client.proceed, ht, respond] at hk'
    cases hk'
    exact .inr ⟨[], l, rfl, by simp [setStage], by simp⟩
  · obtain ⟨rfl, hk'⟩ := proceed_of_isPast hstep hb ht rfl
    simp only [Client.proceed, ht] at hk'
    cases todo with
    | nil =>
      cases hk'
      rw [ended_of_leave h.length hno₀ rfl] at hno
      cases hno
    | cons j todo =>
      cases hk'
      refine .inr ⟨pre ++ [j], todo, by simp [hl], by simp [setStage], fun x hx => ?_⟩
      simp only [mentionsOf, ht]
      cases pre with
      | nil =>
        cases hx
        exact lastOf_entryMentions mentions j
      | cons y pre => exact lastOf_append_ne_none (hpre x hx) _

/-- A step of the system keeps the invariant. -/
theorem Adding.step {x y : Noted}
    (h : Adding i (.get a name recursive) l n (x.system.client c) x.mentions)
    (hstep : note c x act = some y) :
    Adding i (.get a name recursive) l n (y.system.client c) y.mentions := by
  obtain ⟨s', hs', rfl⟩ := Option.map_eq_some_iff.mp hstep
  rcases client_of_step hs' c with ⟨b, k', sent, rfl, hb, hk'⟩ | ⟨hact, q, outbound, hk'⟩
  · have hmentions : mentionsIn x.system c (.client c b) = (x.system.client c).mentionsOf b :=
      if_pos rfl
    rw [hmentions, hk']
    exact (h.client_step hb).congr rfl rfl rfl
  · have hnone : mentionsIn x.system c act = [] := by
      cases act with
      | client d b =>
        have hdc : d ≠ c := by
          rintro rfl
          exact hact b rfl
        simp [mentionsIn, hdc]
      | _ => rfl
    rw [hnone, List.append_nil, hk']
    exact h.congr rfl rfl rfl

/-- The first entry of the listing is in `mTree` once all are added, unless the client was told last that
its node is deleted. -/
theorem Adding.isSome_iff (h : Adding i (.get a name recursive) l n k mentions)
    (hno : k.ended n i = none) (hadded : k.threads[i]? = some ⟨.get a name recursive, .adding l []⟩)
    {j : NamedNode} (hj : j ∈ l.head?) :
    (k.mirror.mTree[j.uuid]?).isSome = true ↔ lastOf j.uuid mentions ≠ some false := by
  rcases h.stage hno with ⟨r', tag', hth⟩ | ⟨pre, todo, hl, hth, hpre⟩
  · rw [hadded] at hth
    cases hth
  rw [hadded] at hth
  cases hth
  rw [List.append_nil] at hl
  subst hl
  cases hlast : lastOf j.uuid mentions with
  | none => exact absurd hlast (hpre j hj)
  | some p => cases p <;> simp [h.known hlast]

/-- The response to the own request of a `get` lists the node of that name first. -/
theorem ne_nil_of_run {as : List System.Action} (hrun : Run Step .init as s)
    (ht : (s.client c).threads[i]? =
      some ⟨.get a name recursive, .answered r ⟨r, .treeInfoResponse l⟩⟩)
    (hname : name ≠ selfName) : l ≠ [] := by
  obtain ⟨t, q, hreq, hask⟩ :=
    ((sound_of_run hrun).threads (clients_of_isPast ht rfl) i _ ht).sent rfl
  obtain ⟨node, rfl, -⟩ := hask
  rcases (leading_of_run hrun c).response ht rfl with hn | ⟨d, t', q', hreq', hl⟩
  · cases hn
  · rw [hreq] at hreq'
    cases hreq'
    simpa [ApiCall.request, leadsTo, hname] using hl

/-- The lookup that ends `get` finds a node exactly when the message is the response to its own request,
or at least lists something, and the client was not told last of the first entry's uuid that its node
is deleted. -/
theorem found_iff_of_run {as bs : List System.Action} {x : Noted} (hrun : Run Step .init as s)
    (ht : (s.client c).threads[i]? =
      some ⟨.get a name recursive, .answered r ⟨tag, .treeInfoResponse l⟩⟩)
    (hname : name ≠ selfName) (hbs : Run (Follows (note c)) ⟨s, []⟩ bs x)
    (hno : (x.system.client c).ended (s.client c).results.length i = none)
    (hadded : (x.system.client c).threads[i]? = some ⟨.get a name recursive, .adding l []⟩)
    (hlook : Step x.system (.client c (.proceed i)) s') :
    Found s' c i (.get a name recursive) l (s.client c).results.length ↔
      (tag = r ∨ l ≠ []) ∧ ∀ j ∈ l.head?, lastOf j.uuid x.mentions ≠ some false := by
  have hinv : Adding i (.get a name recursive) l (s.client c).results.length (x.system.client c)
      x.mentions := by
    refine hbs.invariant (P := fun x => Adding i (.get a name recursive) l
      (s.client c).results.length (x.system.client c) x.mentions) (fun h hstep => h.step hstep) ?_
    exact ⟨le_rfl, by simp [lastOf_nil], fun _ => .inl ⟨r, tag, ht⟩⟩
  have hown : tag = r → l ≠ [] := by
    rintro rfl
    exact ne_nil_of_run hrun ht hname
  have hresult : (s'.client c).ended (s.client c).results.length i =
      some (.get a name recursive, (x.system.client c).found (.get a name recursive) l) := by
    rcases client_of_step hlook c with ⟨b, k', sent, heq, hb, hk'⟩ | ⟨hact, -⟩
    · cases heq
      obtain ⟨-, hproceed⟩ := proceed_of_isPast hb rfl hadded rfl
      simp only [Client.proceed, hadded] at hproceed
      cases hproceed
      rw [hk']
      exact ended_of_leave hinv.length hno rfl
    · exact absurd rfl (hact _)
  cases l with
  | nil =>
    refine iff_of_false (fun h => h.ne_nil rfl) fun h => ?_
    rcases h.1 with htag | hne
    · exact hown htag rfl
    · exact hne rfl
  | cons j l =>
    have hiff := hinv.isSome_iff hno hadded (j := j) rfl
    simp only [Client.found, if_neg hname] at hresult
    cases hj : (x.system.client c).mirror.mTree[j.uuid]? with
    | none =>
      rw [hj] at hresult hiff
      refine iff_of_false (fun h => ?_) fun h => ?_
      · obtain ⟨b, hb⟩ := h.result
        rw [hresult] at hb
        cases hb
      · cases hiff.mpr (h.2 j rfl)
    | some b =>
      rw [hj] at hresult hiff
      refine iff_of_true ⟨List.cons_ne_nil j l, b, hresult⟩ ⟨.inr (List.cons_ne_nil j l), ?_⟩
      rintro _ ⟨⟩
      exact hiff.mp rfl

/-- The steps up to the return of `waitTransaction` in the second client, which gets a node of the
first one by its name. -/
def getActions : List System.Action :=
  signinActions 1 ++ askActions 1 (.create 0 [97]) ++ [.client 1 .read, .client 1 .read] ++
    takeActions 1 ++ signinActions 2 ++ askActions 2 (.get 0 [97] false) ++
    [.client 2 .read, .client 2 (.take 0), .client 2 (.erase 0)]

/-- The state after `getActions`, the one before the lookup after the steps `bs`, and the one after it,
as far as they are reached. -/
def looking (bs : List System.Action) : Option (System × Noted × System) :=
  (follow System.step (fun _ _ => true) .init getActions).bind fun s =>
    (follow (note 2) (fun _ _ => true) ⟨s, []⟩ bs).bind fun x =>
      (x.system.step (.client 2 (.proceed 0))).map fun s' => (s, x, s')

/-- What `looking` has gone through. -/
theorem of_looking {bs : List System.Action} {x : Noted} (h : looking bs = some (s, x, s')) :
    Run Step .init getActions s ∧ Run (Follows (note 2)) ⟨s, []⟩ bs x ∧
      Step x.system (.client 2 (.proceed 0)) s' := by
  obtain ⟨s, hs, h⟩ := Option.bind_eq_some_iff.mp h
  obtain ⟨x, hx, h⟩ := Option.bind_eq_some_iff.mp h
  obtain ⟨s', hs', heq⟩ := Option.map_eq_some_iff.mp h
  cases heq
  exact ⟨(run_of_follow System.step hs).of_guarded, (run_of_follow (note 2) hx).of_guarded, hs'⟩

/-- The lookup finds the node that was added just before. -/
theorem found_get : ∃ s bs x s', Run Step .init getActions s ∧
    Run (Follows (note 2)) ⟨s, []⟩ bs x ∧ Step x.system (.client 2 (.proceed 0)) s' ∧
    Found s' 2 0 (.get 0 [97] false) [⟨[97], 1, 0⟩] (s.client 2).results.length := by
  obtain ⟨⟨s, x, s'⟩, h, hx⟩ := (Option.any_eq_true _ _).mp (show (looking
      [.client 2 (.proceed 0), .client 2 (.proceed 0)]).any (fun y =>
        decide ((y.1.client 2).threads[(0 : ThreadId)]? = some ⟨.get 0 [97] false,
          .answered 3 ⟨3, .treeInfoResponse [⟨[97], 1, 0⟩]⟩⟩) &&
        decide ((y.2.1.system.client 2).ended (y.1.client 2).results.length 0 = none) &&
        decide ((y.2.1.system.client 2).threads[(0 : ThreadId)]? =
          some ⟨.get 0 [97] false, .adding [⟨[97], 1, 0⟩] []⟩) &&
        decide (y.2.1.mentions = [(0, true), (1, true)])) = true by decide +kernel)
  obtain ⟨hrun, hnote, hlook⟩ := of_looking h
  simp only [Bool.and_eq_true, decide_eq_true_eq] at hx
  obtain ⟨⟨⟨ht, hno⟩, hadded⟩, hmentions⟩ := hx
  refine ⟨s, _, x, s', hrun, hnote, hlook,
    (found_iff_of_run hrun ht (by decide) hnote hno hadded hlook).mpr ⟨.inl rfl, ?_⟩⟩
  rintro _ ⟨⟩
  rw [hmentions]
  decide

/-- The owner destroys the node, and the reader handles the deletion before the lookup, which then
dereferences `end()`. -/
theorem not_found_deleted : ∃ s bs x s', Run Step .init getActions s ∧
    Run (Follows (note 2)) ⟨s, []⟩ bs x ∧ Step x.system (.client 2 (.proceed 0)) s' ∧
    (s.client 2).threads[(0 : ThreadId)]? = some ⟨.get 0 [97] false,
      .answered 3 ⟨3, .treeInfoResponse [⟨[97], 1, 0⟩]⟩⟩ ∧
    (s'.client 2).ended (s.client 2).results.length 0 = some (.get 0 [97] false, .fault) ∧
    ¬ Found s' 2 0 (.get 0 [97] false) [⟨[97], 1, 0⟩] (s.client 2).results.length := by
  obtain ⟨⟨s, x, s'⟩, h, hx⟩ := (Option.any_eq_true _ _).mp (show (looking
      ([.client 2 (.proceed 0), .client 2 (.proceed 0)] ++ askActions 1 (.destroy 1) ++
        [.client 2 .read])).any (fun y =>
        decide ((y.1.client 2).threads[(0 : ThreadId)]? = some ⟨.get 0 [97] false,
          .answered 3 ⟨3, .treeInfoResponse [⟨[97], 1, 0⟩]⟩⟩) &&
        decide ((y.2.2.client 2).ended (y.1.client 2).results.length 0 =
          some (.get 0 [97] false, .fault))) = true by decide +kernel)
  obtain ⟨hrun, hnote, hlook⟩ := of_looking h
  simp only [Bool.and_eq_true, decide_eq_true_eq] at hx
  refine ⟨s, _, x, s', hrun, hnote, hlook, hx.1, hx.2, fun hfound => ?_⟩
  obtain ⟨b, hb⟩ := hfound.result
  rw [hx.2] at hb
  cases hb

end PropertyTree.System
