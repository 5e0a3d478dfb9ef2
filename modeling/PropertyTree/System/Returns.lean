import PropertyTree.System.Listings

/-!
# What a call makes of its response

A call that gets a response to its own request understands it, so that it ends with a result, whatever
the reader and the other threads do meanwhile, except in two places.  `call` takes the rejection of its
RPC for an error of the protocol, and `get` dereferences what it finds of the first entry of its listing
without a test, when the node may have been deleted.
-/

namespace PropertyTree.System

open Library Server Client PropertyTreeMessages

variable {s s' u : System} {act : System.Action} {c : Conn} {k k' : Client} {i : ThreadId}
  {call : ApiCall} {m : PropertyTreeMessages} {n steps r tag : ℕ} {x y : Noted}

/-! ## The property -/

/-- The steps the caller takes at most from the moment it looks at the message. -/
def stepsFor : PropertyTreeMessages → ℕ
  | .treeInfoResponse l => l.length + 2
  | _ => 1

/-- Whether the step is one of thread `i` of the client on `c` past its wait. -/
def Action.proceeds (c : Conn) (i : ThreadId) : System.Action → Bool
  | .client d b => d = c ∧ b.isProceed i
  | _ => false

/-- The steps that thread `i` of the client on `c` takes past its wait. -/
def proceedings (c : Conn) (i : ThreadId) (as : List System.Action) : ℕ :=
  as.countP (Action.proceeds c i)

/-- The call of thread `i`, which had `n` results before it and has got the message `m`, has ended with
a result, an empty one for a rejection; or the caller has steps left to take, and can take the next one
unless a `fetch` has to wait for the lock of its node. -/
structure Returning (s : System) (c : Conn) (i : ThreadId) (call : ApiCall)
    (m : PropertyTreeMessages) (n steps : ℕ) : Prop where
  result : ∀ {call' result}, (s.client c).ended n i = some (call', result) →
    call' = call ∧ result.isResult = true ∧ (call.isRejected m = true → result = .bytes [])
  goesOn : (s.client c).ended n i = none → steps < stepsFor m ∧
    ((∀ x, call = .fetch x → x ∉ (s.client c).dataMutex) →
      ∃ s', Step s (.client c (.proceed i)) s')

/-- What the code needs at a step that the caller takes before the call has ended: the message is no
rejection of a `call`, and the entry that `get` looks up, if this is its lookup, is not one of whose
uuid the client was told last that its node is deleted. -/
def Answerable (c : Conn) (i : ThreadId) (call : ApiCall) (m : PropertyTreeMessages) (n : ℕ)
    (x : Noted) (act : System.Action) : Prop :=
  act.proceeds c i = true → (x.system.client c).ended n i = none →
    call.isRejected m = false ∧
      ∀ j ∈ (x.system.client c).lookedUp i, lastOf j.uuid x.mentions ≠ some false

instance (act : System.Action) : Decidable (Answerable c i call m n x act) :=
  inferInstanceAs (Decidable (_ → _ → _ ∧ ∀ j ∈ (x.system.client c).lookedUp i, _))

/-! ## The call that goes on -/

/-- A call that has got its response, after some steps of its caller. -/
inductive Progress (n : ℕ) (i : ThreadId) (call : ApiCall) (m : PropertyTreeMessages) (k : Client) :
    ℕ → Prop
  | looking (r tag : ℕ) (hnone : k.ended n i = none)
      (ht : k.threads[i]? = some ⟨call, .answered r ⟨tag, m⟩⟩) : Progress n i call m k 0
  | adding (l todo : List NamedNode) (steps : ℕ) (hm : m = .treeInfoResponse l) (hnone : k.ended n i = none)
      (ht : k.threads[i]? = some ⟨call, .adding l todo⟩)
      (hsteps : steps + todo.length = l.length + 1) : Progress n i call m k steps
  | returned (steps : ℕ) (result : CallResult) (h : k.ended n i = some (call, result))
      (hrej : call.isRejected m = true → result.isResult = false) : Progress n i call m k steps

/-- A response that a call understands, or that rejects it. -/
def Fitting (call : ApiCall) (m : PropertyTreeMessages) : Prop :=
  call.understands m = true ∨ call.isRejected m = true

/-- A step of the client takes the call on, or leaves it where it is. -/
theorem Progress.client_step {number : ℕ} {a : Client.Action} {sent : List Packet}
    (h : Progress n i call m k steps) (hm : Fitting call m) (hn : n ≤ k.results.length)
    (hstep : k.step number a = some (k', sent)) :
    Progress n i call m k' (steps + if a.isProceed i then 1 else 0) := by
  have hchange := (Client.step_cases hstep).2.callChange
  by_cases ha : a.caller = some i
  swap
  · obtain ⟨hthread, hended⟩ := hchange.of_caller_ne ha hn
    have hne : a.isProceed i = false := by
      cases a <;> first | rfl | simpa [Action.isProceed, Action.caller] using ha
    simp only [hne, Bool.false_eq_true, if_false, Nat.add_zero]
    cases h with
    | looking r tag hnone ht => exact .looking r tag (hended ▸ hnone) (hthread ▸ ht)
    | adding l todo steps hl hnone ht hsteps =>
      exact .adding l todo steps hl (hended ▸ hnone) (hthread ▸ ht) hsteps
    | returned steps result h hrej => exact .returned _ result (hended ▸ h) hrej
  cases h with
  | looking r tag hnone ht =>
    obtain ⟨rfl, hk'⟩ := proceed_of_isPast hstep ha ht rfl
    simp only [Client.proceed, ht] at hk'
    simp only [Action.isProceed, decide_true, if_true]
    rcases hm with hm | hm
    · rcases respond_of_understands hm hk' with ⟨result, hresult, hadd⟩ | ⟨l, hl, rfl⟩
      · refine .returned _ result (ended_of_leave hn hnone hadd) fun hrej => ?_
        rw [isRejected_of_understands hm] at hrej
        cases hrej
      · exact .adding l l 1 hl hnone (by simp [setStage]) (Nat.add_comm _ _)
    · rw [respond_of_isRejected hm] at hk'
      cases hk'
      exact .returned _ _ (ended_of_leave hn hnone rfl) fun _ => rfl
  | adding l todo steps hl hnone ht hsteps =>
    obtain ⟨rfl, hk'⟩ := proceed_of_isPast hstep ha ht rfl
    simp only [Client.proceed, ht] at hk'
    simp only [Action.isProceed, decide_true, if_true]
    cases todo with
    | nil =>
      cases hk'
      refine .returned _ _ (ended_of_leave hn hnone rfl) fun hrej => ?_
      rw [hl] at hrej
      cases call <;> cases hrej
    | cons j todo =>
      cases hk'
      refine .adding l todo _ hl hnone (by simp [setStage]) ?_
      rw [List.length_cons] at hsteps
      omega
  | returned steps result h hrej =>
    exact .returned _ result (ended_mono (results_of_callChange hchange) h) hrej

/-- The queues of a client are of no concern to a call that goes on. -/
theorem Progress.congr (h : Progress n i call m k steps) (hth : k'.threads = k.threads)
    (hres : k'.results = k.results) : Progress n i call m k' steps := by
  have hended : k'.ended n i = k.ended n i := by rw [ended, ended, hres]
  cases h with
  | looking r tag hnone ht => exact .looking r tag (hended ▸ hnone) (hth ▸ ht)
  | adding l todo steps hl hnone ht hsteps =>
    exact .adding l todo steps hl (hended ▸ hnone) (hth ▸ ht) hsteps
  | returned steps result h hrej => exact .returned _ result (hended ▸ h) hrej

/-- A step of the system takes the call on, or leaves it where it is. -/
theorem Progress.step (h : Progress n i call m (s.client c) steps) (hm : Fitting call m)
    (hn : n ≤ (s.client c).results.length) (hstep : Step s act s') :
    Progress n i call m (s'.client c) (steps + proceedings c i [act]) ∧
      n ≤ (s'.client c).results.length := by
  rcases client_of_step hstep c with ⟨b, k', sent, rfl, hb, hk'⟩ | ⟨hact, l, outbound, hk'⟩
  · have hlength := (results_of_callChange (Client.step_cases hb).2.callChange).length_le
    have hcount : proceedings c i [.client c b] = if b.isProceed i then 1 else 0 := by
      simp [proceedings, Action.proceeds]
    rw [hk', hcount]
    exact ⟨(h.client_step hm hn hb).congr rfl rfl, hn.trans hlength⟩
  · have hcount : proceedings c i [act] = 0 := by
      cases act with
      | client d b =>
        have hdc : d ≠ c := by
          rintro rfl
          exact hact b rfl
        simp [proceedings, Action.proceeds, hdc]
      | _ => rfl
    rw [hk', hcount]
    exact ⟨h.congr rfl rfl, hn⟩

/-- The call has not ended badly. -/
def Unharmed (k : Client) (n : ℕ) (i : ThreadId) : Prop :=
  ∀ {call' result}, k.ended n i = some (call', result) → result.isResult = true

/-- A call that goes on and has not ended badly returns, and no other does. -/
theorem Progress.returning_iff {as : List System.Action} (hrun : Run Step .init as s)
    (h : Progress n i call m (s.client c) steps) :
    Returning s c i call m n steps ↔ Unharmed (s.client c) n i := by
  refine ⟨fun hret {_ _} hended => (hret.result hended).2.1, fun hgood => ?_⟩
  cases h with
  | looking r tag hnone ht =>
    refine ⟨fun hended => ?_, fun _ => ⟨?_, fun hlock => exists_proceed hrun ht rfl ?_⟩⟩
    · rw [hnone] at hended
      cases hended
    · cases m <;> exact Nat.succ_pos _
    · simpa only [Client.proceed, ht] using respond_ne_none hlock
  | adding l todo steps hl hnone ht hsteps =>
    refine ⟨fun hended => ?_, fun _ => ⟨?_, fun _ => exists_proceed hrun ht rfl ?_⟩⟩
    · rw [hnone] at hended
      cases hended
    · subst hl
      simp only [stepsFor]
      omega
    · cases todo <;> simp [Client.proceed, ht]
  | returned steps result h hrej =>
    refine ⟨fun hended => ?_, fun hnone => ?_⟩
    · rw [h] at hended
      cases hended
      refine ⟨rfl, hgood h, fun hr => ?_⟩
      rw [hgood h] at hrej
      cases hrej hr
    · rw [hnone] at h
      cases h

/-! ## The step that ends the call -/

/-- The call of thread `i` from its response on, with what its client is told meanwhile. -/
structure Responding (c : Conn) (i : ThreadId) (call : ApiCall) (m : PropertyTreeMessages) (n : ℕ)
    (x : Noted) : Prop where
  length : n ≤ (x.system.client c).results.length
  progress : ∃ steps, Progress n i call m (x.system.client c) steps
  adding : ∀ {a name recursive l}, call = .get a name recursive → m = .treeInfoResponse l →
    Adding i call l n (x.system.client c) x.mentions

/-- A step of the system keeps it. -/
theorem Responding.step (h : Responding c i call m n x) (hm : Fitting call m)
    (hstep : note c x act = some y) : Responding c i call m n y := by
  obtain ⟨steps, hp⟩ := h.progress
  have hadding : ∀ {a name recursive l}, call = .get a name recursive →
      m = .treeInfoResponse l → Adding i call l n (y.system.client c) y.mentions := by
    rintro a name recursive l rfl hl
    exact (h.adding rfl hl).step hstep
  obtain ⟨s', hs', rfl⟩ := Option.map_eq_some_iff.mp hstep
  obtain ⟨hp', hn'⟩ := hp.step hm h.length hs'
  exact ⟨hn', ⟨_, hp'⟩, hadding⟩

/-- A call that has ended stays as it has ended. -/
theorem ended_of_step {z : ApiCall × CallResult} (hended : (s.client c).ended n i = some z)
    (hstep : Step s act s') : (s'.client c).ended n i = some z := by
  rcases client_of_step hstep c with ⟨b, k', sent, rfl, hb, hk'⟩ | ⟨-, l, outbound, hk'⟩
  · have hmono := ended_mono (results_of_callChange (Client.step_cases hb).2.callChange) hended
    rw [hk']
    exact hmono
  · rw [hk']
    exact hended

/-- A call that has not ended does not end by the steps of the others. -/
theorem Progress.ended_of_not_proceeds (h : Progress n i call m (s.client c) steps)
    (hn : n ≤ (s.client c).results.length) (hnone : (s.client c).ended n i = none)
    (hact : act.proceeds c i = false) (hstep : Step s act s') : (s'.client c).ended n i = none := by
  have hpast : ∃ th, (s.client c).threads[i]? = some th ∧ th.stage.isPast = true := by
    cases h with
    | looking r tag hnone ht => exact ⟨_, ht, rfl⟩
    | adding l todo steps hl hnone ht hsteps => exact ⟨_, ht, rfl⟩
    | returned steps result h hrej =>
      rw [hnone] at h
      cases h
  obtain ⟨th, ht, hth⟩ := hpast
  rcases client_of_step hstep c with ⟨b, k', sent, rfl, hb, hk'⟩ | ⟨-, l, outbound, hk'⟩
  · have hcaller : b.caller ≠ some i := by
      intro hb'
      obtain ⟨rfl, -⟩ := proceed_of_isPast hb hb' ht hth
      simp [Action.proceeds, Client.Action.isProceed] at hact
    have hended := ((Client.step_cases hb).2.callChange.of_caller_ne hcaller hn).2
    rw [hk']
    exact hended.trans hnone
  · rw [hk']
    exact hnone

/-- A step past the wait is taken by the client's own function. -/
theorem proceed_of_proceeds {th : Thread} (ht : (s.client c).threads[i]? = some th)
    (hpast : th.stage.isPast = true) (hact : act.proceeds c i = true) (hstep : Step s act s') :
    ∃ k' outbound, (s.client c).proceed i = some k' ∧
      s'.client c = { k' with outbound := outbound } := by
  rcases client_of_step hstep c with ⟨b, k', sent, rfl, hb, hk'⟩ | ⟨hne, -⟩
  · have hcaller : b.caller = some i := by
      cases b <;> simp_all [Action.proceeds, Client.Action.isProceed, Client.Action.caller]
    obtain ⟨-, hproceed⟩ := proceed_of_isPast hb hcaller ht hpast
    exact ⟨k', _, hproceed, hk'⟩
  · cases act with
    | client d b =>
      have hdc : d = c := by
        simp only [Action.proceeds, decide_eq_true_eq] at hact
        exact hact.1
      exact absurd (by rw [hdc]) (hne b)
    | _ => cases hact

/-- The step in which the caller looks at the response does no harm exactly if it is no rejection. -/
theorem unharmed_iff_of_looking {r tag : ℕ} (hm : Fitting call m)
    (hn : n ≤ (s.client c).results.length) (hnone : (s.client c).ended n i = none)
    (ht : (s.client c).threads[i]? = some ⟨call, .answered r ⟨tag, m⟩⟩)
    (hact : act.proceeds c i = true) (hstep : Step s act s') :
    Unharmed (s'.client c) n i ↔ call.isRejected m = false := by
  obtain ⟨k', outbound, hk', hclient⟩ := proceed_of_proceeds ht rfl hact hstep
  have hends : (s'.client c).ended n i = k'.ended n i := by rw [hclient, ended, ended]
  simp only [Client.proceed, ht] at hk'
  rcases hm with hm | hm
  · -- the response is understood
    refine iff_of_true (fun {call' result} hz => ?_) (isRejected_of_understands hm)
    rw [hends] at hz
    rcases respond_of_understands hm hk' with ⟨result', hresult, hadd⟩ | ⟨l, -, rfl⟩
    · rw [ended_of_leave hn hnone hadd] at hz
      cases hz
      exact hresult
    · change (s.client c).ended n i = _ at hz
      rw [hnone] at hz
      cases hz
  · -- the call is rejected, and throws
    rw [respond_of_isRejected hm] at hk'
    cases hk'
    refine iff_of_false (fun hunharmed => ?_) (by simp [hm])
    have hz := hends.trans (ended_of_leave hn hnone rfl)
    cases hunharmed hz

/-- A step in which `get` adds an entry of its listing does no harm, and the one in which it looks the
first one up does none exactly if the entry is registered. -/
theorem unharmed_iff_of_adding {a : Addr} {name : Name} {recursive : Bool} {l todo : List NamedNode}
    (hl : name ≠ selfName → l ≠ []) (hn : n ≤ (s.client c).results.length)
    (hnone : (s.client c).ended n i = none)
    (ht : (s.client c).threads[i]? = some ⟨.get a name recursive, .adding l todo⟩)
    (hact : act.proceeds c i = true) (hstep : Step s act s') :
    Unharmed (s'.client c) n i ↔
      ∀ j ∈ (s.client c).lookedUp i, ((s.client c).mirror.mTree[j.uuid]?).isSome = true := by
  obtain ⟨k', outbound, hk', hclient⟩ := proceed_of_proceeds ht rfl hact hstep
  have hends : (s'.client c).ended n i = k'.ended n i := by rw [hclient, ended, ended]
  simp only [Client.proceed, ht] at hk'
  cases todo with
  | cons j todo =>
    cases hk'
    refine iff_of_true (fun {call' result} hz => ?_) (by simp [lookedUp, ht])
    rw [hends] at hz
    change (s.client c).ended n i = _ at hz
    rw [hnone] at hz
    cases hz
  | nil =>
    cases hk'
    rw [← isResult_found_iff ht hl]
    have hz := hends.trans (ended_of_leave hn hnone rfl)
    refine ⟨fun hunharmed => hunharmed hz, fun hfound call' result hz' => ?_⟩
    rw [hz] at hz'
    cases hz'
    exact hfound

/-- A step of a call that has not ended badly is answerable exactly when the call has not ended badly
after it. -/
theorem Responding.answerable_iff (h : Responding c i call m n x) (hm : Fitting call m)
    (hl : ∀ {a name recursive l}, call = .get a name recursive → m = .treeInfoResponse l →
      name ≠ selfName → l ≠ []) (hgood : Unharmed (x.system.client c) n i)
    (hstep : note c x act = some y) :
    Answerable c i call m n x act ↔ Unharmed (y.system.client c) n i := by
  obtain ⟨s', hs', rfl⟩ := Option.map_eq_some_iff.mp hstep
  obtain ⟨steps, hp⟩ := h.progress
  cases hended : (x.system.client c).ended n i with
  | some z =>
    refine iff_of_true (fun _ hnone => ?_) fun {call' result} hz => ?_
    · rw [hended] at hnone
      cases hnone
    · rw [ended_of_step hended hs'] at hz
      exact hgood (hended.trans hz)
  | none =>
  cases hact : act.proceeds c i with
  | false =>
    refine iff_of_true (fun htrue => ?_) fun {call' result} hz => ?_
    · rw [hact] at htrue
      cases htrue
    · rw [hp.ended_of_not_proceeds h.length hended hact hs'] at hz
      cases hz
  | true =>
  cases hp with
  | looking r tag hnone ht =>
    have hlook : (x.system.client c).lookedUp i = none := by simp [lookedUp, ht]
    rw [unharmed_iff_of_looking hm h.length hnone ht hact hs']
    exact ⟨fun hans => (hans hact hended).1, fun hrej _ _ => ⟨hrej, by simp [hlook]⟩⟩
  | adding l todo steps hm' hnone ht hsteps =>
    subst hm'
    have hrej : call.isRejected (.treeInfoResponse l) = false := by cases call <;> rfl
    obtain ⟨a, name, recursive, rfl⟩ : ∃ a name recursive, call = .get a name recursive := by
      rcases hm with hm | hm
      · cases call <;> first | exact ⟨_, _, _, rfl⟩ | cases hm
      · rw [hrej] at hm
        cases hm
    -- what is looked up is registered unless the client was told last that it is deleted
    have hknown : ∀ j ∈ (x.system.client c).lookedUp i,
        ((x.system.client c).mirror.mTree[j.uuid]?).isSome = true ↔
          lastOf j.uuid x.mentions ≠ some false := by
      intro j hj
      cases todo with
      | cons j' todo => simp [lookedUp, ht] at hj
      | nil =>
        refine (h.adding rfl rfl).isSome_iff hnone ht ?_
        simp only [lookedUp, ht] at hj
        split_ifs at hj
        · cases hj
        · exact hj
    rw [unharmed_iff_of_adding (hl rfl rfl) h.length hnone ht hact hs']
    exact ⟨fun hans j hj => (hknown j hj).mpr ((hans hact hended).2 j hj),
      fun hall _ _ => ⟨hrej, fun j hj => (hknown j hj).mp (hall j hj)⟩⟩
  | returned steps result h' hrej =>
    rw [hended] at h'
    cases h'

/-! ## The run -/

/-- The response to a call's own request is understood, or rejects it. -/
theorem fitting_of_run {as : List System.Action} (hrun : Run Step .init as s)
    (ht : (s.client c).threads[i]? = some ⟨call, .answered r ⟨r, m⟩⟩)
    (hm : m.isServerInitiated = false) : Fitting call m := by
  have hk := clients_of_isPast ht rfl
  -- the response is one that the recorded request leads to, and that is the one of the call
  obtain ⟨t, q, hreq, hask⟩ := ((sound_of_run hrun).threads hk i _ ht).sent rfl
  rcases (leading_of_run hrun c).response ht rfl with hn | ⟨d, t', q', hreq', hl⟩
  · rw [isServerInitiated_of_isNotification hn] at hm
    cases hm
  · rw [hreq] at hreq'
    cases hreq'
    obtain ⟨node, rfl, -⟩ := hask
    exact understands_of_leadsTo hl hm

/-- The steps of a noted run are those of the system. -/
theorem run_of_note {as : List System.Action} (h : Run (Follows (note c)) x as y) :
    Run Step x.system as y.system := by
  refine h.map (f := Noted.system) fun x act y hstep => ?_
  obtain ⟨s', hs', rfl⟩ := Option.map_eq_some_iff.mp hstep
  exact hs'

/-- After `getActions` the second client adds the entry of the node it gets, the first one destroys the
node, and the second client looks the node up before its reader has handled the deletion. -/
def lookupActions : List System.Action :=
  [.client 2 (.proceed 0), .client 2 (.proceed 0)] ++ askActions 1 (.destroy 1) ++
    [.client 1 .read, .client 2 (.proceed 0), .client 2 .read]

/-- The steps up to the return of `waitTransaction` in thread 0, which calls a node of its own client
that has no handler. -/
def unhandledActions : List System.Action :=
  signinActions 1 ++ askActions 1 (.create 0 [97]) ++ [.client 1 .read, .client 1 .read] ++
    takeActions 1 ++ askActions 1 (.call 1 [7]) ++ [.client 1 .read, .serve 1, .client 1 .read] ++
    [.client 1 (.take 0), .client 1 (.erase 0)]

end PropertyTree.System
