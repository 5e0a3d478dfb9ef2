import PropertyTree.System.Values

/-!
# The cached value of a node

The values that a node has had since a client listens to it reach the client in order: the client has
been told the first ones, and the others are on their way (`InPlace`).  That is so from the moment when
the reader has read the response to the `subscribe`, since what is behind it in the queue was sent after
it (`Behind`).  As long as the reader writes no update while a `fetch` has got a value that is not
written, what is written never is older than what it replaces, and what is cached is the server's value
as soon as nothing is on its way.  Where the reader does write in between, the caller of `fetch` writes
the older value over the newer one, and it stays.
-/

namespace PropertyTree.System

open Library Server Client

variable {s₀ s s' : System} {act : System.Action} {c d : Conn} {k k' : Client} {u : UInt64} {x : Addr}
  {n : ℕ} {data : Buffer}

/-! ## What a step must not do -/

/-- Whether a thread has got a value for its `fetch` of the object at `x`, and has not written it. -/
def holdsValue (k : Client) (x : Addr) : Bool :=
  k.threads.toList.any fun e => (e.2.answer x k.mTransactions).any fun r =>
    match r.message with
    | .getAccept _ => true
    | _ => false

theorem holdsValue_of_answer {i : ThreadId} {tag : ℕ} {data : Buffer}
    (h : k.answer i x = some ⟨tag, .getAccept data⟩) : holdsValue k x = true := by
  obtain ⟨th, hi, hr⟩ := Option.bind_eq_some_iff.mp h
  refine List.any_eq_true.mpr ⟨(i, th), Std.ExtTreeMap.mem_toList_iff_getElem?_eq_some.mpr hi, ?_⟩
  simp [hr]

/-- Whether a thread is in a `fetch` of the object at `x`. -/
def fetching (k : Client) (x : Addr) : Bool :=
  k.threads.toList.any fun e => e.2.call == .fetch x

theorem answer_of_not_fetching (h : fetching k x = false) (i : ThreadId) : k.answer i x = none := by
  rw [Option.eq_none_iff_forall_ne_some]
  intro r hr
  obtain ⟨th, hi, hth⟩ := Option.bind_eq_some_iff.mp hr
  refine List.any_eq_false.mp h (i, th) (Std.ExtTreeMap.mem_toList_iff_getElem?_eq_some.mpr hi) ?_
  simpa using (Thread.answer_eq_some.mp hth).1

/-- When the reader of `c` writes a value into the object at `x`, no thread is about to write there what
its `fetch` has got. -/
def Unraced (c : Conn) (x : Addr) (s : System) : System.Action → Prop
  | .client d .update => d = c → (s.client c).toWrite x = [] ∨ holdsValue (s.client c) x = false
  | _ => True

instance (c : Conn) (x : Addr) (s : System) (a : System.Action) : Decidable (Unraced c x s a) :=
  match a with
  | .client d .update => inferInstanceAs (Decidable (d = c →
      (s.client c).toWrite x = [] ∨ holdsValue (s.client c) x = false))
  | .client _ (.start _ _) | .client _ (.fetchId _) | .client _ (.send _) | .client _ .read
  | .client _ (.take _) | .client _ (.timeout _) | .client _ (.erase _) | .client _ (.proceed _)
  | .client _ (.setup _) | .client _ (.free _) | .client _ .close | .connect _ | .serve _
  | .disconnect _ => .isTrue trivial

/-- So no thread has an answer when the reader has written one. -/
theorem Unraced.not_answer (h : Unraced c x s (.client c .update))
    (hto : (s.client c).toWrite x = [data]) (hans : Client.Unanswered x (s.client c) (s'.client c)) :
    ∀ i tag d, (s'.client c).answer i x ≠ some ⟨tag, .getAccept d⟩ := by
  intro i tag d hi
  rcases h rfl with hnil | hnone
  · rw [hnil] at hto
    cases hto
  · rw [holdsValue_of_answer (hans hi)] at hnone
    cases hnone

/-- Whether the application of `c` begins to write into the object at `x` itself. -/
def beginsSet (c : Conn) (x : Addr) : System.Action → Bool
  | .client d (.start _ (.set y _)) => d == c && y == x
  | _ => false

/-! ## The values since a state -/

/-- The values that the node `u` has had since the state `s₀`, in order. -/
def valuesSince (u : UInt64) (s₀ s : System) : List Buffer :=
  (s₀.server.dataAt u).toList ++ (valuesSet u s).drop (valuesSet u s₀).length

/-- The last of the values since `s₀` is the one that the node has. -/
structure Since (u : UInt64) (s₀ s : System) : Prop where
  set : (valuesSet u s₀).length ≤ (valuesSet u s).length
  last : (valuesSince u s₀ s).getLast? = s.server.dataAt u

theorem Since.refl (u : UInt64) (s : System) : Since u s s := by
  refine ⟨le_rfl, ?_⟩
  rw [valuesSince, List.drop_length, List.append_nil]
  cases s.server.dataAt u <;> rfl

/-- The values are the same where nothing has been set. -/
theorem Since.same (h : Since u s₀ s) (hv : s'.server.dataAt u = s.server.dataAt u)
    (hset : valuesSet u s' = valuesSet u s) :
    Since u s₀ s' ∧ valuesSince u s₀ s' = valuesSince u s₀ s := by
  have hvalues : valuesSince u s₀ s' = valuesSince u s₀ s := by rw [valuesSince, hset, valuesSince]
  exact ⟨⟨hset ▸ h.set, hvalues ▸ hv ▸ h.last⟩, hvalues⟩

/-- A value keeps its number. -/
theorem getElem?_of_prefix {values values' : List Buffer} (h : values <+: values')
    (hn : values[n]? = some data) : values'[n]? = some data := by
  obtain ⟨more, rfl⟩ := h
  exact getElem?_append_of_some hn more

/-- The reports that the server adds to what is on its way tell the values that it adds. -/
theorem Adds.tells {new reports : List (Report Buffer)} (h : Adds u s s' new) (hs : Since u s₀ s)
    (ht : Tells (valuesSince u s₀ s) n reports) :
    Since u s₀ s' ∧ valuesSince u s₀ s <+: valuesSince u s₀ s' ∧
      Tells (valuesSince u s₀ s') n (reports ++ new) := by
  cases h with
  | nothing hv hset =>
    obtain ⟨hs', hvalues⟩ := hs.same hv hset
    refine ⟨hs', hvalues ▸ List.prefix_rfl, ?_⟩
    rw [hvalues, List.append_nil]
    exact ht
  | pushed data hv hset =>
    have hvalues : valuesSince u s₀ s' = valuesSince u s₀ s ++ [data] := by
      rw [valuesSince, hset, List.drop_append_of_le_length hs.set, ← List.append_assoc, valuesSince]
    refine ⟨⟨?_, ?_⟩, hvalues ▸ List.prefix_append _ _, hvalues ▸ ht.update data⟩
    · rw [hset, List.length_append]
      exact Nat.le_add_right_of_le hs.set
    · rw [hvalues, List.getLast?_concat, hv]
  | answered data hv hv' hset =>
    obtain ⟨hs', hvalues⟩ := hs.same (hv'.trans hv.symm) hset
    refine ⟨hs', hvalues ▸ List.prefix_rfl, ?_⟩
    rw [hvalues]
    exact ht.got (hs.last.trans hv)

/-! ## What the client has been told -/

/-- The client has been told the values since `s₀` up to the one with number `n`, and the others are on
their way; and so is the value that a `fetch` has got. -/
structure InPlace (c : Conn) (u : UInt64) (x : Addr) (s₀ : System) (n : ℕ) (s : System) : Prop extends
    Since u s₀ s where
  tells : Tells (valuesSince u s₀ s) n (s.onItsWay c u x)
  answers : ∀ ⦃i tag data⦄, (s.client c).answer i x = some ⟨tag, .getAccept data⟩ →
    (valuesSince u s₀ s)[n]? = some data

/-- The value with number `n` is the one that is cached. -/
structure Cached (c : Conn) (u : UInt64) (x : Addr) (s₀ : System) (n : ℕ) (s : System) : Prop extends
    InPlace c u x s₀ n s where
  node : ∃ node : Client.Node, (s.client c).mirror.heap[x]? = some node ∧
    (valuesSince u s₀ s)[n]? = some node.data

namespace InPlace

/-- A step that takes nothing off the queue leaves what has been told. -/
theorem moves (h : InPlace c u x s₀ n s) (hmoves : Moves c u x s s')
    (hans : ∀ ⦃i tag data⦄, (s'.client c).answer i x = some ⟨tag, .getAccept data⟩ →
      (s.client c).answer i x = some ⟨tag, .getAccept data⟩) :
    InPlace c u x s₀ n s' ∧ valuesSince u s₀ s <+: valuesSince u s₀ s' := by
  obtain ⟨new, hadds, hway⟩ := hmoves
  obtain ⟨hs, hvalues, htells⟩ := hadds.tells h.toSince h.tells
  exact ⟨⟨hs, by rwa [hway], fun i tag data hi => getElem?_of_prefix hvalues (h.answers (hans hi))⟩,
    hvalues⟩

/-- An answer that arrives tells the value again that has been told last. -/
theorem heard (h : InPlace c u x s₀ n s) (hway : s.onItsWay c u x = .got data :: s'.onItsWay c u x)
    (hv : s'.server.dataAt u = s.server.dataAt u) (hset : valuesSet u s' = valuesSet u s)
    (hans : ∀ ⦃i tag d⦄, (s'.client c).answer i x = some ⟨tag, .getAccept d⟩ →
      (s.client c).answer i x = some ⟨tag, .getAccept d⟩ ∨ d = data) :
    InPlace c u x s₀ n s' ∧ valuesSince u s₀ s' = valuesSince u s₀ s := by
  obtain ⟨hs, hvalues⟩ := h.toSince.same hv hset
  have htells := h.tells
  rw [hway] at htells
  refine ⟨⟨hs, hvalues ▸ htells.2, fun i tag d hi => ?_⟩, hvalues⟩
  rw [hvalues]
  rcases hans hi with hold | rfl
  · exact h.answers hold
  · exact htells.1

/-- An update that is written tells the next value. -/
theorem update (h : InPlace c u x s₀ n s)
    (hway : s.onItsWay c u x = .update data :: s'.onItsWay c u x)
    (hv : s'.server.dataAt u = s.server.dataAt u) (hset : valuesSet u s' = valuesSet u s)
    (hnone : ∀ i tag d, (s'.client c).answer i x ≠ some ⟨tag, .getAccept d⟩) :
    InPlace c u x s₀ (n + 1) s' ∧ valuesSince u s₀ s' = valuesSince u s₀ s ∧
      (valuesSince u s₀ s)[n + 1]? = some data := by
  obtain ⟨hs, hvalues⟩ := h.toSince.same hv hset
  have htells := h.tells
  rw [hway] at htells
  exact ⟨⟨hs, hvalues ▸ htells.2, fun i tag d hi => absurd hi (hnone i tag d)⟩, hvalues, htells.1⟩

/-- A step of the system takes what has been told further. -/
theorem step (h : InPlace c u x s₀ n s) (hstep : CacheChange c u x s s' act)
    (hrace : Unraced c x s act) : ∃ m, n ≤ m ∧ InPlace c u x s₀ m s' := by
  cases hstep with
  | moves a hmoves hans hkeep => exact ⟨n, le_rfl, (h.moves hmoves hans).1⟩
  | heard data hway hv hset hans hkeep => exact ⟨n, le_rfl, (h.heard hway hv hset hans).1⟩
  | set i value hmoves hans => exact ⟨n, le_rfl, (h.moves hmoves fun _ _ _ hi => hans hi).1⟩
  | fetch i tag data hmoves hi hans hm =>
    exact ⟨n, le_rfl, (h.moves hmoves fun _ _ _ hi => hans hi).1⟩
  | update data hway hv hset hto hans hm =>
    exact ⟨n + 1, n.le_succ, (h.update hway hv hset (hrace.not_answer hto hans)).1⟩

end InPlace

/-- A step of others, or of the reader, takes what is cached further. -/
theorem Cached.step (h : Cached c u x s₀ n s) (hlt : x < (s.client c).mirror.nextAddr)
    (hstep : CacheChange c u x s s' act) (hrace : Unraced c x s act)
    (hown : beginsSet c x act = false) :
    ∃ m, n ≤ m ∧ Cached c u x s₀ m s' ∧ valuesSince u s₀ s <+: valuesSince u s₀ s' := by
  obtain ⟨node, hnode, hdata⟩ := h.node
  cases hstep with
  | moves a hmoves hans hkeep =>
    obtain ⟨hin, hvalues⟩ := h.toInPlace.moves hmoves hans
    obtain ⟨⟨node', hnode', hsame⟩, -⟩ := hkeep node hnode hlt
    exact ⟨n, le_rfl, ⟨hin, node', hnode', hsame ▸ getElem?_of_prefix hvalues hdata⟩, hvalues⟩
  | heard data hway hv hset hans hkeep =>
    obtain ⟨hin, hvalues⟩ := h.toInPlace.heard hway hv hset hans
    obtain ⟨⟨node', hnode', hsame⟩, -⟩ := hkeep node hnode hlt
    exact ⟨n, le_rfl, ⟨hin, node', hnode', by rw [hsame, hvalues, hdata]⟩, hvalues ▸ List.prefix_rfl⟩
  | set i value hmoves hans =>
    simp [beginsSet] at hown
  | fetch i tag data hmoves hi hans hm =>
    obtain ⟨hin, hvalues⟩ := h.toInPlace.moves hmoves fun _ _ _ hi => hans hi
    obtain ⟨node', hnode', hsame⟩ := hm node hnode
    exact ⟨n, le_rfl, ⟨hin, node', hnode', hsame ▸ getElem?_of_prefix hvalues (h.answers hi)⟩, hvalues⟩
  | update data hway hv hset hto hans hm =>
    obtain ⟨hin, hvalues, hnext⟩ :=
      h.toInPlace.update hway hv hset (hrace.not_answer hto hans)
    obtain ⟨node', hnode', hsame⟩ := hm node hnode
    exact ⟨n + 1, n.le_succ, ⟨hin, node', hnode', by rw [hsame, hvalues, hnext]⟩,
      hvalues ▸ List.prefix_rfl⟩

/-- A step in which the client writes what the server has sent it caches what has been told. -/
theorem InPlace.applied (h : InPlace c u x s₀ n s) (hnum : Numbered s) (hsound : Sound s)
    (hw : Watches c u x s) {a : Client.Action} (hstep : Step s (.client c a) s')
    (hchange : CacheChange c u x s s' (.client c a)) (hrace : Unraced c x s (.client c a))
    (happlied : (s.client c).applied x a = some data) : ∃ m, Cached c u x s₀ m s' := by
  obtain ⟨kc, hkc⟩ := Option.ne_none_iff_exists'.mp hw.client_ne_none
  obtain ⟨node, hnode, -⟩ := (hsound.mirror hkc).mTree_heap (client_of_some hkc ▸ hw.node)
  rw [← client_of_some hkc] at hnode
  obtain ⟨b, k', sent, hb, hk', hcl⟩ := (client_of_step hstep c).resolve_right fun hno => hno.1 a rfl
  cases hb
  cases a with
  | proceed i =>
    rw [Client.applied] at happlied
    split at happlied
    · rename_i y r tag d hi
      split_ifs at happlied with hyx
      cases happlied
      subst hyx
      have hans : (s.client c).answer i y = some ⟨tag, .getAccept data⟩ := by
        rw [Client.answer, hi]
        exact Thread.answer_eq_some.mpr ⟨rfl, rfl⟩
      obtain ⟨node', hnode', hdata⟩ := writes_of_fetch hi hk' node hnode
      have hin : InPlace c u y s₀ n s' ∧ valuesSince u s₀ s <+: valuesSince u s₀ s' := by
        cases hchange with
        | moves _ hmoves hans' => exact h.moves hmoves hans'
        | fetch _ _ _ hmoves hi' hans' => exact h.moves hmoves fun _ _ _ hi => hans' hi
      exact ⟨n, hin.1, node', by rw [hcl]; exact hnode',
        hdata ▸ getElem?_of_prefix hin.2 (h.answers hans)⟩
    · cases happlied
  | update =>
    obtain ⟨hwrites, hto, hto', hinbound⟩ := (Client.step_cases hk').2.writes_of_update happlied
    cases hchange with
    | moves _ hmoves =>
      -- the value is taken from the front of what is on its way
      exfalso
      obtain ⟨l, hreq⟩ : ∃ l, s'.requests = s.requests ++ l := by
        cases step_cases hstep with
        | client => exact ⟨_, rfl⟩
      obtain ⟨new, -, hway⟩ := hmoves
      have hfront := onItsWay_update (u := u) hnum hreq (by rw [hcl]; exact hinbound) hto
        (by rw [hcl]; exact hto')
      have hlength := congrArg List.length (hway.trans (congrArg (· ++ new) hfront))
      simp only [List.length_append, List.length_cons] at hlength
      omega
    | update data' hway hv hset hto₁ hans hm =>
      obtain ⟨hin, hvalues, hnext⟩ := h.update hway hv hset (hrace.not_answer hto₁ hans)
      obtain ⟨node', hnode', hdata⟩ := hm node hnode
      exact ⟨n + 1, hin, node', hnode', by rw [hdata, hvalues, hnext]⟩
  | _ => cases happlied

/-! ## Before the response is read -/

/-- Behind the packet `p`, which the reader of `c` has not read, come the values since `s₀`. -/
structure Behind (c : Conn) (u : UInt64) (p : Packet) (s₀ s : System) : Prop extends Since u s₀ s where
  tells : ∃ before after, (s.client c).inbound = before ++ p :: after ∧
    Tells (valuesSince u s₀ s) 0 (after.filterMap (reportOf s.requests c u))

/-- A reader that reads no update has none to write. -/
theorem toWrite_of_read {m : ℕ} {sent : List Packet} {p : Packet}
    (h : Client.StepResult k m .read k' sent) (hin : k.inbound = p :: k'.inbound)
    (hp : ∀ v data, p.message.message ≠ .updateNotification v data) : k'.toWrite x = [] := by
  cases h with
  | updateNotification tag trId uuid data inbound hr hin' =>
    cases hin.symm.trans hin'
    exact absurd rfl (hp uuid data)
  | satisfy _ _ _ hr | treeUpdate _ _ _ _ _ hr | rpcRequest _ _ _ _ _ hr | ignore _ _ hr =>
    simp [toWrite, hr]

/-- After a step of the system the packet still is in the queue; or it has been read, and what is on its
way has been sent since `s₀`. -/
theorem Behind.step {p : Packet} (h : Behind c u p s₀ s) (hnum : Numbered s)
    (hstep : Around c u s s' act) (hp : ∀ v data, p.message.message ≠ .updateNotification v data)
    (hnone : ∀ i, (s'.client c).answer i x = none) :
    Behind c u p s₀ s' ∨ InPlace c u x s₀ 0 s' := by
  obtain ⟨before, after, hin, htells⟩ := h.tells
  have hold : ∀ l, after.filterMap (reportOf (s.requests ++ l) c u) =
      after.filterMap (reportOf s.requests c u) := fun l => List.filterMap_congr fun q hq =>
    reportOf_append l (hnum.inbound (hin ▸ List.mem_append_right _ (List.mem_cons_of_mem _ hq)))
  cases hstep with
  | own a k' sent hstep hcl hreq hserver hlog =>
    have hset : valuesSet u s' = valuesSet u s := by rw [valuesSet, hlog, valuesSet]
    obtain ⟨hs, hvalues⟩ := h.toSince.same (by rw [hserver]) hset
    have htells' : Tells (valuesSince u s₀ s') 0 (after.filterMap (reportOf s'.requests c u)) := by
      rw [hvalues, hreq, hold]
      exact htells
    obtain ⟨-, hsame⟩ | ⟨rfl, q, hq⟩ := inbound_of_stepResult hstep
    · exact .inl ⟨hs, before, after, by rw [hcl]; exact hsame.trans hin, htells'⟩
    · rw [hin] at hq
      cases before with
      | nil =>
        obtain ⟨rfl, hafter⟩ := List.cons.inj hq
        have hinbound : (s'.client c).inbound = after := by rw [hcl]; exact hafter.symm
        have hto : (s'.client c).toWrite x = [] := by
          have hnone : k'.toWrite x = [] := toWrite_of_read hstep (hin.trans hq) hp
          rw [hcl]
          exact hnone
        refine .inr ⟨hs, ?_, fun i tag data hi => by rw [hnone] at hi; cases hi⟩
        rw [onItsWay, hto, hinbound]
        exact htells'
      | cons q' before =>
        obtain ⟨-, hrest⟩ := List.cons.inj hq
        exact .inl ⟨hs, before, after, by rw [hcl]; exact hrest.symm, htells'⟩
  | others act l new outbound hreq hcl hadds =>
    obtain ⟨hs, -, htells'⟩ := hadds.tells h.toSince htells
    refine .inl ⟨hs, before, after ++ new, by rw [hcl, hin, List.append_assoc, List.cons_append], ?_⟩
    rw [List.filterMap_append, hreq, hold, ← hreq]
    exact htells'

/-- The server has answered a `SubscribeRequest`: from here on the values are on their way. -/
theorem behind_of_subscribe {r : ℕ} {t : UInt16} {outbound : List Packet}
    (hout : (s.client c).outbound = ⟨r, t, .subscribeRequest u⟩ :: outbound)
    (hstep : StepResult s (.serve c) s') (hw : Watches c u x s') :
    Behind c u ⟨r, t, .subscribeResponse .ok⟩ s' s' := by
  cases hstep with
  | serve _ k p rest server o hk hq ht hok =>
    rw [client_of_some hk, hq] at hout
    obtain ⟨rfl, -⟩ := List.cons.inj hout
    obtain rfl := hw.listens.accepted hok
    refine ⟨.refl u _, (s.client c).inbound, [], ?_, ?_⟩
    · refine (congrArg Client.inbound (client_afterServe_of_some hk hk)).trans ?_
      simp [sentTo]
    · obtain ⟨v, hv⟩ := Option.ne_none_iff_exists'.mp hw.listens.dataAt_ne_none
      rw [valuesSince, hv, List.drop_length]
      rfl

/-! ## Runs -/

/-- The steps between states in which the client on `c` listens to the node `u`, which it has at
`x`. -/
def Listening (c : Conn) (u : UInt64) (x : Addr) : Watched → System.Action → Watched → Prop :=
  Reaching (fun w => Watches c u x w.system)
    (Guarded (fun w a => Orderly w a ∧ Unraced c x w.system a) Watched.Step)

/-- The steps that do not begin to write into the object themselves. -/
def Observing (c : Conn) (u : UInt64) (x : Addr) : Watched → System.Action → Watched → Prop :=
  Guarded (fun _ a => beginsSet c x a = false) (Listening c u x)

/-- The steps to states in which no thread is in a `fetch` of the object. -/
def Unfetched (c : Conn) (u : UInt64) (x : Addr) : Watched → System.Action → Watched → Prop :=
  Reaching (fun w => fetching (w.system.client c) x = false) (Listening c u x)

section Run

variable {w₀ w₁ w₂ w₃ w₄ w₅ w₆ w w' : Watched} {as bs cs ds es fs : List System.Action}
  {a : Client.Action}

/-- What is known in a run of the watched system. -/
theorem facts_of_run (h : Run (Guarded Orderly Watched.Step) .init as w) (hw : Watches c u x w.system) :
    Sound w.system ∧ Numbered w.system ∧ x < (w.system.client c).mirror.nextAddr := by
  have hsys : Run Step .init as w.system := (system_of_orderly h).of_guarded
  have hsound := sound_of_run hsys
  refine ⟨hsound, numbered_of_run hsys, ?_⟩
  obtain ⟨k, hk⟩ := Option.ne_none_iff_exists'.mp hw.client_ne_none
  obtain ⟨node, hn, -⟩ := (hsound.mirror hk).mTree_heap (client_of_some hk ▸ hw.node)
  rw [client_of_some hk]
  exact (hsound.mirror hk).heap_lt hn

/-- What holds at the start of a run in which the client listens, and is kept by every step, holds at
the end. -/
theorem invariant_of_listening {P : System → Prop} {R : Watched → System.Action → Watched → Prop}
    (hR : ∀ {v b v'}, R v b v' → Listening c u x v b v')
    (h₁ : Run (Guarded Orderly Watched.Step) .init as w₁) (hw : Watches c u x w₁.system)
    (hP : P w₁.system) (h : Run R w₁ bs w₂)
    (hstep : ∀ {es v v' b}, Run (Guarded Orderly Watched.Step) .init es v →
      Watches c u x v.system → R v b v' → P v.system → P v'.system) :
    Run (Guarded Orderly Watched.Step) .init (as ++ bs) w₂ ∧ Watches c u x w₂.system ∧
      P w₂.system := by
  obtain ⟨w₀, hw₀⟩ : ∃ w₀, w₀ = w₁ := ⟨_, rfl⟩
  rw [← hw₀] at h
  induction h with
  | nil =>
    subst hw₀
    exact ⟨by rwa [List.append_nil], hw, hP⟩
  | @snoc v w bs b run step ih =>
    subst hw₀
    obtain ⟨hrun, hv, hPv⟩ := ih
    obtain ⟨⟨⟨hord, -⟩, hb⟩, hw'⟩ := hR step
    refine ⟨?_, hw', hstep hrun hv step hPv⟩
    rw [← List.append_assoc]
    exact hrun.snoc ⟨hord, hb⟩

/-- What the client has been told stays in place as long as it listens. -/
theorem inPlace_of_run (h₁ : Run (Guarded Orderly Watched.Step) .init as w₁)
    (hw : Watches c u x w₁.system) (hin : InPlace c u x s₀ n w₁.system)
    (h : Run (Listening c u x) w₁ bs w₂) :
    Run (Guarded Orderly Watched.Step) .init (as ++ bs) w₂ ∧ Watches c u x w₂.system ∧
      ∃ m, InPlace c u x s₀ m w₂.system := by
  refine invariant_of_listening (P := fun s => ∃ m, InPlace c u x s₀ m s) id h₁ hw ⟨n, hin⟩ h ?_
  rintro es v v' b hrun hv ⟨⟨⟨hord, hrace⟩, hb⟩, hv'⟩ ⟨m, hm⟩
  obtain ⟨m', -, hm'⟩ := hm.step (cacheChange_of_run hrun ⟨hord, hb⟩ hv hv') hrace
  exact ⟨m', hm'⟩

/-- What the client has cached goes on with what it is told. -/
theorem cached_of_observing (h₁ : Run (Guarded Orderly Watched.Step) .init as w₁)
    (hw : Watches c u x w₁.system) (hcached : Cached c u x s₀ n w₁.system)
    (h : Run (Observing c u x) w₁ bs w₂) :
    Run (Guarded Orderly Watched.Step) .init (as ++ bs) w₂ ∧ Watches c u x w₂.system ∧
      ∃ m, n ≤ m ∧ Cached c u x s₀ m w₂.system ∧
        valuesSince u s₀ w₁.system <+: valuesSince u s₀ w₂.system := by
  refine invariant_of_listening (P := fun s => ∃ m, n ≤ m ∧ Cached c u x s₀ m s ∧
    valuesSince u s₀ w₁.system <+: valuesSince u s₀ s) And.right h₁ hw
      ⟨n, le_rfl, hcached, List.prefix_rfl⟩ h ?_
  rintro es v v' b hrun hv ⟨hown, ⟨⟨hord, hrace⟩, hb⟩, hv'⟩ ⟨m, hle, hm, hvalues⟩
  obtain ⟨m', hle', hm', hvalues'⟩ := hm.step (facts_of_run hrun hv).2.2
    (cacheChange_of_run hrun ⟨hord, hb⟩ hv hv') hrace hown
  exact ⟨m', hle.trans hle', hm', hvalues.trans hvalues'⟩

/-- A step in which the client writes what the server has sent it caches what has been told. -/
theorem cached_of_applied (h₁ : Run (Guarded Orderly Watched.Step) .init as w₁)
    (hw : Watches c u x w₁.system) (hin : InPlace c u x s₀ n w₁.system)
    (hstep : Listening c u x w₁ (.client c a) w₂)
    (happlied : (w₁.system.client c).applied x a ≠ none) :
    Run (Guarded Orderly Watched.Step) .init (as ++ [.client c a]) w₂ ∧ Watches c u x w₂.system ∧
      ∃ m, Cached c u x s₀ m w₂.system := by
  obtain ⟨hsound, hnum, -⟩ := facts_of_run h₁ hw
  obtain ⟨⟨⟨hord, hrace⟩, hst⟩, hw₂⟩ := hstep
  obtain ⟨data, hdata⟩ := Option.ne_none_iff_exists'.mp happlied
  exact ⟨h₁.snoc ⟨hord, hst⟩, hw₂, hin.applied hnum hsound hw (Watched.step_iff.mp hst).1
    (cacheChange_of_run h₁ ⟨hord, hst⟩ hw hw₂) hrace hdata⟩

/-- Until the response to the `subscribe` is read, the values are behind it, and then they are in
place. -/
theorem inPlace_of_unfetched {p : Packet} (h₁ : Run (Guarded Orderly Watched.Step) .init as w₁)
    (hw : Watches c u x w₁.system) (hp : ∀ v data, p.message.message ≠ .updateNotification v data)
    (hbehind : Behind c u p s₀ w₁.system) (h : Run (Unfetched c u x) w₁ bs w₂) :
    Run (Guarded Orderly Watched.Step) .init (as ++ bs) w₂ ∧ Watches c u x w₂.system ∧
      (Behind c u p s₀ w₂.system ∨ ∃ m, InPlace c u x s₀ m w₂.system) := by
  refine invariant_of_listening (P := fun s => Behind c u p s₀ s ∨ ∃ m, InPlace c u x s₀ m s)
    And.left h₁ hw (.inl hbehind) h ?_
  rintro es v v' b hrun hv ⟨⟨⟨⟨hord, hrace⟩, hb⟩, hv'⟩, hfetch⟩ (hm | ⟨m, hm⟩)
  · exact (hm.step (facts_of_run hrun hv).2.1 (around_of_run hrun ⟨hord, hb⟩ hv hv') hp
      (answer_of_not_fetching hfetch)).imp_right fun h => ⟨0, h⟩
  · obtain ⟨m', -, hm'⟩ := hm.step (cacheChange_of_run hrun ⟨hord, hb⟩ hv hv') hrace
    exact .inr ⟨m', hm'⟩

end Run

/-! ## The cached value -/

/-- The value that is cached in the object at `x` of the client on `c`. -/
def cachedAt (s : System) (c : Conn) (x : Addr) : Option Buffer :=
  ((s.client c).mirror.heap[x]?).map Client.Node.data

/-- The number of the last value since `s₀` that the client has been told: the later ones are still on
their way. -/
def told (c : Conn) (u : UInt64) (x : Addr) (s₀ s : System) : ℕ :=
  (valuesSince u s₀ s).length - 1 - (s.onItsWay c u x).countP Report.isUpdate

/-- Of the values since `s₀`, the one that is cached in `s` is not newer than the one that is cached in
`s'`, and that is the server's value when everything on its way to the client has arrived. -/
structure Converges (c : Conn) (u : UInt64) (x : Addr) (s₀ s s' : System) : Prop where
  before : ∃ data, s.cachedAt c x = some data ∧
    (valuesSince u s₀ s')[told c u x s₀ s]? = some data
  after : ∃ data, s'.cachedAt c x = some data ∧
    (valuesSince u s₀ s')[told c u x s₀ s']? = some data
  forward : told c u x s₀ s ≤ told c u x s₀ s'
  arrived : (s'.client c).inbound = [] → (s'.client c).reader = none →
    s'.cachedAt c x = s'.server.dataAt u

/-- What has been told is told by its number. -/
theorem InPlace.told_eq (h : InPlace c u x s₀ n s) : told c u x s₀ s = n := by
  have hlength := h.tells.add_countP
  rw [told]
  omega

/-- What is cached is the last value that has been told. -/
theorem Cached.cachedAt_eq (h : Cached c u x s₀ n s) : ∃ data, s.cachedAt c x = some data ∧
    (valuesSince u s₀ s)[told c u x s₀ s]? = some data := by
  obtain ⟨node, hnode, hdata⟩ := h.node
  refine ⟨node.data, by rw [cachedAt, hnode]; rfl, ?_⟩
  rw [h.toInPlace.told_eq]
  exact hdata

/-- It is the server's value when nothing else is on its way. -/
theorem Cached.dataAt_eq (h : Cached c u x s₀ n s) : ∃ node : Client.Node,
    (s.client c).mirror.heap[x]? = some node ∧
      s.server.dataAt u = some (((s.onItsWay c u x).map Report.value).getLastD node.data) := by
  obtain ⟨node, hnode, hdata⟩ := h.node
  exact ⟨node, hnode, h.last.symm.trans (h.tells.getLast?_eq hdata)⟩

/-! ## Running a client that listens -/

/-- Whether the client on `c` listens to the node `u`, which it has at `x`. -/
def watching (c : Conn) (u : UInt64) (x : Addr) (s : System) : Bool :=
  ((s.server.listenerAt u).any fun listener => (s.server.mConnectionToSessionId[c]?).any fun sid =>
    listener[sid]? == some c) && (s.client c).mirror.mTree[u]? == some x

theorem watches_of_watching (h : watching c u x s = true) : Watches c u x s := by
  simp only [watching, Bool.and_eq_true, Option.any_eq_true, beq_iff_eq] at h
  obtain ⟨⟨listener, hu, sid, hc, hl⟩, hnode⟩ := h
  exact ⟨⟨listener, sid, hu, hc, hl⟩, hnode⟩

/-- The steps `as` as long as the client listens, and as `ok` holds of every step and the state it leads
to. -/
def listen (c : Conn) (u : UInt64) (x : Addr) (ok : System.Action → System → Bool) (w : Watched)
    (as : List System.Action) : Option Watched :=
  follow Watched.step (fun w a => decide (Orderly w a ∧ Unraced c x w.system a) &&
    (w.step a).any fun w' => watching c u x w'.system && ok a w'.system) w as

theorem run_of_listen {ok : System.Action → System → Bool} {w₁ w₂ : Watched}
    {as : List System.Action} (h : listen c u x ok w₁ as = some w₂) :
    Run (fun w a w' => Listening c u x w a w' ∧ ok a w'.system = true) w₁ as w₂ := by
  refine (run_of_follow Watched.step h).mono fun w a w' hst => ?_
  have hguard := hst.1
  simp only [Bool.and_eq_true, decide_eq_true_eq, Option.any_eq_true] at hguard
  obtain ⟨hok, v, hv, hwatch, hlast⟩ := hguard
  obtain rfl : v = w' := Option.some.inj (hv.symm.trans hst.2)
  exact ⟨⟨⟨hok, hst.2⟩, watches_of_watching hwatch⟩, hlast⟩

/-- The steps that do not begin to write into the object. -/
def observe (c : Conn) (u : UInt64) (x : Addr) : Watched → List System.Action → Option Watched :=
  listen c u x fun a _ => !beginsSet c x a

theorem run_of_observe {w₁ w₂ : Watched} {as : List System.Action}
    (h : observe c u x w₁ as = some w₂) : Run (Observing c u x) w₁ as w₂ :=
  (run_of_listen h).mono fun _ _ _ hst => ⟨by simpa using hst.2, hst.1⟩

section Listening

variable {w₀ w₁ w₂ w₃ w₄ w₅ w₆ : Watched} {as bs cs ds es : List System.Action} {a : Client.Action}

/-- A client listens to a node with nothing on its way, and no reader and caller race.  Once it has
written a value that the server has sent it, the last of what is on its way is the server's value, or
the value that is cached where nothing is on its way. -/
theorem cached_of_run (h₁ : Run (Guarded Orderly Watched.Step) .init as w₁)
    (hw : Watches c u x w₁.system) (hway : w₁.system.onItsWay c u x = [])
    (hvalue : holdsValue (w₁.system.client c) x = false) (h₂ : Run (Listening c u x) w₁ bs w₂)
    (hstep : Listening c u x w₂ (.client c a) w₃)
    (happlied : (w₂.system.client c).applied x a ≠ none)
    (h₃ : Run (Guarded (fun _ b => beginsSet c x b = false) (Listening c u x)) w₃ cs w₄) :
    ∃ n : Client.Node, (w₄.system.client c).mirror.heap[x]? = some n ∧
      w₄.system.server.dataAt u =
        some (((w₄.system.onItsWay c u x).map Report.value).getLastD n.data) := by
  have hinit : InPlace c u x w₁.system 0 w₁.system := by
    refine ⟨.refl u _, ?_, fun i tag data hi => ?_⟩
    · obtain ⟨v, hv⟩ := Option.ne_none_iff_exists'.mp hw.listens.dataAt_ne_none
      rw [hway, valuesSince, hv, List.drop_length]
      rfl
    · rw [holdsValue_of_answer hi] at hvalue
      cases hvalue
  obtain ⟨hrun₂, hw₂, m, hin₂⟩ := inPlace_of_run h₁ hw hinit h₂
  obtain ⟨hrun₃, hw₃, m', hcached⟩ := cached_of_applied hrun₂ hw₂ hin₂ hstep happlied
  obtain ⟨-, -, m'', -, hend, -⟩ := cached_of_observing hrun₃ hw₃ hcached h₃
  exact hend.dataAt_eq

/-- A client that has subscribed to the root has written a first value of it, when the second one is on
its way. -/
theorem cached_root : ∃ as w, Run Watched.Step .init as w ∧
    w.system.onItsWay 1 0 0 = [.update [8]] ∧
      ∃ n : Client.Node, (w.system.client 1).mirror.heap[(0 : Addr)]? = some n ∧
        w.system.server.dataAt 0 =
          some (((w.system.onItsWay 1 0 0).map Report.value).getLastD n.data) := by
  obtain ⟨w₁, hw₁, h⟩ := (Option.any_eq_true _ _).mp (show (follow Watched.step
      (fun w a => decide (Orderly w a)) .init (signinActions 1 ++ signinActions 2 ++
        askActions 1 (.subscribe 0) ++ .client 1 .read :: takeActions 1)).any (fun w₁ =>
          watching 1 0 0 w₁.system && decide (w₁.system.onItsWay 1 0 0 = []) &&
            !holdsValue (w₁.system.client 1) 0 &&
              (observe 1 0 0 w₁ (askActions 2 (.set 0 [7]) ++ [.client 1 .read])).any fun w₂ =>
                decide ((w₂.system.client 1).applied 0 .update ≠ none) &&
                  (observe 1 0 0 w₂ [.client 1 .update]).any fun w₃ =>
                    (observe 1 0 0 w₃ (.client 2 .read :: takeActions 2 ++
                      askActions 2 (.set 0 [8]))).any fun w₄ =>
                        decide (w₄.system.onItsWay 1 0 0 = [.update [8]])) = true by decide +kernel)
  simp only [Bool.and_eq_true, Bool.not_eq_true', decide_eq_true_eq, Option.any_eq_true] at h
  obtain ⟨⟨⟨hwatch, hway⟩, hvalue⟩, w₂, hw₂, happlied, w₃, hw₃, w₄, hw₄, hend⟩ := h
  have h₁ := (run_of_follow Watched.step hw₁).mono fun w a w' hst =>
    (⟨of_decide_eq_true hst.1, hst.2⟩ : Guarded Orderly Watched.Step w a w')
  have h₂ := (run_of_observe hw₂).of_guarded
  obtain ⟨_, hstep, hlast⟩ := (run_of_observe hw₃).of_guarded.exists_of_cons
  obtain rfl := hlast.eq_of_nil
  have h₃ := run_of_observe hw₄
  have hrun := h₁.of_guarded.append ((h₂.mono fun _ _ _ h => h.1.2).append
    (.cons hstep.1.2 (h₃.mono fun _ _ _ h => h.2.1.2)))
  exact ⟨_, w₄, hrun, hend, cached_of_run h₁ (watches_of_watching hwatch) hway hvalue h₂ hstep
    happlied h₃⟩

/-- A client subscribes to a node: the server handles its `SubscribeRequest` in the step to `w₁`, its
reader has read the response in `w₂`, and it is in no `fetch` of the node until then.  From the first
value on that it writes because the server has sent it, what it caches only goes on to newer values, and
is the server's value when everything has arrived. -/
theorem converges_of_run {r : ℕ} {t : UInt16} (h₀ : Run (Guarded Orderly Watched.Step) .init as w₀)
    (hasked : (w₀.system.client c).outbound.head? = some ⟨r, t, .subscribeRequest u⟩)
    (hserve : Listening c u x w₀ (.serve c) w₁) (h₁ : Run (Unfetched c u x) w₁ bs w₂)
    (hread : r ∉ arriving (w₂.system.client c)) (h₂ : Run (Listening c u x) w₂ cs w₃)
    (hwrite : Listening c u x w₃ (.client c a) w₄)
    (happlied : (w₃.system.client c).applied x a ≠ none)
    (h₃ : Run (Observing c u x) w₄ ds w₅) (h₄ : Run (Observing c u x) w₅ es w₆) :
    Converges c u x w₁.system w₅.system w₆.system := by
  obtain ⟨outbound, hout⟩ := List.head?_eq_some_iff.mp hasked
  obtain ⟨⟨⟨hord, -⟩, hstep⟩, hw₁⟩ := hserve
  have hbehind := behind_of_subscribe hout (step_cases (Watched.step_iff.mp hstep).1) hw₁
  obtain ⟨hrun₂, hw₂, hplace⟩ := inPlace_of_unfetched (h₀.snoc ⟨hord, hstep⟩) hw₁ (by simp)
    hbehind h₁
  obtain ⟨m, hin₂⟩ := hplace.resolve_left fun hb => by
    obtain ⟨before, after, hin, -⟩ := hb.tells
    exact hread (List.mem_filterMap.mpr ⟨_, hin ▸ List.mem_append_right _ List.mem_cons_self, rfl⟩)
  obtain ⟨hrun₃, hw₃, m₃, hin₃⟩ := inPlace_of_run hrun₂ hw₂ hin₂ h₂
  obtain ⟨hrun₄, hw₄, m₄, hcached₄⟩ := cached_of_applied hrun₃ hw₃ hin₃ hwrite happlied
  obtain ⟨hrun₅, hw₅, m₅, -, hcached₅, -⟩ := cached_of_observing hrun₄ hw₄ hcached₄ h₃
  obtain ⟨-, -, m₆, hle, hcached₆, hvalues⟩ := cached_of_observing hrun₅ hw₅ hcached₅ h₄
  obtain ⟨data, hdata, htold⟩ := hcached₅.cachedAt_eq
  refine ⟨⟨data, hdata, getElem?_of_prefix hvalues htold⟩, hcached₆.cachedAt_eq, ?_,
    fun hin hreader => ?_⟩
  · rw [hcached₅.toInPlace.told_eq, hcached₆.toInPlace.told_eq]
    exact hle
  · obtain ⟨node, hnode, hv⟩ := hcached₆.dataAt_eq
    have hway : w₆.system.onItsWay c u x = [] := by simp [onItsWay, toWrite, hin, hreader]
    rw [hv, hway, cachedAt, hnode]
    rfl

/-- The steps of client 1 up to its `SubscribeRequest` of the root, with another client signed in. -/
def subscribeActions : List System.Action :=
  signinActions 1 ++ signinActions 2 ++
    [.client 1 (.start 0 (.subscribe 0)), .client 1 (.fetchId 0), .client 1 (.send 0)]

/-- A client has subscribed to the root, and has fetched its value when the next one is on its way. -/
theorem converges_root : ∃ (as bs : List System.Action) (w₁ w₅ w₆ : Watched),
    Run Watched.Step .init as w₅ ∧ Run Watched.Step w₅ bs w₆ ∧
      w₅.system.onItsWay 1 0 0 = [.update [8]] ∧ w₆.system.cachedAt 1 0 = some [8] ∧
        Converges 1 0 0 w₁.system w₅.system w₆.system := by
  obtain ⟨w₀, hw₀, h⟩ := (Option.any_eq_true _ _).mp (show (follow Watched.step
      (fun w a => decide (Orderly w a)) .init subscribeActions).any (fun w₀ =>
        decide ((w₀.system.client 1).outbound.head? = some ⟨2, 1, .subscribeRequest 0⟩) &&
          (observe 1 0 0 w₀ [.serve 1]).any fun w₁ =>
            (listen 1 0 0 (fun _ s => !fetching (s.client 1) 0) w₁
              (askActions 2 (.set 0 [7]) ++ [.client 1 .read])).any fun w₂ =>
                decide (2 ∉ arriving (w₂.system.client 1)) &&
                  (observe 1 0 0 w₂ (takeActions 1 ++ askActions 1 (.fetch 0) ++
                    [.client 1 .read, .client 1 .update, .client 1 .read, .client 1 (.take 0),
                      .client 1 (.erase 0)])).any fun w₃ =>
                    decide ((w₃.system.client 1).applied 0 (.proceed 0) ≠ none) &&
                      (observe 1 0 0 w₃ [.client 1 (.proceed 0)]).any fun w₄ =>
                        (observe 1 0 0 w₄ (.client 2 .read :: takeActions 2 ++
                          askActions 2 (.set 0 [8]))).any fun w₅ =>
                            decide (w₅.system.onItsWay 1 0 0 = [.update [8]]) &&
                              (observe 1 0 0 w₅ [.client 1 .read, .client 1 .update]).any fun w₆ =>
                                decide (w₆.system.cachedAt 1 0 = some [8])) = true by
    decide +kernel)
  simp only [Bool.and_eq_true, decide_eq_true_eq, Option.any_eq_true] at h
  obtain ⟨hasked, w₁, hw₁, w₂, hw₂, hread, w₃, hw₃, happlied, w₄, hw₄, w₅, hw₅, hway, w₆, hw₆,
    hend⟩ := h
  have h₀ := (run_of_follow Watched.step hw₀).mono fun w a w' hst =>
    (⟨of_decide_eq_true hst.1, hst.2⟩ : Guarded Orderly Watched.Step w a w')
  obtain ⟨_, hserve, hlast⟩ := (run_of_observe hw₁).of_guarded.exists_of_cons
  obtain rfl := hlast.eq_of_nil.symm
  have h₁ : Run (Unfetched 1 0 0) w₁ _ w₂ :=
    (run_of_listen hw₂).mono fun _ _ _ hst => ⟨hst.1, by simpa using hst.2⟩
  have h₂ := (run_of_observe hw₃).of_guarded
  obtain ⟨_, hwrite, hlast⟩ := (run_of_observe hw₄).of_guarded.exists_of_cons
  obtain rfl := hlast.eq_of_nil.symm
  have hrun : ∀ {v w : Watched} {es : List System.Action}, Run (Listening 1 0 0) v es w →
      Run Watched.Step v es w := fun h => h.mono fun _ _ _ hst => hst.1.2
  exact ⟨_, _, w₁, w₅, w₆, h₀.of_guarded.append (.cons hserve.1.2
    ((hrun (h₁.mono fun _ _ _ h => h.1)).append ((hrun h₂).append (.cons hwrite.1.2
      (hrun (run_of_observe hw₅).of_guarded))))), hrun (run_of_observe hw₆).of_guarded, hway, hend,
    converges_of_run h₀ hasked hserve h₁ hread h₂ hwrite happlied (run_of_observe hw₅)
      (run_of_observe hw₆)⟩

/-- A client has subscribed to the root and asks for its value.  The value is answered, another client
sets it, and the reader writes the update. -/
def overtakenActions : List System.Action :=
  subscribeActions ++ .serve 1 :: .client 1 .read :: takeActions 1 ++ askActions 1 (.fetch 0) ++
    [.client 1 .read] ++ askActions 2 (.set 0 [7]) ++ .client 2 .read :: takeActions 2 ++
      [.client 1 .read, .client 1 .update]

/-- Then the caller of `fetch` writes what it has got over the newer value, and that is what is cached
when every call has returned and everything has arrived. -/
theorem not_converges_overtaken : ∃ s s', Run Step .init overtakenActions s ∧
    Run Step s (takeActions 1) s' ∧ s.cachedAt 1 0 = some [7] ∧
      (s'.client 1).results =
        [(0, .signin, .void), (0, .subscribe 0, .bool true), (0, .fetch 0, .void)] ∧
        (∀ c ∈ [(1 : Conn), 2], (s'.client c).threads.isEmpty = true) ∧
          (s'.client 1).inbound = [] ∧ (s'.client 1).reader = none ∧
            s'.server.dataAt 0 = some [7] ∧ s'.cachedAt 1 0 = some [] := by
  obtain ⟨s, hs, h⟩ := (Option.any_eq_true _ _).mp (show (follow System.step (fun _ _ => true) .init
      overtakenActions).any (fun s => decide (s.cachedAt 1 0 = some [7]) &&
        (follow System.step (fun _ _ => true) s (takeActions 1)).any fun s' =>
          decide ((s'.client 1).results =
            [(0, .signin, .void), (0, .subscribe 0, .bool true), (0, .fetch 0, .void)]) &&
            decide (∀ c ∈ [(1 : Conn), 2], (s'.client c).threads.isEmpty = true) &&
              decide ((s'.client 1).inbound = []) && decide ((s'.client 1).reader = none) &&
                decide (s'.server.dataAt 0 = some [7]) &&
                  decide (s'.cachedAt 1 0 = some [])) = true by decide +kernel)
  simp only [Bool.and_eq_true, decide_eq_true_eq, Option.any_eq_true] at h
  obtain ⟨hcached, s', hs', ⟨⟨⟨⟨hresults, hthreads⟩, hin⟩, hreader⟩, hdata⟩, hend⟩ := h
  exact ⟨s, s', (run_of_follow System.step hs).of_guarded, (run_of_follow System.step hs').of_guarded,
    hcached, hresults, hthreads, hin, hreader, hdata, hend⟩

end Listening

end PropertyTree.System
