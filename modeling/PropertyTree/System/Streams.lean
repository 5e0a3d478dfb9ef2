import PropertyTree.Client.Mentions
import PropertyTree.Server.Streams
import PropertyTree.System.Sessions

/-!
# What a client has heard

The messages sent to a client are those it has read, in order, and those in its inbound queue.  As
long as no notification is mistaken for a response, its mirror and its threads know of nothing but
what the messages it has read tell of, and it has handled exactly the deletions they tell of.
-/

namespace PropertyTree

namespace Client

open Library Server PropertyTreeMessages

variable {k k' : Client} {number : ℕ} {a : Action} {sent : List Packet}
  {past : List PropertyTreeMessages} {u : UInt64}

/-- The messages on their way to the client. -/
def coming (k : Client) : List PropertyTreeMessages :=
  k.inbound.map fun p => p.message.message

/-- What the client has made of the messages it has read. -/
structure Heard (k : Client) (past : List PropertyTreeMessages) : Prop where
  held : ∀ {x}, Held k x → ∀ u ∈ x.message.announced, Announced past u
  mTree : ∀ {u : UInt64}, k.mirror.mTree[u]? ≠ none → u = 0 ∨ Announced past u
  deleted : ∀ {u}, u ∈ k.deleted ↔ Deleted past u

theorem Heard.announced (h : Heard k past) {i : ThreadId} {th : Thread} {x : Tagged}
    (hi : k.threads[i]? = some th) (hx : th.stage.inHand = some x) (hu : u ∈ x.message.announced) :
    Announced past u :=
  h.held (.inHand i th hi hx) u hu

/-- The queues do not matter for it. -/
theorem Heard.queues (h : Heard k past) (inbound outbound : List Packet) :
    Heard { k with inbound := inbound, outbound := outbound } past := by
  refine ⟨fun hx => h.held ?_, h.mTree, h.deleted⟩
  cases hx with
  | stored t ht => exact .stored t ht
  | inHand i th hi hx => exact .inHand i th hi hx

/-- The message the client reads next is no notification that it takes for a response. -/
def NextHandled (k : Client) : Prop :=
  ∀ p ∈ k.inbound.head?, (∃ add del, p.message.message = .treeUpdateNotification add del) →
    k.mTransactions[p.message.transactionId]? = none

instance (m : PropertyTreeMessages) :
    Decidable (∃ add del, m = .treeUpdateNotification add del) :=
  decidable_of_iff ((match m with | .treeUpdateNotification _ _ => true | _ => false) = true)
    (by cases m <;> simp)

instance (k : Client) : Decidable k.NextHandled :=
  inferInstanceAs (Decidable (∀ p ∈ k.inbound.head?,
    (∃ add del, p.message.message = .treeUpdateNotification add del) →
      k.mTransactions[p.message.transactionId]? = none))

/-- The uuids that a step puts into `mTree` are those a message tells of. -/
theorem announced_of_mentionsOf (hu : (u, true) ∈ k.mentionsOf a) : u = 0 ∨
    (∃ x, Held k x ∧ u ∈ x.message.announced) ∨
      ∃ p, a = .read ∧ k.inbound.head? = some p ∧ u ∈ p.message.message.announced := by
  unfold mentionsOf at hu
  split at hu
  · rename_i i
    split at hu
    · obtain ⟨rfl, -⟩ := Prod.mk.inj (List.mem_singleton.mp hu)
      exact .inl rfl
    · rename_i ht
      obtain ⟨rfl, -⟩ := Prod.mk.inj (List.mem_singleton.mp hu)
      exact .inr (.inl ⟨_, .inHand _ _ ht rfl, List.mem_singleton.mpr rfl⟩)
    · rename_i call l j todo ht
      refine .inr (.inl ⟨_, .inHand _ _ ht rfl, mem_announced_iff.mpr ⟨j, List.mem_cons_self, ?_⟩⟩)
      simp only [entryMentions, List.mem_cons, Prod.mk.injEq, and_true, List.not_mem_nil,
        or_false] at hu
      exact hu.symm
    · cases hu
  · split at hu
    · rename_i tag trId add del inbound hin
      split_ifs at hu
      · cases hu
      · refine .inr (.inr ⟨_, rfl, by rw [hin]; rfl, mem_announced_iff.mpr ?_⟩)
        simp only [List.mem_append, List.mem_flatMap, entryMentions, List.mem_cons, Prod.mk.injEq,
          and_true, List.not_mem_nil, or_false, List.mem_map, and_false, exists_false,
          Bool.false_eq_true] at hu
        obtain ⟨i, hi, hu⟩ := hu
        exact ⟨i, hi, hu.symm⟩
    · cases hu
  · cases hu

/-- What is known after a step, when the messages taken by it are added to the past. -/
theorem Heard.of_step (h : Heard k past) (hstep : k.step number a = some (k', sent))
    {past' : List PropertyTreeMessages} (hmono : ∀ {u}, Announced past u → Announced past' u)
    (hnew : ∀ {p}, k.inbound = p :: k'.inbound → ∀ u ∈ p.message.message.announced,
      Announced past' u)
    (hdel : ∀ {u}, u ∈ k'.deleted ↔ Deleted past' u) : Heard k' past' := by
  have hres := (step_cases hstep).2
  refine ⟨fun {x} hx => ?_, fun {u} hu => ?_, hdel⟩
  · refine hres.held (P := fun x => ∀ u ∈ x.message.announced, Announced past' u)
      (fun hx u hu => hmono (h.held hx u hu)) (fun hl hsub u hu => ?_) (fun hp => hnew hp) hx
    obtain ⟨i, hi, hu⟩ := mem_announced_iff.mp hu
    exact hl u (mem_announced_iff.mpr ⟨i, hsub hi, hu⟩)
  · rw [← Option.isSome_iff_ne_none, isSome_mTree_of_step hstep] at hu
    cases hl : lastOf u (k.mentionsOf a) with
    | none =>
      rw [hl, Option.getD_none, Option.isSome_iff_ne_none] at hu
      exact (h.mTree hu).imp_right hmono
    | some b =>
      rw [hl, Option.getD_some] at hu
      subst hu
      rcases announced_of_mentionsOf (mem_of_lastOf hl) with hu | ⟨x, hx, hu⟩ | ⟨p, rfl, hp, hu⟩
      · exact .inl hu
      · exact .inr (hmono (h.held hx u hu))
      · obtain ⟨hne, -⟩ | ⟨-, q, hq⟩ := inbound_of_stepResult hres
        · exact absurd rfl hne
        · rw [hq, List.head?_cons, Option.some.injEq] at hp
          exact .inr (hnew (hp ▸ hq) u hu)

/-- The deletions handled in a step are those of the message it takes. -/
theorem deleted_of_step (hres : StepResult k number a k' sent) (hnext : a = .read → NextHandled k) :
    k'.inbound = k.inbound ∧ k'.deleted = k.deleted ∨
      ∃ p, k.inbound = p :: k'.inbound ∧ k'.deleted = k.deleted ++ p.message.message.deletions := by
  have hsame : k'.inbound = k.inbound → k'.deleted = k.deleted → k'.inbound = k.inbound ∧
      k'.deleted = k.deleted ∨ ∃ p, k.inbound = p :: k'.inbound ∧
        k'.deleted = k.deleted ++ p.message.message.deletions := fun hin hd => .inl ⟨hin, hd⟩
  cases hres.mirrorChange with
  | same a h hd hr =>
    rcases inbound_of_stepResult hres with ⟨-, hin⟩ | ⟨ha, p, hin⟩
    · exact .inl ⟨hin, hd⟩
    · refine .inr ⟨p, hin, ?_⟩
      have hnil : p.message.message.deletions = [] := by
        have hne := hr p hin
        have hp := hnext ha p (by rw [hin]; rfl)
        generalize p.message.message = m at hne hp
        cases m with
        | treeUpdateNotification add del => exact absurd rfl (hne (hp ⟨add, del, rfl⟩) add del)
        | _ => rfl
      rw [hd, hnil, List.append_nil]
  | signin i h hd hin => exact hsame hin hd
  | create i a name r tag uuid ht h hd hin => exact hsame hin hd
  | add i call l j todo ht h hd hin => exact hsame hin hd
  | destroy i a r tag ht h hd hin => exact hsame hin hd
  | treeUpdate tag trId add del hin hx h hd => exact .inr ⟨_, hin, hd⟩
  | free a ha hu h hd hin => exact hsame hin hd

/-- A step of the client. -/
theorem Heard.step (h : Heard k past) (hnext : a = .read → NextHandled k)
    (hstep : k.step number a = some (k', sent)) :
    ∃ past', Heard k' past' ∧ past' ++ k'.coming = past ++ k.coming := by
  rcases deleted_of_step (step_cases hstep).2 hnext with ⟨hin, hd⟩ | ⟨p, hin, hd⟩
  · refine ⟨past, h.of_step hstep id (fun hp => ?_) (by rw [hd]; exact h.deleted), ?_⟩
    · rw [hin] at hp
      exact absurd (congrArg List.length hp) (by simp)
    · rw [coming, coming, hin]
  · refine ⟨past ++ [p.message.message], h.of_step hstep (fun hu => ?_) (fun hp u hu => ?_) ?_, ?_⟩
    · exact Announced.append_iff.mpr (.inl hu)
    · obtain ⟨rfl, -⟩ := List.cons.inj (hin.symm.trans hp)
      exact Announced.append_iff.mpr (.inr ⟨_, List.mem_cons_self, hu⟩)
    · intro u
      rw [hd, Deleted.append_iff, List.mem_append, h.deleted]
      simp [Deleted]
    · simp [coming, hin]

end Client

namespace System

open Library Server Client

variable {s s' : System} {c d : Conn} {k : Client} {past : List PropertyTreeMessages}

/-- A notification that a client reads is not taken for the response of a call. -/
def UpdatesHandled (s : System) : System.Action → Prop
  | .client c .read => NextHandled (s.client c)
  | _ => True

instance (s : System) (a : System.Action) : Decidable (UpdatesHandled s a) :=
  match a with
  | .client c .read => inferInstanceAs (Decidable (s.client c).NextHandled)
  | .client _ (.start _ _) | .client _ (.fetchId _) | .client _ (.send _) | .client _ (.take _)
  | .client _ (.timeout _) | .client _ (.erase _) | .client _ (.proceed _) | .client _ .update
  | .client _ (.setup _) | .client _ (.free _) | .client _ .close | .connect _ | .serve _
  | .disconnect _ => .isTrue trivial

/-- What the client on `c` has heard, and what is on its way to it. -/
def Streamed (s : System) (c : Conn) : Prop :=
  ∃ past, Heard (s.client c) past ∧ Stream s.log s.server (past ++ (s.client c).coming)

/-- A client that is about to be signed in has heard of nothing. -/
theorem Entering.streamed (h : Entering s c (s.client c)) : Streamed s c := by
  have hsilent : ∀ {m}, IsUpdate m → m.announced = [] ∧ m.deletions = [] := by
    rintro m ⟨u, data, rfl⟩
    exact ⟨rfl, rfl⟩
  refine ⟨[], ⟨fun {x} hx u hu => ?_, fun hu => absurd (h.mTree _) hu, fun {u} => ?_⟩, .of_silent ?_⟩
  · rw [(hsilent (h.held hx)).1] at hu
    cases hu
  · simp [h.deleted, Deleted]
  · intro m hm
    obtain ⟨p, hp, rfl⟩ := List.mem_map.mp hm
    exact hsilent (h.inbound hp)

/-- A step of a client. -/
theorem Streamed.client_step {a : Client.Action} (h : Streamed s c)
    (hguard : UpdatesHandled s (.client d a)) (hstep : Step s (.client d a) s') : Streamed s' c := by
  obtain ⟨past, hheard, hstream⟩ := h
  have hsame : s'.log = s.log ∧ s'.server = s.server := by
    cases step_cases hstep
    exact ⟨rfl, rfl⟩
  rw [Streamed, hsame.1, hsame.2]
  by_cases hcd : c = d
  · subst hcd
    rcases client_of_step hstep c with ⟨b, k', sent, hb, hk', hcl⟩ | ⟨hne, -⟩
    · cases hb
      obtain ⟨past', hheard', heq⟩ := hheard.step (by rintro rfl; exact hguard) hk'
      refine ⟨past', hcl ▸ hheard'.queues _ _, ?_⟩
      rw [hcl]
      exact heq ▸ hstream
    · exact absurd rfl (hne a)
  · have hcl : s'.client c = s.client c := by
      cases step_cases hstep
      rw [client_of_clients rfl, if_neg hcd]
    exact ⟨past, hcl ▸ hheard, hcl ▸ hstream⟩

section Serve

variable {p : Packet} {outbound : List Packet} {server : ProtocolHandler} {o : List Output}

/-- The change of the tree is told to every connection that is signed in. -/
theorem deleted_of_signedIn {s₀ s₁ : ProtocolHandler} {e : Event} {sid : UInt32} {u : UInt64}
    (h : SignedIn s₀ c sid) (hw : WellLinked s₀) (hstep : Server.StepResult s₀ e s₁ o)
    (hu : changeOf (e, o) = [([], [u])]) :
    Deleted ((sentTo c o).map PropertyTreeMessage.message) u := by
  have hmem : (([], [u]) : TreeUpdate) ∈ treeUpdatesTo c o := by
    rw [h.treeUpdates hw hstep, hu]
    exact List.mem_cons_self
  obtain ⟨x, hx, hxu⟩ := List.mem_filterMap.mp hmem
  obtain ⟨c', ⟨t, m⟩⟩ | _ := x
  · cases m with
    | treeUpdateNotification add del =>
      simp only [treeUpdateTo] at hxu
      split_ifs at hxu with hcc
      cases hxu
      have hmem : (⟨t, .treeUpdateNotification [] [u]⟩ : PropertyTreeMessage) ∈ sentTo c o :=
        List.mem_filterMap.mpr ⟨_, hx, if_pos hcc⟩
      exact ⟨_, List.mem_map_of_mem hmem, List.mem_singleton.mpr rfl⟩
    | _ => cases hxu
  · cases hxu

/-- The server handles a message.  It either changes nothing in the tree, or the client is signed in
and is told of the change. -/
theorem Streamed.serve (h : Streamed s c) (hrun : ServerRun .init s.log s.server)
    (hacc : acceptedCreates (s.log ++ [(.message d p.message, o)]) < 2 ^ 32 - 1)
    (hk : s.clients[d]? = some k) (hok : s.server.step (.message d p.message) = .ok (server, o))
    (htold : changeOf (.message d p.message, o) = [] ∨
      (∃ sid, SignedIn s.server c sid) ∧ ∃ kc, s.clients[c]? = some kc) :
    Streamed (afterServe s d k p outbound server o) c := by
  obtain ⟨past, hheard, hstream⟩ := h
  obtain ⟨ms, hms, hcl, hdel⟩ : ∃ ms : List PropertyTreeMessage, ms.Sublist (sentTo c o) ∧
      (afterServe s d k p outbound server o).client c = { s.client c with
        inbound := (s.client c).inbound ++ ms.map (⟨p.tag, ·⟩)
        outbound := if c = d then outbound else (s.client c).outbound } ∧
      ∀ u, changeOf (.message d p.message, o) = [([], [u])] →
        Deleted (ms.map PropertyTreeMessage.message) u := by
    rcases htold with hnil | ⟨⟨sid, hsid⟩, kc, hkc⟩
    · obtain ⟨ms, hms, hcl⟩ := exists_client_afterServe hk p outbound server o c
      refine ⟨ms, hms, hcl, fun u hu => ?_⟩
      rw [hnil] at hu
      cases hu
    · exact ⟨sentTo c o, .refl _, client_afterServe_of_some hk hkc, fun u hu =>
        deleted_of_signedIn hsid (wellLinked_of_run hrun) (Server.step_cases hok) hu⟩
  refine ⟨past, ?_, ?_⟩
  · rw [hcl]
    exact hheard.queues _ _
  · have hcoming : ((afterServe s d k p outbound server o).client c).coming =
        (s.client c).coming ++ ms.map PropertyTreeMessage.message := by
      simp [hcl, coming, Function.comp_def]
    rw [hcoming, ← List.append_assoc]
    refine hstream.step hrun hacc hok (c := c) (fun m hm => ?_) hdel
    obtain ⟨m', hm', rfl⟩ := List.mem_map.mp hm
    exact ⟨_, mem_sentTo (hms.subset hm')⟩

end Serve

/-- What every client that is not closed has heard. -/
theorem streamed_of_run {C : System → System.Action → Prop}
    (hsign : ∀ {s a}, C s a → FewSignins s a) (hcreate : ∀ {s a}, C s a → FewCreates s a)
    (hupdate : ∀ {s a}, C s a → UpdatesHandled s a)
    {as : List System.Action} (h : Run (Guarded C Step) .init as s) (c : Conn)
    (hopen : (s.client c).status ≠ .closed) : Streamed s c := by
  generalize hinit : System.init = s₀ at h
  induction h generalizing c with
  | nil =>
    subst hinit
    have hnew : System.init.client c = .new := by simp [client, init]
    refine (Entering.streamed ?_)
    rw [hnew]
    exact entering_new (by simp [init])
  | @snoc t u as a run step ih =>
    subst hinit
    have hlog := log_of_run run.of_guarded
    have hacc := creates_of_run hcreate (run.snoc step)
    have henter := enters_of_run hsign run c
    have henter' := enters_of_run hsign (run.snoc step) c hopen
    have hguard := hupdate step.1
    cases step_cases step.2 with
    | connect d hd =>
      have hcl := client_connect hd c
      rw [hcl] at hopen
      obtain ⟨past, hheard, hstream⟩ := ih c hopen
      exact ⟨past, by rwa [hcl], by rw [hcl]; exact hstream⟩
    | client d a k k' sent hk hkopen hres =>
      have hstatus : (t.client c).status ≠ .closed := by
        rw [client_of_clients rfl] at hopen
        split_ifs at hopen with hcd
        · rwa [hcd, client_of_some hk]
        · exact hopen
      exact (ih c hstatus).client_step hguard step.2
    | serve d k p outbound server o hk hout ht hok =>
      change Streamed (afterServe t d k p outbound server o) c
      obtain ⟨ms, -, hcl⟩ := exists_client_afterServe hk p outbound server o c
      have hstatus : (t.client c).status ≠ .closed := by
        change ((afterServe t d k p outbound server o).client c).status ≠ .closed at hopen
        rwa [hcl] at hopen
      rcases henter hstatus with hent | hjoin
      · by_cases hcd : c = d
        · subst hcd
          refine (ih c hstatus).serve hlog hacc hk hok (.inl ?_)
          have hp := hent.outbound (p := p) (by
            rw [client_of_some hk, hout]
            exact List.mem_cons_self)
          obtain ⟨tag, tr, m⟩ := p
          obtain rfl : m = .signinRequest 0 := hp
          rfl
        · exact (hent.serve hlog hk hok hcd).streamed
      · exact (ih c hstatus).serve hlog hacc hk hok (.inr ⟨hjoin.signedIn, hjoin.exists_clients⟩)
    | disconnect d k server o hk hclosed hok =>
      rw [client_disconnect hk rfl c] at hopen
      obtain ⟨past, hheard, hstream⟩ := ih c hopen
      have hnil : ∀ u, changeOf (.disconnect d, o) = [([], [u])] → Deleted [] u := fun u hu => by cases hu
      have hnext := hstream.step hlog hacc hok (c := c) (fun m hm => absurd hm List.not_mem_nil) hnil
      rw [List.append_nil] at hnext
      rw [Streamed, client_disconnect hk rfl c]
      exact ⟨past, hheard.queues _ _, hnext⟩

end System

end PropertyTree
