import PropertyTree.Client.Deletions
import PropertyTree.Client.Mentions
import PropertyTree.Server.Creations
import PropertyTree.System.Correlation

/-!
# What the messages tell a client

A message the server has sent stays in the inbound queue, then in a transaction, then in the hands of
a thread.  Wherever it is, what it tells is true of the run: a created node has been created as its
request says, and a node whose deletion it tells of is not there any more.  Nothing but the width of
the uuid counter is needed for it.
-/

namespace PropertyTree

namespace Client

/-- The message a thread has in hand, or the entries it still has to add. -/
def Stage.inHand : Stage → Option Tagged
  | taken _ _ response | answered _ response => some response
  | adding _ todo => some ⟨0, .treeInfoResponse todo⟩
  | _ => none

/-- The client has taken the message from its queue, and has not made use of all of it. -/
inductive Held (k : Client) (x : Tagged) : Prop
  | stored (t : UInt16) (h : k.mTransactions[t]? = some ⟨true, x⟩)
  | inHand (i : ThreadId) (th : Thread) (h : k.threads[i]? = some th)
      (hx : th.stage.inHand = some x)

variable {k k' : Client} {number : ℕ} {a : Action} {sent : List Packet}

/-- A message in a transaction was there before the step, or has just been read. -/
theorem stored_of_stepResult (hchange : TransactionChange k k' number a sent) {t : UInt16}
    {x : Tagged} (h : k'.mTransactions[t]? = some ⟨true, x⟩) :
    k.mTransactions[t]? = some ⟨true, x⟩ ∨ ∃ p, k.inbound = p :: k'.inbound ∧ p.body = x := by
  cases hchange with
  | other a ha hin hx => exact .inl (hx ▸ h)
  | draw i call stage q ht hnone hid hin hx hth => exact .inl (hx ▸ h)
  | send i call q trId ht hin hx hth =>
    rw [hx, Std.ExtTreeMap.getElem?_insertIfNew] at h
    split_ifs at h with hnew
    · cases h
    · exact .inl h
  | take i call trId r response ht hsat hin hx hth => exact .inl (hx ▸ h)
  | timeout i call trId r ht hin hx hth => exact .inl (hx ▸ h)
  | erase i call trId r response ht hin hx hth =>
    rw [hx] at h
    exact .inl (by grind)
  | satisfy p y hin hsat hx hth =>
    rw [hx] at h
    by_cases htp : t = p.message.transactionId
    · subst htp
      exact .inr ⟨p, hin, by simpa using h⟩
    · exact .inl (by grind)
  | dispatch p sent hin hnone hx hth => exact .inl (hx ▸ h)

/-- What is true of the messages a client holds, of the parts of a listing and of the next message is
true of the messages it holds after a step. -/
theorem StepResult.held (h : StepResult k number a k' sent) {P : Tagged → Prop}
    (hP : ∀ {x}, Held k x → P x)
    (hlist : ∀ {tag tag' l l'}, P ⟨tag, .treeInfoResponse l⟩ → l' ⊆ l →
      P ⟨tag', .treeInfoResponse l'⟩)
    (hin : ∀ {p}, k.inbound = p :: k'.inbound → P p.body) {x : Tagged} (hx : Held k' x) : P x := by
  have hthread : ∀ {i : ThreadId} {th : Thread} {x : Tagged}, k.threads[i]? = some th →
      th.stage.inHand = some x → P x := fun hi hx => hP (.inHand _ _ hi hx)
  cases hx with
  | stored t ht =>
    rcases stored_of_stepResult h.transactionChange ht with ht | ⟨p, hp, rfl⟩
    · exact hP (.stored t ht)
    · exact hin hp
  | inHand j th' hj hx =>
    -- a thread that goes on, with something in hand or nothing
    have hinsert : ∀ {i : ThreadId} {th : Thread}, (∀ y, th.stage.inHand = some y → P y) →
        (k.threads.insert i th)[j]? = some th' → P x := by
      intro i th hth hj
      rcases thread_of_insert hj with ⟨-, rfl⟩ | ⟨-, hj⟩
      · exact hth x hx
      · exact hthread hj hx
    have hempty : ∀ {i : ThreadId} {th : Thread}, th.stage.inHand = none →
        (k.threads.insert i th)[j]? = some th' → P x :=
      fun hnone => hinsert fun y hy => by rw [hnone] at hy; cases hy
    have herase : ∀ {i : ThreadId}, (k.threads.erase i)[j]? = some th' → P x :=
      fun hj => hthread (thread_of_erase hj).2 hx
    cases h with
    | found => exact herase hj
    | start => exact hempty rfl hj
    | startSet => exact hempty rfl hj
    | skip => exact hempty rfl hj
    | draw => exact hempty rfl hj
    | send => exact hempty rfl hj
    | take i call trId r response ht hsat =>
      exact hinsert (by rintro y ⟨⟩; exact hP (.stored _ hsat)) hj
    | timeout => exact herase hj
    | erase i call trId r response ht =>
      exact hinsert (by rintro y ⟨⟩; exact hthread ht rfl) hj
    | signin => exact herase hj
    | create => exact herase hj
    | list i a name recursive r tag l ht =>
      exact hinsert (by rintro y ⟨⟩; exact hlist (hthread ht rfl) (List.Subset.refl l)) hj
    | fetch => exact herase hj
    | destroy => exact herase hj
    | respond => exact herase hj
    | fail => exact herase hj
    | add i call l j' todo ht =>
      refine hinsert ?_ hj
      rintro y ⟨⟩
      exact hlist (hthread ht rfl) (List.subset_cons_self j' todo)
    | get => exact herase hj
    | _ => exact hthread hj hx

end Client

namespace System

open Library Server Client

variable {s s' : System} {act : System.Action} {c d : Conn} {k k' : Client}

/-! ## Condition -/

/-- There are fewer than `2 ^ 32 - 1` creations, so that no uuid is given out twice. -/
def FewCreates (s : System) : System.Action → Prop
  | .serve c => ∀ p ∈ s.next c, (∃ name parentUuid, p.message.message = .createRequest name parentUuid) →
      acceptedCreates s.log + 1 < 2 ^ 32 - 1
  | _ => True

instance (m : PropertyTreeMessages) :
    Decidable (∃ name parentUuid, m = .createRequest name parentUuid) :=
  decidable_of_iff ((match m with | .createRequest _ _ => true | _ => false) = true)
    (by cases m <;> simp)

instance (s : System) (a : System.Action) : Decidable (FewCreates s a) :=
  match a with
  | .serve c => inferInstanceAs (Decidable (∀ p ∈ s.next c,
      (∃ name parentUuid, p.message.message = .createRequest name parentUuid) →
        acceptedCreates s.log + 1 < 2 ^ 32 - 1))
  | .connect _ | .client _ _ | .disconnect _ => .isTrue trivial

/-- In a run with few creations no uuid is used twice. -/
theorem creates_of_run {C : System → System.Action → Prop} (hC : ∀ {s a}, C s a → FewCreates s a)
    {as : List System.Action} (h : Run (Guarded C Step) .init as s) :
    acceptedCreates s.log < 2 ^ 32 - 1 := by
  generalize hinit : System.init = s₀ at h
  induction h with
  | nil =>
    subst hinit
    decide
  | @snoc t u as a run step ih =>
    subst hinit
    have hrun := log_of_run run.of_guarded
    have hfew := hC step.1
    -- only the answer to a `CreateRequest` counts
    have hcount : ∀ {e : Event} {server : ProtocolHandler} {o : List Output},
        t.server.step e = .ok (server, o) → o.countP isCreateAccept = 0 ∨
          o.countP isCreateAccept = 1 ∧
            ∃ c id name pu, e = .message c ⟨id, .createRequest name pu⟩ := by
      intro e server o hok
      have hres := Server.step_cases hok
      rcases hres.createAccept_cases with ⟨h1, -⟩ | ⟨h0, -⟩
      · refine .inr ⟨h1, ?_⟩
        obtain ⟨x, hx, hacc⟩ := List.countP_pos_iff.mp (by omega : 0 < o.countP isCreateAccept)
        obtain ⟨d, ⟨id, m⟩⟩ | _ := x
        · cases m <;> cases hacc
          obtain ⟨name, pu, he, -⟩ := hres.content (wellLinked_of_run hrun)
            (indexed_of_run hrun ih) hx
          exact ⟨d, id, name, pu, he⟩
        · cases hacc
      · exact .inl h0
    cases step_cases step.2 with
    | connect => exact ih
    | client => exact ih
    | serve c k p outbound server o hk hout ht hok =>
      have hnext : t.next c = some p := by simp [next, hk, hout]
      rw [acceptedCreates_concat]
      rcases hcount hok with h0 | ⟨h1, c', id, name, pu, he⟩
      · rw [h0]
        exact ih
      · rw [h1]
        obtain ⟨-, hm⟩ := Event.message.inj he
        exact hfew p hnext ⟨name, pu, by rw [hm]⟩
    | disconnect c k server o hk hclosed hok =>
      rw [acceptedCreates_concat]
      rcases hcount hok with h0 | ⟨-, c', id, name, pu, he⟩
      · rw [h0]
        exact ih
      · cases he

/-! ## What is told is true -/

/-- What the message tells the client on `c` is true of the run. -/
def Told (s : System) (c : Conn) : Tagged → Prop
  | ⟨tag, .createAccept u⟩ => ∃ t name pu,
      s.requests[tag]? = some (c, ⟨t, .createRequest name pu⟩) ∧ ⟨name, u, pu⟩ ∈ creations s.log
  | ⟨tag, .deleteResponse .ok⟩ => ∃ t u,
      s.requests[tag]? = some (c, ⟨t, .deleteRequest u⟩) ∧ Dead s.server u
  | ⟨_, .treeInfoResponse l⟩ => ∀ i ∈ l, i ∈ creations s.log
  | ⟨_, .treeUpdateNotification add del⟩ =>
      (∀ i ∈ add, i ∈ creations s.log) ∧ ∀ u ∈ del, u ≠ 0 ∧ Dead s.server u
  | _ => True

/-- What the client on `c` has been told is true. -/
structure Informed (s : System) (c : Conn) (k : Client) : Prop where
  inbound : ∀ {p}, p ∈ k.inbound → Told s c p.body
  held : ∀ {x}, Held k x → Told s c x

/-- The part of the state that the messages tell of grows. -/
structure Grown (s s' : System) : Prop where
  requests : ∀ {r : ℕ} {x}, s.requests[r]? = some x → s'.requests[r]? = some x
  creations : creations s.log ⊆ creations s'.log
  dead : ∀ {u}, Dead s.server u → Dead s'.server u

theorem Told.mono {x : Tagged} (h : Told s c x) (hs : Grown s s') : Told s' c x := by
  obtain ⟨tag, m⟩ := x
  cases m with
  | createAccept u =>
    obtain ⟨t, name, pu, hreq, hmem⟩ := h
    exact ⟨t, name, pu, hs.requests hreq, hs.creations hmem⟩
  | deleteResponse cause =>
    cases cause with
    | ok =>
      obtain ⟨t, u, hreq, hdead⟩ := h
      exact ⟨t, u, hs.requests hreq, hs.dead hdead⟩
    | _ => trivial
  | treeInfoResponse l => exact fun i hi => hs.creations (h i hi)
  | treeUpdateNotification add del =>
    exact ⟨fun i hi => hs.creations (h.1 i hi), fun u hu => (h.2 u hu).imp_right hs.dead⟩
  | _ => trivial

/-- A step of a run with few creations makes the record grow. -/
theorem grown_of_step (hrun : ServerRun .init s.log s.server)
    (hacc : acceptedCreates s'.log < 2 ^ 32 - 1) (h : StepResult s act s') : Grown s s' := by
  cases h with
  | connect => exact ⟨id, List.Subset.refl _, id⟩
  | client => exact ⟨fun h => getElem?_append_of_some h _, List.Subset.refl _, id⟩
  | serve c k p outbound server o hk hout ht hok =>
    refine ⟨id, ?_, fun h => h.step hrun hacc hok⟩
    rw [creations_concat]
    exact List.subset_append_left _ _
  | disconnect c k server o hk hclosed hok =>
    refine ⟨id, ?_, fun h => h.step hrun hacc hok⟩
    rw [creations_concat]
    exact List.subset_append_left _ _

/-- The parts of a listing are told like the listing. -/
theorem told_of_subset {tag tag' : ℕ} {l l' : List NamedNode}
    (h : Told s c ⟨tag, .treeInfoResponse l⟩) (hl : l' ⊆ l) :
    Told s c ⟨tag', .treeInfoResponse l'⟩ :=
  fun i hi => h i (hl hi)

/-- What the server sends when it handles a message tells the truth. -/
theorem told_of_serve (hrun : ServerRun .init s.log s.server) (hsound : Sound s) {p : Packet}
    {outbound : List Packet} {server : ProtocolHandler} {o : List Output}
    (hacc : acceptedCreates (s.log ++ [(.message c p.message, o)]) < 2 ^ 32 - 1)
    (hk : s.clients[c]? = some k) (hout : k.outbound = p :: outbound)
    (hok : s.server.step (.message c p.message) = .ok (server, o)) {m : PropertyTreeMessage}
    (hm : .send d m ∈ o) :
    Told (afterServe s c k p outbound server o) d ⟨p.tag, m.message⟩ := by
  have hlt := acceptedCreates_lt_of_concat hacc
  have hi := indexed_of_run hrun hlt
  have hstep := Server.step_cases hok
  have hch := hstep.treeChange (wellLinked_of_run hrun) hi
  have hle := mUuidCtr_le_of_step hrun hacc hok
  obtain ⟨t, m⟩ := m
  have hcontent := hstep.content (wellLinked_of_run hrun) hi hm
  have hdel := hcontent.deletions hi hch hle
  -- the request that is handled is on record
  have hreq : ∀ {q : PropertyTreeMessage}, q.message.isRequest = true →
      Event.message c p.message = .message d q → s.requests[p.tag]? = some (d, q) := by
    rintro q hq he
    obtain ⟨rfl, rfl⟩ := Event.message.inj he
    rcases hsound.outbound hk (hout ▸ List.mem_cons_self) with ⟨-, hreq⟩ | hrep
    · exact hreq
    · rw [PropertyTreeMessages.isRequest_of_isRpcReply hrep] at hq
      cases hq
  cases m with
  | createAccept u =>
    obtain ⟨name, pu, he, hc⟩ := hcontent
    exact ⟨t, name, pu, hreq rfl he, mem_creations_of_change hc List.mem_cons_self⟩
  | deleteResponse cause =>
    cases cause with
    | ok =>
      obtain ⟨u, he, hc⟩ := hcontent
      refine ⟨t, u, hreq rfl he, ?_⟩
      rw [hc] at hch
      cases hch with
      | del _ hent _ _ hent' =>
        exact ⟨by simp [afterServe, hent'], lt_of_lt_of_le (hi.entry_lt hent) hle⟩
    | _ => trivial
  | treeInfoResponse l =>
    intro i hi'
    obtain ⟨ent, hent, hpar, hname⟩ := hcontent.2 i hi'
    have hlive := (history_of_run hrun hlt).live hent hpar
    rw [hname] at hlive
    change i ∈ creations (s.log ++ _)
    rw [creations_concat]
    exact List.mem_append_left _ hlive
  | treeUpdateNotification add del =>
    exact ⟨fun i hi' => show i ∈ creations (s.log ++ _) from
      mem_creations_of_change hcontent hi', hdel⟩
  | _ => trivial

/-- What a client is told is true in every run with few creations. -/
theorem informed_of_run {C : System → System.Action → Prop} (hC : ∀ {s a}, C s a → FewCreates s a)
    {as : List System.Action} (h : Run (Guarded C Step) .init as s) (c : Conn) :
    Informed s c (s.client c) := by
  generalize hinit : System.init = s₀ at h
  induction h generalizing c with
  | nil =>
    subst hinit
    have hnew : System.init.client c = .new := by simp [client, init]
    rw [hnew]
    refine ⟨by simp [Client.new], fun {x} hx => ?_⟩
    cases hx with
    | stored t ht => simp [Client.new] at ht
    | inHand i th hi hx =>
      obtain ⟨-, rfl⟩ | ⟨-, hi⟩ := thread_of_insert hi
      · cases hx
      · simp at hi
  | @snoc t u as a run step ih =>
    subst hinit
    have hrun := log_of_run run.of_guarded
    have hacc := creates_of_run hC (run.snoc step)
    have hres := step_cases step.2
    have hgrown := grown_of_step hrun hacc hres
    have hmono : ∀ d, Informed u d (t.client d) := fun d =>
      ⟨fun hp => ((ih d).inbound hp).mono hgrown, fun hx => ((ih d).held hx).mono hgrown⟩
    cases hres with
    | connect d hd =>
      rw [client_connect hd]
      exact hmono c
    | client d a k k' sent hk hopen hres =>
      rw [client_of_clients rfl c]
      split_ifs with hcd
      · subst hcd
        have hkc := hmono c
        rw [client_of_some hk] at hkc
        refine ⟨fun {p} hp => hkc.inbound ?_, fun {x} hx => ?_⟩
        · rcases inbound_of_change hres.transactionChange with hin | ⟨q, hin⟩
          · exact hin ▸ hp
          · exact hin ▸ List.mem_cons_of_mem q hp
        · refine hres.held (P := Told _ c) hkc.held told_of_subset (fun {p} hp => ?_) (x := x) ?_
          · exact hkc.inbound (hp ▸ List.mem_cons_self)
          · cases hx with
            | stored t ht => exact .stored t ht
            | inHand i th hi hx => exact .inHand i th hi hx
      · exact hmono c
    | serve d k p outbound server o hk hout ht hok =>
      obtain ⟨ms, hms, hcl⟩ := exists_client_afterServe hk p outbound server o c
      change Informed (afterServe t d k p outbound server o) c
        ((afterServe t d k p outbound server o).client c)
      rw [hcl]
      refine ⟨fun {q} hq => ?_, fun {x} hx => (hmono c).held ?_⟩
      · rcases List.mem_append.mp hq with hq | hq
        · exact (hmono c).inbound hq
        · obtain ⟨m, hm, rfl⟩ := List.mem_map.mp hq
          exact told_of_serve hrun (sound_of_run run.of_guarded) hacc hk hout hok
            (mem_sentTo (hms.subset hm))
      · cases hx with
        | stored t ht => exact .stored t ht
        | inHand i th hi hx => exact .inHand i th hi hx
    | disconnect d k server o hk hclosed hok =>
      rw [client_disconnect hk rfl c]
      refine ⟨fun hp => (hmono c).inbound hp, fun {x} hx => (hmono c).held ?_⟩
      cases hx with
      | stored t ht => exact .stored t ht
      | inHand i th hi hx => exact .inHand i th hi hx

/-! ## Invariants of one mirror -/

/-- What a run with few creations keeps true of the mirror of the client on `c`, and of the deletions
it has handled, if the growth of the record and the steps of that client keep it. -/
theorem mirror_of_run {C : System → System.Action → Prop} (hC : ∀ {s a}, C s a → FewCreates s a)
    {P : System → Mirror → List UInt64 → Prop} {s₁ : System} {as bs : List System.Action}
    (h₁ : Run (Guarded C Step) .init as s₁) (h : Run (Guarded C Step) s₁ bs s)
    (hbase : P s₁ (s₁.client c).mirror (s₁.client c).deleted)
    (hmono : ∀ {t u m del}, Grown t u → P t m del → P u m del)
    (hclient : ∀ {as t a k k' sent}, Run (Guarded C Step) .init as t → C t (.client c a) →
      t.clients[c]? = some k → k.status ≠ .closed → Client.StepResult k t.requests.length a k' sent →
        P t k.mirror k.deleted → P t k'.mirror k'.deleted) :
    P s (s.client c).mirror (s.client c).deleted := by
  obtain ⟨s₂, hs₂⟩ : ∃ s₂, s₂ = s₁ := ⟨_, rfl⟩
  rw [← hs₂] at h
  induction h with
  | nil => exact hs₂ ▸ hbase
  | @snoc t v bs a run step ih =>
    have hrun := h₁.append (hs₂ ▸ run)
    have hres := step_cases step.2
    have hgrown := grown_of_step (log_of_run hrun.of_guarded)
      (creates_of_run hC (h₁.append (hs₂ ▸ run.snoc step))) hres
    have hold := hmono hgrown ih
    cases hres with
    | connect d hd =>
      rw [client_connect hd]
      exact hold
    | client d a k k' sent hk hopen hres =>
      rw [client_of_clients rfl c]
      split_ifs with hcd
      · subst hcd
        rw [client_of_some hk] at ih
        have hnew := hclient hrun step.1 hk hopen hres ih
        exact hmono hgrown hnew
      · exact hold
    | serve d k p outbound server o hk hout ht hok =>
      obtain ⟨ms, -, hcl⟩ := exists_client_afterServe hk p outbound server o c
      change P (afterServe t d k p outbound server o)
        ((afterServe t d k p outbound server o).client c).mirror
        ((afterServe t d k p outbound server o).client c).deleted
      rw [hcl]
      exact hold
    | disconnect d k server o hk hclosed hok =>
      rw [client_disconnect hk rfl c]
      exact hold

/-! ## The uuids that a mirror knows -/

/-- The uuid is that of the root, or of a created node, or of the parent of one. -/
def Mentioned (s : System) (v : UInt64) : Prop :=
  v = 0 ∨ ∃ i ∈ creations s.log, v = i.uuid ∨ v = i.parentUuid

/-- What a mirror knows of has been created. -/
theorem mentioned_of_run {C : System → System.Action → Prop} (hC : ∀ {s a}, C s a → FewCreates s a)
    {as : List System.Action} (h : Run (Guarded C Step) .init as s) {v : UInt64}
    (hv : ((s.client c).mirror.mTree[v]?).isSome = true) : Mentioned s v := by
  refine mirror_of_run (c := c) (P := fun s m _ => ∀ v, (m.mTree[v]?).isSome = true → Mentioned s v) hC
    (.nil _) h ?_ ?_ ?_ v hv
  · intro v hv
    simp [client, init, Client.new, Mirror.empty] at hv
  · rintro t u m del hgrown hm v hv
    rcases hm v hv with h0 | ⟨i, hi, heq⟩
    · exact .inl h0
    · exact .inr ⟨i, hgrown.creations hi, heq⟩
  · intro as t a k k' sent hrun hCa hk hopen hres hm v hv
    have hinf := informed_of_run hC hrun c
    rw [client_of_some hk] at hinf
    -- an entry that is told mentions created nodes
    have hentry : ∀ {m : Mirror} {l : List NamedNode}, (∀ i ∈ l, i ∈ creations t.log) →
        (lastOf v (l.flatMap entryMentions)).getD (m.mTree[v]?).isSome = true →
          Mentioned t v ∨ (m.mTree[v]?).isSome = true := by
      intro m l hl hlast
      cases hmem : lastOf v (l.flatMap entryMentions) with
      | none => exact .inr (by rwa [hmem] at hlast)
      | some b =>
        obtain ⟨i, hi, hiv⟩ := List.mem_flatMap.mp (mem_of_lastOf hmem)
        simp only [entryMentions, List.mem_cons, Prod.mk.injEq, List.not_mem_nil, or_false] at hiv
        exact .inl (.inr ⟨i, hl i hi, hiv.symm.imp And.left And.left⟩)
    cases hres with
    | signin i r tag sessionId ht =>
      have hroot := (k.mirror.isSome_mTree_emplaceRoot v).symm.trans hv
      rw [lastOf_singleton] at hroot
      split_ifs at hroot with h0
      · exact .inl h0.symm
      · exact hm v hroot
    | create i a name r tag uuid ht =>
      have hnew := (k.mirror.isSome_mTree_createNode a name uuid v).symm.trans hv
      rw [lastOf_singleton] at hnew
      split_ifs at hnew with huv
      · obtain ⟨_, _, pu, _, hmem⟩ := hinf.held (.inHand i _ ht rfl)
        exact .inr ⟨_, hmem, .inl huv.symm⟩
      · exact hm v hnew
    | add i call l j todo ht =>
      have htold : Told t c ⟨0, .treeInfoResponse (j :: todo)⟩ := hinf.held (.inHand i _ ht rfl)
      refine (hentry (l := [j]) (fun i hi => htold i (List.mem_cons.mpr (.inl ?_))) ?_).elim id (hm v)
      · exact List.mem_singleton.mp hi
      · rw [List.flatMap_singleton]
        exact (k.mirror.isSome_mTree_addNode j v).symm.trans hv
    | treeUpdate tag trId add del inbound hr hin hx =>
      have htold : Told t c ⟨tag, .treeUpdateNotification add del⟩ :=
        hinf.inbound (p := ⟨tag, trId, .treeUpdateNotification add del⟩) (hin ▸ List.mem_cons_self)
      have hdel := (Mirror.isSome_mTree_removeNodes (k.mirror.addNodes add) del v).symm.trans hv
      cases hmem : lastOf v (del.map (·, false)) with
      | some b =>
        obtain ⟨w, -, heq⟩ := List.mem_map.mp (mem_of_lastOf hmem)
        cases heq
        rw [hmem] at hdel
        cases hdel
      | none =>
        rw [hmem, Option.getD_none, Mirror.isSome_mTree_addNodes] at hdel
        exact (hentry htold.1 hdel).elim id (hm v)
    | destroy i a r tag ht =>
      refine hm v ?_
      rwa [Client.finish, Mirror.destroyNode_mTree] at hv
    | update a data hr hl =>
      refine hm v ?_
      rwa [Mirror.callUpdate_mTree, Mirror.modifyNode_mTree] at hv
    | setup set hs =>
      refine hm v ?_
      cases set <;> exact hv
    | _ => exact hm v hv

/-- So the uuid that the server gives out next is known to no mirror. -/
theorem mTree_eq_none_of_run {as : List System.Action} (h : Run (Guarded FewCreates Step) .init as s)
    {u : UInt64} (hu : u.toNat = s.server.mUuidCtr.toNat) (c : Conn) :
    (s.client c).mirror.mTree[u]? = none := by
  have hlog := log_of_run h.of_guarded
  have hacc := creates_of_run (C := FewCreates) id h
  have hhist := history_of_run hlog hacc
  by_contra hne
  have hsome := Option.isSome_iff_ne_none.mpr hne
  rcases mentioned_of_run (C := FewCreates) id h hsome with rfl | ⟨i, hi, rfl | rfl⟩
  · have hroot := (indexed_of_run hlog hacc).key_lt (wellLinked_of_run hlog).root_mTree
    omega
  · have := hhist.lt hi
    omega
  · have := hhist.lt hi
    have := hhist.parent_lt hi
    omega

end System

end PropertyTree
