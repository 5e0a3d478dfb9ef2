import PropertyTree.Client.Rollback
import PropertyTree.System.Knowledge
import PropertyTree.System.Responses
import PropertyTree.System.Timeouts

/-!
# The replies in a run

A step of the system is to each client a step of its own, or an exchange with its connection, so that
what holds of a client on its own holds of it in every run.  Every message of the server is a
notification, or one that the request with its number leads to.
-/

namespace PropertyTree.System

open Library Server Client PropertyTreeMessages

variable {s s' : System} {act : System.Action} {c d : Conn} {k k' : Client} {i : ThreadId}

/-! ## One client in a step of the system -/

/-- What a step of the system is to the client on `c`: a step of the client, or at most something new
at the end of its inbound queue and a change of its outbound queue. -/
theorem client_of_step (h : Step s act s') (c : Conn) :
    (∃ b k' sent, act = .client c b ∧ (s.client c).step s.requests.length b = some (k', sent) ∧
      s'.client c = { k' with outbound := k'.outbound ++ sent }) ∨
    ((∀ b, act ≠ .client c b) ∧ ∃ l outbound,
      s'.client c = { s.client c with
        inbound := (s.client c).inbound ++ l, outbound := outbound }) := by
  have hsame : s'.client c = s.client c → ∃ l outbound, s'.client c = { s.client c with
      inbound := (s.client c).inbound ++ l, outbound := outbound } :=
    fun heq => ⟨[], (s.client c).outbound, by simp [heq]⟩
  cases act with
  | connect d =>
    cases step_cases h with
    | connect d hd => exact .inr ⟨by simp, hsame (client_connect hd c)⟩
  | client d b =>
    by_cases hdc : d = c
    · subst hdc
      change s.step _ = some s' at h
      simp only [System.step, System.act] at h
      split at h
      · cases h
      split at h
      · cases h
      · rename_i hk _ k' sent hb
        cases h
        exact .inl ⟨b, k', sent, rfl, by rw [client_of_some hk, hb], client_of_some (by simp)⟩
    · cases step_cases h with
      | client d b k₁ k' sent hk₁ hopen hres =>
        refine .inr ⟨fun b' heq => hdc (by cases heq; rfl), hsame ?_⟩
        rw [client_of_clients rfl, if_neg (Ne.symm hdc)]
  | serve d =>
    cases step_cases h with
    | serve d k₁ p outbound server o hk₁ hout ht hok =>
      obtain ⟨ms, -, hcl⟩ := exists_client_afterServe hk₁ p outbound server o c
      exact .inr ⟨by simp, _, _, hcl⟩
  | disconnect d =>
    cases step_cases h with
    | disconnect d k₁ server o hk₁ hclosed hok =>
      refine .inr ⟨by simp, [], if c = d then [] else (s.client c).outbound, ?_⟩
      rw [client_disconnect hk₁ rfl c, List.append_nil]

/-- Every client of a run has come about by what happens to a client, so that what holds of every client
that can come about holds of those of a run. -/
theorem occurs_of_run {as : List System.Action} (h : Run Step .init as s) (c : Conn) :
    ∃ es, Run Occurs .new es (s.client c) := by
  refine h.invariant (P := fun s => ∃ es, Run Occurs .new es (s.client c)) ?_ ?_
  · rintro t a u ⟨es, hrun⟩ hstep
    rcases client_of_step hstep c with ⟨b, k', sent, -, hb, hk'⟩ | ⟨-, l, outbound, hk'⟩
    · exact ⟨_, hrun.snoc (e := .step t.requests.length b) (by simp [Follows, occur, hb, hk'])⟩
    · exact ⟨_, hrun.snoc (e := .transfer l outbound) (by simp [Follows, occur, hk'])⟩
  · have hnew : System.init.client c = .new := by simp [client, init]
    exact ⟨[], hnew ▸ .nil _⟩

/-- Every client is manned. -/
theorem manned_of_run {as : List System.Action} (h : Run Step .init as s) (c : Conn) :
    Manned (s.client c) := by
  obtain ⟨es, hes⟩ := occurs_of_run h c
  exact manned_of_occurs hes

/-! ## What a request leads to -/

/-- The message is a notification, or one that the request with its number leads to. -/
def Led (s : System) (x : Tagged) : Prop :=
  x.message.isNotification = true ∨
    ∃ d t q, s.requests[x.tag]? = some (d, ⟨t, q⟩) ∧ q.leadsTo x.message = true

/-- Everything on its way to the client or in its hands, and every reply it has sent, is what a
request leads to. -/
structure Leading (s : System) (k : Client) : Prop where
  inbound : ∀ {p}, p ∈ k.inbound → Led s p.body
  outbound : ∀ {p}, p ∈ k.outbound → p.message.message.isRpcReply = true → Led s p.body
  stored : ∀ {t : UInt16} {x}, k.mTransactions[t]? = some ⟨true, x⟩ → Led s x
  response : ∀ {i : ThreadId} {th : Thread} {r x}, k.threads[i]? = some th →
    th.stage.response = some (r, x) → Led s x

theorem Led.mono {x : Tagged} (h : Led s x)
    (hs : ∀ {r : ℕ} {y}, s.requests[r]? = some y → s'.requests[r]? = some y) : Led s' x :=
  h.imp_right fun ⟨d, t, q, hq, hl⟩ => ⟨d, t, q, hs hq, hl⟩

theorem Leading.mono (h : Leading s k)
    (hs : ∀ {r : ℕ} {y}, s.requests[r]? = some y → s'.requests[r]? = some y) : Leading s' k :=
  ⟨fun hp => (h.inbound hp).mono hs, fun hp hr => (h.outbound hp hr).mono hs,
    fun ht => (h.stored ht).mono hs, fun hi hx => (h.response hi hx).mono hs⟩

/-- A step of the client keeps everything led by requests. -/
theorem Leading.client_step {a : Client.Action} {sent : List Packet} (h : Leading s k)
    (hres : Client.StepResult k s.requests.length a k' sent)
    (hth : ThreadsSound s.requests c k.mirror k.threads) :
    Leading s { k' with outbound := k'.outbound ++ sent } := by
  have hchange := hres.transactionChange
  obtain ⟨hq, hout⟩ := queueChange_of_stepResult hres hth
  have hin : ∀ {p}, p ∈ k'.inbound → p ∈ k.inbound := by
    intro p hp
    rcases inbound_of_change hchange with heq | ⟨q, heq⟩
    · exact heq ▸ hp
    · exact heq ▸ List.mem_cons_of_mem q hp
  refine ⟨fun hp => h.inbound (hin hp), fun {p} hp hr => ?_, fun {t x} ht => ?_,
    fun {i th r x} hi hx => ?_⟩
  · rcases List.mem_append.mp hp with hp | hp
    · exact h.outbound (hout ▸ hp) hr
    · cases hq with
      | silent => cases hp
      | taken => cases hp
      | request t q hin' hreq =>
        obtain rfl := List.mem_singleton.mp hp
        rw [isRequest_of_isRpcReply hr] at hreq
        cases hreq
      | reply tag key uuid param m hm hin' =>
        obtain rfl := List.mem_singleton.mp hp
        rcases h.inbound (hin' ▸ List.mem_cons_self) with hn | ⟨d, t, q, hreq, hl⟩
        · cases hn
        · refine .inr ⟨d, t, q, hreq, ?_⟩
          cases q <;> first | (cases hl; done) | skip
          cases m <;> first | rfl | cases hm
  · rcases stored_of_stepResult hchange ht with ht | ⟨p, hp, rfl⟩
    · exact h.stored ht
    · exact h.inbound (hp ▸ List.mem_cons_self)
  · rcases response_of_change hchange hi hx with ⟨th₀, hi₀, hx₀⟩ | ⟨t, ht⟩
    · exact h.response hi₀ hx₀
    · exact h.stored ht

/-- Everything is led by requests in every run. -/
theorem leading_of_run {as : List System.Action} (h : Run Step .init as s) (c : Conn) :
    Leading s (s.client c) := by
  generalize hinit : System.init = s₀ at h
  induction h generalizing c with
  | nil =>
    subst hinit
    have hnew : System.init.client c = .new := by simp [client, init]
    rw [hnew]
    refine ⟨by simp [Client.new], by simp [Client.new], by simp [Client.new],
      fun {i th r x} hi hx => ?_⟩
    obtain ⟨-, rfl⟩ | ⟨-, hi⟩ := thread_of_insert hi
    · cases hx
    · simp at hi
  | @snoc t u as a run step ih =>
    subst hinit
    have hsound := sound_of_run run
    have hrec := (step_cases step).recorded
    cases step_cases step with
    | connect d hd =>
      rw [client_connect hd]
      exact (ih c).mono hrec.requests
    | client d a k k' sent hk hopen hres =>
      rw [client_of_clients rfl c]
      split_ifs with hcd
      · subst hcd
        have hkc := ih c
        rw [client_of_some hk] at hkc
        exact (hkc.client_step hres (hsound.threads hk)).mono hrec.requests
      · exact (ih c).mono hrec.requests
    | serve d k p outbound server o hk hout ht hok =>
      obtain ⟨ms, hms, hcl⟩ := exists_client_afterServe hk p outbound server o c
      change Leading (afterServe t d k p outbound server o)
        ((afterServe t d k p outbound server o).client c)
      have hkc := (ih c).mono hrec.requests
      have hkd := ih d
      rw [client_of_some hk] at hkd
      rw [hcl]
      refine ⟨fun {q} hq => ?_, fun {q} hq hr => ?_, hkc.stored, hkc.response⟩
      · rcases List.mem_append.mp hq with hq | hq
        · exact hkc.inbound hq
        · obtain ⟨m, hm, rfl⟩ := List.mem_map.mp hq
          obtain ⟨tag, tr, q⟩ := p
          have hp : (⟨tag, tr, q⟩ : Packet) ∈ k.outbound := hout ▸ List.mem_cons_self
          rcases (Server.step_cases hok).leadsTo (mem_sentTo (hms.subset hm)) with
            hn | hl | ⟨hr, heq⟩
          · exact .inl hn
          · rcases hsound.outbound hk hp with ⟨-, hreq⟩ | hr
            · exact .inr ⟨_, _, _, hreq, hl⟩
            · cases q <;> first | (cases hr; done) | cases hl
          · change Led _ ⟨tag, m.message⟩
            rw [heq]
            exact (hkd.outbound hp hr).mono hrec.requests
      · split_ifs at hq with hcd
        · subst hcd
          exact (hkd.outbound (hout ▸ List.mem_cons_of_mem p hq) hr).mono hrec.requests
        · exact hkc.outbound hq hr
    | disconnect d k server o hk hclosed hok =>
      have hkc := (ih c).mono hrec.requests
      rw [client_disconnect hk rfl c]
      refine ⟨hkc.inbound, fun {q} hq hr => ?_, hkc.stored, hkc.response⟩
      split_ifs at hq with hcd
      · cases hq
      · exact hkc.outbound hq hr

/-! ## Past the wait -/

/-- A thread past its wait is one of a client that is there. -/
theorem clients_of_isPast {th : Thread} (ht : (s.client c).threads[i]? = some th)
    (hpast : th.stage.isPast = true) : s.clients[c]? = some (s.client c) := by
  cases hk : s.clients[c]? with
  | some k => rw [client_of_some hk]
  | none =>
    have hnew : s.client c = .new := by rw [client, hk, Option.getD_none]
    rw [hnew] at ht
    obtain ⟨-, rfl⟩ | ⟨-, hi⟩ := thread_of_insert ht
    · cases hpast
    · simp at hi

/-- A thread that can proceed does. -/
theorem exists_proceed {as : List System.Action} (hrun : Run Step .init as s) {th : Thread}
    (ht : (s.client c).threads[i]? = some th) (hpast : th.stage.isPast = true)
    (hk : (s.client c).proceed i ≠ none) : ∃ s', Step s (.client c (.proceed i)) s' := by
  obtain ⟨k', hk'⟩ := Option.ne_none_iff_exists'.mp hk
  have hopen : (s.client c).status ≠ .closed := by
    intro hclosed
    rw [(manned_of_run hrun c).closed hclosed i] at ht
    cases ht
  have hstep : (s.client c).step s.requests.length (.proceed i) = some (k', []) := by
    simp only [Client.step, if_neg hopen, hk', Option.map_some]
  exact ⟨_, step_of_client (clients_of_isPast ht hpast) hstep⟩

end PropertyTree.System
