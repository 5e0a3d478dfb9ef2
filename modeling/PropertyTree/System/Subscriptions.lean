import PropertyTree.Server.Values
import PropertyTree.System.Sessions

/-!
# The subscriptions of the clients

A client signs in once, and the server is not sent anything by a client whose connection it has given
up.  So the log of a run with few sign-ins is one in which every connection has one session, and what
the log tells of the subscriptions is what the listeners of the nodes are.
-/

namespace PropertyTree.System

open Library Server Client

variable {s s' : System} {act : System.Action} {c d : Conn} {k k' : Client} {u : UInt64}

/-- A client that a step closes sends nothing in it. -/
theorem eq_nil_of_closed {number : ℕ} {a : Client.Action} {sent : List Packet}
    (h : Client.StepResult k number a k' sent) (hopen : k.status ≠ .closed)
    (hclosed : k'.status = .closed) : sent = [] := by
  cases h with
  | send i call q trId ht => exact absurd hclosed hopen
  | rpcRequest tag trId uuid param inbound hr hin hx => exact absurd hclosed hopen
  | _ => rfl

/-- A step leaves the messages to be sent alone. -/
theorem outbound_of_stepResult {number : ℕ} {a : Client.Action} {sent : List Packet}
    (h : Client.StepResult k number a k' sent) : k'.outbound = k.outbound := by
  cases h <;> rfl

/-- Whether a packet of the client on `c` is a `SigninRequest`. -/
def asksSignin (c : Conn) (p : Packet) : Bool :=
  isSigninOf c (.message c p.message)

/-- The client on `c` has one `SigninRequest` on record or on its way, at most. -/
def SigninOnce (s : System) (c : Conn) : Prop :=
  s.log.countP (fun l => isSigninOf c l.1) + (s.client c).outbound.countP (asksSignin c) ≤ 1

/-- A `SigninRequest` is one of the connection it comes from. -/
theorem asksSignin_eq (c : Conn) (p : Packet) :
    asksSignin c p = isSignin (.message c p.message) := by
  obtain ⟨tag, t, m⟩ := p
  cases m <;> simp [asksSignin, isSigninOf, isSignin]

/-- A client that is about to be signed in, or that is, has signed in once at most. -/
theorem signinOnce_of_enters (h : Enters s c (s.client c)) (hopen : (s.client c).status ≠ .closed)
    (hlog : s.log.countP (fun l => isSigninOf c l.1) ≤ 1) : SigninOnce s c := by
  rcases h hopen with hent | hjoin
  · have hzero : s.log.countP (fun l => isSigninOf c l.1) = 0 :=
      List.countP_eq_zero.mpr fun l hl => by simp [hent.log l hl]
    rw [SigninOnce, hzero, Nat.zero_add]
    exact List.countP_le_length.trans hent.length_le
  · have hzero : (s.client c).outbound.countP (asksSignin c) = 0 :=
      List.countP_eq_zero.mpr fun p hp => by simp [asksSignin_eq, hjoin.outbound hp]
    rwa [SigninOnce, hzero]

/-- In a run with few sign-ins every client signs in once at most. -/
theorem signinOnce_of_run {C : System → System.Action → Prop} (hC : ∀ {s a}, C s a → FewSignins s a)
    {as : List System.Action} (h : Run (Guarded C Step) .init as s) (c : Conn) : SigninOnce s c := by
  generalize hinit : System.init = s₀ at h
  induction h generalizing c with
  | nil =>
    subst hinit
    simp [SigninOnce, client, init, Client.new]
  | @snoc t v as a run step ih =>
    subst hinit
    have henter := enters_of_run hC (run.snoc step) c
    have hold : t.log.countP (fun l => isSigninOf c l.1) ≤ 1 := (Nat.le_add_right _ _).trans (ih c)
    cases step_cases step.2 with
    | connect d hd =>
      rw [SigninOnce, client_connect hd]
      exact ih c
    | client d a k k' sent hk hopen hres =>
      by_cases hcd : c = d
      · subst hcd
        by_cases hclosed : k'.status = .closed
        · rw [SigninOnce, client_of_clients rfl c, if_pos rfl, eq_nil_of_closed hres hopen hclosed]
          have hih := ih c
          rw [SigninOnce, client_of_some hk] at hih
          simpa [outbound_of_stepResult hres] using hih
        · refine signinOnce_of_enters henter ?_ hold
          rw [client_of_clients rfl c, if_pos rfl]
          exact hclosed
      · rw [SigninOnce, client_of_clients rfl c, if_neg hcd]
        exact ih c
    | serve d k p outbound server o hk hout ht hok =>
      obtain ⟨ms, -, hcl⟩ := exists_client_afterServe hk p outbound server o c
      change SigninOnce (afterServe t d k p outbound server o) c
      have hih := ih c
      rw [SigninOnce] at hih
      have hlog : (afterServe t d k p outbound server o).log.countP (fun l => isSigninOf c l.1) =
          t.log.countP (fun l => isSigninOf c l.1) +
            if isSigninOf c (.message d p.message) = true then 1 else 0 := by
        rw [afterServe, List.countP_append, List.countP_singleton]
      have hsent : ((afterServe t d k p outbound server o).client c).outbound =
          if c = d then outbound else (t.client c).outbound := by rw [hcl]
      rw [SigninOnce, hlog, hsent]
      by_cases hcd : c = d
      · subst hcd
        rw [client_of_some hk, hout, List.countP_cons] at hih
        rw [if_pos rfl]
        rw [show asksSignin c p = isSigninOf c (.message c p.message) from rfl] at hih
        omega
      · rw [if_neg hcd, isSigninOf_of_ne hcd]
        simpa using hih
    | disconnect d k server o hk hclosed hok =>
      rw [SigninOnce, client_disconnect hk rfl c, List.countP_append]
      have hnone : List.countP (fun l : Event × List Output => isSigninOf c l.1)
          [(.disconnect d, o)] = 0 := rfl
      rw [hnone, Nat.add_zero]
      split_ifs
      · exact hold
      · exact ih c

/-- The connections that have been given up are those of closed clients, of which nothing is on its
way. -/
def DroppedClosed (s : System) : Prop :=
  ∀ c ∈ s.server.dropped, (s.client c).status = .closed ∧ (s.client c).outbound = []

theorem droppedClosed_step (h : DroppedClosed s) (hstep : StepResult s act s') : DroppedClosed s' := by
  intro c hc
  cases hstep with
  | connect d hd =>
    rw [client_connect hd]
    exact h c hc
  | client d a k k' sent hk hopen hres =>
    rw [client_of_clients rfl c]
    split_ifs with hcd
    · subst hcd
      exact absurd (client_of_some hk ▸ (h c hc).1) hopen
    · exact h c hc
  | serve d k p outbound server o hk hout ht hok =>
    obtain ⟨ms, -, hcl⟩ := exists_client_afterServe hk p outbound server o c
    change ((afterServe s d k p outbound server o).client c).status = .closed ∧
      ((afterServe s d k p outbound server o).client c).outbound = []
    rw [show server.dropped = s.server.dropped from (Server.step_cases hok).dropped] at hc
    obtain ⟨hclosed, hnil⟩ := h c hc
    rw [hcl]
    refine ⟨hclosed, ?_⟩
    split_ifs with hcd
    · subst hcd
      rw [client_of_some hk, hout] at hnil
      cases hnil
    · exact hnil
  | disconnect d k server o hk hclosed hok =>
    rw [show server.dropped = d :: s.server.dropped from (Server.step_cases hok).dropped] at hc
    rw [client_disconnect hk rfl c]
    by_cases hcd : c = d
    · subst hcd
      rw [client_of_some hk, if_pos rfl]
      exact ⟨hclosed, rfl⟩
    · have hold := h c ((List.mem_cons.mp hc).resolve_left hcd)
      rw [if_neg hcd]
      exact hold

/-- In every run the connections that have been given up are those of closed clients. -/
theorem droppedClosed_of_run {as : List System.Action} (h : Run Step .init as s) : DroppedClosed s :=
  h.invariant (fun hs hstep => droppedClosed_step hs (step_cases hstep)) fun c hc => by cases hc

/-- A connection of which something is on its way has not been given up. -/
theorem DroppedClosed.not_mem (h : DroppedClosed s) {p : Packet} {outbound : List Packet}
    (hk : s.clients[d]? = some k) (hout : k.outbound = p :: outbound) : d ∉ s.server.dropped := by
  intro hd
  have hnil := (h d hd).2
  rw [client_of_some hk, hout] at hnil
  cases hnil

/-- A connection is given up once. -/
theorem not_mem_dropped_of_disconnect (h : Step s (.disconnect d) s') : d ∉ s.server.dropped := by
  simp only [Follows, step, System.disconnect] at h
  split at h
  · cases h
  · split_ifs at h with hcond
    exact hcond.2

/-- The log of a run with few sign-ins is one of live connections, each with one session. -/
theorem liveRun_of_run {C : System → System.Action → Prop} (hC : ∀ {s a}, C s a → FewSignins s a)
    {as : List System.Action} (h : Run (Guarded C Step) .init as s) :
    Run (Reaching OneToOne LiveStep) .init s.log s.server := by
  have hlive : Run Step .init as s ∧ Run LiveStep .init s.log s.server := by
    refine h.history (P := fun as s => Run Step .init as s ∧ Run LiveStep .init s.log s.server) ?_
      ⟨.nil _, .nil _⟩
    intro as t a v ⟨hrun, hlive⟩ hstep
    refine ⟨hrun.snoc hstep.2, ?_⟩
    have hstep := hstep.2
    cases step_cases hstep with
    | connect => exact hlive
    | client => exact hlive
    | serve d k p outbound server o hk hout ht hok =>
      exact hlive.snoc ⟨(droppedClosed_of_run hrun).not_mem hk hout, hok⟩
    | disconnect d k server o hk hclosed hok =>
      exact hlive.snoc ⟨not_mem_dropped_of_disconnect hstep, hok⟩
  refine reaching_of_emplacesAgree (emplacesAgree_of_run hlive.2 (fun c => ?_) (signins_of_run hC h))
  exact (Nat.le_add_right _ _).trans (signinOnce_of_run hC h c)

end PropertyTree.System
