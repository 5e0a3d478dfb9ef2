import PropertyTree.Server.ChangeLog

/-!
# Sessions and connections

`handle(SigninRequest)` writes two maps in opposite directions, each with an `emplace` that keeps
what it finds, and `onDisconnect` goes through one of them only.  `SessionsCorrespond` says that the
maps are inverse to each other.  They stay so exactly as long as the two `emplace`s of a sign-in
agree: both insert, or both find an entry.  While they do, a change of the tree reaches every
signed-in connection once, and a lost connection is never sent anything again.
-/

namespace PropertyTree.Server

open ProtocolHandler Library

variable {s s' : ProtocolHandler} {e : Event} {o : List Output} {c : Conn} {sid : UInt32}

/-- The connection an event comes from. -/
def Event.connection : Event → Conn
  | .message c _ | .disconnect c => c

/-- The steps on the events of the connections that `Server::onDisconnect` has not removed from the
reactor: a removed one is not read again. -/
def LiveStep : ProtocolHandler → Event × List Output → ProtocolHandler → Prop :=
  Guarded (fun s l => l.1.connection ∉ s.dropped) (StepOf step)

/-- A run on live connections is a run of the server. -/
theorem serverRun_of_live {ls : List (Event × List Output)} {s₁ : ProtocolHandler}
    (h : Run LiveStep s₁ ls s) : ServerRun s₁ ls s :=
  h.of_guarded

/-- `mConnectionToSessionId` and `mSessions` are inverse to each other. -/
def SessionsCorrespond (s : ProtocolHandler) : Prop :=
  ∀ (c : Conn) (sid : UInt32),
    s.mConnectionToSessionId[c]? = some sid ↔ s.mSessions[sid]? = some ⟨some c⟩

/-- The two `emplace`s of a sign-in agree: either the connection is new to
`mConnectionToSessionId` and the id drawn new to `mSessions`, or neither is. -/
def EmplacesAgree (s : ProtocolHandler) : Event → Prop
  | .message c ⟨_, .signinRequest _⟩ => c ∈ s.mConnectionToSessionId ↔ s.mSessionIdCtr ∈ s.mSessions
  | _ => True

/-- On an event that is no sign-in there is nothing to agree on. -/
theorem emplacesAgree_of_not_signin (he : isSignin e = false) : EmplacesAgree s e := by
  unfold EmplacesAgree
  split
  · cases he
  · trivial

/-- A sign-in keeps the correspondence exactly when its `emplace`s agree. -/
theorem SessionsCorrespond.signin_iff (h : SessionsCorrespond s) (c : Conn) :
    (c ∈ s.mConnectionToSessionId ↔ s.mSessionIdCtr ∈ s.mSessions) ↔
      SessionsCorrespond (s.signin c) := by
  have hconn : ∀ d : Conn, (s.signin c).mConnectionToSessionId[d]? =
      if d = c ∧ c ∉ s.mConnectionToSessionId then some s.mSessionIdCtr
      else s.mConnectionToSessionId[d]? := by
    intro d
    simp only [ProtocolHandler.signin]
    grind
  have hsess : ∀ sid : UInt32, (s.signin c).mSessions[sid]? =
      if sid = s.mSessionIdCtr ∧ s.mSessionIdCtr ∉ s.mSessions then some ⟨some c⟩
      else s.mSessions[sid]? := by
    intro sid
    simp only [ProtocolHandler.signin]
    grind
  have hctr := h c s.mSessionIdCtr
  constructor
  · intro hagree d sid
    have := h d sid
    rw [hconn, hsess]
    by_cases hc : c ∈ s.mConnectionToSessionId
    · rw [if_neg (by simp [hc]), if_neg (by simp [hagree.mp hc])]
      exact this
    · have hsid : s.mSessionIdCtr ∉ s.mSessions := fun hmem => hc (hagree.mpr hmem)
      grind
  · intro h'
    have hc' := h' c s.mSessionIdCtr
    rw [hconn, hsess] at hc'
    constructor
    · intro hc
      by_contra hsid
      rw [if_neg (by simp [hc]), if_pos ⟨rfl, hsid⟩] at hc'
      exact hsid (Std.ExtTreeMap.mem_iff_isSome_getElem?.mpr (by simp [hctr.mp (hc'.mpr rfl)]))
    · intro hsid
      by_contra hc
      rw [if_pos ⟨rfl, hc⟩, if_neg (by simp [hsid])] at hc'
      exact hc (Std.ExtTreeMap.mem_iff_isSome_getElem?.mpr (by simp [hctr.mpr (hc'.mp rfl)]))

/-- The loss of a connection keeps the correspondence. -/
theorem SessionsCorrespond.signout (h : SessionsCorrespond s)
    (hc : s.mConnectionToSessionId[c]? = some sid) :
    SessionsCorrespond ((s.drop c).signout c sid) := by
  intro d sid'
  have hsid := (h c sid).mp hc
  have := h d sid'
  have := h d sid
  simp only [ProtocolHandler.signout, ProtocolHandler.drop]
  grind

/-- A step keeps the correspondence exactly when the `emplace`s of a sign-in agree. -/
theorem SessionsCorrespond.step_iff (h : SessionsCorrespond s) (hstep : SessionChange s e s') :
    EmplacesAgree s e ↔ SessionsCorrespond s' := by
  cases hstep with
  | signin c t spare => exact h.signin_iff c
  | signout c sid session hc hs => exact iff_of_true trivial (h.signout hc)
  | unchanged _ _ he hs hc _ =>
    refine iff_of_true (emplacesAgree_of_not_signin he) fun c sid => ?_
    rw [hs, hc]
    exact h c sid

/-- In the constructor's state there are no sessions. -/
theorem sessionsCorrespond_init : SessionsCorrespond .init := by
  intro c sid
  simp [init]

/-! ## Lost connections -/

/-- A message is sent to the connection whose event is handled, to one that a session holds, or to a
listener of a node that still exists. -/
theorem StepResult.recipient_cases (h : StepResult s e s' o) {d : Conn} {m : PropertyTreeMessage}
    (hd : .send d m ∈ o) :
    d = e.connection ∨ (∃ sid : UInt32, s.mSessions[sid]? = some ⟨some d⟩) ∨
      d ∉ s.dropped ∧ ∃ (uuid : UInt64) (a : Addr) (node : Node) (sid : UInt32),
        s.mTree[uuid]? = some a ∧ s.heap[a]? = some node ∧ node.listener[sid]? = some d := by
  have hone : ∀ {c : Conn} {m' : PropertyTreeMessage}, Output.send d m ∈ [Output.send c m'] →
      d = c := by
    intro c m' hmem
    obtain ⟨rfl, -⟩ := by simpa using hmem
    rfl
  cases h with
  | create c t name parentUuid p sid node hp hc hn ha =>
    rcases List.mem_cons.mp hd with hd | hd
    · cases hd
      exact .inl rfl
    · obtain ⟨sid', d', hs, heq⟩ := mem_broadcast_iff.mp hd
      cases heq
      exact .inr (.inl ⟨sid', hs⟩)
  | delete c t uuid a node p parent ha hn hch hp hpn =>
    rcases List.mem_cons.mp hd with hd | hd
    · cases hd
      exact .inl rfl
    · obtain ⟨sid', d', hs, heq⟩ := mem_broadcast_iff.mp hd
      cases heq
      simp only [ProtocolHandler.removeNode, release_mSessions] at hs
      exact .inr (.inl ⟨sid', hs⟩)
  | setValue c t uuid data a node hterm ha hn =>
    rcases List.mem_cons.mp hd with hd | hd
    · cases hd
      exact .inl rfl
    obtain ⟨⟨sid', w⟩, hw, hd⟩ := List.mem_flatMap.mp hd
    obtain ⟨d', hd', hmem⟩ : ∃ d', s.listenerConnection c sid' w = some d' ∧ d' = d := by
      cases hl : s.listenerConnection c sid' w with
      | none => simp [hl] at hd
      | some d' =>
        simp only [hl, send_some, List.mem_singleton, Output.send.injEq] at hd
        exact ⟨d', rfl, hd.1.symm⟩
    subst hmem
    unfold listenerConnection at hd'
    split_ifs at hd' with halive
    · cases hd'
      simp only [connectionAlive, Bool.or_eq_true, beq_iff_eq, Bool.not_eq_true',
        List.contains_eq_mem, decide_eq_false_iff_not, List.any_eq_true, Prod.exists,
        Std.ExtTreeMap.mem_toList_iff_getElem?_eq_some] at halive hw
      rcases halive with (rfl | hnot) | ⟨sid'', ⟨x⟩, hs, rfl⟩
      · exact .inl rfl
      · exact .inr (.inr ⟨hnot, uuid, a, node, sid', ha, hn, hw⟩)
      · exact .inr (.inl ⟨sid'', hs⟩)
    · split at hd'
      · cases hd'
      · rename_i session hs
        obtain ⟨x⟩ := session
        cases hd'
        exact .inr (.inl ⟨sid', hs⟩)
  | rpcForward c t uuid param a sid node owner ha hc hn ho =>
    cases hone hd
    exact .inr (.inl ⟨_, ho⟩)
  | reply c t m' translation session hm ht hs =>
    obtain ⟨x⟩ := session
    cases x with
    | none => cases hd
    | some x =>
      cases hone hd
      exact .inr (.inl ⟨_, hs⟩)
  | replyUnknown => cases hd
  | replyNoSession => cases hd
  | ignored => cases hd
  | terminate => simp at hd
  | disconnectUnknown => cases hd
  | disconnect => cases hd
  | createNotSignedIn => cases hd
  | setUnknown => cases hd
  | subscribeNotSignedIn => cases hd
  | unsubscribeNotSignedIn => cases hd
  | rpcNotSignedIn => cases hd
  | rpcOwnerGone => cases hd
  | _ => exact .inl (hone hd)

/-- A message is sent to the connection whose event is handled, to one that has not been dropped, or
to one that a session holds. -/
theorem StepResult.recipient (h : StepResult s e s' o) {d : Conn} {m : PropertyTreeMessage}
    (hd : .send d m ∈ o) :
    d = e.connection ∨ d ∉ s.dropped ∨ ∃ sid : UInt32, s.mSessions[sid]? = some ⟨some d⟩ := by
  rcases h.recipient_cases hd with heq | hs | ⟨hnot, -⟩
  · exact .inl heq
  · exact .inr (.inr hs)
  · exact .inr (.inl hnot)

/-- Exactly the disconnects drop a connection. -/
theorem StepResult.dropped (h : StepResult s e s' o) :
    s'.dropped = match e with
      | .message _ _ => s.dropped
      | .disconnect c => c :: s.dropped := by
  cases h with
  | delete => simp only [ProtocolHandler.removeNode, release_dropped]
  | _ => rfl

/-- A disconnect that leaves `mConnectionToSessionId` alone is one of a connection without a
session. -/
theorem StepResult.not_signedIn (h : StepResult s (.disconnect c) s' o)
    (hsame : s'.mConnectionToSessionId = s.mConnectionToSessionId) :
    s.mConnectionToSessionId[c]? = none := by
  cases h with
  | disconnectUnknown _ hnone => exact hnone
  | disconnect _ sid session hc hs =>
    have := congrArg (fun m => m[c]?) hsame
    simp only [ProtocolHandler.signout, ProtocolHandler.drop, Std.ExtTreeMap.getElem?_erase_self]
      at this
    exact this.symm

/-! ## One-to-one correspondence -/

/-- Sessions and connections correspond one to one: every change of the tree reaches a signed-in
connection once, and a lost connection is held by no session and sent nothing. -/
structure OneToOne (s : ProtocolHandler) : Prop where
  correspond : SessionsCorrespond s
  once : ∀ {e : Event} {o : List Output} {s' : ProtocolHandler}, LiveStep s (e, o) s' →
    ∀ {c : Conn}, c ∈ s.mConnectionToSessionId → treeUpdatesTo c o = changeOf (e, o)
  lost : ∀ {c : Conn}, c ∈ s.dropped → ∀ sid : UInt32, s.mSessions[sid]? ≠ some ⟨some c⟩
  silent : ∀ {e : Event} {o : List Output} {s' : ProtocolHandler}, LiveStep s (e, o) s' →
    ∀ {c : Conn}, c ∈ s.dropped → ∀ m : PropertyTreeMessage, .send c m ∉ o

/-- What the correspondence and the silence of the lost connections amount to. -/
theorem SessionsCorrespond.oneToOne (h : SessionsCorrespond s) (hw : WellLinked s)
    (hlost : ∀ c ∈ s.dropped, s.mConnectionToSessionId[c]? = none) : OneToOne s where
  correspond := h
  once := by
    intro e o s' hstep c hc
    obtain ⟨sid, hsid⟩ := Option.isSome_iff_exists.mp (Std.ExtTreeMap.mem_iff_isSome_getElem?.mp hc)
    have hin : SignedIn s c sid := by
      refine ⟨hsid, fun {sid'} => ?_⟩
      rw [← h, hsid, Option.some.injEq, eq_comm]
    exact hin.treeUpdates hw (step_cases hstep.2)
  lost := by
    intro c hc sid hs
    have := (h c sid).mpr hs
    rw [hlost c hc] at this
    cases this
  silent := by
    intro e o s' hstep c hc m hm
    rcases (step_cases hstep.2).recipient hm with rfl | hnot | ⟨sid, hs⟩
    · exact hstep.1 hc
    · exact hnot hc
    · have := (h c sid).mpr hs
      rw [hlost c hc] at this
      cases this

/-- A lost connection never becomes signed in again. -/
theorem lost_step (hlost : ∀ c ∈ s.dropped, s.mConnectionToSessionId[c]? = none)
    (hstep : LiveStep s (e, o) s') : ∀ c ∈ s'.dropped, s'.mConnectionToSessionId[c]? = none := by
  have hres := step_cases hstep.2
  have hlive := hstep.1
  intro c hc
  rw [hres.dropped] at hc
  cases hres.sessionChange with
  | signin c' t spare =>
    have hne : c' ≠ c := fun hcc => hlive (hcc ▸ hc)
    have := hlost c hc
    simp only [ProtocolHandler.signin]
    grind
  | signout c' sid session hc' hs =>
    simp only [ProtocolHandler.signout, ProtocolHandler.drop]
    rcases List.mem_cons.mp hc with rfl | hc
    · grind
    · have := hlost c hc
      grind
  | unchanged _ _ _ _ hconn _ =>
    rw [hconn]
    cases e with
    | message c' m => exact hlost c hc
    | disconnect c' =>
      rcases List.mem_cons.mp hc with rfl | hc
      · exact hres.not_signedIn hconn
      · exact hlost c hc

/-- Sessions and connections correspond one to one in every state of a run exactly when the two
`emplace`s of every sign-in in it agree. -/
theorem oneToOne_iff {ls : List (Event × List Output)} :
    Run (Guarded (fun s l => EmplacesAgree s l.1) LiveStep) .init ls s ↔
      Run (Reaching OneToOne LiveStep) .init ls s := by
  have hnone : ∀ c ∈ init.dropped, init.mConnectionToSessionId[c]? = none := by
    intro c hc
    cases hc
  refine Run.guarded_iff_reaching
    (I := fun s => WellLinked s ∧ ∀ c ∈ s.dropped, s.mConnectionToSessionId[c]? = none)
    (fun {t l u} hI hstep => ?_) (fun {t l u} hI hP hstep => ?_) ⟨wellLinked_init, hnone⟩
    (sessionsCorrespond_init.oneToOne wellLinked_init hnone)
  · exact ⟨hI.1.stateChange (step_cases hstep.2).stateChange, lost_step hI.2 hstep⟩
  · have hiff := hP.correspond.step_iff (step_cases hstep.2).sessionChange
    constructor
    · intro hagree
      exact (hiff.mp hagree).oneToOne (hI.1.stateChange (step_cases hstep.2).stateChange)
        (lost_step hI.2 hstep)
    · intro hone
      exact hiff.mpr hone.correspond

/-- In a run in which every connection signs in at most once and the session ids do not wrap, the
`emplace`s always insert. -/
theorem emplacesAgree_of_run {ls : List (Event × List Output)} (h : Run LiveStep .init ls s)
    (honce : ∀ c, ls.countP (fun l => isSigninOf c l.1) ≤ 1) (hsign : signins ls < 2 ^ 32) :
    Run (Guarded (fun s l => EmplacesAgree s l.1) LiveStep) .init ls s := by
  induction h with
  | nil => exact .nil _
  | @snoc t u ls l run step ih =>
    obtain ⟨e, o⟩ := l
    rw [signins_concat] at hsign
    have hlt := lt_of_le_of_lt (Nat.le_add_right _ _) hsign
    refine (ih (fun c => ?_) hlt).snoc ⟨?_, step⟩
    · have := honce c
      rw [List.countP_append] at this
      omega
    · cases hsigns : isSignin e with
      | false => exact emplacesAgree_of_not_signin hsigns
      | true =>
        obtain ⟨c, t', spare, rfl⟩ : ∃ c t' spare, e = .message c ⟨t', .signinRequest spare⟩ := by
          unfold isSignin at hsigns
          split at hsigns
          · exact ⟨_, _, _, rfl⟩
          · cases hsigns
        have hfirst : ∀ l ∈ ls, isSigninOf c l.1 = false := by
          have hlast : List.countP (fun l : Event × List Output => isSigninOf c l.1)
              [(.message c ⟨t', .signinRequest spare⟩, o)] = 1 := by
            simp [isSigninOf]
          have := honce c
          rw [List.countP_append, hlast] at this
          have hzero : ls.countP (fun l => isSigninOf c l.1) = 0 := by omega
          intro l hl
          simpa using List.countP_eq_zero.mp hzero l hl
        refine iff_of_false ?_ fun hmem => ?_
        · rw [Std.ExtTreeMap.mem_iff_isSome_getElem?,
            (unknown_of_run (serverRun_of_live run) hfirst).1]
          simp
        · exact lt_irrefl _ ((sessionsFresh_of_run (serverRun_of_live run) hlt).lt hmem)

/-- Where the `emplace`s agree, every state reached has one session for each connection. -/
theorem reaching_of_emplacesAgree {ls : List (Event × List Output)}
    (h : Run (Guarded (fun s l => EmplacesAgree s l.1) LiveStep) .init ls s) :
    Run (Reaching OneToOne LiveStep) .init ls s := by
  refine (h.history (P := fun ls s => Run (Reaching OneToOne LiveStep) .init ls s ∧ WellLinked s ∧
    (∀ c ∈ s.dropped, s.mConnectionToSessionId[c]? = none) ∧ SessionsCorrespond s)
    (fun {ls t l u} ht hstep => ?_)
    ⟨.nil _, wellLinked_init, fun c hc => (by cases hc), sessionsCorrespond_init⟩).1
  obtain ⟨hrun, hlinked, hlost, hcorr⟩ := ht
  obtain ⟨hagree, hstep⟩ := hstep
  have hlinked' := hlinked.stateChange (step_cases hstep.2).stateChange
  have hlost' := lost_step hlost hstep
  have hcorr' := (hcorr.step_iff (step_cases hstep.2).sessionChange).mp hagree
  exact ⟨hrun.snoc ⟨hstep, hcorr'.oneToOne hlinked' hlost'⟩, hlinked', hlost', hcorr'⟩

/-- A connection that signs in twice has two sessions. -/
theorem not_oneToOne_signin_twice :
    ¬ ∀ ls s, Run LiveStep .init ls s → OneToOne s := by
  intro h
  obtain ⟨⟨s, ls⟩, hexec, hheld, hfirst⟩ : ∃ r : ProtocolHandler × List (Event × List Output),
      execute step (fun s e => decide (e.connection ∉ s.dropped)) .init
        [.message 0 ⟨0, .signinRequest 0⟩, .message 0 ⟨1, .signinRequest 0⟩] = some r ∧
      r.1.mSessions[(1 : UInt32)]? = some ⟨some 0⟩ ∧
      r.1.mConnectionToSessionId[(0 : Conn)]? = some 0 :=
    ⟨_, rfl, by decide, by decide⟩
  have hrun : Run LiveStep .init ls s := (run_of_execute step hexec).mono fun s l t hst =>
    ⟨of_decide_eq_true hst.1, hst.2⟩
  have hsecond := ((h _ _ hrun).correspond 0 1).mpr hheld
  rw [hfirst] at hsecond
  cases hsecond

end PropertyTree.Server
