import PropertyTree.Server.Refinement

/-!
# The notifications of a session

`changeOf` reads off a completed step which change of the tree it announces.  A connection that
signed in once and is still connected is held by exactly one session, so that every change is sent
to it exactly once and in order: its `TreeUpdateNotification`s are the change log.
-/

namespace PropertyTree.Server

open ProtocolHandler Library

variable {s s' : ProtocolHandler} {e : Event} {o : List Output} {c : Conn} {sid : UInt32}

/-- The content of a `TreeUpdateNotification`: `nodeToAddList` and `nodeToDelete`. -/
abbrev TreeUpdate := List NamedNode × List UInt64

/-- The change of the tree in a step: an accepted creation or an OK deletion. -/
def changeOf : Event × List Output → List TreeUpdate
  | (.message _ ⟨_, .createRequest name parentUuid⟩, .send _ ⟨_, .createAccept uuid⟩ :: _) =>
    [([⟨name, uuid, parentUuid⟩], [])]
  | (.message _ ⟨_, .deleteRequest uuid⟩, .send _ ⟨_, .deleteResponse .ok⟩ :: _) => [([], [uuid])]
  | _ => []

/-- The `TreeUpdateNotification` an output sends to the connection `c`, if it does. -/
def treeUpdateTo (c : Conn) : Output → Option TreeUpdate
  | .send c' ⟨_, .treeUpdateNotification add del⟩ => if c' = c then some (add, del) else none
  | _ => none

/-- The `TreeUpdateNotification`s sent to the connection `c`, in order. -/
def treeUpdatesTo (c : Conn) (o : List Output) : List TreeUpdate :=
  o.filterMap (treeUpdateTo c)

/-! ## Sessions -/

/-- Whether an event is a `SigninRequest`. -/
def isSignin : Event → Bool
  | .message _ ⟨_, .signinRequest _⟩ => true
  | _ => false

/-- Whether an event is a `SigninRequest` of the connection `c`. -/
def isSigninOf (c : Conn) : Event → Bool
  | .message c' ⟨_, .signinRequest _⟩ => c' == c
  | _ => false

/-- A sign-in of a connection is a sign-in. -/
theorem isSignin_of_isSigninOf (h : isSigninOf c e = true) : isSignin e = true := by
  unfold isSigninOf at h
  split at h
  · rfl
  · cases h

/-- The number of `SigninRequest`s handled in a run. -/
def signins (ls : List (Event × List Output)) : ℕ :=
  ls.countP fun l => isSignin l.1

@[simp] theorem signins_nil : signins [] = 0 := rfl

/-- The sign-ins of a run one step longer. -/
theorem signins_concat (ls : List (Event × List Output)) (l : Event × List Output) :
    signins (ls ++ [l]) = signins ls + if isSignin l.1 then 1 else 0 := by
  simp [signins, List.countP_singleton]

/-- The session tables change by a sign-in, by the loss of a signed-in connection, or not at all. -/
inductive SessionChange (s : ProtocolHandler) : Event → ProtocolHandler → Prop
  | signin (c : Conn) (t spare) : SessionChange s (.message c ⟨t, .signinRequest spare⟩) (s.signin c)
  | signout (c : Conn) (sid : UInt32) (session) (hc : s.mConnectionToSessionId[c]? = some sid)
      (hs : s.mSessions[sid]? = some session) :
      SessionChange s (.disconnect c) ((s.drop c).signout c sid)
  | unchanged (e : Event) (s' : ProtocolHandler) (he : isSignin e = false) (hs : s'.mSessions = s.mSessions)
      (hc : s'.mConnectionToSessionId = s.mConnectionToSessionId)
      (hctr : s'.mSessionIdCtr = s.mSessionIdCtr) : SessionChange s e s'

@[simp] theorem release_mSessionIdCtr (s : ProtocolHandler) (a : Addr) :
    (s.release a).mSessionIdCtr = s.mSessionIdCtr := by
  unfold release; split <;> rfl

/-- What a step does to the session tables. -/
theorem StepResult.sessionChange (h : StepResult s e s' o) : SessionChange s e s' := by
  cases h with
  | signin => exact .signin _ _ _
  | disconnect => exact .signout _ _ _ ‹_› ‹_›
  | delete =>
    refine .unchanged _ _ rfl ?_ ?_ ?_ <;>
      simp only [ProtocolHandler.removeNode, release_mSessions, release_mConnectionToSessionId,
        release_mSessionIdCtr]
  | replyUnknown c t m hm =>
    exact .unchanged _ _ (by rcases hm with ⟨_, rfl⟩ | ⟨_, rfl⟩ <;> rfl) rfl rfl rfl
  | replyNoSession c t m translation hm =>
    exact .unchanged _ _ (by rcases hm with ⟨_, rfl⟩ | ⟨_, rfl⟩ <;> rfl) rfl rfl rfl
  | reply c t m translation session hm =>
    exact .unchanged _ _ (by rcases hm with ⟨_, rfl⟩ | ⟨_, rfl⟩ <;> rfl) rfl rfl rfl
  | ignored c t m hm => exact .unchanged _ _ (by cases m <;> first | rfl | exact hm.elim) rfl rfl rfl
  | _ => exact .unchanged _ _ rfl rfl rfl rfl

/-- The session counter counts the sign-ins, modulo its width. -/
theorem mSessionIdCtr_of_run {ls : List (Event × List Output)} (h : ServerRun .init ls s) :
    s.mSessionIdCtr.toNat = signins ls % 2 ^ 32 := by
  refine h.history (P := fun ls s => s.mSessionIdCtr.toNat = signins ls % 2 ^ 32) ?_ rfl
  intro ls t l u ih hstep
  obtain ⟨e, o⟩ := l
  rw [signins_concat]
  cases (step_cases hstep).sessionChange with
  | signin c t spare =>
    simp only [ProtocolHandler.signin, UInt32.toNat_add, ih, isSignin, if_true]
    simp
  | signout c sid session hc hs =>
    simpa [isSignin, ProtocolHandler.signout, ProtocolHandler.drop] using ih
  | unchanged _ _ he _ _ hctr => simpa [he, hctr] using ih

/-- The session ids in use are below the counter, no two connections share one, and a connection's
session holds it. -/
structure SessionsFresh (s : ProtocolHandler) : Prop where
  lt : ∀ {sid : UInt32}, sid ∈ s.mSessions → sid.toNat < s.mSessionIdCtr.toNat
  inj : ∀ {c c' : Conn} {sid : UInt32}, s.mConnectionToSessionId[c]? = some sid →
    s.mConnectionToSessionId[c']? = some sid → c = c'
  holds : ∀ {c : Conn} {sid : UInt32}, s.mConnectionToSessionId[c]? = some sid →
    s.mSessions[sid]? = some ⟨some c⟩

/-- In a run with fewer than `2 ^ 32` sign-ins no session id is used twice. -/
theorem sessionsFresh_of_run {ls : List (Event × List Output)} (h : ServerRun .init ls s)
    (hsign : signins ls < 2 ^ 32) : SessionsFresh s := by
  induction h with
  | nil =>
    refine ⟨fun {sid} h => ?_, fun {c c' sid} h => ?_, fun {c sid} h => ?_⟩ <;> simp [init] at h
  | @snoc t u ls l run step ih =>
    obtain ⟨e, o⟩ := l
    rw [signins_concat] at hsign
    have hf := ih (by split_ifs at hsign <;> omega)
    have hw := wellLinked_of_run run
    cases (step_cases step).sessionChange with
    | signin c t' spare =>
      simp only [isSignin, if_true] at hsign
      have hctr := mSessionIdCtr_of_run run
      have hsucc : (t.mSessionIdCtr + 1).toNat = t.mSessionIdCtr.toNat + 1 := by
        rw [UInt32.toNat_add]
        simp only [UInt32.toNat_one]
        omega
      have hnew : t.mSessionIdCtr ∉ t.mSessions := fun hmem => lt_irrefl _ (hf.lt hmem)
      refine ⟨fun {sid} h => ?_, fun {c₁ c₂ sid} h h' => ?_, fun {c₁ sid} h => ?_⟩
      · simp only [ProtocolHandler.signin, Std.ExtTreeMap.mem_insertIfNew,
          Std.compare_eq_iff_eq] at h ⊢
        rw [hsucc]
        rcases h with rfl | h
        · exact Nat.lt_succ_self _
        · exact Nat.lt_succ_of_lt (hf.lt h)
      · simp only [ProtocolHandler.signin] at h h'
        have := @SessionsFresh.inj _ hf c₁ c₂ sid
        have := @WellLinked.session _ hw c₁ sid
        have := @WellLinked.session _ hw c₂ sid
        grind
      · simp only [ProtocolHandler.signin] at h ⊢
        have := @SessionsFresh.holds _ hf c₁ sid
        grind
    | signout c sid session hc hs =>
      refine ⟨fun {sid'} h => ?_, fun {c₁ c₂ sid'} h h' => ?_, fun {c₁ sid'} h => ?_⟩
      · simp only [ProtocolHandler.signout, ProtocolHandler.drop, Std.ExtTreeMap.mem_insert] at h ⊢
        have := @SessionsFresh.lt _ hf sid'
        grind
      · simp only [ProtocolHandler.signout, ProtocolHandler.drop] at h h'
        have := @SessionsFresh.inj _ hf c₁ c₂ sid'
        grind
      · simp only [ProtocolHandler.signout, ProtocolHandler.drop] at h ⊢
        have := @SessionsFresh.holds _ hf c₁ sid'
        have := @SessionsFresh.inj _ hf c₁ c sid
        grind
    | unchanged _ _ he hs hc hctr' =>
      refine ⟨fun {sid} h => ?_, fun {c c' sid} h h' => ?_, fun {c sid} h => ?_⟩
      · rw [hctr']
        exact hf.lt (hs ▸ h)
      · exact hf.inj (hc ▸ h) (hc ▸ h')
      · exact hs ▸ hf.holds (hc ▸ h)

/-- The connection `c` is signed in as `sid`, and no other session holds it. -/
structure SignedIn (s : ProtocolHandler) (c : Conn) (sid : UInt32) : Prop where
  connection : s.mConnectionToSessionId[c]? = some sid
  holds : ∀ {sid' : UInt32}, s.mSessions[sid']? = some ⟨some c⟩ ↔ sid' = sid

/-- A connection that has sent no `SigninRequest` appears in neither session table. -/
theorem unknown_of_run {ls : List (Event × List Output)} (h : ServerRun .init ls s)
    (hc : ∀ l ∈ ls, isSigninOf c l.1 = false) :
    s.mConnectionToSessionId[c]? = none ∧
      ∀ sid : UInt32, s.mSessions[sid]? ≠ some ⟨some c⟩ := by
  induction h with
  | nil => simp [init]
  | @snoc t u ls l run step ih =>
    obtain ⟨e, o⟩ := l
    obtain ⟨hconn, hsess⟩ := ih fun l hl => hc l (List.mem_append_left _ hl)
    have he : isSigninOf c e = false := hc (e, o) (List.mem_append_right _ List.mem_cons_self)
    cases (step_cases step).sessionChange with
    | signin c' t' spare =>
      have hne : c' ≠ c := by simpa [isSigninOf] using he
      refine ⟨?_, fun sid => ?_⟩
      · simp only [ProtocolHandler.signin]
        grind
      · simp only [ProtocolHandler.signin]
        have := hsess sid
        grind
    | signout c' sid session hc' hs =>
      refine ⟨?_, fun sid => ?_⟩
      · simp only [ProtocolHandler.signout, ProtocolHandler.drop]
        grind
      · simp only [ProtocolHandler.signout, ProtocolHandler.drop]
        have := hsess sid
        grind
    | unchanged _ _ _ hs hc' _ => exact ⟨hc' ▸ hconn, fun sid => hs ▸ hsess sid⟩

/-- The first sign-in of a connection. -/
theorem signedIn_signin (hf : SessionsFresh s) (hconn : s.mConnectionToSessionId[c]? = none)
    (hsess : ∀ sid : UInt32, s.mSessions[sid]? ≠ some ⟨some c⟩) :
    SignedIn (s.signin c) c s.mSessionIdCtr := by
  have hnew : s.mSessionIdCtr ∉ s.mSessions := fun hmem => lt_irrefl _ (hf.lt hmem)
  refine ⟨?_, fun {sid} => ?_⟩
  · simp only [ProtocolHandler.signin]
    grind
  · simp only [ProtocolHandler.signin]
    have := hsess sid
    grind

/-- A connection stays signed in until it is lost, if it does not sign in again. -/
theorem SignedIn.step (h : SignedIn s c sid) (hf : SessionsFresh s) (hstep : SessionChange s e s')
    (hsign : isSigninOf c e = false) (hdis : e ≠ .disconnect c) : SignedIn s' c sid := by
  have hconn := h.connection
  cases hstep with
  | signin c' t spare =>
    have hne : c' ≠ c := by simpa [isSigninOf] using hsign
    refine ⟨?_, fun {sid'} => ?_⟩
    · simp only [ProtocolHandler.signin]
      grind
    · have := @SignedIn.holds _ _ _ h sid'
      simp only [ProtocolHandler.signin]
      grind
  | signout c' sid' session hc' hs =>
    have hne : c' ≠ c := fun hcc => hdis (hcc ▸ rfl)
    have hsid : sid' ≠ sid := by
      rintro rfl
      exact hne (hf.inj hc' hconn)
    refine ⟨?_, fun {sid''} => ?_⟩
    · simp only [ProtocolHandler.signout, ProtocolHandler.drop]
      grind
    · have := @SignedIn.holds _ _ _ h sid''
      simp only [ProtocolHandler.signout, ProtocolHandler.drop]
      grind
  | unchanged _ _ _ hs hc' _ => exact ⟨hc' ▸ hconn, fun {sid'} => hs ▸ h.holds⟩

/-! ## Every change is sent once -/

/-- A `flatMap` to which one element of a list without repetition contributes. -/
theorem flatMap_eq_of_unique {α β : Type*} {l : List α} (hl : l.Nodup) {a : α} (ha : a ∈ l)
    {f : α → List β} (hf : ∀ b ∈ l, b ≠ a → f b = []) : l.flatMap f = f a := by
  obtain ⟨l₁, l₂, rfl⟩ := List.append_of_mem ha
  obtain ⟨-, hl₂, hdisj⟩ := List.nodup_append.mp hl
  have h₁ : l₁.flatMap f = [] := List.flatMap_eq_nil_iff.mpr fun b hb =>
    hf b (List.mem_append_left _ hb) fun hba => hdisj b hb a List.mem_cons_self hba
  have h₂ : l₂.flatMap f = [] := List.flatMap_eq_nil_iff.mpr fun b hb =>
    hf b (List.mem_append_right _ (List.mem_cons_of_mem _ hb))
      fun hba => (List.nodup_cons.mp hl₂).1 (hba ▸ hb)
  rw [List.flatMap_append, List.flatMap_cons, h₁, h₂, List.nil_append, List.append_nil]

/-- The entries of a map are listed once each. -/
theorem nodup_toList {α β : Type*} [Ord α] [Std.TransOrd α] [Std.LawfulEqOrd α]
    (m : Std.ExtTreeMap α β) : m.toList.Nodup :=
  Std.ExtTreeMap.distinct_keys_toList.imp fun {a b} hne heq =>
    hne (by rw [heq, Std.compare_eq_iff_eq])

/-- A broadcast reaches a connection that one session holds exactly once. -/
theorem SignedIn.broadcast (h : SignedIn s c sid) (t : UInt16) (add : List NamedNode)
    (del : List UInt64) :
    treeUpdatesTo c (s.broadcast ⟨t, .treeUpdateNotification add del⟩) = [(add, del)] := by
  have hmem : (sid, ⟨some c⟩) ∈ s.mSessions.toList :=
    Std.ExtTreeMap.mem_toList_iff_getElem?_eq_some.mpr (h.holds.mpr rfl)
  rw [treeUpdatesTo, ProtocolHandler.broadcast, List.filterMap_flatMap,
    flatMap_eq_of_unique (nodup_toList _) hmem ?_]
  · simp [treeUpdateTo]
  · rintro ⟨sid', ⟨_ | c'⟩⟩ hl hne
    · rfl
    · have hc' : c' ≠ c := by
        rintro rfl
        obtain rfl := h.holds.mp (Std.ExtTreeMap.mem_toList_iff_getElem?_eq_some.mp hl)
        exact hne rfl
      simp [treeUpdateTo, hc']

/-- A message to one connection that is no `TreeUpdateNotification`. -/
theorem treeUpdatesTo_send {m : PropertyTreeMessage}
    (hm : ∀ c', treeUpdateTo c (.send c' m) = none) (c' : Option Conn) :
    treeUpdatesTo c (send m c') = [] := by
  cases c' <;> simp [treeUpdatesTo, hm]

/-- A reply to an RPC changes nothing in the tree. -/
theorem changeOf_of_isRpcReply {c' : Conn} {t : UInt16} {m : PropertyTreeMessages}
    (hm : IsRpcReply m) (o : List Output) : changeOf (.message c' ⟨t, m⟩, o) = [] := by
  rcases hm with ⟨value, rfl⟩ | ⟨cause, rfl⟩ <;> rfl

/-- In a step of the server a signed-in connection is sent exactly the change of the tree. -/
theorem SignedIn.treeUpdates (h : SignedIn s c sid) (hw : WellLinked s)
    (hstep : StepResult s e s' o) : treeUpdatesTo c o = changeOf (e, o) := by
  cases hstep with
  | create c' t name parentUuid p sid' node hp hc hn ha =>
    have huuid : node.uuid = parentUuid := by
      obtain ⟨n, hn', hnu⟩ := hw.mTree_heap hp
      grind
    have := h.broadcast notificationId [⟨name, s.mUuidCtr.toUInt64, node.uuid⟩] []
    rw [huuid] at this ⊢
    exact this
  | delete c' t uuid a node p parent ha hn hch hp hpn =>
    have hsess : (s.removeNode uuid a node p parent).mSessions = s.mSessions := by
      simp only [ProtocolHandler.removeNode, release_mSessions]
    have := h.broadcast notificationId [] [uuid]
    rw [ProtocolHandler.broadcast, ← hsess] at this
    exact this
  | setValue c' t uuid data a node hterm ha hn =>
    change treeUpdatesTo c (List.flatMap _ _) = []
    rw [treeUpdatesTo, List.filterMap_flatMap, List.flatMap_eq_nil_iff]
    exact fun l _ => treeUpdatesTo_send (fun _ => rfl) _
  | reply c' t m translation session hm ht hs =>
    rw [changeOf_of_isRpcReply hm]
    refine treeUpdatesTo_send (fun _ => ?_) _
    rcases hm with ⟨value, rfl⟩ | ⟨cause, rfl⟩ <;> rfl
  | replyUnknown c' t m hm => rw [changeOf_of_isRpcReply hm]; rfl
  | replyNoSession c' t m translation hm => rw [changeOf_of_isRpcReply hm]; rfl
  | ignored c' t m hm => cases m <;> rfl
  | _ => rfl

/-- A connection that stays signed in is sent the change log, in order. -/
theorem SignedIn.treeUpdates_of_run {s₁ : ProtocolHandler} {ls₀ ls : List (Event × List Output)}
    (h : SignedIn s₁ c sid) (h₀ : ServerRun .init ls₀ s₁) (hrun : ServerRun s₁ ls s)
    (hsign : signins (ls₀ ++ ls) < 2 ^ 32)
    (hstay : ∀ l ∈ ls, isSigninOf c l.1 = false ∧ l.1 ≠ .disconnect c) :
    SignedIn s c sid ∧ treeUpdatesTo c (ls.flatMap Prod.snd) = ls.flatMap changeOf := by
  induction hrun with
  | nil => exact ⟨h, rfl⟩
  | @snoc t u ls l run step ih =>
    obtain ⟨e, o⟩ := l
    rw [← List.append_assoc, signins_concat] at hsign
    have hlt := lt_of_le_of_lt (Nat.le_add_right _ _) hsign
    obtain ⟨hin, hlog⟩ := ih hlt fun l hl => hstay l (List.mem_append_left _ hl)
    obtain ⟨hnew, hdis⟩ := hstay (e, o) (List.mem_append_right _ List.mem_cons_self)
    have hw := wellLinked_of_run (h₀.append run)
    refine ⟨hin.step (sessionsFresh_of_run (h₀.append run) hlt) (step_cases step).sessionChange hnew
      hdis, ?_⟩
    rw [List.flatMap_append, List.flatMap_append, treeUpdatesTo, List.filterMap_append]
    have := hin.treeUpdates hw (step_cases step)
    simp only [List.flatMap_cons, List.flatMap_nil, List.append_nil]
    exact congrArg₂ _ hlog this

/-! ## What a change does to the entries -/

/-- The entries differ at most in their data. -/
def SameTree (s s' : ProtocolHandler) : Prop :=
  ∀ u, (s'.entry u).map (fun e => (e.parent, e.name)) = (s.entry u).map fun e => (e.parent, e.name)

/-- The effect on the entries of a step that announces the given changes. -/
inductive TreeChange (s s' : ProtocolHandler) : List TreeUpdate → Prop
  | none (h : SameTree s s') : TreeChange s s' []
  | add (name : Name) (uuid pu : UInt64) (hctr : uuid.toNat = s.mUuidCtr.toNat)
      (hfresh : s.entry uuid = Option.none) (hp : s.entry pu ≠ Option.none)
      (hname : ∀ {v e}, s.entry v = some e → e.parent = some pu → e.name ≠ name)
      (h : ∀ v, s'.entry v = if v = uuid then some ⟨some pu, name, []⟩ else s.entry v) :
      TreeChange s s' [([⟨name, uuid, pu⟩], [])]
  | del (uuid : UInt64) (hu : s.entry uuid ≠ Option.none) (h0 : uuid ≠ 0)
      (hleaf : ∀ {v e}, s.entry v = some e → e.parent ≠ some uuid)
      (h : ∀ v, s'.entry v = if v = uuid then Option.none else s.entry v) :
      TreeChange s s' [([], [uuid])]

/-- What a completed step does to the entries, and what it announces. -/
theorem StepResult.treeChange (h : WellLinked s) (hi : Indexed s) (hstep : StepResult s e s' o) :
    TreeChange s s' (changeOf (e, o)) := by
  have hset : ∀ {uuid : UInt64} {a : Addr} {node node' : Node}, s.mTree[uuid]? = some a →
      s.heap[a]? = some node → SameLinks node node' → SameTree s (s.setNode a node') := by
    intro uuid a node node' ha hn hsame u
    rw [entry_setNode h ha hn hsame]
    split_ifs
    · simp [Function.comp_def]
    · rfl
  cases hstep with
  | create c t name parentUuid p sid node hp hc hn ha =>
    have huuid : node.uuid = parentUuid := by
      obtain ⟨n, hn', hnu⟩ := h.mTree_heap hp
      grind
    have hentry : s.entry parentUuid ≠ none := by
      rw [entry_of_some hp hn]
      simp
    refine .add name _ parentUuid (by simp) (entry_of_none hi.mTree_fresh) hentry ?_
      fun v => huuid ▸ entry_insertNode h hi hn name sid v
    rintro v e hv hpar rfl
    obtain ⟨x, hx⟩ := (h.exists_entry_iff hi hp hn e.name).mp ⟨v, e, hv, hpar, rfl⟩
    rw [ha] at hx
    cases hx
  | delete c t uuid a node p parent ha hn hch hp hpn =>
    have hentry := entry_of_some ha hn
    refine .del uuid (by simp [hentry]) ?_ ?_ (entry_removeNode h ha hn hch hp hpn)
    · rintro rfl
      obtain ⟨r, hr, hr0, -⟩ := h.root_heap
      have := h.root_mTree
      grind
    · intro v e hv hpar
      exact (h.exists_child_iff hi ha hn).mp ⟨v, e, hv, hpar⟩ hch
  | setValue c t uuid data a node hterm ha hn => exact .none (hset ha hn ⟨rfl, rfl, rfl, rfl, rfl⟩)
  | subscribe c t uuid a sid node ha hc hn => exact .none (hset ha hn ⟨rfl, rfl, rfl, rfl, rfl⟩)
  | unsubscribe c t uuid a sid node w ha hc hn =>
    exact .none (hset ha hn ⟨rfl, rfl, rfl, rfl, rfl⟩)
  | replyUnknown c t m hm => exact changeOf_of_isRpcReply hm _ ▸ .none fun _ => rfl
  | replyNoSession c t m translation hm => exact changeOf_of_isRpcReply hm _ ▸ .none fun _ => rfl
  | reply c t m translation session hm => exact changeOf_of_isRpcReply hm _ ▸ .none fun _ => rfl
  | ignored c t m hm => cases m <;> exact .none fun _ => rfl
  | _ => exact .none fun _ => rfl

/-- The node `u` is created in a run. -/
def Created (ls : List (Event × List Output)) (u : UInt64) : Prop :=
  ∃ name pu, ([⟨name, u, pu⟩], []) ∈ ls.flatMap changeOf

/-- The creations of a run one step longer. -/
theorem created_concat {ls : List (Event × List Output)} {l : Event × List Output} {u : UInt64} :
    Created (ls ++ [l]) u ↔ Created ls u ∨ ∃ name pu, ([⟨name, u, pu⟩], []) ∈ changeOf l := by
  simp only [Created, List.flatMap_append, List.mem_append, List.flatMap_cons, List.flatMap_nil,
    List.append_nil, exists_or]

/-- An entry is registered under a uuid below the counter. -/
theorem Indexed.entry_lt (hi : Indexed s) {u : UInt64} (hu : s.entry u ≠ none) :
    u.toNat < s.mUuidCtr.toNat := by
  cases ha : s.mTree[u]? with
  | none => exact absurd (entry_of_none ha) hu
  | some a => exact hi.key_lt ha

/-- The accepted creations of a run in two parts. -/
theorem acceptedCreates_append (ls₀ ls : List (Event × List Output)) :
    acceptedCreates (ls₀ ++ ls) = acceptedCreates ls₀ + acceptedCreates ls := by
  simp [acceptedCreates]

/-- The uuid counter does not fall while it does not wrap. -/
theorem mUuidCtr_le_of_run {s₁ : ProtocolHandler} {ls₀ ls : List (Event × List Output)}
    (h₀ : ServerRun .init ls₀ s₁) (hrun : ServerRun s₁ ls s)
    (hacc : acceptedCreates (ls₀ ++ ls) < 2 ^ 32 - 1) :
    s₁.mUuidCtr.toNat ≤ s.mUuidCtr.toNat := by
  have hctr := mUuidCtr_of_run (h₀.append hrun)
  have hctr₁ := mUuidCtr_of_run h₀
  rw [acceptedCreates_append] at hacc hctr
  omega

/-- The nodes created in a part of a run are, among the live ones, those that were not there at its
start. -/
theorem created_iff_of_run {s₁ : ProtocolHandler} {ls₀ ls : List (Event × List Output)}
    (h₀ : ServerRun .init ls₀ s₁) (hrun : ServerRun s₁ ls s)
    (hacc : acceptedCreates (ls₀ ++ ls) < 2 ^ 32 - 1) {u : UInt64} (hu : s.entry u ≠ none) :
    Created ls u ↔ s₁.entry u = none := by
  have hi₁ := indexed_of_run h₀ (by rw [acceptedCreates_append] at hacc; omega)
  suffices hinv : (∀ u, Created ls u → s₁.mUuidCtr.toNat ≤ u.toNat) ∧
      ∀ u, s.entry u ≠ none → s₁.entry u = none → Created ls u by
    refine ⟨fun hc => ?_, hinv.2 u hu⟩
    by_contra hne
    have := hi₁.entry_lt hne
    have := hinv.1 u hc
    omega
  clear hu
  induction hrun with
  | nil => exact ⟨fun u ⟨_, _, hm⟩ => by simp at hm, fun u hu hnone => absurd hnone hu⟩
  | @snoc t v ls l run step ih =>
    obtain ⟨e, o⟩ := l
    rw [← List.append_assoc, acceptedCreates_concat] at hacc
    have hlt := lt_of_le_of_lt (Nat.le_add_right _ _) hacc
    obtain ⟨hge, hcreated⟩ := ih hlt
    have hbefore := h₀.append run
    have hctr := mUuidCtr_le_of_run h₀ run hlt
    have hch := (step_cases step).treeChange (wellLinked_of_run hbefore) (indexed_of_run hbefore hlt)
    simp only [created_concat]
    generalize changeOf (e, o) = log at hch ⊢
    refine ⟨?_, ?_⟩
    · rintro u (hc | ⟨name, pu, hm⟩)
      · exact hge u hc
      · cases hch with
        | none => simp at hm
        | add name' uuid' pu' hctr' =>
          obtain ⟨-, rfl, -⟩ : name = name' ∧ u = uuid' ∧ pu = pu' := by simpa using hm
          omega
        | del => simp at hm
    · intro u hu hnone
      cases hch with
      | none hsame =>
        refine .inl (hcreated u (fun hnone' => hu ?_) hnone)
        have := hsame u
        rw [hnone', Option.map_none] at this
        exact Option.map_eq_none_iff.mp this
      | add name' uuid' pu' hctr' hfresh hp hname hent =>
        rw [hent] at hu
        split_ifs at hu with huu
        · subst huu
          exact .inr ⟨name', pu', List.mem_cons_self⟩
        · exact .inl (hcreated u hu hnone)
      | del uuid' _ _ _ hent =>
        rw [hent] at hu
        split_ifs at hu with huu
        · exact absurd rfl hu
        · exact .inl (hcreated u hu hnone)

/-- The root keeps its empty name. -/
theorem root_name_of_run {ls : List (Event × List Output)} (h : ServerRun .init ls s)
    (hacc : acceptedCreates ls < 2 ^ 32 - 1) : ∃ e, s.entry 0 = some e ∧ e.name = [] := by
  suffices hroot : (s.entry 0).map (fun e => e.name) = some [] by
    exact Option.map_eq_some_iff.mp hroot
  induction h with
  | nil => rw [entry_of_some (a := 0) (n := rootNode) (by decide) (by simp [init])]; rfl
  | @snoc t v ls l run step ih =>
    obtain ⟨e, o⟩ := l
    rw [acceptedCreates_concat] at hacc
    have hlt := lt_of_le_of_lt (Nat.le_add_right _ _) hacc
    have hch := (step_cases step).treeChange (wellLinked_of_run run) (indexed_of_run run hlt)
    have hbefore := ih hlt
    generalize changeOf (e, o) = log at hch
    cases hch with
    | none hsame =>
      have := congrArg (Option.map Prod.snd) (hsame 0)
      simpa [Function.comp_def, hbefore] using this
    | add name uuid pu _ hfresh _ _ hent =>
      rw [hent, if_neg, hbefore]
      rintro rfl
      rw [hfresh] at hbefore
      cases hbefore
    | del uuid _ h0 _ hent => rw [hent, if_neg (Ne.symm h0), hbefore]

end PropertyTree.Server
