import PropertyTree.Server.Correspondence
import PropertyTree.Server.Outputs

/-!
# Who may do what

Some handlers look the sender up in `mConnectionToSessionId` before they do anything, and some do
not.  `Harmless` lists what a connection that is not signed in can send without a trace on the store,
the RPC table and the other connections.  A reply to an RPC is matched by its id alone: `rpcUnder`
reads off the log which call an id stands for.
-/

namespace PropertyTree.Server

open ProtocolHandler Library

variable {s s' : ProtocolHandler} {o : List Output} {c : Conn} {t : UInt16}

/-! ## Connections that are not signed in -/

/-- A step of the connection `c` leaves the store and the RPC table as they are, and nobody but `c`
notices it. -/
structure Untouched (s s' : ProtocolHandler) (c : Conn) (o : List Output) : Prop where
  mTree : s'.mTree = s.mTree
  nodes : ∀ a : Addr, (s'.heap[a]?).map (fun n => (n.children, n.data, n.listener)) =
    (s.heap[a]?).map fun n => (n.children, n.data, n.listener)
  mTrIdTranslation : s'.mTrIdTranslation = s.mTrIdTranslation
  recipient : ∀ {d : Conn} {m : PropertyTreeMessage}, .send d m ∈ o → d = c
  running : Output.terminate ∉ o

/-- The messages that touch nothing when a connection `c` without a session sends them: no command to
stop the server, no value but the one the node has and that only `c` listens to, no deletion that is
carried out, and no reply to an RPC under way. -/
def Harmless (s : ProtocolHandler) (c : Conn) (t : UInt16) : PropertyTreeMessages → Prop
  | .setValueRequest uuid data =>
    isTerminate uuid data = false ∧
      ∀ {a : Addr} {node : Node}, s.mTree[uuid]? = some a → s.heap[a]? = some node →
        node.data = data ∧ ∀ {sid : UInt32} {w : Conn}, node.listener[sid]? = some w →
          w = c ∨ s.listenerConnection c sid w = none
  | .deleteRequest uuid => ∀ {a : Addr} {node : Node}, s.mTree[uuid]? = some a →
      s.heap[a]? = some node → node.children.size ≠ 0
  | .rpcAccept _ | .rpcReject _ => t ∉ s.mTrIdTranslation
  | _ => True

/-- A step that only answers its sender touches nothing. -/
theorem untouched_self (h : ∀ x ∈ o, ∃ m, x = .send c m) : Untouched s s c o where
  mTree := rfl
  nodes _ := rfl
  mTrIdTranslation := rfl
  recipient := by
    intro d m hx
    obtain ⟨m', heq⟩ := h _ hx
    cases heq
    rfl
  running := by
    intro hx
    obtain ⟨m, heq⟩ := h _ hx
    cases heq

/-- The entry of a connection object that handles its own message is alive. -/
theorem listenerConnection_self (s : ProtocolHandler) (c : Conn) (sid : UInt32) :
    s.listenerConnection c sid c = some c := by
  simp [listenerConnection, connectionAlive]

/-- A value is set without a trace exactly when the node has it already and nobody but the sender is
told. -/
theorem untouched_setValue_iff {a : Addr} {node : Node} {data : Buffer} (hn : s.heap[a]? = some node) :
    Untouched s (s.setValue a node data c) c (.send c ⟨t, .setValueAccept 0⟩ ::
        node.listener.toList.flatMap fun l =>
          send ⟨notificationId, .updateNotification node.uuid data⟩
            (s.listenerConnection c l.1 l.2)) ↔
      node.data = data ∧ ∀ {sid : UInt32} {w : Conn}, node.listener[sid]? = some w →
        w = c ∨ s.listenerConnection c sid w = none := by
  constructor
  · intro h
    have hnode := h.nodes a
    simp only [setValue, Std.ExtTreeMap.getElem?_insert_self, hn, Option.map_some,
      Option.some.injEq, Prod.mk.injEq, true_and] at hnode
    refine ⟨hnode.1.symm, fun {sid w} hw => ?_⟩
    cases hl : s.listenerConnection c sid w with
    | none => exact .inr rfl
    | some d =>
      -- the entry is told, so it is told to `c`, and rewritten to the connection that is told
      left
      have hd : d = c := h.recipient (List.mem_cons_of_mem _ (List.mem_flatMap.mpr
        ⟨(sid, w), Std.ExtTreeMap.mem_toList_iff_getElem?_eq_some.mpr hw, by
          rw [hl]
          exact List.mem_cons_self⟩))
      have hmap := congrArg (fun l => l[sid]?) hnode.2
      simp only [Std.ExtTreeMap.getElem?_map, hw, Option.map_some, hl, Option.getD_some,
        Option.some.injEq] at hmap
      rw [← hmap, hd]
  · rintro ⟨hdata, hl⟩
    have hsame : node.listener.map (fun sid w => (s.listenerConnection c sid w).getD w) =
        node.listener := by
      refine Std.ExtTreeMap.ext_getElem? fun sid => ?_
      rw [Std.ExtTreeMap.getElem?_map]
      cases hw : node.listener[sid]? with
      | none => rfl
      | some w =>
        rw [Option.map_some, Option.some.injEq]
        rcases hl hw with rfl | hnone
        · rw [listenerConnection_self, Option.getD_some]
        · rw [hnone, Option.getD_none]
    refine ⟨rfl, fun x => ?_, rfl, fun {d m} hx => ?_, fun hx => ?_⟩
    · simp only [setValue, hsame, ← hdata]
      by_cases hxa : x = a
      · rw [hxa, Std.ExtTreeMap.getElem?_insert_self, hn]
      · rw [Std.ExtTreeMap.getElem?_insert, if_neg (by simpa using Ne.symm hxa)]
    · rcases List.mem_cons.mp hx with hx | hx
      · cases hx
        rfl
      obtain ⟨⟨sid, w⟩, hmem, hx⟩ := List.mem_flatMap.mp hx
      rcases hl (Std.ExtTreeMap.mem_toList_iff_getElem?_eq_some.mp hmem) with rfl | hnone
      · rw [listenerConnection_self] at hx
        cases List.mem_singleton.mp hx
        rfl
      · rw [hnone] at hx
        cases hx
    · rcases List.mem_cons.mp hx with hx | hx
      · cases hx
      obtain ⟨l, -, hx⟩ := List.mem_flatMap.mp hx
      cases hl : s.listenerConnection c l.1 l.2 with
      | none =>
        rw [hl] at hx
        cases hx
      | some d =>
        rw [hl] at hx
        cases List.mem_singleton.mp hx

/-- A reply that uses an entry of the table up leaves a trace. -/
theorem not_untouched_of_translation {translation : UInt32 × UInt16}
    (ht : s.mTrIdTranslation[t]? = some translation) : ¬ Untouched s (s.takeTranslation t) c o := by
  intro h
  have := congrArg (fun m => m[t]?) h.mTrIdTranslation
  simp [takeTranslation, ht] at this

/-- The step on a message other than a `SigninRequest` of a connection that is not signed in leaves
no trace exactly when the message is harmless. -/
theorem untouched_iff {ls : List (Event × List Output)} {m : PropertyTreeMessages}
    (h : ServerRun .init ls s) (hc : c ∉ s.mConnectionToSessionId)
    (hm : ∀ spare, m ≠ .signinRequest spare) :
    (∃ s' o, s.step (.message c ⟨t, m⟩) = .ok (s', o) ∧ Untouched s s' c o) ↔
      Harmless s c t m := by
  have hw := wellLinked_of_run h
  have hsigned : ∀ {sid : UInt32}, s.mConnectionToSessionId[c]? ≠ some sid := by
    intro sid hsid
    exact hc (Std.ExtTreeMap.mem_iff_isSome_getElem?.mpr (by simp [hsid]))
  cases hstep : s.step (.message c ⟨t, m⟩) with
  | error f =>
    refine iff_of_false (by rintro ⟨s', o, hok, -⟩; cases hok) fun hharm => ?_
    have hhaz := (hw.step_error_iff _).mp ⟨f, hstep⟩
    cases m with
    | deleteRequest uuid =>
      obtain ⟨rfl, hroot⟩ := hhaz
      obtain ⟨root, hr, -⟩ := hw.root_heap
      exact hharm hw.root_mTree hr (hroot root hr)
    | rpcRequest uuid param => exact hc hhaz.2.1
    | _ => exact hhaz
  | ok r =>
    obtain ⟨s', o⟩ := r
    have hred : (∃ s₁ o₁, (Except.ok (s', o) : Outcome) = .ok (s₁, o₁) ∧ Untouched s s₁ c o₁) ↔
        Untouched s s' c o := by
      constructor
      · rintro ⟨s₁, o₁, heq, hun⟩
        cases heq
        exact hun
      · exact fun hun => ⟨s', o, rfl, hun⟩
    rw [hred]
    have hone : ∀ {r : PropertyTreeMessages}, Untouched s s c [.send c ⟨t, r⟩] :=
      untouched_self fun x hx => ⟨_, List.mem_singleton.mp hx⟩
    have hnil : Untouched s s c [] := untouched_self fun x hx => by cases hx
    cases step_cases hstep with
    | signin _ _ spare => exact absurd rfl (hm spare)
    | terminate c t uuid data hterm =>
      refine iff_of_false (fun hun => hun.running List.mem_cons_self) fun hharm => ?_
      rw [hharm.1] at hterm
      cases hterm
    | setUnknown c t uuid data hterm ha =>
      refine iff_of_true hnil ⟨hterm, fun {a node} ha' => ?_⟩
      rw [ha] at ha'
      cases ha'
    | setValue c t uuid data a node hterm ha hn =>
      rw [untouched_setValue_iff hn]
      constructor
      · rintro ⟨hdata, hl⟩
        refine ⟨hterm, fun {a' node'} ha' hn' => ?_⟩
        rw [ha] at ha'
        cases ha'
        rw [hn] at hn'
        cases hn'
        exact ⟨hdata, hl⟩
      · intro hharm
        exact hharm.2 ha hn
    | deleteUnknown c t uuid ha =>
      refine iff_of_true hone fun {a node} ha' => ?_
      rw [ha] at ha'
      cases ha'
    | deleteNotEmpty c t uuid a node ha hn hch =>
      refine iff_of_true hone fun {a' node'} ha' hn' => ?_
      rw [ha] at ha'
      cases ha'
      rw [hn] at hn'
      cases hn'
      exact hch
    | delete c t uuid a node p parent ha hn hch hp hpn =>
      refine iff_of_false (fun hun => ?_) fun hharm => hharm ha hn hch
      have := congrArg (fun m => m[uuid]?) hun.mTree
      simp [ProtocolHandler.removeNode, ha] at this
    | replyUnknown c t m hm ht =>
      refine iff_of_true hnil ?_
      have hmem : t ∉ s.mTrIdTranslation := by
        rw [Std.ExtTreeMap.mem_iff_isSome_getElem?, ht]
        simp
      rcases hm with ⟨value, rfl⟩ | ⟨cause, rfl⟩ <;> exact hmem
    | replyNoSession c t m translation hm ht hs =>
      refine iff_of_false (not_untouched_of_translation ht) fun hharm => ?_
      have hmem : t ∈ s.mTrIdTranslation := Std.ExtTreeMap.mem_iff_isSome_getElem?.mpr (by simp [ht])
      rcases hm with ⟨value, rfl⟩ | ⟨cause, rfl⟩ <;> exact hharm hmem
    | reply c t m translation session hm ht hs =>
      refine iff_of_false (not_untouched_of_translation ht) fun hharm => ?_
      have hmem : t ∈ s.mTrIdTranslation := Std.ExtTreeMap.mem_iff_isSome_getElem?.mpr (by simp [ht])
      rcases hm with ⟨value, rfl⟩ | ⟨cause, rfl⟩ <;> exact hharm hmem
    | ignored c t m hm => cases m <;> first | exact hm.elim | exact iff_of_true hnil trivial
    | createNotSignedIn => exact iff_of_true hnil trivial
    | subscribeNotSignedIn => exact iff_of_true hnil trivial
    | unsubscribeNotSignedIn => exact iff_of_true hnil trivial
    | rpcNotSignedIn => exact iff_of_true hnil trivial
    | create _ _ _ _ _ _ _ _ hc' => exact absurd hc' hsigned
    | createExists _ _ _ _ _ _ _ _ _ hc' => exact absurd hc' hsigned
    | subscribe _ _ _ _ _ _ _ hc' => exact absurd hc' hsigned
    | unsubscribe _ _ _ _ _ _ _ _ hc' => exact absurd hc' hsigned
    | unsubscribeNoListener _ _ _ _ _ _ _ hc' => exact absurd hc' hsigned
    | rpcOwnerGone _ _ _ _ _ _ _ _ hc' => exact absurd hc' hsigned
    | rpcForward _ _ _ _ _ _ _ _ _ hc' => exact absurd hc' hsigned
    | _ => exact iff_of_true hone trivial

/-- Connection 8 creates a node and listens to it. -/
def listenerEvents : List Event :=
  [.message 8 ⟨0, .signinRequest 0⟩, .message 8 ⟨1, .createRequest [97] 0⟩,
    .message 8 ⟨2, .subscribeRequest 1⟩]

/-- To subscribe to this node, or to create one below it, before signing in leaves no trace. -/
theorem untouched_before_signin : ∃ ls s, ServerRun .init ls s ∧
    ((s.mTree[(1 : UInt64)]?).bind (s.heap[·]?)).any (fun n => n.listener.size = 1) = true ∧
    (∃ s' o, s.step (.message 7 ⟨3, .subscribeRequest 1⟩) = .ok (s', o) ∧ Untouched s s' 7 o) ∧
    ∃ s' o, s.step (.message 7 ⟨4, .createRequest [98] 1⟩) = .ok (s', o) ∧ Untouched s s' 7 o := by
  have hrun : ∃ r, execute step (fun _ _ => true) .init listenerEvents = some r ∧
      (7 : Conn) ∉ r.1.mConnectionToSessionId ∧
      ((r.1.mTree[(1 : UInt64)]?).bind (r.1.heap[·]?)).any (fun n => n.listener.size = 1) = true :=
    ⟨_, rfl, by decide, by decide⟩
  obtain ⟨⟨s, ls⟩, hexec, hc, hlistener⟩ := hrun
  have hrun : ServerRun .init ls s := (run_of_execute step hexec).of_guarded
  exact ⟨ls, s, hrun, hlistener, (untouched_iff hrun hc (by rintro spare ⟨⟩)).mpr trivial,
    (untouched_iff hrun hc (by rintro spare ⟨⟩)).mpr trivial⟩

/-- Setting the value of the root before signing in does leave one. -/
theorem not_untouched_set_root :
    ¬ ∀ ls s c t m s' o, ServerRun .init ls s → c ∉ s.mConnectionToSessionId →
      (∀ spare, m ≠ .signinRequest spare) → s.step (.message c ⟨t, m⟩) = .ok (s', o) →
      Untouched s s' c o := by
  intro h
  have hun := h [] .init 0 0 (.setValueRequest 0 [7]) (init.setValue 0 rootNode [7] 0)
    [.send 0 ⟨0, .setValueAccept 0⟩] (.nil _) (by decide) (by rintro spare ⟨⟩) rfl
  have hdata := hun.nodes 0
  simp [setValue, init, rootNode] at hdata

/-! ## Replies to an RPC -/

/-- An RPC under way: who called, with which transaction id, and to whom the request went. -/
structure Rpc where
  caller : Conn
  transactionId : UInt16
  callee : Conn
  deriving DecidableEq

/-- What a step makes of the RPC under way with the id `key`: a forwarded request starts one, and a
reply with that id ends it, whoever sends it. -/
def track (key : UInt16) (r : Option Rpc) : Event × List Output → Option Rpc
  | (.message c ⟨t, .rpcRequest _ _⟩, [.send callee ⟨k, .rpcRequest _ _⟩]) =>
    if k = key then some ⟨c, t, callee⟩ else r
  | (.message _ ⟨t, .rpcAccept _⟩, _) | (.message _ ⟨t, .rpcReject _⟩, _) =>
    if t = key then none else r
  | _ => r

/-- The RPC under way with the id `key` after a run. -/
def rpcUnder (key : UInt16) (ls : List (Event × List Output)) : Option Rpc :=
  ls.foldl (track key) none

theorem rpcUnder_concat (key : UInt16) (ls : List (Event × List Output))
    (l : Event × List Output) : rpcUnder key (ls ++ [l]) = track key (rpcUnder key ls) l := by
  simp [rpcUnder]

/-- A reply ends the RPC under way with its id. -/
theorem track_of_isRpcReply {key : UInt16} {r : Option Rpc} {m : PropertyTreeMessages}
    (hm : m.isRpcReply = true) :
    track key r (.message c ⟨t, m⟩, o) = if t = key then none else r := by
  cases m <;> first | rfl | cases hm

/-- A step that is no RPC and no reply leaves the RPCs under way alone. -/
theorem track_of_other {key : UInt16} {r : Option Rpc} {e : Event} (hresp : ∀ x ∈ o, Responds e x)
    (he : ∀ c t m, e = .message c ⟨t, m⟩ → m.isRpcReply = false) : track key r (e, o) = r := by
  unfold track
  split
  · rename_i heq
    cases heq
    rcases hresp _ List.mem_cons_self with hnot | ⟨q, -, -, hinit⟩
    · cases hnot
    · cases hinit
  · rename_i heq
    cases heq
    cases he _ _ _ rfl
  · rename_i heq
    cases heq
    cases he _ _ _ rfl
  · rfl

/-- A session stays, and does not come to hold another connection. -/
theorem SessionChange.held {e : Event} {sid : UInt32} (h : SessionChange s e s')
    (hsid : sid ∈ s.mSessions) : sid ∈ s'.mSessions ∧
      ∀ {d : Conn}, s'.mSessions[sid]? = some ⟨some d⟩ → s.mSessions[sid]? = some ⟨some d⟩ := by
  cases h with
  | signin c t spare =>
    simp only [ProtocolHandler.signin]
    grind
  | signout c sid' session hc hs =>
    simp only [ProtocolHandler.signout, ProtocolHandler.drop]
    grind
  | unchanged _ _ _ hs _ _ =>
    rw [hs]
    exact ⟨hsid, id⟩

/-- An entry of the table stands for an RPC under way: the transaction id is the caller's, and a
connection that the session holds is the caller. -/
structure Translates (s : ProtocolHandler) (signins : ℕ) (translation : UInt32 × UInt16)
    (r : Rpc) : Prop where
  transactionId : r.transactionId = translation.2
  session : translation.1 ∈ s.mSessions
  caller : signins < 2 ^ 32 → ∀ {d : Conn}, s.mSessions[translation.1]? = some ⟨some d⟩ →
    d = r.caller

/-- An entry stands for the same RPC after a step. -/
theorem Translates.step {e : Event} {n n' : ℕ} {translation : UInt32 × UInt16} {r : Rpc}
    (h : Translates s n translation r) (hstep : SessionChange s e s') (hn : n ≤ n') :
    Translates s' n' translation r := by
  obtain ⟨hmem, hheld⟩ := hstep.held h.session
  exact ⟨h.transactionId, hmem, fun hlt d hd => h.caller (lt_of_le_of_lt hn hlt) (hheld hd)⟩

/-- The table and the RPCs under way correspond. -/
theorem translates_of_run {ls : List (Event × List Output)} (h : ServerRun .init ls s)
    (key : UInt16) :
    Option.Rel (Translates s (signins ls)) s.mTrIdTranslation[key]? (rpcUnder key ls) := by
  induction h with
  | nil =>
    simp only [init, rpcUnder, List.foldl_nil, Std.ExtTreeMap.getElem?_empty]
    exact .none
  | @snoc s s' ls l run step ih =>
    obtain ⟨e, o⟩ := l
    have hres := step_cases step
    have hle : signins ls ≤ signins (ls ++ [(e, o)]) := by
      rw [signins_concat]
      exact Nat.le_add_right _ _
    have hkeep : Option.Rel (Translates s' (signins (ls ++ [(e, o)]))) s.mTrIdTranslation[key]?
        (rpcUnder key ls) := by
      generalize s.mTrIdTranslation[key]? = x at ih ⊢
      generalize rpcUnder key ls = r at ih ⊢
      cases ih with
      | none => exact .none
      | some hr => exact .some (hr.step hres.sessionChange hle)
    rw [rpcUnder_concat]
    cases hres.rpcChange with
    | forward c t uuid param sid owner hc ho =>
      have hnew : Translates (s.forwardRpc sid t)
          (signins (ls ++ [(.message c ⟨t, .rpcRequest uuid param⟩,
            [.send owner ⟨s.mTrIdCtr.toUInt16, .rpcRequest uuid param⟩])])) (sid, t)
          ⟨c, t, owner⟩ := by
        refine ⟨rfl, (wellLinked_of_run run).session hc, fun hlt d hd => ?_⟩
        have hheld := (sessionsFresh_of_run run (lt_of_le_of_lt hle hlt)).holds hc
        simp only [ProtocolHandler.forwardRpc] at hd
        rw [hheld] at hd
        cases hd
        rfl
      simp only [track, ProtocolHandler.forwardRpc]
      split_ifs with hk
      · subst hk
        rw [Std.ExtTreeMap.getElem?_insert_self]
        exact .some hnew
      · rw [Std.ExtTreeMap.getElem?_insert, if_neg (by simpa using hk)]
        exact hkeep
    | reply c t m translation hm ht =>
      rw [track_of_isRpcReply hm]
      simp only [takeTranslation] at hkeep ⊢
      split_ifs with hk
      · rw [hk, Std.ExtTreeMap.getElem?_erase_self]
        exact .none
      · rw [Std.ExtTreeMap.getElem?_erase, if_neg (by simpa using hk)]
        exact hkeep
    | unknown c t m hm ht =>
      rw [track_of_isRpcReply hm]
      split_ifs with hk
      · subst hk
        rw [ht]
        exact .none
      · exact hkeep
    | other _ _ _ he ht ho =>
      rw [track_of_other ho he, ht]
      exact hkeep

/-- A reply to an RPC: it is forwarded, and the entry of the table used up, exactly when an RPC is under
way with its id; it then goes to the caller, under the caller's transaction id, unless the caller is
gone. -/
theorem rpcReply_step {ls : List (Event × List Output)} {m : PropertyTreeMessages}
    (h : ServerRun .init ls s) (hm : m.isRpcReply = true) (c : Conn) (t : UInt16) :
    (rpcUnder t ls = none ∧ t ∉ s.mTrIdTranslation ∧ s.step (.message c ⟨t, m⟩) = .ok (s, [])) ∨
      ∃ r sid, rpcUnder t ls = some r ∧ s.mTrIdTranslation[t]? = some (sid, r.transactionId) ∧
        s.step (.message c ⟨t, m⟩) =
          .ok ({ s with mTrIdTranslation := s.mTrIdTranslation.erase t },
            send ⟨r.transactionId, m⟩ ((s.mSessions[sid]?).bind Session.connectionSession)) ∧
        (signins ls < 2 ^ 32 → ∀ d, (s.mSessions[sid]?).bind Session.connectionSession = some d →
          d = r.caller) := by
  have hstep : s.step (.message c ⟨t, m⟩) = s.handleRpc t m := by
    cases m <;> first | rfl | cases hm
  have hrel := translates_of_run h t
  generalize hr : rpcUnder t ls = r at hrel
  cases htr : s.mTrIdTranslation[t]? with
  | none =>
    rw [htr] at hrel
    cases hrel
    refine .inl ⟨rfl, ?_, ?_⟩
    · rw [Std.ExtTreeMap.mem_iff_isSome_getElem?, htr]
      simp
    · simp [hstep, handleRpc, htr]
  | some translation =>
    rw [htr] at hrel
    cases hrel with
    | @some _ r hr' =>
      right
      obtain ⟨sid, t'⟩ := translation
      refine ⟨r, sid, rfl, by rw [hr'.transactionId], ?_, fun hlt d hd => ?_⟩
      · obtain ⟨session, hs⟩ := Option.isSome_iff_exists.mp
          (Std.ExtTreeMap.mem_iff_isSome_getElem?.mp hr'.session)
        have hs' : s.mSessions[sid]? = some session := hs
        simp [hstep, handleRpc, htr, hs', takeTranslation, hr'.transactionId]
      · obtain ⟨⟨x⟩, hs, hx⟩ := Option.bind_eq_some_iff.mp hd
        cases hx
        exact hr'.caller hlt hs

/-- Connection 1 calls the node of connection 0; connection 2 is signed in, too. -/
def strangerEvents : List Event :=
  [.message 0 ⟨0, .signinRequest 0⟩, .message 1 ⟨0, .signinRequest 0⟩,
    .message 2 ⟨0, .signinRequest 0⟩, .message 0 ⟨1, .createRequest [97] 0⟩,
    .message 1 ⟨5, .rpcRequest 1 []⟩]

/-- The reply of a signed-in stranger uses up the entry of a call of connection 1, which is sent it. -/
theorem rpcReply_step_stranger :
    ∃ (ls : List (Event × List Output)) (s s' : ProtocolHandler), ls.map Prod.fst = strangerEvents ∧
      s.mConnectionToSessionId[(2 : Conn)]? = some 2 ∧ rpcUnder 0 ls = some ⟨1, 5, 0⟩ ∧
      s.step (.message 2 ⟨0, .rpcAccept []⟩) = .ok (s', [.send 1 ⟨5, .rpcAccept []⟩]) := by
  obtain ⟨⟨s, ls⟩, hexec, hevents, hsigned, hunder, hsession⟩ :
      ∃ r : ProtocolHandler × List (Event × List Output),
        execute step (fun _ _ => true) .init strangerEvents = some r ∧
        r.2.map Prod.fst = strangerEvents ∧ r.1.mConnectionToSessionId[(2 : Conn)]? = some 2 ∧
        rpcUnder 0 r.2 = some ⟨1, 5, 0⟩ ∧
        (r.1.mTrIdTranslation[(0 : UInt16)]?).bind (fun translation =>
          (r.1.mSessions[translation.1]?).bind Session.connectionSession) = some 1 :=
    ⟨_, rfl, rfl, by decide, by decide, by decide⟩
  have hrun : ServerRun .init ls s := (run_of_execute step hexec).of_guarded
  rcases rpcReply_step hrun (show (PropertyTreeMessages.rpcAccept []).isRpcReply = true from rfl) 2 0 with
    ⟨hnone, -, -⟩ | ⟨r, sid, hr, htr, hstep, -⟩
  · rw [hunder] at hnone
    cases hnone
  · rw [hunder] at hr
    cases hr
    simp only [htr, Option.bind_some] at hsession
    rw [hsession] at hstep
    exact ⟨ls, s, _, hevents, hsigned, hunder, hstep⟩

/-- Even among the connections that are signed in it is not the callee alone whose reply is forwarded
to the caller. -/
theorem not_callee_only :
    ¬ ∀ ls s c t m s' o, ServerRun .init ls s → c ∈ s.mConnectionToSessionId → m.isRpcReply = true →
      s.step (.message c ⟨t, m⟩) = .ok (s', o) →
      (s' = s ∧ o = []) ∨ ∃ r, rpcUnder t ls = some r ∧ r.callee = c := by
  intro h
  obtain ⟨⟨s, ls⟩, hexec, hsigned, hunder, ⟨s', o⟩, hstep, ho⟩ :
      ∃ r : ProtocolHandler × List (Event × List Output),
        execute step (fun _ _ => true) .init strangerEvents = some r ∧
        (2 : Conn) ∈ r.1.mConnectionToSessionId ∧ rpcUnder 0 r.2 = some ⟨1, 5, 0⟩ ∧
        ∃ r', r.1.step (.message 2 ⟨0, .rpcAccept []⟩) = .ok r' ∧
          r'.2 = [.send 1 ⟨5, .rpcAccept []⟩] :=
    ⟨_, rfl, by decide, by decide, _, rfl, by decide⟩
  have hrun : ServerRun .init ls s := (run_of_execute step hexec).of_guarded
  rcases h ls s 2 0 (.rpcAccept []) s' o hrun hsigned rfl hstep with ⟨-, hnil⟩ | ⟨r, hr, hcallee⟩
  · subst hnil
    cases ho
  · rw [hunder] at hr
    cases hr
    cases hcallee

end PropertyTree.Server
