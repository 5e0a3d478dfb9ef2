import PropertyTree.Monitor.Session
import PropertyTree.Client.Confluence

/-!
# What the API calls of a session do

`Holds out P σ` says where a session stands: `out` is what the reader does not touch, and `P` what is
known about the mirror together with the messages the reader has still to handle.  As long as `P`
survives the handling of a message, it does not matter how far the reader has gone, so that a call is
described by the request it sends, by what the server makes of it, and by what it does to the mirror.
-/

namespace PropertyTree.Monitor

open Library Server Client

/-- What of a session the reader does not touch. -/
structure Outside where
  connection : Conn
  server : ProtocolHandler
  requests : List PropertyTreeMessages
  destroyed : List (UInt64 × Bool)

/-- What of a session the reader does not touch. -/
def Session.outside (σ : Session) : Outside :=
  ⟨σ.connection, σ.server, σ.requests, σ.destroyed⟩

/-- What is known about a mirror and the messages its reader has still to handle. -/
abbrev Knowledge := Mirror → List PropertyTreeMessage → Prop

/-- The knowledge survives the handling of a message. -/
def Stable (P : Knowledge) : Prop :=
  ∀ {m : Mirror} {p : PropertyTreeMessage} {inbound : List PropertyTreeMessage},
    P m (p :: inbound) → P (dispatch m p) inbound

/-- The session is between two calls, or in a call that is not waiting. -/
structure Holds (out : Outside) (P : Knowledge) (σ : Session) : Prop where
  outside : σ.outside = out
  running : σ.terminated = false
  unlocked : σ.dataMutex = none
  notices : ∀ p ∈ σ.inbound, p.transactionId = notificationId
  known : P σ.mirror σ.inbound

variable {out : Outside} {P P' : Knowledge} {σ : Session} {a : Addr}

/-- Weaker knowledge. -/
theorem Holds.mono (h : Holds out P σ) (hP : ∀ m inbound, P m inbound → P' m inbound) :
    Holds out P' σ :=
  { h with known := hP _ _ h.known }

/-! ## The reader -/

/-- Without a lock nothing blocks the reader. -/
@[simp] theorem blocks_none (m : Mirror) (p : PropertyTreeMessage) :
    Session.blocks none m p = false := by
  unfold Session.blocks
  split <;> simp_all

/-- The reader handles a message. -/
theorem Holds.read (hP : Stable P) (h : Holds out P σ) : Holds out P σ.read := by
  unfold Session.read
  split
  · exact h
  · rename_i p inbound hin
    rw [h.unlocked, blocks_none, if_neg Bool.false_ne_true]
    exact {
      outside := h.outside
      running := h.running
      unlocked := h.unlocked
      notices := fun q hq => h.notices q (hin ▸ List.mem_cons_of_mem _ hq)
      known := hP (hin ▸ h.known) }

/-- The reader handles some messages. -/
theorem Holds.reads (hP : Stable P) (h : Holds out P σ) (n : ℕ) : Holds out P (σ.reads n) := by
  induction n generalizing σ with
  | zero => exact h
  | succ n ih => exact ih (h.read hP)

/-- The reader may go on. -/
theorem returns_pause (hP : Stable P) (h : Holds out P σ) :
    Returns pause σ fun _ τ => Holds out P τ := by
  refine returns_modify ?_
  have hreads := h.reads hP (σ.reader 0)
  exact { hreads with }

/-- The reader comes to a response when it has handled what stands before it. -/
theorem satisfy_eq_some (hP : Stable P) (trId : UInt16) (r : PropertyTreeMessages)
    (after : List PropertyTreeMessage) {m : Mirror} {before : List PropertyTreeMessage}
    (hbefore : ∀ p ∈ before, p.transactionId ≠ trId) (h : P m before) :
    ∃ m', P m' [] ∧
      Session.satisfy trId none m (before ++ ⟨trId, r⟩ :: after) = some (m', after, r) := by
  induction before generalizing m with
  | nil => exact ⟨m, h, by simp [Session.satisfy]⟩
  | cons p before ih =>
    obtain ⟨m', hm', hsat⟩ := ih (fun q hq => hbefore q (List.mem_cons_of_mem _ hq)) (hP h)
    refine ⟨m', hm', ?_⟩
    rw [List.cons_append, Session.satisfy, if_neg (hbefore p List.mem_cons_self), blocks_none]
    exact hsat

/-! ## Transactions -/

/-- The id a request gets is not that of a notification. -/
theorem returns_fetchId (h : Holds out P σ) :
    Returns fetchId σ fun trId τ => trId ≠ notificationId ∧ Holds out P τ := by
  refine returns_get_bind ?_
  by_cases hid : σ.mTransactioIdCtr = notificationId
  · rw [if_pos hid]
    refine returns_modify_bind (returns_pure ⟨?_, { h with }⟩)
    rw [hid]
    decide
  · rw [if_neg hid]
    exact returns_modify_bind (returns_pure ⟨hid, { h with }⟩)

/-- The messages after the first one of an output list. -/
theorem sentTo_cons (c : Conn) (m : PropertyTreeMessage) (o : List Server.Output) :
    System.sentTo c (.send c m :: o) = m :: System.sentTo c o := by
  simp [System.sentTo]

/-- The server handles the request and answers it first. -/
theorem returns_serve (trId : UInt16) {q r : PropertyTreeMessages} {s' : ProtocolHandler}
    {o : List Server.Output} (hrunning : σ.terminated = false)
    (hstep : σ.server.step (.message σ.connection ⟨trId, q⟩) =
      .ok (s', .send σ.connection ⟨trId, r⟩ :: o))
    (hterm : Server.Output.terminate ∉ o) :
    Returns (serve trId q) σ fun _ τ => τ = { σ with
      server := s'
      terminated := false
      inbound := σ.inbound ++ ⟨trId, r⟩ :: System.sentTo σ.connection o } := by
  refine returns_get_bind ?_
  rw [if_neg (by simp [hrunning]), hstep]
  refine returns_modify ?_
  rw [sentTo_cons]
  congr 1
  simpa using hterm

/-- The caller takes the response when the reader has come to it. -/
theorem returns_waitTransaction {trId : UInt16} {r : PropertyTreeMessages} {m : Mirror}
    {inbound : List PropertyTreeMessage}
    (hsat : Session.satisfy trId σ.dataMutex σ.mirror σ.inbound = some (m, inbound, r)) :
    Returns (waitTransaction trId) σ fun r' τ =>
      r' = r ∧ τ = { σ.updateMirror m with inbound := inbound } := by
  refine returns_get_bind ?_
  rw [hsat]
  exact returns_modify_bind (returns_pure ⟨rfl, rfl⟩)

/-- A request, its response, and the notifications that come after it. -/
theorem returns_transact {q r : PropertyTreeMessages} {s' : ProtocolHandler}
    {o : List Server.Output} (hP : Stable P) (hP' : Stable P') (h : Holds out P σ)
    (hstep : ∀ t, out.server.step (.message out.connection ⟨t, q⟩) =
      .ok (s', .send out.connection ⟨t, r⟩ :: o))
    (hterm : Server.Output.terminate ∉ o)
    (hnotices : ∀ p ∈ System.sentTo out.connection o, p.transactionId = notificationId)
    (hnext : ∀ m, P m [] → P' m (System.sentTo out.connection o)) :
    Returns (transact q) σ fun r' τ => r' = r ∧
      Holds { out with server := s', requests := out.requests ++ [q] } P' τ := by
  refine (returns_pause hP h).bind fun _ σ₁ h₁ => ?_
  refine (returns_fetchId h₁).bind fun trId σ₂ ⟨hid, h₂⟩ => ?_
  refine (returns_modify (Q := fun _ τ => Holds { out with requests := out.requests ++ [q] } P τ)
    { h₂ with outside := by rw [← h₂.outside]; rfl }).bind fun _ σ₃ h₃ => ?_
  have hc : σ₃.connection = out.connection := congrArg Outside.connection h₃.outside
  have hs : σ₃.server = out.server := congrArg Outside.server h₃.outside
  refine (returns_serve trId h₃.running (by rw [hs, hc, hstep]) hterm).bind fun _ σ₄ hσ₄ => ?_
  -- all that came before the response is handled, and none of it bears the response's id
  obtain ⟨m', hm', hsat⟩ := satisfy_eq_some hP trId r (System.sentTo out.connection o)
    (fun p hp heq => hid (heq.symm.trans (h₃.notices p hp))) h₃.known
  refine (returns_waitTransaction (show Session.satisfy trId σ₄.dataMutex σ₄.mirror σ₄.inbound =
    some (m', System.sentTo out.connection o, r) by
      rw [hσ₄]
      simp only [h₃.unlocked, hc, hsat])).bind ?_
  rintro r' σ₅ ⟨rfl, hσ₅⟩
  have h₅ : Holds { out with server := s', requests := out.requests ++ [q] } P' σ₅ := by
    subst hσ₅ hσ₄
    exact {
      outside := by
        have hout := h₃.outside
        simp only [Session.outside, Outside.mk.injEq] at hout ⊢
        exact ⟨hout.1, rfl, hout.2.2⟩
      running := rfl
      unlocked := h₃.unlocked
      notices := hnotices
      known := hnext m' hm' }
  exact (returns_pause hP' h₅).bind fun _ σ₆ h₆ => returns_pure ⟨rfl, h₆⟩

/-- A request that changes nothing at the server and is only responded to. -/
theorem returns_transact_of_read {q r : PropertyTreeMessages} (hP : Stable P) (h : Holds out P σ)
    (hstep : ∀ t, out.server.step (.message out.connection ⟨t, q⟩) =
      .ok (out.server, [.send out.connection ⟨t, r⟩])) :
    Returns (transact q) σ fun r' τ => r' = r ∧
      Holds { out with requests := out.requests ++ [q] } P τ :=
  returns_transact hP hP h hstep (by simp) (by simp [System.sentTo]) fun m hm => by
    simpa [System.sentTo] using hm

/-! ## `Client` and `Property` -/

/-- The object of a `Property` as it is now. -/
theorem returns_object (hP : Stable P) (h : Holds out P σ)
    (hobj : ∀ m inbound, P m inbound → m.heap[a]? ≠ none) :
    Returns (object a) σ fun n τ => τ.mirror.heap[a]? = some n ∧ Holds out P τ := by
  refine (returns_pause hP h).bind fun _ σ₁ h₁ => returns_get_bind ?_
  obtain ⟨n, hn⟩ := Option.ne_none_iff_exists'.mp (hobj _ _ h₁.known)
  rw [hn]
  exact returns_pure ⟨hn, h₁⟩

/-- A change of the mirror by the caller. -/
theorem Holds.modify {f : Mirror → Mirror} (h : Holds out P σ)
    (hf : ∀ m inbound, P m inbound → P' (f m) inbound) :
    Holds out P' { σ with mirror := f σ.mirror } :=
  { h with known := hf _ _ h.known }

/-- `fetch` of a node that the server knows. -/
theorem returns_fetch {u : UInt64} {data : Buffer} (hP : Stable P) (h : Holds out P σ)
    (hobj : ∀ m inbound, P m inbound → ∃ n : Client.Node, m.heap[a]? = some n ∧ n.uuid = u)
    (hdata : ∀ m inbound, P m inbound →
      P (m.modifyNode a fun node => { node with data := data }) inbound)
    (hstep : ∀ t, out.server.step (.message out.connection ⟨t, .getRequest u⟩) =
      .ok (out.server, [.send out.connection ⟨t, .getAccept data⟩])) :
    Returns (fetch a) σ fun _ τ =>
      Holds { out with requests := out.requests ++ [.getRequest u] } P τ := by
  refine (returns_object hP h fun m inbound hm => ?_).bind fun n σ₁ ⟨hn, h₁⟩ => ?_
  · obtain ⟨n, hn, -⟩ := hobj m inbound hm
    simp [hn]
  obtain ⟨n', hn', hu⟩ := hobj _ _ h₁.known
  rw [hn, Option.some.injEq] at hn'
  subst hn' hu
  refine (returns_transact_of_read hP h₁ hstep).bind ?_
  rintro r σ₂ ⟨rfl, h₂⟩
  exact returns_modify (h₂.modify hdata)

/-! ## Looking a node up -/

section Get

variable {m : Mirror} {n : Client.Node} {name : Name} {nodeToAddList : List NamedNode}

/-- The mirror is `m`, and the reader has nothing to handle. -/
def Exactly (m : Mirror) : Knowledge :=
  fun m' inbound => m' = m ∧ inbound = []

/-- Without messages there is nothing for the reader to change. -/
theorem stable_exactly : Stable (Exactly m) := fun h => nomatch h.2

/-- The object of a `Property` in a mirror that stays as it is. -/
theorem returns_object_exactly (h : Holds out (Exactly m) σ) (hn : m.heap[a]? = some n) :
    Returns (object a) σ fun n' τ => n = n' ∧ Holds out (Exactly m) τ := by
  refine (returns_object stable_exactly h ?_).mono ?_
  · rintro _ _ ⟨rfl, -⟩
    simp [hn]
  · rintro n' τ ⟨hn', hτ⟩
    rw [hτ.known.1, hn, Option.some.injEq] at hn'
    exact ⟨hn', hτ⟩

/-- The entries of a response are added one after the other. -/
theorem returns_addNodes (h : Holds out (Exactly m) σ) (nodeToAddList : List NamedNode) :
    Returns (addNodes nodeToAddList) σ fun _ τ =>
      Holds out (Exactly (m.addNodes nodeToAddList)) τ := by
  induction nodeToAddList generalizing m σ with
  | nil => exact returns_pure h
  | cons i nodeToAddList ih =>
    refine (returns_pause stable_exactly h).bind fun _ σ₁ h₁ => returns_modify_bind ?_
    have h₂ : Holds out (Exactly (m.addNode i)) (σ₁.updateMirror (σ₁.mirror.addNode i)) :=
      { h₁ with known := ⟨congrArg (·.addNode i) h₁.known.1, h₁.known.2⟩ }
    exact ih h₂

/-- A child in the mirror is returned without a request. -/
theorem returns_get_of_found {b : Addr} (h : Holds out (Exactly m) σ) (hn : m.heap[a]? = some n)
    (hb : n.children[name]? = some b) :
    Returns (get a name false) σ fun r τ => r = some b ∧ Holds out (Exactly m) τ := by
  refine (returns_object_exactly h hn).bind ?_
  rintro _ σ₁ ⟨rfl, h₁⟩
  rw [if_neg Bool.false_ne_true, hb]
  exact returns_pure ⟨rfl, h₁⟩

/-- The request of `get`. -/
def treeInfoRequest (n : Client.Node) (name : Name) (recursive : Bool) : PropertyTreeMessages :=
  .treeInfoRequest n.uuid name (if recursive then 1 else 0)

/-- What the server does not know is not found. -/
theorem returns_get_of_error {cause : Cause} (h : Holds out (Exactly m) σ)
    (hn : m.heap[a]? = some n) (hb : n.children[name]? = none)
    (hstep : ∀ t, out.server.step (.message out.connection ⟨t, treeInfoRequest n name false⟩) =
      .ok (out.server, [.send out.connection ⟨t, .treeInfoErrorResponse cause⟩])) :
    Returns (get a name false) σ fun r τ => r = none ∧
      Holds { out with requests := out.requests ++ [treeInfoRequest n name false] }
        (Exactly m) τ := by
  refine (returns_object_exactly h hn).bind ?_
  rintro _ σ₁ ⟨rfl, h₁⟩
  rw [if_neg Bool.false_ne_true, hb]
  refine (returns_transact_of_read stable_exactly h₁ hstep).bind ?_
  rintro _ σ₂ ⟨rfl, h₂⟩
  exact returns_pure ⟨rfl, h₂⟩

/-- The entries the server lists are added, and the first of them is what was asked for. -/
theorem returns_get_of_response {i : NamedNode} {b : Addr} (h : Holds out (Exactly m) σ)
    (hn : m.heap[a]? = some n) (hb : n.children[name]? = none) (hname : name ≠ selfName)
    (hstep : ∀ t, out.server.step (.message out.connection ⟨t, treeInfoRequest n name false⟩) =
      .ok (out.server, [.send out.connection ⟨t, .treeInfoResponse (i :: nodeToAddList)⟩]))
    (hi : (m.addNodes (i :: nodeToAddList)).mTree[i.uuid]? = some b) :
    Returns (get a name false) σ fun r τ => r = some b ∧
      Holds { out with requests := out.requests ++ [treeInfoRequest n name false] }
        (Exactly (m.addNodes (i :: nodeToAddList))) τ := by
  refine (returns_object_exactly h hn).bind ?_
  rintro _ σ₁ ⟨rfl, h₁⟩
  rw [if_neg Bool.false_ne_true, hb]
  refine (returns_transact_of_read stable_exactly h₁ hstep).bind ?_
  rintro _ σ₂ ⟨rfl, h₂⟩
  refine (returns_addNodes h₂ _).bind fun _ σ₃ h₃ => ?_
  rw [if_neg hname]
  refine (returns_pause stable_exactly h₃).bind fun _ σ₄ h₄ => returns_get_bind ?_
  rw [h₄.known.1, hi]
  exact returns_pure ⟨rfl, h₄⟩

/-- Loading the children of a node adds what the server lists. -/
theorem returns_loadChildren {recursive : Bool} (h : Holds out (Exactly m) σ)
    (hn : m.heap[a]? = some n) (hrec : recursive = true ∨ n.children[selfName]? = none)
    (hstep : ∀ t, out.server.step
        (.message out.connection ⟨t, treeInfoRequest n selfName recursive⟩) =
      .ok (out.server, [.send out.connection ⟨t, .treeInfoResponse nodeToAddList⟩])) :
    Returns (loadChildren a recursive) σ fun _ τ =>
      Holds { out with requests := out.requests ++ [treeInfoRequest n selfName recursive] }
        (Exactly (m.addNodes nodeToAddList)) τ := by
  have hget : Returns (get a selfName recursive) σ fun _ τ =>
      Holds { out with requests := out.requests ++ [treeInfoRequest n selfName recursive] }
        (Exactly (m.addNodes nodeToAddList)) τ := by
    refine (returns_object_exactly h hn).bind ?_
    rintro _ σ₁ ⟨rfl, h₁⟩
    rw [show (if recursive then none else n.children[selfName]?) = none by
      rcases hrec with rfl | hrec <;> simp [*]]
    refine (returns_transact_of_read stable_exactly h₁ hstep).bind ?_
    rintro _ σ₂ ⟨rfl, h₂⟩
    refine (returns_addNodes h₂ _).bind fun _ σ₃ h₃ => ?_
    exact returns_pure h₃
  exact hget.bind fun _ _ hτ => returns_pure hτ

end Get

end PropertyTree.Monitor
