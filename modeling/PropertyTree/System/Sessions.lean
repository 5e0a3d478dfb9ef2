import PropertyTree.System.Replies

/-!
# Signing in

A client asks to be signed in once, before anything else, and as long as the server has not handled
that request it sends the client nothing but updates.  `Entering` describes such a client, and
`Joined` one that is signed in; every client that is not closed is one of the two.
-/

namespace PropertyTree

namespace Server

open ProtocolHandler

variable {s s' : ProtocolHandler} {e : Event} {o : List Output}

/-- Whatever is not an update is sent to the connection whose message is handled, or to one that a
session holds. -/
theorem StepResult.session_of_mem (h : StepResult s e s' o) {d : Conn} {m : PropertyTreeMessage}
    (hd : .send d m ∈ o) : (∃ q, e = .message d q) ∨ (∃ u data, m.message = .updateNotification u data) ∨
      ∃ sid : UInt32, s.mSessions[sid]? = some ⟨some d⟩ := by
  cases h.rpcChange with
  | forward c t uuid param sid owner hc ho =>
    cases List.mem_singleton.mp hd
    unfold ProtocolHandler.ownerConnection at ho
    split at ho
    · cases ho
    · obtain ⟨⟨x⟩, hs, rfl⟩ := Option.bind_eq_some_iff.mp ho
      exact .inr (.inr ⟨_, hs⟩)
  | reply c t m' translation hm ht =>
    cases hs : (s.mSessions[translation.1]?).bind Session.connectionSession with
    | none => simp [hs] at hd
    | some d' =>
      rw [hs, send_some] at hd
      cases List.mem_singleton.mp hd
      obtain ⟨⟨x⟩, hs, rfl⟩ := Option.bind_eq_some_iff.mp hs
      exact .inr (.inr ⟨_, hs⟩)
  | unknown => cases hd
  | other e s' o he ht ho =>
    rcases ho _ hd with hnotice | ⟨q, rfl, -⟩
    · obtain ⟨t, m⟩ := m
      cases m with
      | updateNotification u data => exact .inr (.inl ⟨u, data, rfl⟩)
      | treeUpdateNotification add del =>
        have hsession : ∀ {s' : ProtocolHandler} {m : PropertyTreeMessage},
            s'.mSessions = s.mSessions → .send d ⟨t, .treeUpdateNotification add del⟩ ∈ s'.broadcast m →
              ∃ sid : UInt32, s.mSessions[sid]? = some ⟨some d⟩ := by
          intro s' m hs hmem
          obtain ⟨sid, d', hsid, heq⟩ := mem_broadcast_iff.mp hmem
          cases heq
          exact ⟨sid, hs ▸ hsid⟩
        cases h with
        | create c t' name parentUuid p sid node hp hc hn ha =>
          exact .inr (.inr (hsession rfl ((List.mem_cons.mp hd).resolve_left (by simp))))
        | delete c t' uuid a node p parent ha hn hch hp hpn =>
          refine .inr (.inr (hsession ?_ ((List.mem_cons.mp hd).resolve_left (by simp))))
          simp only [ProtocolHandler.removeNode, release_mSessions]
        | setValue c t' uuid data a node hterm ha hn =>
          obtain ⟨l, -, hd⟩ := List.mem_flatMap.mp ((List.mem_cons.mp hd).resolve_left (by simp))
          cases hl : s.listenerConnection c l.1 l.2 with
          | none => simp [hl] at hd
          | some d' =>
            rw [hl, send_some] at hd
            cases List.mem_singleton.mp hd
        | reply c t' m' translation session hm ht' hs =>
          have hreply := isRpcReply_iff.mp hm
          rw [he _ _ _ rfl] at hreply
          cases hreply
        | _ => simp at hd
      | _ => cases hnotice
    · exact .inl ⟨_, rfl⟩

/-- A message of another connection is no sign-in of this one. -/
theorem isSigninOf_of_ne {c d : Conn} (h : c ≠ d) (m : PropertyTreeMessage) :
    isSigninOf c (.message d m) = false := by
  obtain ⟨t, m⟩ := m
  cases m <;> simp [isSigninOf, Ne.symm h]

end Server

namespace Client

/-- A call that has not sent its request has not before, unless it has just begun. -/
theorem StepResult.unsent {k k' : Client} {number : ℕ} {a : Action} {sent : List Packet}
    (h : StepResult k number a k' sent) {i : ThreadId} {th : Thread} {q : PropertyTreeMessages}
    (hi : k'.threads[i]? = some th) (hq : th.stage.unsent = some q) : th.call ≠ .signin ∨
      ∃ th₀ q₀, k.threads[i]? = some th₀ ∧ th₀.call = th.call ∧ th₀.stage.unsent = some q₀ := by
  have hold : k.threads[i]? = some th → th.call ≠ .signin ∨
      ∃ th₀ q₀, k.threads[i]? = some th₀ ∧ th₀.call = th.call ∧ th₀.stage.unsent = some q₀ :=
    fun hi => .inr ⟨th, q, hi, rfl, hq⟩
  have hinsert : ∀ {j : ThreadId} {th' : Thread}, th'.stage.unsent = none →
      (k.threads.insert j th')[i]? = some th → k.threads[i]? = some th := by
    intro j th' hnone hi
    rcases thread_of_insert hi with ⟨-, rfl⟩ | ⟨-, hi⟩
    · rw [hnone] at hq
      cases hq
    · exact hi
  have hgo : ∀ {j : ThreadId} {call : ApiCall} {stage stage' : Stage} {q' : PropertyTreeMessages},
      k.threads[j]? = some ⟨call, stage⟩ → stage.unsent = some q' →
        (k.threads.insert j ⟨call, stage'⟩)[i]? = some th → th.call ≠ .signin ∨
          ∃ th₀ q₀, k.threads[i]? = some th₀ ∧ th₀.call = th.call ∧ th₀.stage.unsent = some q₀ := by
    intro j call stage stage' q' hj hq' hi
    rcases thread_of_insert hi with ⟨rfl, rfl⟩ | ⟨-, hi⟩
    · exact .inr ⟨_, q', hj, rfl, hq'⟩
    · exact hold hi
  have hnew : ∀ {j : ThreadId} {call : ApiCall} {stage : Stage}, call ≠ .signin →
      (k.threads.insert j ⟨call, stage⟩)[i]? = some th → th.call ≠ .signin ∨
        ∃ th₀ q₀, k.threads[i]? = some th₀ ∧ th₀.call = th.call ∧ th₀.stage.unsent = some q₀ := by
    intro j call stage hc hi
    rcases thread_of_insert hi with ⟨-, rfl⟩ | ⟨-, hi⟩
    · exact .inl hc
    · exact hold hi
  have herase : ∀ {j : ThreadId}, (k.threads.erase j)[i]? = some th → k.threads[i]? = some th :=
    fun hi => (thread_of_erase hi).2
  cases h with
  | found => exact hold (herase hi)
  | start j call node hs hj hc => exact hnew hc hi
  | startSet j a value node =>
    exact hnew (show ApiCall.set a value ≠ .signin from nofun) hi
  | skip j call q' ht => exact hgo ht rfl hi
  | draw j call q' stage ht hid =>
    have hstage : stage.unsent = some q' := by rcases hid with ⟨rfl, -⟩ | rfl <;> rfl
    exact hgo ht hstage hi
  | send => exact hold (hinsert rfl hi)
  | take => exact hold (hinsert rfl hi)
  | erase => exact hold (hinsert rfl hi)
  | list => exact hold (hinsert rfl hi)
  | add => exact hold (hinsert rfl hi)
  | timeout => exact hold (herase hi)
  | signin => exact hold (herase hi)
  | create => exact hold (herase hi)
  | fetch => exact hold (herase hi)
  | destroy => exact hold (herase hi)
  | respond => exact hold (herase hi)
  | fail => exact hold (herase hi)
  | get => exact hold (herase hi)
  | _ => exact hold hi

end Client

namespace System

open Library Server Client

variable {s s' : System} {act : System.Action} {c d : Conn} {k k' : Client}

/-- The message tells of nothing but a value. -/
def IsUpdate (m : PropertyTreeMessages) : Prop :=
  ∃ u data, m = .updateNotification u data

/-- The client on `c` is being constructed, and the server has not handled its `SigninRequest`. -/
structure Entering (s : System) (c : Conn) (k : Client) : Prop where
  log : ∀ l ∈ s.log, isSigninOf c l.1 = false
  constructing : k.status = .constructing
  signin : ∀ {i : ThreadId} {th : Thread}, k.threads[i]? = some th → th.call = .signin
  mTree : ∀ u : UInt64, k.mirror.mTree[u]? = none
  reader : k.reader = none
  deleted : k.deleted = []
  inbound : ∀ {p}, p ∈ k.inbound → IsUpdate p.message.message
  held : ∀ {x}, Held k x → IsUpdate x.message
  outbound : ∀ {p}, p ∈ k.outbound → p.message.message = .signinRequest 0
  length_le : k.outbound.length ≤ 1
  unsent : ∀ {i : ThreadId} {th : Thread} {q}, k.threads[i]? = some th → th.stage.unsent = some q →
    k.outbound = []

/-- The client on `c` is signed in, and will not ask for it again. -/
structure Joined (s : System) (c : Conn) (k : Client) : Prop where
  signedIn : ∃ sid, SignedIn s.server c sid
  outbound : ∀ {p}, p ∈ k.outbound → isSignin (.message c p.message) = false
  unsent : ∀ {i : ThreadId} {th : Thread} {q}, k.threads[i]? = some th → th.stage.unsent = some q →
    th.call ≠ .signin

/-- A client that is not closed is about to be signed in, or it is signed in. -/
def Enters (s : System) (c : Conn) (k : Client) : Prop :=
  k.status ≠ .closed → Entering s c k ∨ Joined s c k

/-- Before its first step a client is about to be signed in. -/
theorem entering_new (hlog : ∀ l ∈ s.log, isSigninOf c l.1 = false) : Entering s c .new := by
  have hthread : ∀ {i : ThreadId} {th : Thread}, Client.new.threads[i]? = some th →
      th = ⟨.signin, .begun (.signinRequest 0)⟩ := by
    intro i th hi
    obtain ⟨-, rfl⟩ | ⟨-, hi⟩ := thread_of_insert hi
    · rfl
    · simp at hi
  refine ⟨hlog, rfl, fun hi => hthread hi ▸ rfl, fun u => by simp [Client.new, Mirror.empty], rfl, rfl,
    by simp [Client.new], fun {x} hx => ?_, by simp [Client.new], by simp [Client.new],
    fun _ _ => rfl⟩
  cases hx with
  | stored t ht => simp [Client.new] at ht
  | inHand i th hi hx =>
    rw [hthread hi] at hx
    cases hx

/-- A step of a client that is about to be signed in. -/
theorem Entering.client_step {a : Client.Action} {sent : List Packet} (h : Entering s c k)
    (hman : Manned k) (hth : ThreadsSound s.requests c k.mirror k.threads)
    (hres : Client.StepResult k s.requests.length a k' sent) (hopen : k'.status ≠ .closed) :
    Entering s c { k' with outbound := k'.outbound ++ sent } := by
  have hrun : k.status ≠ .running := by
    rw [h.constructing]
    nofun
  have hupdate : ∀ {x}, Held k' x → IsUpdate x.message := fun hx =>
    hres.held (P := fun x => IsUpdate x.message) h.held
      (fun hl => by obtain ⟨u, data, hu⟩ := hl; cases hu)
      (fun hp => h.inbound (hp ▸ List.mem_cons_self)) hx
  -- what a thread has in hand is an update
  have hhand : ∀ {i : ThreadId} {th : Thread} {x : Tagged}, k.threads[i]? = some th →
      th.stage.inHand = some x → IsUpdate x.message := fun hi hx => h.held (.inHand _ _ hi hx)
  -- a thread that goes on
  have hinsert : ∀ {i j : ThreadId} {call : ApiCall} {stage stage' : Stage} {th : Thread},
      k.threads[i]? = some ⟨call, stage⟩ →
        (k.threads.insert i ⟨call, stage'⟩)[j]? = some th → th.call = .signin := by
    intro i j call stage stage' th hi hj
    rcases thread_of_insert hj with ⟨-, rfl⟩ | ⟨-, hj⟩
    · have hcall : call = .signin := h.signin hi
      exact hcall
    · exact h.signin hj
  have hclosed : ∀ {i : ThreadId} {call : ApiCall} {stage : Stage} {what : Failure},
      k.threads[i]? = some ⟨call, stage⟩ → (k.throw i call what).status = .closed := by
    intro i call stage what hi
    have hcall : call = .signin := h.signin hi
    simp [Client.throw, hcall]
  cases hres with
  | found i call a hs => exact absurd hs hrun
  | start i call node hs => exact absurd hs hrun
  | startSet i a value node hs => exact absurd hs hrun
  | skip i call q ht hid =>
    simp only [List.append_nil]
    exact { h with signin := hinsert ht, held := hupdate, unsent := fun _ _ => h.unsent ht rfl }
  | draw i call q stage ht hid =>
    have hout : k.outbound = [] := h.unsent (q := q) ht (by rcases hid with ⟨rfl, -⟩ | rfl <;> rfl)
    simp only [List.append_nil]
    exact { h with signin := hinsert ht, held := hupdate, unsent := fun _ _ => hout }
  | send i call q trId ht =>
    have hout : k.outbound = [] := h.unsent ht rfl
    have hcall : call = .signin := h.signin ht
    obtain ⟨node, hq, -⟩ : Asks k.mirror call q := (hth _ _ ht).unsent rfl
    simp only [setStage, hout, List.nil_append]
    refine { h with
      signin := hinsert ht, held := ?_, outbound := fun {p} hp => ?_, length_le := le_rfl
      unsent := fun {j th q'} hj hq' => ?_ }
    · intro x hx
      cases hx with
      | stored t ht => exact hupdate (.stored t ht)
      | inHand i th hi hx => exact hupdate (.inHand i th hi hx)
    · obtain rfl := List.mem_singleton.mp hp
      rw [hq, hcall]
      rfl
    · -- there is no other thread
      rcases thread_of_insert hj with ⟨-, rfl⟩ | ⟨hji, hj⟩
      · cases hq'
      · exact absurd ((hman.constructing h.constructing hj).trans
          (hman.constructing h.constructing ht).symm) hji
  | take i call trId r response ht hx =>
    simp only [List.append_nil]
    refine { h with
      signin := hinsert ht, held := hupdate, unsent := fun {j th q'} hj hq' => ?_ }
    rcases thread_of_insert hj with ⟨-, rfl⟩ | ⟨-, hj⟩
    · cases hq'
    · exact h.unsent hj hq'
  | timeout i call trId r ht => exact absurd (hclosed ht) hopen
  | erase i call trId r response ht =>
    simp only [List.append_nil]
    refine { h with
      signin := hinsert ht, held := hupdate, unsent := fun {j th q'} hj hq' => ?_ }
    rcases thread_of_insert hj with ⟨-, rfl⟩ | ⟨-, hj⟩
    · cases hq'
    · exact h.unsent hj hq'
  | signin i r tag sessionId ht =>
    obtain ⟨u, data, hu⟩ := hhand ht rfl
    cases hu
  | create i a name r tag uuid ht =>
    obtain ⟨u, data, hu⟩ := hhand ht rfl
    cases hu
  | list i a name recursive r tag l ht =>
    obtain ⟨u, data, hu⟩ := hhand ht rfl
    cases hu
  | fetch i a r tag data ht hl =>
    obtain ⟨u, data, hu⟩ := hhand ht rfl
    cases hu
  | destroy i a r tag ht =>
    obtain ⟨u, data, hu⟩ := hhand ht rfl
    cases hu
  | respond i call r response result hc ht => exact absurd (h.signin ht) hc
  | fail i call r response what ht => exact absurd (hclosed ht) hopen
  | add i call l j todo ht =>
    obtain ⟨u, data, hu⟩ := hhand ht rfl
    cases hu
  | get i call l ht =>
    obtain ⟨u, data, hu⟩ := hhand ht rfl
    cases hu
  | satisfy p inbound x hr hin hx =>
    simp only [List.append_nil]
    exact { h with
      inbound := fun hq => h.inbound (hin ▸ List.mem_cons_of_mem p hq), held := hupdate }
  | treeUpdate tag trId add del inbound hr hin hx =>
    obtain ⟨u, data, hu⟩ := h.inbound (hin ▸ List.mem_cons_self)
    cases hu
  | updateNotification tag trId uuid data inbound hr hin hx =>
    simp only [List.append_nil]
    exact { h with
      inbound := fun hq => h.inbound (hin ▸ List.mem_cons_of_mem _ hq), held := hupdate
      reader := by simp only [h.mTree, Option.map_none] }
  | rpcRequest tag trId uuid param inbound hr hin hx =>
    obtain ⟨u, data, hu⟩ := h.inbound (hin ▸ List.mem_cons_self)
    cases hu
  | ignore p inbound hr hin hx hm =>
    obtain ⟨u, data, hu⟩ := h.inbound (hin ▸ List.mem_cons_self)
    rw [hu] at hm
    cases hm
  | update a data hr hl =>
    rw [h.reader] at hr
    cases hr
  | setup s hs => exact absurd hs hrun
  | free a ha hu =>
    simp only [List.append_nil]
    exact { h with held := hupdate }
  | close hs => exact absurd hs hrun

/-- Only the constructor asks for a sign-in. -/
theorem isSignin_request {call : ApiCall} (hc : call ≠ .signin) (node : Client.Node) (t : UInt16) :
    isSignin (.message c ⟨t, call.request node⟩) = false := by
  cases call <;> first | rfl | exact absurd rfl hc

/-- A step of a client that is signed in. -/
theorem Joined.client_step {a : Client.Action} {sent : List Packet} (h : Joined s c k)
    (hth : ThreadsSound s.requests c k.mirror k.threads)
    (hres : Client.StepResult k s.requests.length a k' sent) :
    Joined s c { k' with outbound := k'.outbound ++ sent } := by
  have hout := (queueChange_of_stepResult hres hth).2
  refine ⟨h.signedIn, fun {p} hp => ?_, fun {i th q} hi hq => ?_⟩
  · rcases List.mem_append.mp hp with hold | hsent
    · exact h.outbound (hout ▸ hold)
    · cases hres with
      | send i call q trId ht =>
        obtain rfl := List.mem_singleton.mp hsent
        obtain ⟨node, rfl, -⟩ : Asks k.mirror call q := (hth _ _ ht).unsent rfl
        exact isSignin_request (h.unsent ht rfl) node trId
      | rpcRequest tag trId uuid param inbound hr hin hx =>
        obtain rfl := List.mem_singleton.mp hsent
        unfold Client.rpcReply
        split
        · rfl
        · split <;> rfl
      | _ => cases hsent
  · rcases hres.unsent hi hq with hc | ⟨th₀, q₀, hi₀, heq, hq₀⟩
    · exact hc
    · exact heq ▸ h.unsent hi₀ hq₀

/-- A client that is signed in has been constructed on its connection. -/
theorem Joined.exists_clients (h : Joined s c (s.client c)) : ∃ k, s.clients[c]? = some k := by
  cases hk : s.clients[c]? with
  | some k => exact ⟨k, rfl⟩
  | none =>
    have hnew : s.client c = .new := by simp [client, hk]
    rw [hnew] at h
    have hthread : Client.new.threads[(0 : ThreadId)]? =
        some ⟨.signin, .begun (.signinRequest 0)⟩ := by simp [Client.new]
    exact absurd rfl (h.unsent hthread rfl)

section Serve

variable {p : Packet} {outbound : List Packet} {server : ProtocolHandler} {o : List Output}

/-- What the server sends to a client that is about to be signed in when it handles a message of
another one. -/
theorem Entering.serve (h : Entering s c (s.client c)) (hrun : ServerRun .init s.log s.server)
    (hk : s.clients[d]? = some k) (hok : s.server.step (.message d p.message) = .ok (server, o))
    (hcd : c ≠ d) : Entering (afterServe s d k p outbound server o) c
      ((afterServe s d k p outbound server o).client c) := by
  obtain ⟨ms, hms, hcl⟩ := exists_client_afterServe hk p outbound server o c
  rw [hcl, if_neg hcd]
  refine { h with log := fun l hl => ?_, inbound := fun {q} hq => ?_, held := fun {x} hx => ?_ }
  · rcases List.mem_append.mp hl with hl | hl
    · exact h.log l hl
    · obtain rfl := List.mem_singleton.mp hl
      exact isSigninOf_of_ne hcd p.message
  · rcases List.mem_append.mp hq with hq | hq
    · exact h.inbound hq
    · obtain ⟨m, hm, rfl⟩ := List.mem_map.mp hq
      rcases (Server.step_cases hok).session_of_mem (mem_sentTo (hms.subset hm)) with
        ⟨q, hq⟩ | hupdate | ⟨sid, hsid⟩
      · exact absurd (Event.message.inj hq).1.symm hcd
      · exact hupdate
      · exact absurd hsid ((unknown_of_run hrun h.log).2 sid)
  · cases hx with
    | stored t ht => exact h.held (.stored t ht)
    | inHand i th hi hx => exact h.held (.inHand i th hi hx)

/-- The server handles the `SigninRequest` of a client. -/
theorem Entering.join (h : Entering s c (s.client c)) (hrun : ServerRun .init s.log s.server)
    (hsign : signins s.log < 2 ^ 32) (hk : s.clients[c]? = some k) (hout : k.outbound = p :: outbound)
    (hok : s.server.step (.message c p.message) = .ok (server, o)) :
    Joined (afterServe s c k p outbound server o) c
      ((afterServe s c k p outbound server o).client c) := by
  have hkc := client_of_some hk
  have hp := h.outbound (p := p) (by rw [hkc, hout]; exact List.mem_cons_self)
  obtain rfl : outbound = [] := by
    have hle := h.length_le
    rw [hkc, hout] at hle
    simpa using hle
  obtain ⟨ms, -, hcl⟩ := exists_client_afterServe hk p [] server o c
  rw [hcl, if_pos rfl]
  refine ⟨?_, by simp, fun {i th q} hi hq => ?_⟩
  · obtain ⟨tag, t, m⟩ := p
    obtain rfl : m = .signinRequest 0 := hp
    obtain ⟨hconn, hsess⟩ := unknown_of_run hrun h.log
    cases hok
    exact ⟨_, signedIn_signin (sessionsFresh_of_run hrun hsign) hconn hsess⟩
  · have hnil := h.unsent hi hq
    rw [hkc, hout] at hnil
    cases hnil

/-- A client that is signed in stays so when the server handles a message. -/
theorem Joined.serve (h : Joined s c (s.client c)) (hrun : ServerRun .init s.log s.server)
    (hsign : signins s.log < 2 ^ 32) (hk : s.clients[d]? = some k) (hout : k.outbound = p :: outbound)
    (hok : s.server.step (.message d p.message) = .ok (server, o)) :
    Joined (afterServe s d k p outbound server o) c
      ((afterServe s d k p outbound server o).client c) := by
  obtain ⟨ms, -, hcl⟩ := exists_client_afterServe hk p outbound server o c
  obtain ⟨sid, hsid⟩ := h.signedIn
  have hother : isSigninOf c (.message d p.message) = false := by
    by_cases hcd : c = d
    · subst hcd
      have hp := h.outbound (p := p) (by rw [client_of_some hk, hout]; exact List.mem_cons_self)
      exact Bool.eq_false_iff.mpr fun hs => by rw [isSignin_of_isSigninOf hs] at hp; cases hp
    · exact isSigninOf_of_ne hcd p.message
  rw [hcl]
  refine ⟨⟨sid, hsid.step (sessionsFresh_of_run hrun hsign) (Server.step_cases hok).sessionChange
    hother nofun⟩, fun {q} hq => h.outbound ?_, h.unsent⟩
  split_ifs at hq with hcd
  · subst hcd
    rw [client_of_some hk, hout]
    exact List.mem_cons_of_mem p hq
  · exact hq

end Serve

/-- Every client that is not closed is about to be signed in, or it is signed in. -/
theorem enters_of_run {C : System → System.Action → Prop} (hC : ∀ {s a}, C s a → FewSignins s a)
    {as : List System.Action} (h : Run (Guarded C Step) .init as s) (c : Conn) :
    Enters s c (s.client c) := by
  generalize hinit : System.init = s₀ at h
  induction h generalizing c with
  | nil =>
    subst hinit
    have hnew : System.init.client c = .new := by simp [client, init]
    exact fun _ => .inl (hnew ▸ entering_new (by simp [init]))
  | @snoc t u as a run step ih =>
    subst hinit
    have hlog := log_of_run run.of_guarded
    have hsign := signins_of_run hC run
    intro hopen
    cases step_cases step.2 with
    | connect d hd =>
      rw [client_connect hd] at hopen ⊢
      exact (ih c hopen).imp (fun h => { h with }) fun h => { h with }
    | client d a k k' sent hk hkopen hres =>
      have hsound := sound_of_run run.of_guarded
      rw [client_of_clients rfl c] at hopen ⊢
      split_ifs with hcd
      · subst hcd
        rw [if_pos rfl] at hopen
        have hold := ih c (by rwa [client_of_some hk])
        rw [client_of_some hk] at hold
        have hman := manned_of_run run.of_guarded c
        rw [client_of_some hk] at hman
        rcases hold with hent | hjoin
        · exact .inl { hent.client_step hman (hsound.threads hk) hres hopen with }
        · exact .inr { hjoin.client_step (hsound.threads hk) hres with }
      · rw [if_neg hcd] at hopen
        exact (ih c hopen).imp (fun h => { h with }) fun h => { h with }
    | serve d k p outbound server o hk hout ht hok =>
      obtain ⟨ms, -, hcl⟩ := exists_client_afterServe hk p outbound server o c
      have hstatus : (t.client c).status ≠ .closed := by
        change ((afterServe t d k p outbound server o).client c).status ≠ .closed at hopen
        rwa [hcl] at hopen
      rcases ih c hstatus with hent | hjoin
      · by_cases hcd : c = d
        · subst hcd
          exact .inr (hent.join hlog hsign hk hout hok)
        · exact .inl (hent.serve hlog hk hok hcd)
      · exact .inr (hjoin.serve hlog hsign hk hout hok)
    | disconnect d k server o hk hclosed hok =>
      rw [client_disconnect hk rfl c] at hopen ⊢
      have hcd : c ≠ d := by
        rintro rfl
        rw [client_of_some hk] at hopen
        exact hopen hclosed
      rw [if_neg hcd]
      refine (ih c hopen).imp (fun h => { h with log := fun l hl => ?_ }) fun h => { h with signedIn := ?_ }
      · rcases List.mem_append.mp hl with hl | hl
        · exact h.log l hl
        · obtain rfl := List.mem_singleton.mp hl
          rfl
      · obtain ⟨sid, hsid⟩ := h.signedIn
        exact ⟨sid, hsid.step (sessionsFresh_of_run hlog hsign) (Server.step_cases hok).sessionChange
          rfl fun heq => hcd (Event.disconnect.inj heq).symm⟩

end System

end PropertyTree
