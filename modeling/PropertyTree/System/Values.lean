import PropertyTree.Client.Values
import PropertyTree.Library.Linearization
import PropertyTree.Server.Values
import PropertyTree.System.Replies
import PropertyTree.System.Staleness
import PropertyTree.System.Subscriptions

/-!
# What a client is told of a value

A client that is subscribed to a node is sent its values as updates, and a `fetch` asks for the value.
The reader and the caller of `fetch` write into the same field.  `CacheChange` tells what a step of the
system does to what is on its way to the field, to the answers that the callers have got, and to the
field itself, as long as the client listens.
-/

namespace PropertyTree.System

open Library Server Client

variable {s s' : System} {act : System.Action} {c d : Conn} {k k' : Client} {u : UInt64} {x : Addr}

/-! ## What is on its way -/

/-- What a packet tells the client on `c` of the value of the node `u`. -/
def reportOf (requests : List (Conn × PropertyTreeMessage)) (c : Conn) (u : UInt64) (p : Packet) :
    Option (Report Buffer) :=
  match p.message.message with
  | .updateNotification v data => if v = u then some (.update data) else none
  | .getAccept data =>
    if (requests[p.tag]?).any fun q => q.1 = c ∧ q.2.message = .getRequest u then some (.got data)
    else none
  | _ => none

/-- What is on its way to the object at `x` of the client on `c`: what its reader is about to write,
and what its inbound queue tells of the node `u`. -/
def onItsWay (s : System) (c : Conn) (u : UInt64) (x : Addr) : List (Report Buffer) :=
  ((s.client c).toWrite x).map .update ++ (s.client c).inbound.filterMap (reportOf s.requests c u)

/-- The client listens to the node `u`, which it has at `x`. -/
structure Watches (c : Conn) (u : UInt64) (x : Addr) (s : System) : Prop where
  listens : ListensTo s.server c u
  node : (s.client c).mirror.mTree[u]? = some x

/-- The values that have been set on the node `u`, in order. -/
def valuesSet (u : UInt64) (s : System) : List Buffer :=
  s.log.flatMap (acceptedValue u)

/-- A step of the server reports `new` of the value of the node `u`. -/
inductive Adds (u : UInt64) (s s' : System) : List (Report Buffer) → Prop
  | nothing (hv : s'.server.dataAt u = s.server.dataAt u) (hset : valuesSet u s' = valuesSet u s) :
      Adds u s s' []
  | pushed (data) (hv : s'.server.dataAt u = some data)
      (hset : valuesSet u s' = valuesSet u s ++ [data]) : Adds u s s' [.update data]
  | answered (data) (hv : s.server.dataAt u = some data) (hv' : s'.server.dataAt u = some data)
      (hset : valuesSet u s' = valuesSet u s) : Adds u s s' [.got data]

/-- A step that takes nothing off the queue may put reports behind what is on its way. -/
def Moves (c : Conn) (u : UInt64) (x : Addr) (s s' : System) : Prop :=
  ∃ new, Adds u s s' new ∧ s'.onItsWay c u x = s.onItsWay c u x ++ new

/-- A step that has nothing to do with the value. -/
theorem Moves.same (h : s'.onItsWay c u x = s.onItsWay c u x)
    (hv : s'.server.dataAt u = s.server.dataAt u) (hset : valuesSet u s' = valuesSet u s) :
    Moves c u x s s' :=
  ⟨[], .nothing hv hset, h.trans (List.append_nil _).symm⟩

/-! ## The server's side -/

/-- The requests on record are those that were, and more. -/
theorem reportOf_append {requests : List (Conn × PropertyTreeMessage)}
    (l : List (Conn × PropertyTreeMessage)) {p : Packet} (hp : p.tag < requests.length) :
    reportOf (requests ++ l) c u p = reportOf requests c u p := by
  unfold reportOf
  rw [List.getElem?_append_left hp]

/-- Without an answer to a request of a value, the reports are the updates. -/
theorem reports_of_updates (requests : List (Conn × PropertyTreeMessage)) (tag : ℕ) (u : UInt64)
    {o : List Output} (hget : ∀ t data, Output.send c ⟨t, .getAccept data⟩ ∉ o) :
    ((sentTo c o).map (⟨tag, ·⟩)).filterMap (reportOf requests c u) =
      (updatesTo c u o).map .update := by
  rw [sentTo, updatesTo, List.filterMap_map, List.filterMap_filterMap, List.map_filterMap]
  refine List.filterMap_congr fun x hx => ?_
  cases x with
  | terminate => rfl
  | send d m =>
    obtain ⟨t, m⟩ := m
    by_cases hdc : d = c
    · subst hdc
      cases m with
      | updateNotification v data => by_cases hvu : v = u <;> simp [reportOf, hvu]
      | getAccept data => exact absurd hx (hget t data)
      | _ => simp [reportOf]
    · cases m <;> simp [hdc]

/-- What the outputs of a step tell a client that listens: the value that is set, or the value that it
has asked for. -/
theorem reports_of_serve {requests : List (Conn × PropertyTreeMessage)} {s₀ s₁ : ProtocolHandler}
    {p : Packet} {o : List Output} (hp : Outgoing requests d p)
    (hres : Server.StepResult s₀ (.message d p.message) s₁ o)
    (hto : updatesTo c u o = acceptedValue u (.message d p.message, o)) :
    ((sentTo c o).map (⟨p.tag, ·⟩)).filterMap (reportOf requests c u) =
        (acceptedValue u (.message d p.message, o)).map .update ∨
      ∃ data, ((sentTo c o).map (⟨p.tag, ·⟩)).filterMap (reportOf requests c u) = [.got data] ∧
        s₀.dataAt u = some data ∧ s₁ = s₀ ∧ acceptedValue u (.message d p.message, o) = [] := by
  by_cases hget : ∃ t data, Output.send c ⟨t, .getAccept data⟩ ∈ o
  · obtain ⟨t, data, hmem⟩ := hget
    obtain ⟨w, he, rfl, hdata, rfl⟩ := hres.dataAt_of_getAccept hmem
    obtain ⟨rfl, hm⟩ := Event.message.inj he
    have hasked : requests[p.tag]? = some (d, ⟨t, .getRequest w⟩) := by
      rcases hp with ⟨-, hp⟩ | hreply
      · rw [hp, hm]
      · rw [hm] at hreply
        cases hreply
    by_cases hwu : w = u
    · subst hwu
      exact .inr ⟨data, by simp [sentTo, reportOf, hasked], hdata, rfl, by rw [hm]; rfl⟩
    · refine .inl ?_
      rw [hm]
      simp [sentTo, reportOf, hasked, hwu, acceptedValue]
  · refine .inl ?_
    rw [← hto]
    exact reports_of_updates requests p.tag u fun t data hmem => hget ⟨t, data, hmem⟩

/-! ## What a step moves -/

/-- The requests that are sent make no difference to what has been on its way. -/
theorem onItsWay_congr (hnum : Numbered s) {l : List (Conn × PropertyTreeMessage)}
    (hreq : s'.requests = s.requests ++ l) (hin : (s'.client c).inbound = (s.client c).inbound)
    (hto : (s'.client c).toWrite x = (s.client c).toWrite x) :
    s'.onItsWay c u x = s.onItsWay c u x := by
  rw [onItsWay, onItsWay, hin, hto, hreq]
  congr 1
  exact List.filterMap_congr fun p hp => reportOf_append l (hnum.inbound hp)

/-- A packet is taken off the queue of a reader that has nothing to write. -/
theorem onItsWay_cons (hnum : Numbered s) {l : List (Conn × PropertyTreeMessage)}
    (hreq : s'.requests = s.requests ++ l) {p : Packet}
    (hin : (s.client c).inbound = p :: (s'.client c).inbound) (hto : (s.client c).toWrite x = []) :
    s.onItsWay c u x = (reportOf s.requests c u p).toList ++
      (s'.client c).inbound.filterMap (reportOf s'.requests c u) := by
  have hold : (s'.client c).inbound.filterMap (reportOf s'.requests c u) =
      (s'.client c).inbound.filterMap (reportOf s.requests c u) := by
    rw [hreq]
    exact List.filterMap_congr fun q hq =>
      reportOf_append l (hnum.inbound (hin ▸ List.mem_cons_of_mem p hq))
  rw [onItsWay, hto, hold, hin, List.filterMap_cons]
  cases reportOf s.requests c u p <;> rfl

/-- The reader writes what it has, which is the first of what is on its way. -/
theorem onItsWay_update (hnum : Numbered s) {l : List (Conn × PropertyTreeMessage)} {data : Buffer}
    (hreq : s'.requests = s.requests ++ l) (hin : (s'.client c).inbound = (s.client c).inbound)
    (hto : (s.client c).toWrite x = [data]) (hto' : (s'.client c).toWrite x = []) :
    s.onItsWay c u x = .update data :: s'.onItsWay c u x := by
  have hold : (s'.client c).inbound.filterMap (reportOf s'.requests c u) =
      (s.client c).inbound.filterMap (reportOf s.requests c u) := by
    rw [hin, hreq]
    exact List.filterMap_congr fun q hq => reportOf_append l (hnum.inbound hq)
  rw [onItsWay, onItsWay, hto, hto', hold]
  rfl

/-- A client that has a node exists. -/
theorem Watches.client_ne_none (h : Watches c u x s) : s.clients[c]? ≠ none := by
  intro hnone
  have hnode := h.node
  rw [client, hnone] at hnode
  simp [Client.new, Mirror.empty] at hnode

/-- The server's step reports to a client that listens the value that is set, or the value it has asked
for. -/
theorem adds_of_serve (hlive : Run (Reaching OneToOne LiveStep) .init s.log s.server)
    (hi : Indexed s.server) (hsound : Sound s) (hl : ListensTo s.server c u) {p : Packet}
    {outbound : List Packet} {server : ProtocolHandler} {o : List Output} (hk : s.clients[d]? = some k)
    (hout : k.outbound = p :: outbound) (hstep : LiveStep s.server (.message d p.message, o) server)
    (hl' : ListensTo server c u) : Adds u s (afterServe s d k p outbound server o)
      (((sentTo c o).map (⟨p.tag, ·⟩)).filterMap (reportOf s.requests c u)) := by
  obtain ⟨hone, hlinked, hlist, hon⟩ := listens_of_run hlive
  have hres := Server.step_cases hstep.2
  have hto := updatesTo_step hlist hone hstep hlinked (hon c u)
  rw [if_pos ((hon c u).mpr hl)] at hto
  have hlog : valuesSet u (afterServe s d k p outbound server o) =
      valuesSet u s ++ acceptedValue u (.message d p.message, o) := by
    simp [valuesSet, afterServe]
  have hdata := (hres.dataChange hlinked hi).dataAt_of_listens hi hl hl'
  have hp := hsound.outbound hk (hout ▸ List.mem_cons_self)
  rcases reports_of_serve hp hres hto with hnew | ⟨data, hnew, hv, hsame, hnil⟩
  · rw [hnew]
    rcases hdata with ⟨hnil, hv⟩ | ⟨data, hset, hv⟩
    · rw [hnil, List.append_nil] at hlog
      rw [hnil]
      exact .nothing hv hlog
    · rw [hset] at hlog ⊢
      exact .pushed data hv hlog
  · rw [hnew]
    rw [hnil, List.append_nil] at hlog
    exact .answered data hv (by rw [afterServe, hsame]; exact hv) hlog

/-- What a step does to what is on its way, to the answers that are waited for, and to the value that
is cached. -/
inductive CacheChange (c : Conn) (u : UInt64) (x : Addr) (s s' : System) : System.Action → Prop
  | moves (a) (h : Moves c u x s s')
      (hans : ∀ ⦃i tag data⦄, (s'.client c).answer i x = some ⟨tag, .getAccept data⟩ →
        (s.client c).answer i x = some ⟨tag, .getAccept data⟩)
      (hkeep : (s.client c).mirror.KeepsData x (s'.client c).mirror) : CacheChange c u x s s' a
  | heard (data) (h : s.onItsWay c u x = .got data :: s'.onItsWay c u x)
      (hv : s'.server.dataAt u = s.server.dataAt u) (hset : valuesSet u s' = valuesSet u s)
      (hans : ∀ ⦃i tag d⦄, (s'.client c).answer i x = some ⟨tag, .getAccept d⟩ →
        (s.client c).answer i x = some ⟨tag, .getAccept d⟩ ∨ d = data)
      (hkeep : (s.client c).mirror.KeepsData x (s'.client c).mirror) :
      CacheChange c u x s s' (.client c .read)
  | set (i value) (h : Moves c u x s s') (hans : Client.Unanswered x (s.client c) (s'.client c)) :
      CacheChange c u x s s' (.client c (.start i (.set x value)))
  | fetch (i tag data) (h : Moves c u x s s')
      (hi : (s.client c).answer i x = some ⟨tag, .getAccept data⟩)
      (hans : Client.Unanswered x (s.client c) (s'.client c))
      (hm : (s.client c).mirror.Writes x data (s'.client c).mirror) :
      CacheChange c u x s s' (.client c (.proceed i))
  | update (data) (h : s.onItsWay c u x = .update data :: s'.onItsWay c u x)
      (hv : s'.server.dataAt u = s.server.dataAt u) (hset : valuesSet u s' = valuesSet u s)
      (hto : (s.client c).toWrite x = [data])
      (hans : Client.Unanswered x (s.client c) (s'.client c))
      (hm : (s.client c).mirror.Writes x data (s'.client c).mirror) :
      CacheChange c u x s s' (.client c .update)

/-- A notification is in no transaction, so what satisfies one is no update. -/
theorem reportOf_of_satisfy (hapart : Apart s c (s.client c)) {p : Packet}
    (hp : p ∈ (s.client c).inbound)
    (hx : (s.client c).mTransactions[p.message.transactionId]? ≠ none) :
    reportOf s.requests c u p = none ∨ ∃ data, p.message.message = .getAccept data ∧
      reportOf s.requests c u p = some (.got data) := by
  obtain ⟨tag, t, m⟩ := p
  cases m with
  | updateNotification v data =>
    exfalso
    obtain ⟨e, he⟩ := Option.ne_none_iff_exists'.mp hx
    rcases hapart.inbound hp with ⟨-, hid⟩ | hcall | hresp
    · exact (hapart.transactions he).1 hid
    · cases hcall
    · cases hresp.isServerInitiated
  | getAccept data =>
    by_cases hasked : (s.requests[tag]?).any fun q => q.1 = c ∧ q.2.message = .getRequest u
    · exact .inr ⟨data, rfl, if_pos hasked⟩
    · exact .inl (if_neg hasked)
  | _ => exact .inl rfl

/-- The answer that satisfies the wait of a `fetch` is a report of the node's value. -/
theorem reportOf_of_answer (hnum : Numbered s) (hsound : Sound s')
    {l : List (Conn × PropertyTreeMessage)} (hreq : s'.requests = s.requests ++ l)
    {gone : List (Conn × UInt16)} (hown : Owned s' gone c (s'.client c)) (hw : Watches c u x s')
    {p : Packet} (hp : p ∈ (s.client c).inbound) {i : ThreadId} {n : ℕ} {data : Buffer}
    (hi : (s'.client c).threads[i]? = some ⟨.fetch x, .waiting p.message.transactionId n⟩)
    (hx : (s'.client c).mTransactions[p.message.transactionId]? = some (⟨true, p.body⟩ : Transaction))
    (hdata : p.message.message = .getAccept data) :
    reportOf s.requests c u p = some (.got data) := by
  have hwait : (s'.client c).wait i = some (p.message.transactionId, n, none) := by
    rw [wait, hi]
    rfl
  obtain rfl : n = p.tag := by
    rcases hown.stored hx with hgone | ⟨j, m', hj⟩
    · exact absurd hgone (hown.live hwait)
    · obtain rfl := hown.inj hj hwait
      rw [hwait] at hj
      cases hj
      rfl
  obtain ⟨kc, hkc⟩ := Option.ne_none_iff_exists'.mp hw.client_ne_none
  have hclient := client_of_some hkc
  rw [hclient] at hi
  obtain ⟨t, q, hq, node, rfl, hnode⟩ := (hsound.threads hkc i _ hi).sent rfl
  obtain ⟨n₀, hn₀, huuid⟩ := hnode x rfl
  obtain ⟨n₁, hn₁, hu⟩ := (hsound.mirror hkc).mTree_heap (hclient ▸ hw.node)
  rw [hn₀] at hn₁
  cases hn₁
  have hold : s.requests[p.tag]? = some (c, ⟨t, .getRequest u⟩) := by
    rw [hreq, List.getElem?_append_left (hnum.inbound hp)] at hq
    rw [hq, ← hu, huuid]
    rfl
  rw [reportOf, hdata]
  simp [hold]

/-- The reader hands a message that satisfies no transaction to its handler: an update of the node is
kept for it, and an answer is lost. -/
theorem cacheChange_of_dispatch (hnum : Numbered s) (hsound : Sound s)
    {l : List (Conn × PropertyTreeMessage)} (hreq : s'.requests = s.requests ++ l)
    (hw : Watches c u x s) {p : Packet} (hin : (s.client c).inbound = p :: (s'.client c).inbound)
    (hto : (s.client c).toWrite x = [])
    (hto' : (s'.client c).toWrite x = match p.message.message with
      | .updateNotification v data => if (s.client c).mirror.mTree[v]? = some x then [data] else []
      | _ => [])
    (hv : s'.server.dataAt u = s.server.dataAt u) (hset : valuesSet u s' = valuesSet u s)
    (hans : Client.Unanswered x (s.client c) (s'.client c))
    (hkeep : (s.client c).mirror.KeepsData x (s'.client c).mirror) :
    CacheChange c u x s s' (.client c .read) := by
  have hcons := onItsWay_cons (u := u) hnum hreq hin hto
  have hsame : s'.onItsWay c u x = s.onItsWay c u x → CacheChange c u x s s' (.client c .read) :=
    fun h => .moves _ (.same h hv hset) (fun i tag data hi => hans hi) hkeep
  have hway : s'.onItsWay c u x = ((s'.client c).toWrite x).map .update ++
      (s'.client c).inbound.filterMap (reportOf s'.requests c u) := rfl
  obtain ⟨kc, hkc⟩ := Option.ne_none_iff_exists'.mp hw.client_ne_none
  have hnode : (s.client c).mirror.mTree[u]? = some x := hw.node
  obtain ⟨tag, t, m⟩ := p
  cases m with
  | updateNotification v data =>
    by_cases hvu : v = u
    · subst hvu
      refine hsame ?_
      rw [hway, hto', hcons]
      simp [reportOf, hnode]
    · -- no other node is at the same place
      have hne : (s.client c).mirror.mTree[v]? ≠ some x := by
        intro hvx
        rw [client_of_some hkc] at hnode hvx
        obtain ⟨n, hn, hnu⟩ := (hsound.mirror hkc).mTree_heap hnode
        obtain ⟨n', hn', hnv⟩ := (hsound.mirror hkc).mTree_heap hvx
        rw [hn] at hn'
        cases hn'
        exact hvu (hnv.symm.trans hnu)
      refine hsame ?_
      rw [hway, hto', hcons]
      simp [reportOf, hvu, hne]
  | getAccept data =>
    rw [hto', List.map_nil, List.nil_append] at hway
    rw [← hway] at hcons
    by_cases hasked : (s.requests[tag]?).any fun q => q.1 = c ∧ q.2.message = .getRequest u
    · rw [show reportOf s.requests c u ⟨tag, t, .getAccept data⟩ = some (.got data) from
        if_pos hasked] at hcons
      exact .heard data hcons hv hset (fun i tag d hi => .inl (hans hi)) hkeep
    · rw [show reportOf s.requests c u ⟨tag, t, .getAccept data⟩ = none from if_neg hasked] at hcons
      exact hsame hcons.symm
  | _ =>
    rw [hto', List.map_nil, List.nil_append] at hway
    rw [← hway] at hcons
    exact hsame hcons.symm

/-- A step of the client itself. -/
theorem cacheChange_of_client (hnum : Numbered s) (hapart : Apart s c (s.client c)) (hsound : Sound s)
    (hsound' : Sound s') {l : List (Conn × PropertyTreeMessage)} (hreq : s'.requests = s.requests ++ l)
    (hserver : s'.server = s.server) (hlog : s'.log = s.log) {gone : List (Conn × UInt16)}
    (hown : Owned s' gone c (s'.client c)) (hw : Watches c u x s) (hw' : Watches c u x s')
    {a : Client.Action} (h : ValueChange x (s.client c) (s'.client c) a) :
    CacheChange c u x s s' (.client c a) := by
  have hv : s'.server.dataAt u = s.server.dataAt u := by rw [hserver]
  have hset : valuesSet u s' = valuesSet u s := by rw [valuesSet, hlog, valuesSet]
  cases h with
  | quiet a hin hto hans hkeep =>
    exact .moves _ (.same (onItsWay_congr hnum hreq hin hto) hv hset)
      (fun i tag data hi => hans hi) hkeep
  | set i value hin hto hans hm =>
    exact .set i value (.same (onItsWay_congr hnum hreq hin hto) hv hset) hans
  | fetch i tag data hi hin hto hans hm =>
    exact .fetch i tag data (.same (onItsWay_congr hnum hreq hin hto) hv hset) hi hans hm
  | satisfy p hin hto hto' hx hans hkeep =>
    have hcons : s.onItsWay c u x = (reportOf s.requests c u p).toList ++ s'.onItsWay c u x := by
      rw [onItsWay_cons hnum hreq hin hto, onItsWay, hto']
      rfl
    have hp : p ∈ (s.client c).inbound := hin ▸ List.mem_cons_self
    -- an answer that a call has got is that to its own request
    have hnew : ∀ ⦃i tag data⦄, (s'.client c).answer i x = some ⟨tag, .getAccept data⟩ →
        (s.client c).answer i x = some ⟨tag, .getAccept data⟩ ∨
          reportOf s.requests c u p = some (.got data) := by
      intro i tag data hi
      rcases hans hi with hold | ⟨hr, n, hth, htr⟩
      · exact .inl hold
      · have hdata : p.message.message = .getAccept data := congrArg Tagged.message hr.symm
        exact .inr (reportOf_of_answer hnum hsound' hreq hown hw' hp hth (hr ▸ htr) hdata)
    rcases reportOf_of_satisfy hapart hp hx with hnone | ⟨data, -, hgot⟩
    · rw [hnone] at hcons hnew
      exact .moves _ (.same hcons.symm hv hset) (fun i tag data hi => (hnew hi).resolve_right nofun)
        hkeep
    · rw [hgot] at hcons hnew
      refine .heard data hcons hv hset (fun i tag d hi => (hnew hi).imp_right fun heq => ?_) hkeep
      cases heq
      rfl
  | dispatch p hin hto hto' hx hans hkeep =>
    exact cacheChange_of_dispatch hnum hsound hreq hw hin hto hto' hv hset hans hkeep
  | update data hin hto hto' hans hm =>
    exact .update data (onItsWay_update hnum hreq hin hto hto') hv hset hto hans hm

/-! ## Runs -/

/-- What the property of this file needs of every step of the system. -/
def FewUndisturbed (s : System) (a : System.Action) : Prop :=
  Undisturbed s a ∧ FewCreates s a

/-- A step is one of the client on `c`, or at most puts something new at the end of its queue, which
reports what the step does to the value of the node `u`. -/
inductive Around (c : Conn) (u : UInt64) (s s' : System) : System.Action → Prop
  | own (a k' sent) (hstep : Client.StepResult (s.client c) s.requests.length a k' sent)
      (hcl : s'.client c = { k' with outbound := k'.outbound ++ sent })
      (hreq : s'.requests = s.requests ++ requestsOf c sent) (hserver : s'.server = s.server)
      (hlog : s'.log = s.log) : Around c u s s' (.client c a)
  | others (act l new outbound) (hreq : s'.requests = s.requests ++ l)
      (hcl : s'.client c = { s.client c with
        inbound := (s.client c).inbound ++ new, outbound := outbound })
      (hadds : Adds u s s' (new.filterMap (reportOf s'.requests c u))) : Around c u s s' act

/-- A step that the client on `c` does not notice. -/
theorem Around.same {l : List (Conn × PropertyTreeMessage)} (hreq : s'.requests = s.requests ++ l)
    (hcl : s'.client c = s.client c) (hv : s'.server.dataAt u = s.server.dataAt u)
    (hset : valuesSet u s' = valuesSet u s) : Around c u s s' act :=
  .others act l [] (s.client c).outbound hreq (by rw [hcl, List.append_nil]) (.nothing hv hset)

/-- The end of a connection leaves a value alone that a client listens to. -/
theorem dataAt_of_disconnect (hlinked : WellLinked s.server) (hi : Indexed s.server)
    (hl : ListensTo s.server c u) {server : ProtocolHandler} {o : List Output}
    (hok : s.server.step (.disconnect d) = .ok (server, o)) (hl' : ListensTo server c u) :
    server.dataAt u = s.server.dataAt u := by
  rcases ((Server.step_cases hok).dataChange hlinked hi).dataAt_of_listens hi hl hl' with
    ⟨-, h⟩ | ⟨data, h, -⟩
  · exact h
  · cases h

/-- A step between states in which the client listens. -/
theorem around_of_step {as : List System.Action} (hrun : Run (Guarded FewUndisturbed Step) .init as s)
    (hstep : StepResult s act s') (hw : Watches c u x s) (hw' : Watches c u x s') :
    Around c u s s' act := by
  have hlinked := wellLinked_of_run (log_of_run hrun.of_guarded)
  have hi := indexed_of_run (log_of_run hrun.of_guarded) (creates_of_run (fun h => h.2) hrun)
  cases hstep with
  | connect d hd => exact .same (List.append_nil _).symm (client_connect hd c) rfl rfl
  | client d a k k' sent hk hopen hres =>
    by_cases hcd : c = d
    · subst hcd
      refine .own a k' sent (client_of_some hk ▸ hres) ?_ rfl rfl rfl
      rw [client_of_clients rfl, if_pos rfl]
    · refine .same rfl ?_ rfl rfl
      rw [client_of_clients rfl, if_neg hcd]
  | serve d k p outbound server o hk hout ht hok =>
    obtain ⟨kc, hkc⟩ := Option.ne_none_iff_exists'.mp hw.client_ne_none
    have hlive : LiveStep s.server (.message d p.message, o) server :=
      ⟨(droppedClosed_of_run hrun.of_guarded).not_mem hk hout, hok⟩
    exact .others _ [] _ _ (List.append_nil _).symm (client_afterServe_of_some hk hkc)
      (adds_of_serve (liveRun_of_run (fun h => h.1.1.1) hrun) hi (sound_of_run hrun.of_guarded)
        hw.listens hk hout hlive hw'.listens)
  | disconnect d k server o hk hclosed hok =>
    have hdata := dataAt_of_disconnect hlinked hi hw.listens hok hw'.listens
    refine .others _ [] [] (if c = d then [] else (s.client c).outbound) (List.append_nil _).symm ?_
      (.nothing hdata (by simp [valuesSet, acceptedValue]))
    rw [client_disconnect hk rfl c, List.append_nil]

/-- What it does to the value that is cached. -/
theorem Around.cacheChange (h : Around c u s s' act) (hnum : Numbered s)
    (hapart : Apart s c (s.client c)) (hsound : Sound s) (hsound' : Sound s')
    {gone : List (Conn × UInt16)} (hown : Owned s' gone c (s'.client c))
    (henters : ∀ a, act = .client c a → EntersUnsatisfied (s.client c) a)
    (hw : Watches c u x s) (hw' : Watches c u x s') : CacheChange c u x s s' act := by
  cases h with
  | own a k' sent hstep hcl hreq hserver hlog =>
    refine cacheChange_of_client hnum hapart hsound hsound' hreq hserver hlog hown hw hw' ?_
    rw [hcl]
    exact (hstep.valueChange hw.node (henters a rfl)).outbound _
  | others act l new outbound hreq hcl hadds =>
    refine .moves _ ⟨_, hadds, ?_⟩ ?_ ?_
    · rw [onItsWay, onItsWay, hcl, List.filterMap_append, ← List.append_assoc, hreq]
      congr 2
      exact List.filterMap_congr fun p hp => reportOf_append l (hnum.inbound hp)
    · rw [hcl]
      exact fun i tag data hi => hi
    · rw [hcl]
      exact .refl x _

/-- The condition under which nothing is lost or mixed up on its way to a client. -/
def Orderly (w : Watched) (a : System.Action) : Prop :=
  Settled w a ∧ FewCreates w.system a

instance (w : Watched) (a : System.Action) : Decidable (Orderly w a) :=
  inferInstanceAs (Decidable (Settled w a ∧ FewCreates w.system a))

section Run

variable {w w' : Watched} {a : System.Action} {as : List System.Action}

/-- In an orderly run every call gets its own response. -/
theorem settled_of_orderly (h : Run (Guarded Orderly Watched.Step) .init as w) :
    Run (Guarded Settled Watched.Step) .init as w :=
  h.mono fun _ _ _ hst => ⟨hst.1.1, hst.2⟩

/-- An orderly run is one of the system. -/
theorem system_of_orderly (h : Run (Guarded Orderly Watched.Step) .init as w) :
    Run (Guarded FewUndisturbed Step) .init as w.system :=
  h.map (f := Watched.system) fun _ _ _ hst => ⟨⟨hst.1.1.1, hst.1.2⟩, (Watched.step_iff.mp hst.2).1⟩

/-- A step of the watched system between states in which the client listens. -/
theorem around_of_run (hrun : Run (Guarded Orderly Watched.Step) .init as w)
    (hstep : Guarded Orderly Watched.Step w a w') (hw : Watches c u x w.system)
    (hw' : Watches c u x w'.system) : Around c u w.system w'.system a :=
  around_of_step (system_of_orderly hrun) (step_cases (Watched.step_iff.mp hstep.2).1) hw hw'

/-- What it does to the value that is cached. -/
theorem cacheChange_of_run (hrun : Run (Guarded Orderly Watched.Step) .init as w)
    (hstep : Guarded Orderly Watched.Step w a w') (hw : Watches c u x w.system)
    (hw' : Watches c u x w'.system) : CacheChange c u x w.system w'.system a := by
  have hsys := system_of_orderly hrun
  have hsys' := system_of_orderly (hrun.snoc hstep)
  refine (around_of_run hrun hstep hw hw').cacheChange (numbered_of_run hsys.of_guarded)
    (apart_of_run (fun h => h.1) hsys c) (sound_of_run hsys.of_guarded) (sound_of_run hsys'.of_guarded)
    (owned_of_run (settled_of_orderly (hrun.snoc hstep)) c) ?_ hw hw'
  rintro b rfl
  cases b with
  | send i =>
    intro call q t hi e he
    -- the id is new
    obtain ⟨hgone, hfree⟩ := Watched.not_used hstep.1.1.2 (t := t) (by rw [hi]; rfl)
    rcases (owned_of_run (settled_of_orderly hrun) c).entry he with hmem | ⟨j, y, hj⟩
    · exact absurd hmem hgone
    · exact absurd hj (hfree j y)
  | _ => trivial

end Run

end PropertyTree.System
