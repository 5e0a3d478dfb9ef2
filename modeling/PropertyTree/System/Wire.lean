import PropertyTree.Server.Delivery
import PropertyTree.System.Model

/-!
# What reaches a client

The server encodes what it sends into a buffer of 64 KiB, which is large enough for everything but the
listing of a large tree.  Whatever arrives on its sockets, the messages it sends are such that a client
decodes them again, and each client decodes those that have been sent to it, in order.
-/

namespace PropertyTree

open Library Framing Server

namespace Server

variable {s s' : ProtocolHandler} {e : Event} {o : List Output} {d : Conn} {m : PropertyTreeMessage}

/-! ## The strings of what is sent -/

/-- The strings of an event. -/
def Event.names : Event → List Name
  | .message _ m => m.message.names
  | .disconnect _ => []

/-- No name of a node holds a zero. -/
def NamesTerminated (s : ProtocolHandler) : Prop :=
  ∀ ⦃a : Addr⦄ ⦃n : Node⦄, s.heap[a]? = some n → 0 ∉ n.name

/-- The name of a node. -/
def IsName (s : ProtocolHandler) (name : Name) : Prop :=
  ∃ (a : Addr) (n : Node), s.heap[a]? = some n ∧ n.name = name

/-- A node is named by the request that creates it, once and for all. -/
theorem NamesTerminated.step (h : NamesTerminated s) (hw : WellLinked s)
    (he : ∀ name ∈ e.names, 0 ∉ name) (hstep : StepResult s e s' o) : NamesTerminated s' := by
  have hset : ∀ {a : Addr} {node node' : Node}, s.heap[a]? = some node → node'.name = node.name →
      NamesTerminated (s.setNode a node') := by
    intro a node node' hn hname x n hx
    simp only [ProtocolHandler.setNode, Std.ExtTreeMap.getElem?_insert] at hx
    split_ifs at hx
    · cases hx
      rw [hname]
      exact h hn
    · exact h hx
  cases hstep with
  | create c t name parentUuid p sid node hp hc hn ha =>
    intro x n hx
    rw [insertNode_heap] at hx
    split_ifs at hx
    · cases hx
      exact he name (List.mem_singleton.mpr rfl)
    · cases hx
      exact h (n := node) hn
    · exact h hx
  | setValue c t uuid data a node hterm ha hn => exact hset hn rfl
  | subscribe c t uuid a sid node ha hc hn => exact hset hn rfl
  | unsubscribe c t uuid a sid node w ha hc hn hl => exact hset hn rfl
  | delete c t uuid a node p parent ha hn hch hp hpn =>
    intro x n hx
    rw [hw.removeNode_heap ha hn hp hpn] at hx
    split_ifs at hx
    · cases hx
      exact h (n := parent) hpn
    · exact h hx
  | _ => exact h

/-- What is listed is named like a node. -/
theorem name_of_mem_listedBelow (T : NodeTree s.heap) {a : Addr} {recursive : UInt8} {i : NamedNode}
    (hi : i ∈ listedBelow T a recursive) : IsName s i.name := by
  have hkid : ∀ {q x : Addr} {name : Name}, (name, x) ∈ kids s.heap q → IsName s name := by
    intro q x name hk
    obtain ⟨qn, hq, hx⟩ := mem_kids_iff.mp hk
    obtain ⟨n, hn, hname⟩ := T.child hq hx
    exact ⟨x, n, hn, hname⟩
  unfold listedBelow at hi
  split_ifs at hi
  · obtain ⟨e, he, rfl⟩ := List.mem_map.mp hi
    exact hkid (T.mem_preorder_iff.mp he).2
  · obtain ⟨kc, hk, rfl⟩ := List.mem_map.mp hi
    exact hkid hk

/-- A string that is sent has come with the event, or is the name of a node. -/
theorem StepResult.name_of_mem (h : StepResult s e s' o) (hw : WellLinked s) (hm : .send d m ∈ o)
    {name : Name} (hname : name ∈ m.message.names) :
    name ∈ e.names ∨ IsName s name := by
  have hlisted : ∀ {a : Addr} {recursive : UInt8} {l : List NamedNode} {i : NamedNode} {node : Node},
      s.heap[a]? = some node → ∀ l₀, s.fillToAddListFromTree l₀ a (recursive ≠ 0) = .ok l → i ∈ l →
        i ∈ l₀ ∨ IsName s i.name := by
    intro a recursive l i node hn l₀ hl hi
    rw [fillToAddListFromTree_listedBelow hw.nodeTree hn] at hl
    cases hl
    exact (List.mem_append.mp hi).imp_right (name_of_mem_listedBelow hw.nodeTree)
  cases h with
  | create c t name' parentUuid p sid node hp hc hn ha =>
    rcases List.mem_cons.mp hm with heq | hm
    · cases heq
      cases hname
    · obtain ⟨sid', d', -, heq⟩ := mem_broadcast_iff.mp hm
      cases heq
      exact .inl hname
  | delete c t uuid a node p parent ha hn hch hp hpn =>
    rcases List.mem_cons.mp hm with heq | hm
    · cases heq
      cases hname
    · obtain ⟨sid', d', -, heq⟩ := mem_broadcast_iff.mp hm
      cases heq
      cases hname
  | setValue c t uuid data a node hterm ha hn =>
    rcases List.mem_cons.mp hm with heq | hm
    · cases heq
      cases hname
    · obtain ⟨l, -, hx⟩ := List.mem_flatMap.mp hm
      cases hd : s.listenerConnection c l.1 l.2 with
      | none =>
        rw [hd] at hx
        cases hx
      | some d' =>
        rw [hd] at hx
        cases List.mem_singleton.mp hx
        cases hname
  | treeInfoSelf c t parentUuid recursive p node l hp hn hl =>
    cases List.mem_singleton.mp hm
    obtain ⟨i, hi, rfl⟩ := List.mem_map.mp hname
    exact .inr ((hlisted hn [] hl hi).resolve_left (List.not_mem_nil))
  | treeInfoChild c t parentUuid name' recursive p parent a node l hp hn hname' ha hna hl =>
    cases List.mem_singleton.mp hm
    obtain ⟨i, hi, rfl⟩ := List.mem_map.mp hname
    refine (hlisted hna _ hl hi).imp_left fun hi => ?_
    rw [List.mem_singleton.mp hi]
    exact List.mem_singleton.mpr rfl
  | reply c t m' translation session hm' ht hs =>
    cases hd : session.connectionSession with
    | none =>
      rw [hd] at hm
      cases hm
    | some d' =>
      rw [hd] at hm
      cases List.mem_singleton.mp hm
      rcases hm' with ⟨value, rfl⟩ | ⟨cause, rfl⟩ <;> cases hname
  | _ =>
    first
    | cases hm; done
    | cases List.mem_singleton.mp hm; cases hname
    | cases List.mem_singleton.mp hm

/-- What is sent can be decoded again if it fits into the buffer. -/
theorem encodable_of_encodes {lengthPrefix : ℕ → ℕ} (h : NamesTerminated s) (hw : WellLinked s)
    (he : ∀ name ∈ e.names, 0 ∉ name) (hstep : StepResult s e s' o) (hm : .send d m ∈ o)
    (henc : Encodes lengthPrefix m) : m.message.Encodable := by
  refine PropertyTreeMessages.encodable_of_encodedSize lengthPrefix (fun name hname => ?_) ?_
  · rcases hstep.name_of_mem hw hm hname with hname | ⟨a, n, hn, rfl⟩
    · exact he name hname
    · exact h hn
  · rw [encodes_iff] at henc
    simp only [PropertyTreeProtocol.encodedSize, PropertyTreeMessage.encodedSize, encodeSize] at henc
    omega

end Server

/-! ## What the server reads -/

namespace TcpServer

variable {p : Per} {s s' : TcpServer} {ls : List (SocketEvent × List (Event × List Output))} {c : Conn}

/-- The event is a short message without a zero in its strings, or a disconnect. -/
def Readable (p : Per) (e : Event) : Prop :=
  Short p.lengthPrefix e ∧ ∀ name ∈ e.names, 0 ∉ name

/-- A payload that is handed on has been in the buffer. -/
theorem length_le_of_handleRead {size : ℕ} {r r' : Receiver size} {bs q : List UInt8}
    {out : List (List UInt8)} (h : r.handleRead bs = .ok (r', q :: out)) : q.length ≤ size := by
  unfold Receiver.handleRead at h
  split_ifs at h with hbs hle
  dsimp only at h
  split at h
  · cases h
  · split_ifs at h <;> cases h
    refine (List.length_take_le' ..).trans ?_
    exact (Receiver.store _ _ _).length_mBuff.le

/-- The messages of a payload that has been in the buffer. -/
theorem readable_of_decodePer (hl : p.Lawful) (hp : p.Sized) {x : PropertyTreeProtocol}
    {bs rest : List UInt8} (hlen : bs.length ≤ 512)
    (h : (PropertyTreeProtocol.decodePer p).run bs = some (x, rest)) {m : PropertyTreeMessage}
    (hm : m ∈ x.messages) : Readable p (.message c m) := by
  have henc : m.message.Encodable := by
    obtain ⟨w, hw, -⟩ := (PropertyTreeProtocol.recognizes_decodePer hl bs x rest).mp h
    cases hw with
    | message hspells =>
      obtain rfl := List.mem_singleton.mp hm
      exact hspells.canonical.1
    | array _ hwords => exact (PropertyTreeMessage.canonical_of_words hwords).1 m hm
    | unknown _ _ =>
      obtain rfl := List.mem_singleton.mp hm
      trivial
  refine ⟨?_, henc.names⟩
  rcases PropertyTreeProtocol.encodedSize_le_of_decodePer hl hp h hm with hle | heq
  · simp only [PropertyTreeMessage.encodedSize] at hle
    simp only [Short]
    omega
  · simp [Short, heq, PropertyTreeMessages.encodedSize]

/-- In every run the messages that are handled have been in the buffer. -/
theorem readable_of_run (hl : p.Lawful) (hp : p.Sized) (h : Run (Step p) .init ls s) :
    ∀ x ∈ ls.flatMap Prod.snd, Readable p x.1 := by
  have hquiet : ∀ {c : Conn} {o : List Output}, ∀ x ∈ [(Event.disconnect c, o)], Readable p x.1 := by
    rintro c o x hx
    obtain rfl := List.mem_singleton.mp hx
    exact ⟨trivial, fun name hname => by cases hname⟩
  refine h.history (P := fun ls _ => ∀ x ∈ ls.flatMap Prod.snd, Readable p x.1)
    (fun {ls t l u} ht hstep => ?_) (by simp)
  rw [List.flatMap_append, List.flatMap_singleton]
  refine List.forall_mem_append.mpr ⟨ht, ?_⟩
  obtain ⟨e, l⟩ := l
  cases step_cases hstep.2 with
  | accepted => simp
  | refused => exact hquiet
  | gone => simp
  | ended => exact hquiet
  | part => simp
  | payload c bs socket receiver pMsg out message rest mProto l hs hread hdecode hok =>
    intro x hx
    have hx' := List.mem_map_of_mem (f := Prod.fst) hx
    rw [connection_of_handleMessages hok] at hx'
    obtain ⟨m, hm, heq⟩ := List.mem_map.mp hx'
    rw [← heq]
    exact readable_of_decodePer hl hp (length_le_of_handleRead hread) hdecode hm

/-! ## What the clients read -/

/-- What the server has sent to a connection. -/
def sentBy (c : Conn) (ls : List (SocketEvent × List (Event × List Output))) :
    List PropertyTreeMessage :=
  (ls.flatMap Prod.snd).flatMap fun x => System.sentTo c x.2

theorem mem_sentBy_iff {m : PropertyTreeMessage} :
    m ∈ sentBy c ls ↔ ∃ x ∈ ls.flatMap Prod.snd, .send c m ∈ x.2 := by
  rw [sentBy, List.mem_flatMap]
  refine exists_congr fun x => and_congr_right fun _ => ?_
  rw [System.sentTo, List.mem_filterMap]
  constructor
  · rintro ⟨out, hout, heq⟩
    cases out with
    | terminate => cases heq
    | send d m' =>
      by_cases hdc : d = c
      · obtain rfl : m' = m := by simpa [hdc] using heq
        exact hdc ▸ hout
      · simp [hdc] at heq
  · intro hm
    exact ⟨_, hm, by simp⟩

/-- What is sent to the connections goes out exactly if every message is encoded. -/
theorem exists_sent_iff (hp : p.Sized) :
    (∀ c, ∃ sent, encodeFrames p encodeSize ((sentBy c ls).map .propertyTreeMessage) = some sent) ↔
      ∀ x ∈ ls.flatMap Prod.snd, ∀ d m, .send d m ∈ x.2 → Encodes p.lengthPrefix m := by
  have hone : ∀ c, (∃ sent, encodeFrames p encodeSize ((sentBy c ls).map .propertyTreeMessage) =
      some sent) ↔ ∀ m ∈ sentBy c ls, Encodes p.lengthPrefix m := by
    intro c
    rw [exists_encodeFrames_iff ⟨by decide, by decide⟩, List.forall_mem_map]
    refine forall₂_congr fun m _ => ?_
    rw [PropertyTreeProtocol.length_encodePer hp, encodes_iff]
  rw [forall_congr' hone]
  constructor
  · intro hall x hx d m hm
    exact hall d m (mem_sentBy_iff.mpr ⟨x, hx, hm⟩)
  · intro hall c m hm
    obtain ⟨x, hx, hmem⟩ := mem_sentBy_iff.mp hm
    exact hall x hx c m hmem

/-- In every run everything that is sent and fits into the buffer can be decoded again. -/
theorem encodable_of_run {mProto : ProtocolHandler} {l : List (Event × List Output)}
    (h : Run (Guarded (fun _ x => Readable p x.1) (StepOf ProtocolHandler.step)) .init l mProto) :
    ∀ x ∈ l, ∀ d m, .send d m ∈ x.2 → Encodes p.lengthPrefix m → m.message.Encodable := by
  refine (h.history (P := fun l t => (WellLinked t ∧ NamesTerminated t) ∧ ∀ x ∈ l, ∀ d m,
    .send d m ∈ x.2 → Encodes p.lengthPrefix m → m.message.Encodable) ?_ ⟨⟨wellLinked_init, ?_⟩,
      by simp⟩).2
  · rintro l t x u ⟨⟨hlinked, hnames⟩, hall⟩ ⟨hread, hok⟩
    have hstep := Server.step_cases hok
    refine ⟨⟨hlinked.stateChange hstep.stateChange, hnames.step hlinked hread.2 hstep⟩, ?_⟩
    refine List.forall_mem_append.mpr ⟨hall, List.forall_mem_singleton.mpr fun d m hm henc => ?_⟩
    exact encodable_of_encodes hnames hlinked hread.2 hstep hm henc
  · intro a n hn
    simp only [ProtocolHandler.init] at hn
    grind [rootNode]

/-- In every run of the server on its sockets all its messages are encoded exactly if no
`TreeInfoRequest` asks for more of the tree than one message can list.  Those that are sent to a client
it decodes in order, however the bytes are cut on the way, and all of them once it has read
everything. -/
theorem delivered_of_run (hl : p.Lawful) (hp : p.Sized) (h : Run (Step p) .init ls s) :
    ((∀ c, ∃ sent, encodeFrames p encodeSize ((sentBy c ls).map .propertyTreeMessage) = some sent) ↔
      Run (Guarded (fun s x => ListingFits p.lengthPrefix s x.1) (StepOf ProtocolHandler.step)) .init
        (ls.flatMap Prod.snd) s.mProto) ∧
    ∀ {c sent}, encodeFrames p encodeSize ((sentBy c ls).map .propertyTreeMessage) = some sent →
      ∀ {mBuff : Vector UInt8 (1024 * 64)} {rs : List (List UInt8 × List (List UInt8))}
        {r : Client.Connection}, Run (Guarded Receiver.HeaderWhole Receiver.Step) (.init mBuff) rs r →
          rs.flatMap Prod.fst <+: sent → ∃ done, done <+: sentBy c ls ∧
            (rs.flatMap Prod.fst = sent → done = sentBy c ls) ∧
            (rs.flatMap Prod.snd).map (PropertyTreeProtocol.decodePer p).run =
              done.map fun m => some (.propertyTreeMessage m, []) := by
  have hreadable := readable_of_run hl hp h
  have hproto := (serverRun_of_live (wired_of_run h).2).guarded_of_labels hreadable
  refine ⟨?_, fun {c sent} hsent {mBuff rs r} hrun hread => ?_⟩
  · rw [exists_sent_iff hp, ← hproto.guarded_iff_labels
      (C := fun s x => ListingFits p.lengthPrefix s x.1) (I := fun s => WellLinked s ∧ DataBounded s)]
    · refine ⟨fun hrun => hrun.mono fun _ _ _ hst => ⟨hst.1, hst.2.2⟩, fun hrun => ?_⟩
      exact (hrun.guarded_of_labels hreadable).mono fun _ _ _ hst => ⟨hst.2.1, hst.1, hst.2.2⟩
    · rintro t x u ⟨hlinked, hdata⟩ ⟨hread, hok⟩
      have hstep := Server.step_cases hok
      exact ⟨hlinked.stateChange hstep.stateChange, hdata.step_of_short hlinked hread.1 hstep⟩
    · rintro t x u ⟨hlinked, hdata⟩ ⟨hread, hok⟩
      exact (encodes_iff_of_short hp.size hlinked hdata hread.1 hok).symm
    · refine ⟨wellLinked_init, fun a n hn => ?_⟩
      simp only [ProtocolHandler.init] at hn
      grind [rootNode]
  · refine Receiver.decoded_of_messages hl (.inr rfl) (fun m hm => ?_) hsent hrun hread
    obtain ⟨x, hx, hmem⟩ := mem_sentBy_iff.mp hm
    refine encodable_of_run hproto x hx c m hmem (encodes_iff.mpr ?_)
    have hle := (exists_encodeFrames_iff ⟨by decide, by decide⟩).mp ⟨sent, hsent⟩ _
      (List.mem_map_of_mem (f := PropertyTreeProtocol.propertyTreeMessage) hm)
    rwa [PropertyTreeProtocol.length_encodePer hp] at hle

/-- The client that has got the descriptor of a lost one decodes the answer to its sign-in and the
notification of the new node, which it reads in two parts. -/
theorem delivered_reconnect : ∃ (ls : List (SocketEvent × List (Event × List Output)))
    (s : TcpServer) (rs : List (List UInt8 × List (List UInt8))),
    Run (Step Per.littleEndian) .init ls s ∧ (sentBy 2 ls).length = 2 ∧
      rs.map Prod.fst = [[8, 0], [0, 1, 0, 1, 0, 0, 0, 0], [30, 0], [0, 255, 255, 11, 1, 0, 0, 0, 97, 0],
        [1, 0, 0, 0, 0, 0, 0, 0, 0, 0, 0, 0, 0, 0, 0, 0, 0, 0, 0, 0]] ∧
      (rs.flatMap Prod.snd).map (PropertyTreeProtocol.decodePer Per.littleEndian).run =
        (sentBy 2 ls).map fun m => some (.propertyTreeMessage m, []) := by
  obtain ⟨s, t, -, hrun, hstep⟩ := exists_run_reconnect
  have hrun' := (hrun.snoc hstep).mono fun _ _ _ h => h.2
  obtain ⟨⟨r, rs⟩, hexec⟩ := Option.isSome_iff_exists.mp (show (execute Receiver.handleRead
      Receiver.readsWhole (Receiver.init (.replicate (1024 * 64) 0))
        [[8, 0], [0, 1, 0, 1, 0, 0, 0, 0], [30, 0], [0, 255, 255, 11, 1, 0, 0, 0, 97, 0],
          [1, 0, 0, 0, 0, 0, 0, 0, 0, 0, 0, 0, 0, 0, 0, 0, 0, 0, 0, 0]]).isSome = true by
            decide +kernel)
  have hreads := map_fst_of_execute _ hexec
  have hbytes : rs.flatMap Prod.fst = [8, 0, 0, 1, 0, 1, 0, 0, 0, 0, 30, 0, 0, 255, 255, 11, 1, 0, 0, 0,
      97, 0, 1, 0, 0, 0, 0, 0, 0, 0, 0, 0, 0, 0, 0, 0, 0, 0, 0, 0, 0, 0] := by
    rw [List.flatMap_def, hreads]
    rfl
  have hsent : encodeFrames Per.littleEndian encodeSize
      ((sentBy 2 (reconnectEvents.zip reconnectOutputs ++ [createRead])).map .propertyTreeMessage) =
        some [8, 0, 0, 1, 0, 1, 0, 0, 0, 0, 30, 0, 0, 255, 255, 11, 1, 0, 0, 0, 97, 0, 1, 0, 0, 0, 0, 0,
          0, 0, 0, 0, 0, 0, 0, 0, 0, 0, 0, 0, 0, 0] := rfl
  obtain ⟨done, -, hall, hdec⟩ := (delivered_of_run Per.lawful_littleEndian Per.sized_littleEndian hrun').2
    hsent (Receiver.run_of_reads hexec) (by rw [hbytes])
  obtain rfl := hall hbytes
  exact ⟨_, t, rs, hrun', rfl, hreads, hdec⟩

end TcpServer

end PropertyTree
