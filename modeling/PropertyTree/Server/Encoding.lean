import PropertyTree.Server.Lookup
import PropertyTree.Server.Outputs

/-!
# The size of what the server sends

The sizes the codec gives the messages, and `ProtocolHandler::encode`, which has a buffer of 64 KiB.
What a client can put into one payload comes back in messages that are hardly larger, but a
`TreeInfoResponse` is as large as the part of the tree it lists.
-/

namespace PropertyTree

/-! ## The sizes of the messages -/

section Sizes

-- the size of the length in front of a dynamic array, by its number of elements
variable (lengthPrefix : ℕ → ℕ)

/-- The size of a string: its bytes and one more. -/
def stringSize (name : Name) : ℕ :=
  name.length + 1

/-- The size of a `Buffer`. -/
def bufferSize (data : Buffer) : ℕ :=
  lengthPrefix data.length + data.length

/-- The size of a `NamedNode`. -/
def NamedNode.encodedSize (i : NamedNode) : ℕ :=
  stringSize i.name + 8 + 8

/-- The size of a `NamedNodeList`. -/
def namedNodeListSize (l : List NamedNode) : ℕ :=
  lengthPrefix l.length + (l.map NamedNode.encodedSize).sum

/-- The size of an alternative of `PropertyTreeMessages`, without its tag. -/
def PropertyTreeMessages.encodedSize : PropertyTreeMessages → ℕ
  | signinRequest _ => 1
  | signinAccept _ => 4
  | createRequest name _ => stringSize name + 8
  | createAccept _ => 8
  | createReject _ => 1
  | getRequest _ => 8
  | getAccept data => bufferSize lengthPrefix data
  | getReject _ => 1
  | treeInfoRequest _ name _ => 8 + stringSize name + 1
  | treeInfoResponse l => namedNodeListSize lengthPrefix l
  | treeInfoErrorResponse _ => 1
  | treeUpdateNotification l uuids =>
    namedNodeListSize lengthPrefix l + (lengthPrefix uuids.length + 8 * uuids.length)
  | deleteRequest _ => 8
  | deleteResponse _ => 1
  | setValueRequest _ data => 8 + bufferSize lengthPrefix data
  | setValueAccept _ => 1
  | setValueReject _ => 1
  | subscribeRequest _ => 8
  | subscribeResponse _ => 1
  | unsubscribeRequest _ => 8
  | unsubscribeResponse _ => 1
  | updateNotification _ data => 8 + bufferSize lengthPrefix data
  | rpcRequest _ param => 8 + bufferSize lengthPrefix param
  | rpcAccept value => bufferSize lengthPrefix value
  | rpcReject _ => 1
  | hearbeatRequest _ => 1
  | hearbeatResponse _ => 1

/-- The size of a `PropertyTreeMessage`: the transaction id, the tag of the choice, the message. -/
def PropertyTreeMessage.encodedSize (m : PropertyTreeMessage) : ℕ :=
  2 + (1 + m.message.encodedSize lengthPrefix)

/-- The size of a payload. -/
def PropertyTreeProtocol.encodedSize : PropertyTreeProtocol → ℕ
  | propertyTreeMessage m => 1 + m.encodedSize lengthPrefix
  | propertyTreeMessageArray ms =>
    1 + (lengthPrefix ms.length + (ms.map fun m => m.encodedSize lengthPrefix).sum)

/-- The messages of a payload. -/
def PropertyTreeProtocol.messages : PropertyTreeProtocol → List PropertyTreeMessage
  | propertyTreeMessage m => [m]
  | propertyTreeMessageArray ms => ms

/-- A message is smaller than the payload it comes in. -/
theorem PropertyTreeProtocol.encodedSize_lt_of_mem {p : PropertyTreeProtocol}
    {m : PropertyTreeMessage} (hm : m ∈ p.messages) :
    m.encodedSize lengthPrefix < p.encodedSize lengthPrefix := by
  cases p with
  | propertyTreeMessage m' =>
    obtain rfl := List.mem_singleton.mp hm
    simp only [encodedSize]
    omega
  | propertyTreeMessageArray ms =>
    have hle := List.single_le_sum (fun _ _ => Nat.zero_le _) _
      (List.mem_map_of_mem (f := fun m => m.encodedSize lengthPrefix) hm)
    simp only [encodedSize, messages] at hle ⊢
    omega

end Sizes

namespace Server

/-- `ENCODE_SIZE`. -/
def encodeSize : ℕ := 1024 * 64

/-- `ProtocolHandler::encode` into a buffer of `pSize` bytes: the length header it leaves in front of
the payload, or nothing where the codec runs out of buffer.  What is left of the buffer is
`context.size()`. -/
def encode (lengthPrefix : ℕ → ℕ) (pMsg : PropertyTreeProtocol) (pSize : ℕ) : Option UInt16 :=
  if pMsg.encodedSize lengthPrefix ≤ pSize - 2 then
    let left := pSize - 2 - pMsg.encodedSize lengthPrefix
    some (UInt16.ofNat (pSize - left - 2))
  else none

/-- The message is encoded, behind a header that tells its length. -/
def Encodes (lengthPrefix : ℕ → ℕ) (m : PropertyTreeMessage) : Prop :=
  ∃ header, encode lengthPrefix (.propertyTreeMessage m) encodeSize = some header ∧
    header.toNat = (PropertyTreeProtocol.propertyTreeMessage m).encodedSize lengthPrefix

/-- The limit of `Client::send`: its buffer of 512 bytes without the length header. -/
def clientPayload : ℕ := 510

/-- The event is a message out of a payload of at most 510 bytes, or a disconnect. -/
def Received (lengthPrefix : ℕ → ℕ) : Event → Prop
  | .message _ m => ∃ p : PropertyTreeProtocol, m ∈ p.messages ∧
    p.encodedSize lengthPrefix ≤ clientPayload
  | .disconnect _ => True

/-- The event is a message whose fields leave room for the rest of a payload of 512 bytes, or a
disconnect. -/
def Short (lengthPrefix : ℕ → ℕ) : Event → Prop
  | .message _ m => m.message.encodedSize lengthPrefix ≤ 508
  | .disconnect _ => True

open ProtocolHandler Library

variable {lengthPrefix : ℕ → ℕ} {s s' : ProtocolHandler} {e : Event} {o : List Output}

/-- A payload that fits into the buffer has the length its header tells, and no other fits. -/
theorem encodes_iff {m : PropertyTreeMessage} :
    Encodes lengthPrefix m ↔
      (PropertyTreeProtocol.propertyTreeMessage m).encodedSize lengthPrefix ≤ encodeSize - 2 := by
  unfold Encodes encode
  split_ifs with hle
  · refine iff_of_true ⟨_, rfl, ?_⟩ hle
    have hpos : (PropertyTreeProtocol.propertyTreeMessage m).encodedSize lengthPrefix < 2 ^ 16 := by
      have : encodeSize = 2 ^ 16 := rfl
      omega
    rw [UInt16.toNat_ofNat']
    have hsub : encodeSize - (encodeSize - 2 -
        (PropertyTreeProtocol.propertyTreeMessage m).encodedSize lengthPrefix) - 2 =
        (PropertyTreeProtocol.propertyTreeMessage m).encodedSize lengthPrefix := by omega
    rw [hsub]
    exact Nat.mod_eq_of_lt hpos
  · exact iff_of_false (by simp) hle

/-- A message out of a small payload leaves room for at most 506 bytes behind its tag. -/
theorem Received.encodedSize_le {c : Conn} {m : PropertyTreeMessage}
    (h : Received lengthPrefix (.message c m)) : m.message.encodedSize lengthPrefix ≤ 506 := by
  obtain ⟨p, hm, hle⟩ := h
  have hlt := PropertyTreeProtocol.encodedSize_lt_of_mem lengthPrefix hm
  simp only [PropertyTreeMessage.encodedSize, clientPayload] at hlt hle
  omega

/-- A message out of a payload of 510 bytes is short. -/
theorem Received.short (h : Received lengthPrefix e) : Short lengthPrefix e := by
  cases e with
  | message c m => exact h.encodedSize_le.trans (by decide)
  | disconnect c => trivial

/-! ## What the nodes store -/

/-- No node stores more than can be sent in one payload. -/
def DataBounded (s : ProtocolHandler) : Prop :=
  ∀ (a : Addr) (n : Node), s.heap[a]? = some n → n.data.length ≤ 510

/-- A short message stores no more than that. -/
theorem DataBounded.step_of_short (h : DataBounded s) (hw : WellLinked s) (he : Short lengthPrefix e)
    (hstep : StepResult s e s' o) : DataBounded s' := by
  -- a node put in the place of another one
  have hset : ∀ {a : Addr} {node' : Node}, node'.data.length ≤ 510 →
      DataBounded (s.setNode a node') := by
    intro a node' hle x n hx
    simp only [ProtocolHandler.setNode] at hx
    by_cases hxa : a = x
    · subst hxa
      obtain rfl : node' = n := by simpa using hx
      exact hle
    · exact h x n (by grind)
  cases hstep with
  | create c t name parentUuid p sid node hp hc hn ha =>
    intro x n hx
    rw [insertNode_heap] at hx
    split_ifs at hx
    · cases hx
      exact Nat.zero_le _
    · cases hx
      exact h p node hn
    · exact h x n hx
  | setValue c t uuid data a node hterm ha hn =>
    simp only [Short, PropertyTreeMessages.encodedSize, bufferSize] at he
    refine hset ?_
    simp only
    omega
  | subscribe c t uuid a sid node ha hc hn => exact hset (h a node hn)
  | unsubscribe c t uuid a sid node w ha hc hn hl => exact hset (h a node hn)
  | delete c t uuid a node p parent ha hn hch hp hpn =>
    intro x n hx
    rw [hw.removeNode_heap ha hn hp hpn] at hx
    split_ifs at hx
    · cases hx
      exact h p parent hpn
    · exact h x n hx
  | _ => exact h

/-- A message out of a payload of 510 bytes stores no more than that. -/
theorem DataBounded.step (h : DataBounded s) (hw : WellLinked s) (he : Received lengthPrefix e)
    (hstep : StepResult s e s' o) : DataBounded s' :=
  h.step_of_short hw he.short hstep

/-! ## The size of a listing -/

/-- The size of the entry that lists a node. -/
def entrySize (s : ProtocolHandler) (a : Addr) : ℕ :=
  match s.heap[a]? with
  | none => 0
  | some node => stringSize node.name + 8 + 8

open Classical in
/-- The nodes that are listed below a node: its descendants if the request is recursive, and its
children otherwise. -/
noncomputable def below (s : ProtocolHandler) (a : Addr) (recursive : UInt8) : Finset Addr :=
  s.heap.keys.toFinset.filter fun x =>
    if recursive ≠ 0 then Relation.TransGen (IsKid (kids s.heap)) a x
    else IsKid (kids s.heap) a x

/-- The size of a `TreeInfoResponse` that lists these nodes, with its tags and its transaction id. -/
def responseSize (lengthPrefix : ℕ → ℕ) (s : ProtocolHandler) (nodes : Finset Addr) : ℕ :=
  4 + (lengthPrefix nodes.card + ∑ a ∈ nodes, entrySize s a)

/-- A `TreeInfoRequest` asks for a part of the tree that can be listed in one message: the nodes below
the one it addresses, together with the child it names, if it names one. -/
def ListingFits (lengthPrefix : ℕ → ℕ) (s : ProtocolHandler) : Event → Prop
  | .message _ ⟨_, .treeInfoRequest parentUuid name recursive⟩ =>
    ∀ p pn, s.mTree[parentUuid]? = some p → s.heap[p]? = some pn →
      (name = selfName → responseSize lengthPrefix s (below s p recursive) ≤ encodeSize - 2) ∧
      (name ≠ selfName → ∀ a, pn.children[name]? = some a →
        responseSize lengthPrefix s (insert a (below s a recursive)) ≤ encodeSize - 2)
  | _ => True

/-- The entry of a child has the size the child's name gives it. -/
theorem encodedSize_listEntry (T : NodeTree s.heap) {p x : Addr} {name : Name}
    (hk : (name, x) ∈ kids s.heap p) :
    (listEntry s.heap p name x).encodedSize = entrySize s x := by
  obtain ⟨pn, hp, hx⟩ := mem_kids_iff.mp hk
  obtain ⟨n, hn, hname⟩ := T.child hp hx
  simp [entrySize, hn, NamedNode.encodedSize, listEntry, hname]

/-- What is listed below a node, as the objects that are listed. -/
theorem exists_listed (T : NodeTree s.heap) (a : Addr) (recursive : UInt8) :
    ∃ l : List Addr, l.Nodup ∧ l.toFinset = below s a recursive ∧
      (listedBelow T a recursive).map NamedNode.encodedSize = l.map (entrySize s) := by
  classical
  have hheap : ∀ {x}, (∃ p, IsKid (kids s.heap) p x) → x ∈ s.heap.keys.toFinset := by
    rintro x ⟨p, name, hk⟩
    rw [List.mem_toFinset, Std.ExtTreeMap.mem_keys]
    exact T.mem_heap_of_mem_kids hk
  by_cases hr : recursive ≠ 0
  · have hlist := T.listsDescendants a
    refine ⟨(T.preorder a).map fun e => e.2.2, hlist.nodup, ?_, ?_⟩
    · ext x
      rw [List.mem_toFinset, hlist.mem_iff, below, Finset.mem_filter, if_pos hr]
      refine ⟨fun h => ⟨hheap ?_, h⟩, And.right⟩
      obtain ⟨p, -, hk⟩ := Relation.TransGen.tail'_iff.mp h
      exact ⟨p, hk⟩
    · rw [listedBelow, if_pos hr, List.map_map, List.map_map]
      refine List.map_congr_left fun e he => ?_
      exact encodedSize_listEntry T (T.mem_preorder_iff.mp he).2
  · refine ⟨(kids s.heap a).map Prod.snd, T.kids_nodup a, ?_, ?_⟩
    · ext x
      rw [List.mem_toFinset, below, Finset.mem_filter, if_neg hr, List.mem_map]
      constructor
      · rintro ⟨⟨name, y⟩, hk, rfl⟩
        exact ⟨hheap ⟨a, name, hk⟩, name, hk⟩
      · rintro ⟨-, name, hk⟩
        exact ⟨(name, x), hk, rfl⟩
    · rw [listedBelow, if_neg hr, List.map_map, List.map_map]
      exact List.map_congr_left fun kc hk => encodedSize_listEntry T hk

/-- The number of entries below a node, and their size. -/
theorem size_listedBelow (T : NodeTree s.heap) (a : Addr) (recursive : UInt8) :
    (listedBelow T a recursive).length = (below s a recursive).card ∧
      ((listedBelow T a recursive).map NamedNode.encodedSize).sum =
        ∑ x ∈ below s a recursive, entrySize s x := by
  obtain ⟨l, hnodup, hset, hmap⟩ := exists_listed T a recursive
  have hlen := congrArg List.length hmap
  rw [List.length_map, List.length_map] at hlen
  rw [← hset, List.toFinset_card_of_nodup hnodup, List.sum_toFinset _ hnodup, hmap]
  exact ⟨hlen, rfl⟩

/-- Nothing is below itself. -/
theorem notMem_below (T : NodeTree s.heap) (a : Addr) (recursive : UInt8) :
    a ∉ below s a recursive := by
  classical
  intro ha
  obtain ⟨q, hreach, name, hk⟩ : ∃ q, Relation.ReflTransGen (IsKid (kids s.heap)) a q ∧
      IsKid (kids s.heap) q a := by
    rw [below, Finset.mem_filter] at ha
    have h := ha.2
    split_ifs at h
    · exact Relation.TransGen.tail'_iff.mp h
    · exact ⟨a, .refl, h⟩
  have hle := rank_le_of_reach T.rank_kids hreach
  exact absurd (T.rank_kids q _ hk) (not_lt.mpr hle)

/-- The size of the answer that lists what is below a node. -/
theorem encodedSize_self (T : NodeTree s.heap) (a : Addr) (recursive : UInt8) (t : UInt16) :
    (PropertyTreeProtocol.propertyTreeMessage
      ⟨t, .treeInfoResponse (listedBelow T a recursive)⟩).encodedSize lengthPrefix =
      responseSize lengthPrefix s (below s a recursive) := by
  obtain ⟨hlen, hsum⟩ := size_listedBelow T a recursive
  simp only [PropertyTreeProtocol.encodedSize, PropertyTreeMessage.encodedSize,
    PropertyTreeMessages.encodedSize, namedNodeListSize, responseSize, hlen, hsum]
  omega

/-- The size of the answer that lists a child and what is below it. -/
theorem encodedSize_child (T : NodeTree s.heap) {p a : Addr} {name : Name} (recursive : UInt8)
    (t : UInt16) (hk : (name, a) ∈ kids s.heap p) :
    (PropertyTreeProtocol.propertyTreeMessage ⟨t, .treeInfoResponse
      (listEntry s.heap p name a :: listedBelow T a recursive)⟩).encodedSize lengthPrefix =
      responseSize lengthPrefix s (insert a (below s a recursive)) := by
  obtain ⟨hlen, hsum⟩ := size_listedBelow T a recursive
  have hnot := notMem_below T a recursive
  simp only [PropertyTreeProtocol.encodedSize, PropertyTreeMessage.encodedSize,
    PropertyTreeMessages.encodedSize, namedNodeListSize, responseSize, List.map_cons,
    List.length_cons, List.sum_cons, hlen, hsum, encodedSize_listEntry T hk,
    Finset.card_insert_of_notMem hnot, Finset.sum_insert hnot]
  omega

/-! ## What is sent -/

/-- What a step sends that is no listing fits into the buffer: it holds at most what one payload
brought or what a node stores. -/
theorem encodedSize_le_of_step (hlength : ∀ n, lengthPrefix n ≤ 8) (h : DataBounded s)
    (he : Short lengthPrefix e) (hstep : StepResult s e s' o) {d : Conn}
    {m : PropertyTreeMessage} (hm : .send d m ∈ o)
    (hno : ∀ l, m.message ≠ .treeInfoResponse l) :
    m.message.encodedSize lengthPrefix ≤ 532 := by
  cases hstep with
  | create c t name parentUuid p sid node hp hc hn ha =>
    simp only [Short, PropertyTreeMessages.encodedSize] at he
    rcases List.mem_cons.mp hm with heq | hm
    · cases heq
      simp [PropertyTreeMessages.encodedSize]
    · obtain ⟨sid', d', -, heq⟩ := mem_broadcast_iff.mp hm
      cases heq
      have h1 := hlength 1
      have h0 := hlength 0
      simp only [PropertyTreeMessages.encodedSize, namedNodeListSize, NamedNode.encodedSize,
        List.length_singleton, List.length_nil, List.map_singleton, List.sum_singleton]
      omega
  | delete =>
    rcases List.mem_cons.mp hm with heq | hm
    · cases heq
      simp [PropertyTreeMessages.encodedSize]
    · obtain ⟨sid', d', -, heq⟩ := mem_broadcast_iff.mp hm
      cases heq
      have h1 := hlength 1
      have h0 := hlength 0
      simp only [PropertyTreeMessages.encodedSize, namedNodeListSize, List.length_singleton,
        List.length_nil, List.map_nil, List.sum_nil]
      omega
  | setValue c t uuid data a node hterm ha hn =>
    rcases List.mem_cons.mp hm with heq | hm
    · cases heq
      simp [PropertyTreeMessages.encodedSize]
    · obtain ⟨l, -, hx⟩ := List.mem_flatMap.mp hm
      cases hd : s.listenerConnection c l.1 l.2 with
      | none =>
        rw [hd] at hx
        cases hx
      | some d' =>
        rw [hd] at hx
        cases List.mem_singleton.mp hx
        exact le_trans he (by decide)
  | get c t uuid a node ha hn =>
    cases List.mem_singleton.mp hm
    have hdata := h a node hn
    have hpre := hlength node.data.length
    simp only [PropertyTreeMessages.encodedSize, bufferSize]
    omega
  | rpcForward =>
    cases List.mem_singleton.mp hm
    exact le_trans he (by decide)
  | reply c t m' translation session hm' ht hs =>
    cases hd : session.connectionSession with
    | none =>
      rw [hd] at hm
      cases hm
    | some d' =>
      rw [hd] at hm
      cases List.mem_singleton.mp hm
      exact le_trans he (by decide)
  | treeInfoSelf => exact absurd (by cases List.mem_singleton.mp hm; rfl) (hno _)
  | treeInfoChild => exact absurd (by cases List.mem_singleton.mp hm; rfl) (hno _)
  | _ =>
    first
      | cases hm; done
      | cases List.mem_singleton.mp hm; simp [PropertyTreeMessages.encodedSize]
      | cases List.mem_singleton.mp hm

/-- A step that answers no `TreeInfoRequest` sends only what is encoded. -/
theorem encodes_of_not_treeInfo (hlength : ∀ n, lengthPrefix n ≤ 8) (h : DataBounded s)
    (he : Short lengthPrefix e) (hstep : StepResult s e s' o)
    (hno : ∀ d t l, .send d ⟨t, .treeInfoResponse l⟩ ∉ o) {d : Conn} {m : PropertyTreeMessage}
    (hm : .send d m ∈ o) : Encodes lengthPrefix m := by
  have hle := encodedSize_le_of_step hlength h he hstep hm fun l heq =>
    hno d m.transactionId l (heq ▸ hm)
  rw [encodes_iff]
  simp only [PropertyTreeProtocol.encodedSize, PropertyTreeMessage.encodedSize, encodeSize]
  omega

/-- The answer to a `TreeInfoRequest` is encoded exactly if it does not list too much. -/
theorem encodes_iff_of_treeInfo (hw : WellLinked s) {c : Conn} {t : UInt16} {pu : UInt64}
    {name : Name} {recursive : UInt8} {p : Addr} {pn : Node} (hp : s.mTree[pu]? = some p)
    (hpn : s.heap[p]? = some pn) (hname : name = selfName ∨ name ∈ pn.children)
    (hok : s.step (.message c ⟨t, .treeInfoRequest pu name recursive⟩) = .ok (s', o)) :
    (∀ d m, .send d m ∈ o → Encodes lengthPrefix m) ↔
      ListingFits lengthPrefix s (.message c ⟨t, .treeInfoRequest pu name recursive⟩) := by
  have hlisting : ListingFits lengthPrefix s (.message c ⟨t, .treeInfoRequest pu name recursive⟩) ↔
      (name = selfName → responseSize lengthPrefix s (below s p recursive) ≤ encodeSize - 2) ∧
      (name ≠ selfName → ∀ a, pn.children[name]? = some a →
        responseSize lengthPrefix s (insert a (below s a recursive)) ≤ encodeSize - 2) := by
    refine ⟨fun hfits => hfits p pn hp hpn, fun hle q qn hq hqn => ?_⟩
    obtain rfl : p = q := by simpa [hp] using hq
    obtain rfl : pn = qn := by simpa [hpn] using hqn
    exact hle
  rw [hlisting]
  by_cases hself : name = selfName
  · subst hself
    rw [treeInfo_self hw.nodeTree hp hpn] at hok
    cases hok
    have hsize := @encodedSize_self lengthPrefix s hw.nodeTree p recursive t
    simp [encodes_iff, hsize]
  · obtain ⟨a, ha⟩ : ∃ a, pn.children[name]? = some a :=
      ⟨_, Std.ExtTreeMap.getElem?_eq_some_getElem (hname.resolve_left hself)⟩
    obtain ⟨node, hn, -⟩ := hw.child hpn ha
    rw [treeInfo_child hw.nodeTree hp hpn ha hn hself] at hok
    cases hok
    have hsize := @encodedSize_child lengthPrefix s hw.nodeTree p a name recursive t
      (mem_kids_iff.mpr ⟨pn, hpn, ha⟩)
    simp [encodes_iff, hsize, hself, ha]

/-- Everything a step sends is encoded exactly if the step does not have to list too much. -/
theorem encodes_iff_of_short (hlength : ∀ n, lengthPrefix n ≤ 8) (hw : WellLinked s)
    (h : DataBounded s) (he : Short lengthPrefix e) (hok : s.step e = .ok (s', o)) :
    (∀ d m, .send d m ∈ o → Encodes lengthPrefix m) ↔ ListingFits lengthPrefix s e := by
  have hstep := step_cases hok
  by_cases hlist : ∃ d t l, .send d ⟨t, .treeInfoResponse l⟩ ∈ o
  · obtain ⟨d, t, l, hm⟩ := hlist
    obtain ⟨pu, name, recursive, rfl⟩ := hstep.treeInfo_of_response hm
    cases hstep with
    | treeInfoSelf _ _ _ _ p node l hp hn => exact encodes_iff_of_treeInfo hw hp hn (.inl rfl) hok
    | treeInfoChild _ _ _ _ _ p parent a node l hp hn hname ha =>
      exact encodes_iff_of_treeInfo hw hp hn (.inr (by grind)) hok
    | treeInfoNoParent => cases List.mem_singleton.mp hm
    | treeInfoNoChild => cases List.mem_singleton.mp hm
    | reply _ _ _ _ _ hm' => rcases hm' with ⟨_, heq⟩ | ⟨_, heq⟩ <;> cases heq
    | _ => cases hm
  · push Not at hlist
    refine iff_of_true (fun d m hm => encodes_of_not_treeInfo hlength h he hstep hlist hm) ?_
    -- a request that is not answered by a listing finds nothing to list
    cases hstep with
    | treeInfoNoParent c t parentUuid name recursive hp =>
      intro p pn hp'
      rw [hp] at hp'
      cases hp'
    | treeInfoNoChild c t parentUuid name recursive p node hp hn hname ha =>
      intro q qn hq hqn
      obtain rfl : p = q := by simpa [hp] using hq
      obtain rfl : node = qn := by simpa [hn] using hqn
      exact ⟨fun heq => absurd heq hname, fun _ a ha' => by rw [ha] at ha'; cases ha'⟩
    | treeInfoSelf => exact absurd List.mem_cons_self (hlist _ _ _)
    | treeInfoChild => exact absurd List.mem_cons_self (hlist _ _ _)
    | replyUnknown _ _ _ hm => rcases hm with ⟨_, rfl⟩ | ⟨_, rfl⟩ <;> trivial
    | replyNoSession _ _ _ _ hm => rcases hm with ⟨_, rfl⟩ | ⟨_, rfl⟩ <;> trivial
    | reply _ _ _ _ _ hm => rcases hm with ⟨_, rfl⟩ | ⟨_, rfl⟩ <;> trivial
    | ignored _ _ m hm => cases m <;> trivial
    | _ => trivial

/-- The same for a message out of a payload of 510 bytes. -/
theorem encodes_iff_listingFits (hlength : ∀ n, lengthPrefix n ≤ 8) (hw : WellLinked s)
    (h : DataBounded s) (he : Received lengthPrefix e) (hok : s.step e = .ok (s', o)) :
    (∀ d m, .send d m ∈ o → Encodes lengthPrefix m) ↔ ListingFits lengthPrefix s e :=
  encodes_iff_of_short hlength hw h he.short hok

/-- In a run on payloads of at most 510 bytes every message is encoded, behind a header that tells its
length, exactly if no `TreeInfoRequest` asks for more of the tree than one message can list. -/
theorem encodes_iff_of_run (lengthPrefix : ℕ → ℕ) (hlength : ∀ n, lengthPrefix n ≤ 8)
    {ls : List (Event × List Output)}
    (h : Run (Guarded (fun _ l => Received lengthPrefix l.1) (StepOf step)) .init ls s) :
    (∀ l ∈ ls, ∀ d m, .send d m ∈ l.2 → Encodes lengthPrefix m) ↔
      Run (Guarded (fun s l => ListingFits lengthPrefix s l.1)
        (Guarded (fun _ l => Received lengthPrefix l.1) (StepOf step))) .init ls s := by
  refine (h.guarded_iff_labels (I := fun s => WellLinked s ∧ DataBounded s) ?_ ?_
    ⟨wellLinked_init, ?_⟩).symm
  · rintro t l u ⟨hw, hdata⟩ ⟨he, hstep⟩
    have hres := step_cases hstep
    exact ⟨hw.stateChange hres.stateChange, hdata.step hw he hres⟩
  · rintro t l u ⟨hw, hdata⟩ ⟨he, hstep⟩
    exact (encodes_iff_listingFits hlength hw hdata he hstep).symm
  · intro a n hn
    simp only [init] at hn
    grind [rootNode]

/-- A payload of one message is small enough. -/
def isSmall (lengthPrefix : ℕ → ℕ) : Event → Bool
  | .message _ m =>
    decide ((PropertyTreeProtocol.propertyTreeMessage m).encodedSize lengthPrefix ≤ clientPayload)
  | .disconnect _ => true

/-- A message in a small payload of its own is one that can be received. -/
theorem received_of_isSmall (h : isSmall lengthPrefix e = true) : Received lengthPrefix e := by
  cases e with
  | message c m => exact ⟨.propertyTreeMessage m, List.mem_singleton_self m, of_decide_eq_true h⟩
  | disconnect c => trivial

/-- A run in which a connection creates a node and lists the root. -/
theorem encodes_run_list :
    ∃ ls s, (ls.map Prod.fst = [.message 7 ⟨0, .signinRequest 0⟩,
        .message 7 ⟨1, .createRequest [97] 0⟩, .message 7 ⟨2, .treeInfoRequest 0 selfName 1⟩]) ∧
      ((∀ l ∈ ls, ∀ d m, .send d m ∈ l.2 → Encodes (fun _ => 8) m) ↔
        Run (Guarded (fun s l => ListingFits (fun _ => 8) s l.1)
          (Guarded (fun _ l => Received (fun _ => 8) l.1) (StepOf step))) .init ls s) := by
  have hrun : ∃ r, execute step (fun _ => isSmall fun _ => 8) .init
      [.message 7 ⟨0, .signinRequest 0⟩, .message 7 ⟨1, .createRequest [97] 0⟩,
        .message 7 ⟨2, .treeInfoRequest 0 selfName 1⟩] = some r ∧
      r.2.map Prod.fst = [.message 7 ⟨0, .signinRequest 0⟩, .message 7 ⟨1, .createRequest [97] 0⟩,
        .message 7 ⟨2, .treeInfoRequest 0 selfName 1⟩] :=
    ⟨_, rfl, rfl⟩
  obtain ⟨⟨s, ls⟩, hexec, hevents⟩ := hrun
  exact ⟨ls, s, hevents, encodes_iff_of_run (fun _ => 8) (fun _ => le_rfl)
    ((run_of_execute step hexec).mono fun _ _ _ hst => ⟨received_of_isSmall hst.1, hst.2⟩)⟩

/-! ## A node with too many children -/

/-- A name of the greatest length that a `CreateRequest` of 510 bytes can carry, for every number up
to 256 another one. -/
def longName (i : ℕ) : Name :=
  UInt8.ofNat i :: List.replicate 496 98

/-- Connection 7 is signed in, and the root has `n` children with long names. -/
structure Crowded (s : ProtocolHandler) (n : ℕ) : Prop where
  signedIn : ∃ sid, s.mConnectionToSessionId[(7 : Conn)]? = some sid
  root : ∃ root : Node, s.heap[(0 : Addr)]? = some root ∧ root.children.size = n ∧
    (∀ name ∈ root.children, name.length = 497) ∧
    ∀ i, n ≤ i → i < 256 → root.children[longName i]? = none

@[simp] theorem length_longName (i : ℕ) : (longName i).length = 497 := by
  rw [longName, List.length_cons, List.length_replicate]

/-- Different numbers have different names. -/
theorem longName_inj {i j : ℕ} (hi : i < 256) (hj : j < 256) (h : longName i = longName j) :
    i = j := by
  have := congrArg UInt8.toNat (List.cons.inj h).1
  rwa [UInt8.toNat_ofNat', UInt8.toNat_ofNat', Nat.mod_eq_of_lt hi, Nat.mod_eq_of_lt hj] at this

/-- The root gets another child. -/
theorem Crowded.grow {n : ℕ} (h : Crowded s n) (hw : WellLinked s) (hn : n < 256) :
    ∃ s' o, s.step (.message 7 ⟨1, .createRequest (longName n) 0⟩) = .ok (s', o) ∧
      Crowded s' (n + 1) := by
  obtain ⟨⟨sid, hsid⟩, root, hroot, hsize, hlong, hnone⟩ := h
  have hlt : 0 < s.nextAddr := hw.heap_lt hroot
  have hnew := hnone n le_rfl hn
  refine ⟨s.insertNode 0 root (longName n) sid, .send 7 ⟨1, .createAccept s.mUuidCtr.toUInt64⟩ ::
    (s.insertNode 0 root (longName n) sid).broadcast ⟨notificationId,
      .treeUpdateNotification [⟨longName n, s.mUuidCtr.toUInt64, root.uuid⟩] []⟩, ?_,
    ⟨sid, hsid⟩, _, by rw [insertNode_heap, if_neg (ne_of_lt hlt), if_pos rfl], ?_, ?_, ?_⟩
  · simp only [step, handle, handleCreateRequest, hw.root_mTree, hsid, hroot, hnew]
    rfl
  · rw [Std.ExtTreeMap.size_insertIfNew, if_neg (by grind), hsize]
  · intro name hname
    rcases Std.ExtTreeMap.mem_insertIfNew.mp hname with heq | hmem
    · rw [← Std.compare_eq_iff_eq.mp heq, length_longName]
    · exact hlong name hmem
  · intro i hi hi256
    have hne : longName n ≠ longName i := fun heq => by
      have := longName_inj hn hi256 heq
      omega
    have := hnone i (by omega) hi256
    simp only
    grind

/-- Such a state is reached by small payloads. -/
theorem crowded_of_le (n : ℕ) (hn : n ≤ 256) :
    ∃ ls s, Run (Guarded (fun _ l => Received (fun _ => 8) l.1) (StepOf step)) .init ls s ∧
      Crowded s n := by
  induction n with
  | zero =>
    have hsmall : Received (fun _ => 8) (.message 7 ⟨0, .signinRequest 0⟩) :=
      received_of_isSmall (by decide)
    refine ⟨[(.message 7 ⟨0, .signinRequest 0⟩, [.send 7 ⟨0, .signinAccept 0⟩])], _,
      .single ⟨hsmall, rfl⟩, ⟨0, by decide⟩, rootNode, by rfl, rfl, ?_, ?_⟩
    · simp [rootNode]
    · simp [rootNode]
  | succ n ih =>
    obtain ⟨ls, s, hrun, h⟩ := ih (Nat.le_of_succ_le hn)
    obtain ⟨s', o, hstep, h'⟩ := h.grow (wellLinked_of_run hrun.of_guarded) hn
    have hsmall : Received (fun _ => 8) (.message 7 ⟨1, .createRequest (longName n) 0⟩) := by
      refine ⟨.propertyTreeMessage _, List.mem_singleton_self _, ?_⟩
      simp only [PropertyTreeProtocol.encodedSize, PropertyTreeMessage.encodedSize,
        PropertyTreeMessages.encodedSize, stringSize, length_longName, clientPayload]
      decide
    exact ⟨_, s', hrun.snoc (e := (Event.message 7 ⟨1, .createRequest (longName n) 0⟩, o))
      ⟨hsmall, hstep⟩, h'⟩

/-- The listing of 128 children with long names does not fit into the buffer. -/
theorem not_encodes_crowded :
    ¬ ∀ lengthPrefix : ℕ → ℕ, (∀ n, lengthPrefix n ≤ 8) → ∀ ls s,
      Run (Guarded (fun _ l => Received lengthPrefix l.1) (StepOf step)) .init ls s →
      ∀ l ∈ ls, ∀ d m, .send d m ∈ l.2 → Encodes lengthPrefix m := by
  intro hall
  obtain ⟨ls, s, hrun, h⟩ := crowded_of_le 128 (by decide)
  obtain ⟨root, hroot, hsize, hlong, -⟩ := h.root
  have hw := wellLinked_of_run hrun.of_guarded
  have hstep : s.step (.message 7 ⟨2, .treeInfoRequest 0 selfName 0⟩) = _ :=
    treeInfo_self hw.nodeTree hw.root_mTree hroot
  have hsmall : Received (fun _ => 8) (.message 7 ⟨2, .treeInfoRequest 0 selfName 0⟩) :=
    received_of_isSmall (by decide)
  have hrun' := hrun.snoc (e := (Event.message 7 ⟨2, .treeInfoRequest 0 selfName 0⟩, _))
    ⟨hsmall, hstep⟩
  have henc := encodes_iff.mp (hall (fun _ => 8) (fun _ => le_rfl) _ _ hrun' _
    (List.mem_append_right _ (List.mem_singleton_self _)) _ _ (List.mem_singleton_self _))
  -- every entry takes 514 bytes
  have hentries : ∀ k ∈ (listedBelow hw.nodeTree 0 0).map NamedNode.encodedSize, k = 514 := by
    intro k hk
    obtain ⟨i, hi, rfl⟩ := List.mem_map.mp hk
    obtain ⟨⟨name, x⟩, hkid, rfl⟩ := List.mem_map.mp hi
    rw [kids_of_heap hroot, Std.ExtTreeMap.mem_toList_iff_getElem?_eq_some] at hkid
    have hlen := hlong name (by grind)
    simp [NamedNode.encodedSize, listEntry, stringSize, hlen]
  have hsum := List.sum_eq_card_nsmul _ _ hentries
  have hlength : (listedBelow hw.nodeTree 0 0).length = 128 := by
    simp [listedBelow, kids_of_heap hroot, hsize]
  simp only [PropertyTreeProtocol.encodedSize, PropertyTreeMessage.encodedSize,
    PropertyTreeMessages.encodedSize, namedNodeListSize, hsum, List.length_map, hlength,
    encodeSize] at henc
  simp at henc

end Server

end PropertyTree
