import PropertyTree.Library.Codec
import PropertyTree.Server.Encoding

/-!
# The codec of the protocol

`encode_per` and `decode_per` of `interface/protocol.hpp`, over the functions the codec library has
for integers, enumerations, strings and the lengths of vectors, which are the parameter `Per`.  A
choice is written behind the number of its alternative.  When it is read with a number that no
alternative has, none of the branches is taken, and the value stays as it was constructed: for
`PropertyTreeMessages` that is a `SigninRequest`.
-/

namespace PropertyTree

open Library

/-- The functions of `cum/cum.hpp`.  `size bound` is for the number of elements of a `cum::vector`
declared with `bound`, which is below `bound`. -/
structure Per where
  u8 : Codec UInt8 UInt8
  u16 : Codec UInt8 UInt16
  u32 : Codec UInt8 UInt32
  u64 : Codec UInt8 UInt64
  cause : Codec UInt8 Cause
  string : Codec UInt8 Name
  size : ℕ → Codec UInt8 ℕ

/-- What is written by them is read back, and nothing else is read.  A string ends where its first
zero is. -/
structure Per.Lawful (p : Per) : Prop where
  u8 : p.u8.Exact fun _ => True
  u16 : p.u16.Exact fun _ => True
  u32 : p.u32.Exact fun _ => True
  u64 : p.u64.Exact fun _ => True
  cause : p.cause.Exact fun _ => True
  string : p.string.Exact fun name => 0 ∉ name
  size : ∀ bound, bound ≤ 4294967296 → (p.size bound).Exact fun n => n < bound

/-- The number of bytes that holds the length of a vector declared with `bound`. -/
def sizeWidth (bound : ℕ) : ℕ :=
  if bound ≤ 256 then 1 else if bound ≤ 65536 then 2 else 4

/-- A byte, as it is. -/
def byte : Codec UInt8 UInt8 :=
  (Codec.word 1 256).conv UInt8.ofNat UInt8.toNat

theorem exact_byte : byte.Exact fun _ => True :=
  (Codec.exact_word (by decide)).conv (fun _ => UInt8.ofNat_toNat)
    (fun _ h => UInt8.toNat_ofNat_of_lt h) UInt8.toNat_lt

/-- The functions that copy an integer's bytes, the lowest one first, and a string's up to its
zero. -/
def Per.littleEndian : Per where
  u8 := byte
  u16 := (Codec.word 2 65536).conv UInt16.ofNat UInt16.toNat
  u32 := (Codec.word 4 4294967296).conv UInt32.ofNat UInt32.toNat
  u64 := (Codec.word 8 18446744073709551616).conv UInt64.ofNat UInt64.toNat
  cause := byte.conv Cause.ofByte Cause.toByte
  string := Codec.terminated 0
  size bound := Codec.word (sizeWidth bound) bound

theorem Per.lawful_littleEndian : Per.littleEndian.Lawful where
  u8 := exact_byte
  u16 := (Codec.exact_word (by decide)).conv (fun _ => UInt16.ofNat_toNat)
    (fun _ h => UInt16.toNat_ofNat_of_lt h) UInt16.toNat_lt
  u32 := (Codec.exact_word (by decide)).conv (fun _ => UInt32.ofNat_toNat)
    (fun _ h => UInt32.toNat_ofNat_of_lt h) UInt32.toNat_lt
  u64 := (Codec.exact_word (by decide)).conv (fun _ => UInt64.ofNat_toNat)
    (fun _ h => UInt64.toNat_ofNat_of_lt h) UInt64.toNat_lt
  cause := exact_byte.conv Cause.ofByte_toByte (fun value _ => Cause.toByte_ofByte value)
    fun _ => trivial
  string := Codec.exact_terminated 0
  size bound h := by
    refine Codec.exact_word ?_
    unfold sizeWidth
    split_ifs <;> omega

/-! ## Sequences and vectors -/

namespace Per

variable (p : Per)

/-- `Buffer`. -/
def buffer : Codec UInt8 Buffer :=
  (p.size 4294967296).counted p.u8

/-- `u64Array`. -/
def u64Array : Codec UInt8 (List UInt64) :=
  (p.size 4294967296).counted p.u64

/-- `NamedNode`. -/
def namedNode : Codec UInt8 NamedNode where
  encode i := p.string.encode i.name ++ (p.u64.encode i.uuid ++ p.u64.encode i.parentUuid)
  decode := do
    let name ← p.string.decode
    let uuid ← p.u64.decode
    let parentUuid ← p.u64.decode
    pure ⟨name, uuid, parentUuid⟩

/-- `NamedNodeList`. -/
def namedNodeList : Codec UInt8 (List NamedNode) :=
  (p.size 4294967296).counted p.namedNode

variable {p}

theorem Lawful.buffer (hp : p.Lawful) : p.buffer.Exact fun data => data.length < 4294967296 :=
  ((hp.size _ le_rfl).counted hp.u8).congr fun data w => by simp [Per.buffer]

theorem Lawful.u64Array (hp : p.Lawful) : p.u64Array.Exact fun l => l.length < 4294967296 :=
  ((hp.size _ le_rfl).counted hp.u64).congr fun l w => by simp [Per.u64Array]

theorem Lawful.namedNode (hp : p.Lawful) : p.namedNode.Exact fun i => 0 ∉ i.name := by
  refine (Decoder.Recognizes.bind hp.string fun name => Decoder.Recognizes.bind hp.u64 fun uuid =>
    Decoder.Recognizes.bind hp.u64 fun pu =>
      Decoder.recognizes_pure (⟨name, uuid, pu⟩ : NamedNode)).congr fun i w => ⟨?_, ?_⟩
  · rintro ⟨name, _, _, ⟨hname, rfl⟩, ⟨uuid, _, _, ⟨-, rfl⟩, ⟨pu, _, _, ⟨-, rfl⟩, ⟨rfl, rfl⟩, rfl⟩,
      rfl⟩, rfl⟩
    exact ⟨hname, by simp [Per.namedNode]⟩
  · rintro ⟨hname, rfl⟩
    exact ⟨i.name, _, _, ⟨hname, rfl⟩, ⟨i.uuid, _, _, ⟨trivial, rfl⟩, ⟨i.parentUuid, _, _,
      ⟨trivial, rfl⟩, ⟨rfl, rfl⟩, rfl⟩, rfl⟩, by simp [Per.namedNode]⟩

theorem Lawful.namedNodeList (hp : p.Lawful) :
    p.namedNodeList.Exact fun l => l.length < 4294967296 ∧ ∀ i ∈ l, 0 ∉ i.name :=
  (hp.size _ le_rfl).counted hp.namedNode

end Per

/-! ## The choice of the messages -/

namespace PropertyTreeMessages

/-- `std::variant::index`. -/
def index : PropertyTreeMessages → UInt8
  | signinRequest _ => 0
  | signinAccept _ => 1
  | createRequest _ _ => 2
  | createAccept _ => 3
  | createReject _ => 4
  | getRequest _ => 5
  | getAccept _ => 6
  | getReject _ => 7
  | treeInfoRequest _ _ _ => 8
  | treeInfoResponse _ => 9
  | treeInfoErrorResponse _ => 10
  | treeUpdateNotification _ _ => 11
  | deleteRequest _ => 12
  | deleteResponse _ => 13
  | setValueRequest _ _ => 14
  | setValueAccept _ => 15
  | setValueReject _ => 16
  | subscribeRequest _ => 17
  | subscribeResponse _ => 18
  | unsubscribeRequest _ => 19
  | unsubscribeResponse _ => 20
  | updateNotification _ _ => 21
  | rpcRequest _ _ => 22
  | rpcAccept _ => 23
  | rpcReject _ => 24
  | hearbeatRequest _ => 25
  | hearbeatResponse _ => 26

/-- `encode_per` of the alternatives. -/
def encodeAlternative (p : Per) : PropertyTreeMessages → List UInt8
  | signinRequest spare => p.u8.encode spare
  | signinAccept sessionId => p.u32.encode sessionId
  | createRequest name parentUuid => (p.string.pair p.u64).encode (name, parentUuid)
  | createAccept uuid => p.u64.encode uuid
  | createReject cause => p.cause.encode cause
  | getRequest uuid => p.u64.encode uuid
  | getAccept data => p.buffer.encode data
  | getReject cause => p.cause.encode cause
  | treeInfoRequest parentUuid name recursive =>
    (p.u64.pair (p.string.pair p.u8)).encode (parentUuid, name, recursive)
  | treeInfoResponse nodeToAddList => p.namedNodeList.encode nodeToAddList
  | treeInfoErrorResponse cause => p.cause.encode cause
  | treeUpdateNotification nodeToAddList nodeToDelete =>
    (p.namedNodeList.pair p.u64Array).encode (nodeToAddList, nodeToDelete)
  | deleteRequest uuid => p.u64.encode uuid
  | deleteResponse cause => p.cause.encode cause
  | setValueRequest uuid data => (p.u64.pair p.buffer).encode (uuid, data)
  | setValueAccept spare => p.u8.encode spare
  | setValueReject cause => p.cause.encode cause
  | subscribeRequest uuid => p.u64.encode uuid
  | subscribeResponse cause => p.cause.encode cause
  | unsubscribeRequest uuid => p.u64.encode uuid
  | unsubscribeResponse cause => p.cause.encode cause
  | updateNotification uuid data => (p.u64.pair p.buffer).encode (uuid, data)
  | rpcRequest uuid param => (p.u64.pair p.buffer).encode (uuid, param)
  | rpcAccept value => p.buffer.encode value
  | rpcReject cause => p.cause.encode cause
  | hearbeatRequest spare => p.u8.encode spare
  | hearbeatResponse spare => p.u8.encode spare

/-- `decode_per` of the alternative with a number; where there is none, the message stays what its
constructor has made it. -/
def decodeAlternative (p : Per) : ℕ → Decoder UInt8 PropertyTreeMessages
  | 0 => signinRequest <$> p.u8.decode
  | 1 => signinAccept <$> p.u32.decode
  | 2 => (fun x => createRequest x.1 x.2) <$> (p.string.pair p.u64).decode
  | 3 => createAccept <$> p.u64.decode
  | 4 => createReject <$> p.cause.decode
  | 5 => getRequest <$> p.u64.decode
  | 6 => getAccept <$> p.buffer.decode
  | 7 => getReject <$> p.cause.decode
  | 8 => (fun x => treeInfoRequest x.1 x.2.1 x.2.2) <$> (p.u64.pair (p.string.pair p.u8)).decode
  | 9 => treeInfoResponse <$> p.namedNodeList.decode
  | 10 => treeInfoErrorResponse <$> p.cause.decode
  | 11 => (fun x => treeUpdateNotification x.1 x.2) <$> (p.namedNodeList.pair p.u64Array).decode
  | 12 => deleteRequest <$> p.u64.decode
  | 13 => deleteResponse <$> p.cause.decode
  | 14 => (fun x => setValueRequest x.1 x.2) <$> (p.u64.pair p.buffer).decode
  | 15 => setValueAccept <$> p.u8.decode
  | 16 => setValueReject <$> p.cause.decode
  | 17 => subscribeRequest <$> p.u64.decode
  | 18 => subscribeResponse <$> p.cause.decode
  | 19 => unsubscribeRequest <$> p.u64.decode
  | 20 => unsubscribeResponse <$> p.cause.decode
  | 21 => (fun x => updateNotification x.1 x.2) <$> (p.u64.pair p.buffer).decode
  | 22 => (fun x => rpcRequest x.1 x.2) <$> (p.u64.pair p.buffer).decode
  | 23 => rpcAccept <$> p.buffer.decode
  | 24 => rpcReject <$> p.cause.decode
  | 25 => hearbeatRequest <$> p.u8.decode
  | 26 => hearbeatResponse <$> p.u8.decode
  | _ => pure (signinRequest 0)

/-- `encode_per(PropertyTreeMessages)`. -/
def encodePer (p : Per) (m : PropertyTreeMessages) : List UInt8 :=
  p.u8.encode m.index ++ m.encodeAlternative p

/-- `decode_per(PropertyTreeMessages)`. -/
def decodePer (p : Per) : Decoder UInt8 PropertyTreeMessages := do
  let type ← p.u8.decode
  decodeAlternative p type.toNat

/-- The strings hold no zero, and the vectors are within their bounds. -/
def Encodable : PropertyTreeMessages → Prop
  | createRequest name _ | treeInfoRequest _ name _ => 0 ∉ name
  | getAccept data | setValueRequest _ data | updateNotification _ data | rpcRequest _ data
  | rpcAccept data => data.length < 4294967296
  | treeInfoResponse l => l.length < 4294967296 ∧ ∀ i ∈ l, 0 ∉ i.name
  | treeUpdateNotification l l' =>
    (l.length < 4294967296 ∧ ∀ i ∈ l, 0 ∉ i.name) ∧ l'.length < 4294967296
  | _ => True

variable {p : Per} {m : PropertyTreeMessages} {n : ℕ} {bs rest : List UInt8}

/-- The fields of an alternative are read under its number. -/
theorem run_decodeAlternative (hp : p.Lawful) (h : m.Encodable) (rest : List UInt8) :
    (decodeAlternative p m.index.toNat).run (m.encodeAlternative p ++ rest) = some (m, rest) := by
  have h8 := hp.u8
  have h64 := hp.u64
  have hc := hp.cause
  have hb := hp.buffer
  have h64b := hp.u64.pair hp.buffer
  cases m
  case createRequest name pu =>
    exact ((hp.string.pair h64).map _).run_append ⟨(name, pu), ⟨h, trivial⟩, rfl, rfl⟩ _
  case treeInfoRequest pu name r =>
    exact ((h64.pair (hp.string.pair h8)).map _).run_append
      ⟨(pu, name, r), ⟨trivial, h, trivial⟩, rfl, rfl⟩ _
  case treeInfoResponse => exact (hp.namedNodeList.map _).run_append ⟨_, h, rfl, rfl⟩ _
  case treeUpdateNotification l l' =>
    exact ((hp.namedNodeList.pair hp.u64Array).map _).run_append ⟨(l, l'), h, rfl, rfl⟩ _
  case setValueRequest u data =>
    exact (h64b.map _).run_append ⟨(u, data), ⟨trivial, h⟩, rfl, rfl⟩ _
  case updateNotification u data =>
    exact (h64b.map _).run_append ⟨(u, data), ⟨trivial, h⟩, rfl, rfl⟩ _
  case rpcRequest u param => exact (h64b.map _).run_append ⟨(u, param), ⟨trivial, h⟩, rfl, rfl⟩ _
  case signinAccept => exact (hp.u32.map _).run_append ⟨_, trivial, rfl, rfl⟩ _
  all_goals
    first
    | exact (hc.map _).run_append ⟨_, trivial, rfl, rfl⟩ _
    | exact (h64.map _).run_append ⟨_, trivial, rfl, rfl⟩ _
    | exact (h8.map _).run_append ⟨_, trivial, rfl, rfl⟩ _
    | exact (hb.map _).run_append ⟨_, h, rfl, rfl⟩ _

/-- What is read under a number are the fields of that alternative, and under a number that no
alternative has nothing is read. -/
theorem of_run_decodeAlternative (hp : p.Lawful)
    (h : (decodeAlternative p n).run bs = some (m, rest)) :
    m.index.toNat = n ∧ m.Encodable ∧ bs = m.encodeAlternative p ++ rest ∨
      27 ≤ n ∧ m = signinRequest 0 ∧ bs = rest := by
  have hread : ∀ {α : Type} {x : Codec UInt8 α} {P : α → Prop} {f : α → PropertyTreeMessages},
      x.Exact P → (f <$> x.decode).run bs = some (m, rest) →
      (∀ a, P a → (f a).index.toNat = n ∧ (f a).Encodable ∧
        x.encode a = (f a).encodeAlternative p) →
      m.index.toNat = n ∧ m.Encodable ∧ bs = m.encodeAlternative p ++ rest := by
    intro α x P f hx hrun hf
    obtain ⟨_, ⟨a, ha, rfl, rfl⟩, rfl⟩ := (hx.map f _ _ _).mp hrun
    obtain ⟨hi, he, hw⟩ := hf a ha
    exact ⟨hi, he, by rw [hw]⟩
  by_cases hn : n < 27
  · left
    interval_cases n
    all_goals
      first
      | exact hread hp.cause h fun a _ => ⟨rfl, trivial, rfl⟩
      | exact hread hp.u64 h fun a _ => ⟨rfl, trivial, rfl⟩
      | exact hread hp.u8 h fun a _ => ⟨rfl, trivial, rfl⟩
      | exact hread hp.buffer h fun a ha => ⟨rfl, ha, rfl⟩
      | exact hread (hp.u64.pair hp.buffer) h fun a ha => ⟨rfl, ha.2, rfl⟩
      | exact hread hp.u32 h fun a _ => ⟨rfl, trivial, rfl⟩
      | exact hread (hp.string.pair hp.u64) h fun a ha => ⟨rfl, ha.1, rfl⟩
      | exact hread (hp.u64.pair (hp.string.pair hp.u8)) h fun a ha => ⟨rfl, ha.2.1, rfl⟩
      | exact hread hp.namedNodeList h fun a ha => ⟨rfl, ha, rfl⟩
      | exact hread (hp.namedNodeList.pair hp.u64Array) h fun a ha => ⟨rfl, ha, rfl⟩
  · obtain ⟨k, rfl⟩ := Nat.exists_eq_add_of_le' (not_lt.mp hn)
    obtain ⟨_, ⟨rfl, rfl⟩, rfl⟩ := (Decoder.recognizes_pure _ _ _ _).mp h
    exact .inr ⟨not_lt.mp hn, rfl, rfl⟩

/-- The words a message is read from: its encoding, and every number that no alternative has for the
`SigninRequest` that is left in its place. -/
inductive Spells (p : Per) : PropertyTreeMessages → List UInt8 → Prop
  | encoded (m : PropertyTreeMessages) (h : m.Encodable) : Spells p m (m.encodePer p)
  | unknown (t : UInt8) (ht : 27 ≤ t.toNat) : Spells p (signinRequest 0) (p.u8.encode t)

theorem recognizes_decodePer (hp : p.Lawful) : (decodePer p).Recognizes (Spells p) := by
  intro bs m rest
  rw [decodePer, StateT.run_bind]
  constructor
  · intro hrun
    obtain ⟨⟨t, mid⟩, ht, hm⟩ := Option.bind_eq_some_iff.mp hrun
    obtain ⟨_, ⟨-, rfl⟩, rfl⟩ := (hp.u8 _ _ _).mp ht
    rcases of_run_decodeAlternative hp hm with ⟨hi, he, rfl⟩ | ⟨hle, rfl, rfl⟩
    · refine ⟨_, .encoded m he, ?_⟩
      rw [encodePer, UInt8.toNat_inj.mp hi, List.append_assoc]
    · exact ⟨_, .unknown t hle, rfl⟩
  · rintro ⟨_, hw, rfl⟩
    cases hw with
    | encoded m h =>
      rw [encodePer, List.append_assoc]
      exact Option.bind_eq_some_iff.mpr
        ⟨_, hp.u8.run_append ⟨trivial, rfl⟩ _, run_decodeAlternative hp h rest⟩
    | unknown t ht =>
      refine Option.bind_eq_some_iff.mpr ⟨_, hp.u8.run_append ⟨trivial, rfl⟩ _, ?_⟩
      obtain ⟨k, hk⟩ := Nat.exists_eq_add_of_le' ht
      rw [hk]
      rfl

end PropertyTreeMessages

/-! ## Payloads -/

namespace PropertyTreeMessage

/-- `encode_per(PropertyTreeMessage)`. -/
def encodePer (p : Per) (m : PropertyTreeMessage) : List UInt8 :=
  p.u16.encode m.transactionId ++ m.message.encodePer p

/-- `decode_per(PropertyTreeMessage)`. -/
def decodePer (p : Per) : Decoder UInt8 PropertyTreeMessage := do
  let transactionId ← p.u16.decode
  let message ← PropertyTreeMessages.decodePer p
  pure ⟨transactionId, message⟩

/-- The words a message with its transaction id is read from. -/
def Spells (p : Per) (m : PropertyTreeMessage) (w : List UInt8) : Prop :=
  ∃ w', m.message.Spells p w' ∧ w = p.u16.encode m.transactionId ++ w'

variable {p : Per}

theorem recognizes_decodePer (hp : p.Lawful) : (decodePer p).Recognizes (Spells p) := by
  refine (Decoder.Recognizes.bind hp.u16 fun t =>
    (PropertyTreeMessages.recognizes_decodePer hp).bind fun m =>
      Decoder.recognizes_pure (⟨t, m⟩ : PropertyTreeMessage)).congr fun x w => ⟨?_, ?_⟩
  · rintro ⟨t, _, _, ⟨-, rfl⟩, ⟨m, w', _, hw', ⟨rfl, rfl⟩, rfl⟩, rfl⟩
    exact ⟨w', hw', by rw [List.append_nil]⟩
  · rintro ⟨w', hw', rfl⟩
    exact ⟨x.transactionId, _, w', ⟨trivial, rfl⟩, ⟨x.message, w', [], hw', ⟨rfl, rfl⟩,
      (List.append_nil w').symm⟩, rfl⟩

/-- A message that is read is encodable, and it is read from its encoding unless it is the
`SigninRequest` that a constructor makes. -/
theorem Spells.canonical {m : PropertyTreeMessage} {w : List UInt8} (h : m.Spells p w) :
    m.message.Encodable ∧ (m.message ≠ .signinRequest 0 → w = m.encodePer p) := by
  obtain ⟨t, message⟩ := m
  obtain ⟨w', hw', rfl⟩ := h
  change message.Spells p w' at hw'
  cases hw' with
  | encoded m h => exact ⟨h, fun _ => rfl⟩
  | unknown t ht => exact ⟨trivial, fun hne => absurd rfl hne⟩

/-- The same for the messages of an array. -/
theorem canonical_of_words {ms : List PropertyTreeMessage} {w : List UInt8}
    (h : Decoder.Words (Spells p) ms w) : (∀ m ∈ ms, m.message.Encodable) ∧
      ((∀ m ∈ ms, m.message ≠ .signinRequest 0) → w = ms.flatMap (encodePer p)) := by
  induction h with
  | nil => exact ⟨by simp, fun _ => rfl⟩
  | cons hm hms ih =>
    obtain ⟨henc, hcanon⟩ := hm.canonical
    refine ⟨List.forall_mem_cons.mpr ⟨henc, ih.1⟩, fun hne => ?_⟩
    obtain ⟨hne, hnes⟩ := List.forall_mem_cons.mp hne
    rw [List.flatMap_cons, hcanon hne, ih.2 hnes]

end PropertyTreeMessage

namespace PropertyTreeProtocol

/-- `encode_per(PropertyTreeProtocol)`. -/
def encodePer (p : Per) : PropertyTreeProtocol → List UInt8
  | propertyTreeMessage m => p.u8.encode 0 ++ m.encodePer p
  | propertyTreeMessageArray ms =>
    p.u8.encode 1 ++ ((p.size 256).encode ms.length ++ ms.flatMap (PropertyTreeMessage.encodePer p))

/-- `decode_per` of the alternative of a payload with a number. -/
def decodeAlternative (p : Per) : ℕ → Decoder UInt8 PropertyTreeProtocol
  | 0 => propertyTreeMessage <$> PropertyTreeMessage.decodePer p
  | 1 => propertyTreeMessageArray <$> ((p.size 256).decode >>= (PropertyTreeMessage.decodePer p).many)
  | _ => pure (propertyTreeMessage ⟨0, .signinRequest 0⟩)

/-- `decode_per(PropertyTreeProtocol)`. -/
def decodePer (p : Per) : Decoder UInt8 PropertyTreeProtocol := do
  let type ← p.u8.decode
  decodeAlternative p type.toNat

/-- The messages are encodable, and an array holds fewer than 256. -/
def Encodable : PropertyTreeProtocol → Prop
  | propertyTreeMessage m => m.message.Encodable
  | propertyTreeMessageArray ms => ms.length < 256 ∧ ∀ m ∈ ms, m.message.Encodable

/-- The words a payload is read from. -/
inductive Spells (p : Per) : PropertyTreeProtocol → List UInt8 → Prop
  | message {m : PropertyTreeMessage} {w : List UInt8} (h : m.Spells p w) :
      Spells p (.propertyTreeMessage m) (p.u8.encode 0 ++ w)
  | array {ms : List PropertyTreeMessage} {w : List UInt8} (hlen : ms.length < 256)
      (h : Decoder.Words (PropertyTreeMessage.Spells p) ms w) :
      Spells p (.propertyTreeMessageArray ms) (p.u8.encode 1 ++ ((p.size 256).encode ms.length ++ w))
  | unknown (t : UInt8) (ht : 2 ≤ t.toNat) :
      Spells p (.propertyTreeMessage ⟨0, .signinRequest 0⟩) (p.u8.encode t)

variable {p : Per} {x : PropertyTreeProtocol}

/-- What is accepted as a payload, and as which: its encoding, with any number that no alternative
has in the place of a `SigninRequest`, and any other number in the place of a whole payload. -/
theorem recognizes_decodePer (hp : p.Lawful) : (decodePer p).Recognizes (Spells p) := by
  have hmsg := PropertyTreeMessage.recognizes_decodePer hp
  have h0 := hmsg.map propertyTreeMessage
  have h1 := (Codec.recognizes_counted (hp.size 256 (by decide)) hmsg).map propertyTreeMessageArray
  intro bs x rest
  rw [decodePer, StateT.run_bind]
  constructor
  · intro hrun
    obtain ⟨⟨t, mid⟩, ht, hx⟩ := Option.bind_eq_some_iff.mp hrun
    obtain ⟨_, ⟨-, rfl⟩, rfl⟩ := (hp.u8 _ _ _).mp ht
    by_cases ht0 : t.toNat = 0
    · obtain rfl : t = 0 := UInt8.toNat_inj.mp ht0
      obtain ⟨w, ⟨m, hm, rfl⟩, rfl⟩ := (h0 _ _ _).mp hx
      exact ⟨_, .message hm, (List.append_assoc ..).symm⟩
    by_cases ht1 : t.toNat = 1
    · obtain rfl : t = 1 := UInt8.toNat_inj.mp ht1
      obtain ⟨w, ⟨ms, ⟨hlen, v, hv, rfl⟩, rfl⟩, rfl⟩ := (h1 _ _ _).mp hx
      exact ⟨_, .array hlen hv, (List.append_assoc ..).symm⟩
    · obtain ⟨k, hk⟩ := Nat.exists_eq_add_of_le' (show 2 ≤ t.toNat by omega)
      rw [hk] at hx
      obtain ⟨_, ⟨rfl, rfl⟩, rfl⟩ := (Decoder.recognizes_pure _ _ _ _).mp hx
      exact ⟨_, .unknown t (by omega), rfl⟩
  · rintro ⟨_, hw, rfl⟩
    cases hw with
    | message h =>
      rw [List.append_assoc]
      exact Option.bind_eq_some_iff.mpr
        ⟨_, hp.u8.run_append ⟨trivial, rfl⟩ _, h0.run_append ⟨_, h, rfl⟩ rest⟩
    | array hlen h =>
      rw [List.append_assoc]
      exact Option.bind_eq_some_iff.mpr
        ⟨_, hp.u8.run_append ⟨trivial, rfl⟩ _, h1.run_append ⟨_, ⟨hlen, _, h, rfl⟩, rfl⟩ rest⟩
    | unknown t ht =>
      refine Option.bind_eq_some_iff.mpr ⟨_, hp.u8.run_append ⟨trivial, rfl⟩ _, ?_⟩
      obtain ⟨k, hk⟩ := Nat.exists_eq_add_of_le' ht
      rw [hk]
      rfl

/-- The encoding of a payload is one of the words it is read from. -/
theorem spells_encodePer (h : x.Encodable) : x.Spells p (x.encodePer p) := by
  have hone : ∀ m : PropertyTreeMessage, m.message.Encodable → m.Spells p (m.encodePer p) :=
    fun m hm => ⟨_, .encoded _ hm, rfl⟩
  cases x with
  | propertyTreeMessage m => exact .message (hone m h)
  | propertyTreeMessageArray ms =>
    refine .array h.1 ?_
    obtain ⟨-, hall⟩ := h
    induction ms with
    | nil => exact .nil
    | cons m ms ih =>
      obtain ⟨hm, hms⟩ := List.forall_mem_cons.mp hall
      exact .cons (hone m hm) (ih hms)

/-- What is written is read back, whatever follows it. -/
theorem decodePer_encodePer (hp : p.Lawful) (h : x.Encodable) (rest : List UInt8) :
    (decodePer p).run (x.encodePer p ++ rest) = some (x, rest) :=
  (recognizes_decodePer hp).run_append (spells_encodePer h) rest

/-- What is written is read back, whatever follows it, and no encoding of a payload is the beginning of
that of another. -/
theorem faithful_encodePer (hp : p.Lawful) (hx : x.Encodable) :
    (∀ rest, (decodePer p).run (x.encodePer p ++ rest) = some (x, rest)) ∧
      ∀ y : PropertyTreeProtocol, y.Encodable → x.encodePer p <+: y.encodePer p → x = y :=
  ⟨decodePer_encodePer hp hx, fun _ hy hpre =>
    ((recognizes_decodePer hp).prefix_free (spells_encodePer hx) (spells_encodePer hy) hpre).1⟩

/-- A request to create a node and the bytes behind it. -/
theorem faithful_createRequest :
    (∀ rest, (decodePer Per.littleEndian).run ((propertyTreeMessage
      ⟨1, .createRequest [97] 0⟩).encodePer Per.littleEndian ++ rest) =
        some (propertyTreeMessage ⟨1, .createRequest [97] 0⟩, rest)) ∧
      ∀ y : PropertyTreeProtocol, y.Encodable → (propertyTreeMessage
        ⟨1, .createRequest [97] 0⟩).encodePer Per.littleEndian <+: y.encodePer Per.littleEndian →
          propertyTreeMessage ⟨1, .createRequest [97] 0⟩ = y :=
  faithful_encodePer Per.lawful_littleEndian (show (0 : UInt8) ∉ [97] by decide)

/-- What is read is encodable, and what is read without the `SigninRequest` that a constructor makes
is read from its encoding only. -/
theorem canonical_of_decodePer (hp : p.Lawful) {bs rest : List UInt8}
    (h : (decodePer p).run bs = some (x, rest)) :
    x.Encodable ∧ ((∀ m ∈ x.messages, m.message ≠ .signinRequest 0) → bs = x.encodePer p ++ rest) := by
  obtain ⟨w, hw, rfl⟩ := (recognizes_decodePer hp bs x rest).mp h
  rw [List.append_left_inj]
  cases hw with
  | message hm =>
    obtain ⟨henc, hcanon⟩ := hm.canonical
    refine ⟨henc, fun hne => ?_⟩
    rw [encodePer, hcanon (hne _ (List.mem_singleton.mpr rfl))]
  | array hlen hms =>
    obtain ⟨henc, hcanon⟩ := PropertyTreeMessage.canonical_of_words hms
    refine ⟨⟨hlen, henc⟩, fun hne => ?_⟩
    rw [encodePer, hcanon hne]
  | unknown t ht =>
    exact ⟨trivial, fun hne => absurd rfl (hne _ (List.mem_singleton.mpr rfl))⟩

/-- A request to delete a node, and the byte that follows it. -/
theorem canonical_deleteRequest :
    (propertyTreeMessage ⟨1, .deleteRequest 7⟩).Encodable ∧
      ((∀ m ∈ (propertyTreeMessage ⟨1, .deleteRequest 7⟩).messages, m.message ≠ .signinRequest 0) →
        [0, 1, 0, 12, 7, 0, 0, 0, 0, 0, 0, 0, 99] =
          (propertyTreeMessage ⟨1, .deleteRequest 7⟩).encodePer Per.littleEndian ++ [99]) :=
  canonical_of_decodePer Per.lawful_littleEndian rfl

/-- A cause is read from a byte that no enumerator has, too. -/
example : (decodePer Per.littleEndian).run [0, 1, 0, 13, 200] =
    some (propertyTreeMessage ⟨1, .deleteResponse (.other 200 (by decide))⟩, []) :=
  rfl

end PropertyTreeProtocol

/-! ## How much is written -/

/-- An integer takes its own number of bytes, a string its characters and a zero, and the number of
elements of the vectors without a bound of their own no more than eight. -/
structure Per.Sized (p : Per) : Prop where
  u8 : ∀ a, (p.u8.encode a).length = 1
  u16 : ∀ a, (p.u16.encode a).length = 2
  u32 : ∀ a, (p.u32.encode a).length = 4
  u64 : ∀ a, (p.u64.encode a).length = 8
  cause : ∀ a, (p.cause.encode a).length = 1
  string : ∀ name, (p.string.encode name).length = stringSize name
  size : ∀ n, ((p.size 4294967296).encode n).length ≤ 8

/-- The size of the number of elements in front of such a vector. -/
def Per.lengthPrefix (p : Per) (n : ℕ) : ℕ :=
  ((p.size 4294967296).encode n).length

theorem Per.sized_littleEndian : Per.littleEndian.Sized where
  u8 _ := Codec.length_encode_word 1 256 _
  u16 _ := Codec.length_encode_word 2 65536 _
  u32 _ := Codec.length_encode_word 4 4294967296 _
  u64 _ := Codec.length_encode_word 8 18446744073709551616 _
  cause _ := Codec.length_encode_word 1 256 _
  string _ := Codec.length_encode_terminated ..
  size n := by
    rw [show ((Per.littleEndian.size 4294967296).encode n).length = 4 from
      Codec.length_encode_word 4 4294967296 n]
    decide

section Sizes

variable {p : Per}

theorem Per.Sized.length_buffer (hp : p.Sized) (data : Buffer) :
    (p.buffer.encode data).length = bufferSize p.lengthPrefix data := by
  simp [Per.buffer, hp.u8, bufferSize, Per.lengthPrefix]

theorem Per.Sized.length_u64Array (hp : p.Sized) (l : List UInt64) :
    (p.u64Array.encode l).length = p.lengthPrefix l.length + 8 * l.length := by
  simp [Per.u64Array, hp.u64, Per.lengthPrefix, mul_comm]

theorem Per.Sized.length_namedNodeList (hp : p.Sized) (l : List NamedNode) :
    (p.namedNodeList.encode l).length = namedNodeListSize p.lengthPrefix l := by
  have hone : ∀ i : NamedNode, (p.namedNode.encode i).length = i.encodedSize := by
    intro i
    simp only [Per.namedNode, List.length_append, hp.string, hp.u64, NamedNode.encodedSize, Nat.add_assoc]
  rw [Per.namedNodeList, Codec.length_encode_counted, List.map_congr_left fun i _ => hone i]
  rfl

/-- A message is written with as many bytes as its size says. -/
theorem PropertyTreeMessages.length_encodeAlternative (hp : p.Sized) (m : PropertyTreeMessages) :
    (m.encodeAlternative p).length = m.encodedSize p.lengthPrefix := by
  cases m <;>
    simp only [encodeAlternative, encodedSize, Codec.length_encode_pair, hp.u8, hp.u32, hp.u64, hp.cause,
      hp.string, hp.length_buffer, hp.length_u64Array, hp.length_namedNodeList, Nat.add_assoc]

theorem PropertyTreeMessage.length_encodePer (hp : p.Sized) (m : PropertyTreeMessage) :
    (m.encodePer p).length = m.encodedSize p.lengthPrefix := by
  simp only [encodePer, PropertyTreeMessages.encodePer, List.length_append, hp.u16, hp.u8,
    m.message.length_encodeAlternative hp, encodedSize]

theorem PropertyTreeProtocol.length_encodePer (hp : p.Sized) (m : PropertyTreeMessage) :
    ((propertyTreeMessage m).encodePer p).length = (propertyTreeMessage m).encodedSize p.lengthPrefix := by
  simp only [encodePer, List.length_append, hp.u8, m.length_encodePer hp, encodedSize]

/-- A message is read from at least as many bytes as its size says, apart from the one that its
constructor makes. -/
theorem PropertyTreeMessage.Spells.encodedSize_le (hp : p.Sized) {m : PropertyTreeMessage}
    {w : List UInt8} (h : m.Spells p w) :
    m.encodedSize p.lengthPrefix ≤ w.length ∨ m.message = .signinRequest 0 := by
  by_cases hm : m.message = .signinRequest 0
  · exact .inr hm
  · rw [h.canonical.2 hm, m.length_encodePer hp]
    exact .inl le_rfl

/-- The same for the messages of a payload. -/
theorem PropertyTreeProtocol.encodedSize_le_of_decodePer (hl : p.Lawful) (hp : p.Sized)
    {x : PropertyTreeProtocol} {bs rest : List UInt8} (h : (decodePer p).run bs = some (x, rest))
    {m : PropertyTreeMessage} (hm : m ∈ x.messages) :
    1 + m.encodedSize p.lengthPrefix ≤ bs.length ∨ m.message = .signinRequest 0 := by
  obtain ⟨w, hw, rfl⟩ := (recognizes_decodePer hl bs x rest).mp h
  cases hw with
  | message hspells =>
    obtain rfl := List.mem_singleton.mp hm
    refine (hspells.encodedSize_le hp).imp_left fun hle => ?_
    simp only [List.length_append, hp.u8]
    omega
  | array hlen hwords =>
    obtain ⟨v, hspells, hv⟩ := hwords.exists_of_mem hm
    refine (hspells.encodedSize_le hp).imp_left fun hle => ?_
    simp only [List.length_append, hp.u8]
    omega
  | unknown t ht =>
    obtain rfl := List.mem_singleton.mp hm
    exact .inr rfl

end Sizes

/-! ## The strings of a message -/

namespace PropertyTreeMessages

variable {m : PropertyTreeMessages}

/-- The strings of a message. -/
def names : PropertyTreeMessages → List Name
  | createRequest name _ | treeInfoRequest _ name _ => [name]
  | treeInfoResponse l | treeUpdateNotification l _ => l.map NamedNode.name
  | _ => []

/-- No string of an encodable message holds a zero. -/
theorem Encodable.names (h : m.Encodable) : ∀ name ∈ m.names, 0 ∉ name := by
  cases m <;> simp_all [Encodable, PropertyTreeMessages.names]

/-- A message whose strings hold no zero is encodable if it is not too large. -/
theorem encodable_of_encodedSize (lengthPrefix : ℕ → ℕ) (h : ∀ name ∈ m.names, 0 ∉ name)
    (hle : m.encodedSize lengthPrefix < 4294967296) : m.Encodable := by
  have hlist : ∀ l : List NamedNode, l.length ≤ namedNodeListSize lengthPrefix l := by
    intro l
    have hsum := List.length_le_sum_of_one_le (l.map NamedNode.encodedSize) fun n hn => by
      obtain ⟨i, -, rfl⟩ := List.mem_map.mp hn
      simp only [NamedNode.encodedSize, stringSize]
      omega
    rw [List.length_map] at hsum
    exact hsum.trans (Nat.le_add_left ..)
  cases m with
  | treeInfoResponse l =>
    simp only [PropertyTreeMessages.names, List.forall_mem_map] at h
    exact ⟨(hlist l).trans_lt hle, h⟩
  | treeUpdateNotification l uuids =>
    simp only [PropertyTreeMessages.names, List.forall_mem_map] at h
    simp only [encodedSize] at hle
    have := hlist l
    exact ⟨⟨by omega, h⟩, by omega⟩
  | createRequest name pu => exact h name (List.mem_singleton.mpr rfl)
  | treeInfoRequest pu name r => exact h name (List.mem_singleton.mpr rfl)
  | _ =>
    first
    | trivial
    | simp only [encodedSize, bufferSize] at hle
      simp only [Encodable]
      omega

end PropertyTreeMessages

end PropertyTree
