import Mathlib

/-!
# The messages of the property tree protocol

The types of `interface/protocol.cum`, under the names the generated header gives them.  A `String`
is a `std::string`, that is a sequence of bytes compared byte by byte, and so is a `Buffer`; the
fixed-width integers are Lean's.  `PropertyTreeMessages` is the choice both programs dispatch on.
-/

namespace PropertyTree

/-- A node name: the bytes of a `std::string`. -/
abbrev Name := List UInt8

/-- `Buffer`: a dynamic array of bytes. -/
abbrev Buffer := List UInt8

/-- The identity of a heap object. -/
abbrev Addr := ℕ

/-- The identity of a connection: on the server an `IConnectionSession*`. -/
abbrev Conn := ℕ

/-- The name `"."`, by which a `TreeInfoRequest` addresses the node itself. -/
def selfName : Name := [46]

/-- The name `"ghost"` of a placeholder in the client's mirror. -/
def ghostName : Name := [103, 104, 111, 115, 116]

/-- `Cause`, an `enum class` over `uint8_t`: nothing looks at the byte it is read from, so that it may
be one that none of the enumerators has. -/
inductive Cause where
  | ok
  | notFound
  | alreadyExist
  | notPermitted
  | notEmpty
  | noHandler
  | other (value : UInt8) (h : 5 < value)
  deriving DecidableEq, Repr

/-- The byte that holds a cause. -/
def Cause.toByte : Cause → UInt8
  | ok => 0
  | notFound => 1
  | alreadyExist => 2
  | notPermitted => 3
  | notEmpty => 4
  | noHandler => 5
  | other value _ => value

/-- The cause that a byte holds. -/
def Cause.ofByte (value : UInt8) : Cause :=
  if h : 5 < value then other value h
  else match value with
    | 0 => ok
    | 1 => notFound
    | 2 => alreadyExist
    | 3 => notPermitted
    | 4 => notEmpty
    | _ => noHandler

theorem Cause.ofByte_toByte (cause : Cause) : ofByte cause.toByte = cause := by
  cases cause with
  | other value h => exact dif_pos h
  | _ => rfl

theorem Cause.toByte_ofByte (value : UInt8) : (ofByte value).toByte = value := by
  by_cases h : 5 < value
  · rw [ofByte, dif_pos h, toByte]
  · have hle : value.toNat ≤ 5 := not_lt.mp h
    obtain ⟨n, hn⟩ : ∃ n, n = value.toNat := ⟨_, rfl⟩
    have hvalue : value = UInt8.ofNat n := by rw [hn, UInt8.ofNat_toNat]
    rw [← hn] at hle
    subst hvalue
    interval_cases n <;> rfl

/-- `NamedNode`: a node as it is listed in a message. -/
structure NamedNode where
  name : Name
  uuid : UInt64
  parentUuid : UInt64
  deriving DecidableEq, Repr

/-- `PropertyTreeMessages`: the alternatives of a message, in the order of the choice. -/
inductive PropertyTreeMessages where
  | signinRequest (spare : UInt8)
  | signinAccept (sessionId : UInt32)
  | createRequest (name : Name) (parentUuid : UInt64)
  | createAccept (uuid : UInt64)
  | createReject (cause : Cause)
  | getRequest (uuid : UInt64)
  | getAccept (data : Buffer)
  | getReject (cause : Cause)
  | treeInfoRequest (parentUuid : UInt64) (name : Name) (recursive : UInt8)
  | treeInfoResponse (nodeToAddList : List NamedNode)
  | treeInfoErrorResponse (cause : Cause)
  | treeUpdateNotification (nodeToAddList : List NamedNode) (nodeToDelete : List UInt64)
  | deleteRequest (uuid : UInt64)
  | deleteResponse (cause : Cause)
  | setValueRequest (uuid : UInt64) (data : Buffer)
  | setValueAccept (spare : UInt8)
  | setValueReject (cause : Cause)
  | subscribeRequest (uuid : UInt64)
  | subscribeResponse (cause : Cause)
  | unsubscribeRequest (uuid : UInt64)
  | unsubscribeResponse (cause : Cause)
  | updateNotification (uuid : UInt64) (data : Buffer)
  | rpcRequest (uuid : UInt64) (param : Buffer)
  | rpcAccept (value : Buffer)
  | rpcReject (cause : Cause)
  | hearbeatRequest (spare : UInt8)
  | hearbeatResponse (spare : UInt8)
  deriving DecidableEq, Repr

/-- `PropertyTreeMessage`: a message with its transaction id. -/
structure PropertyTreeMessage where
  transactionId : UInt16
  message : PropertyTreeMessages
  deriving DecidableEq, Repr

/-- `PropertyTreeProtocol`: what one frame of a connection carries. -/
inductive PropertyTreeProtocol where
  | propertyTreeMessage (message : PropertyTreeMessage)
  | propertyTreeMessageArray (messages : List PropertyTreeMessage)
  deriving DecidableEq, Repr

/-- The transaction id of the messages that answer no request; `Client::addTransaction` skips it. -/
def notificationId : UInt16 := 0xFFFF

namespace PropertyTreeMessages

/-- The messages the server sends to a client on its own account. -/
def isServerInitiated : PropertyTreeMessages → Bool
  | treeUpdateNotification _ _ | updateNotification _ _ | rpcRequest _ _ => true
  | _ => false

/-- The messages a client's API call sends. -/
def isRequest : PropertyTreeMessages → Bool
  | signinRequest _ | createRequest _ _ | getRequest _ | treeInfoRequest _ _ _ | deleteRequest _
  | setValueRequest _ _ | subscribeRequest _ | unsubscribeRequest _ | rpcRequest _ _
  | hearbeatRequest _ => true
  | _ => false

end PropertyTreeMessages

end PropertyTree
