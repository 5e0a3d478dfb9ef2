import PropertyTree.Client.Step
import PropertyTree.Server.Outputs

/-!
# The server with its clients

`System` puts a `ProtocolHandler` and any number of `Client`s together: a connection is a pair of
queues, in which nothing is lost and nothing overtaken, and a step is a step of one client, the
handling of the next message of one connection, or the end of a connection whose client is closed.
Every message carries the number of the request that led to it: an output of the server that of the
message it is handling, and the reply of an owner that of the `RpcRequest` it replies to.  The last
four fields of a `System` record what has happened; no step depends on them.
-/

namespace PropertyTree

open Library Server

/-- An RPC the server has forwarded: its number, the key it was given, and the connection of the
session that had created the node. -/
structure Forwarded where
  number : ℕ
  key : UInt16
  owner : Option Conn
  deriving DecidableEq

/-- The server, the clients by their connections, and the record of the run. -/
structure System where
  server : ProtocolHandler
  terminated : Bool
  clients : Std.ExtTreeMap Conn Client
  /-- What the server has handled, with its outputs. -/
  log : List (Event × List Output)
  /-- The requests of the clients; a request's number is its place in this list. -/
  requests : List (Conn × PropertyTreeMessage)
  forwarded : List Forwarded
  /-- The replies of the owners, by the number of the RPC. -/
  answers : List (ℕ × Conn × PropertyTreeMessages)
  /-- The replies the server has forwarded to the callers. -/
  delivered : List (ℕ × Conn × PropertyTreeMessage)

namespace System

/-- The messages an output list holds for the connection `c`. -/
def sentTo (c : Conn) (o : List Output) : List PropertyTreeMessage :=
  o.filterMap fun
    | .send c' m => if c' = c then some m else none
    | .terminate => none

/-- The outputs of a server step arrive at the end of the clients' inbound queues. -/
def receive (tag : ℕ) (o : List Output) (c : Conn) (k : Client) : Client :=
  { k with inbound := k.inbound ++ (sentTo c o).map (⟨tag, ·⟩) }

/-- The requests among the messages a client sends. -/
def requestsOf (c : Conn) (sent : List Packet) : List (Conn × PropertyTreeMessage) :=
  sent.filterMap fun p => if p.message.message.isRequest then some (c, p.message) else none

/-- The replies among the messages a client sends. -/
def answersOf (c : Conn) (sent : List Packet) : List (ℕ × Conn × PropertyTreeMessages) :=
  sent.filterMap fun p =>
    if p.message.message.isRpcReply then some (p.tag, c, p.message.message) else none

/-- The RPCs that the outputs to the message number `tag` forward. -/
def forwardedBy (s : ProtocolHandler) (tag : ℕ) (o : List Output) : List Forwarded :=
  o.filterMap fun
    | .send _ ⟨key, .rpcRequest uuid _⟩ => some ⟨tag, key, s.ownerConnection uuid⟩
    | _ => none

/-- The replies that the outputs to the packet `p` forward. -/
def deliveredBy (p : Packet) (o : List Output) : List (ℕ × Conn × PropertyTreeMessage) :=
  if p.message.message.isRpcReply then
    o.filterMap fun
      | .send c m => some (p.tag, c, m)
      | .terminate => none
  else []

/-- The system before the first client. -/
def init : System where
  server := .init
  terminated := false
  clients := ∅
  log := []
  requests := []
  forwarded := []
  answers := []
  delivered := []

/-- A client is constructed on a new connection. -/
def connect (s : System) (c : Conn) : Option System :=
  if c ∈ s.clients then none else some { s with clients := s.clients.insert c .new }

/-- A client takes a step. -/
def act (s : System) (c : Conn) (a : Client.Action) : Option System :=
  match s.clients[c]? with
  | none => none
  | some k =>
    match k.step s.requests.length a with
    | none => none
    | some (k, sent) => some { s with
        clients := s.clients.insert c { k with outbound := k.outbound ++ sent }
        requests := s.requests ++ requestsOf c sent
        answers := s.answers ++ answersOf c sent }

/-- The server handles the packet `p` of the connection `c`, whose client is then `k`. -/
def handle (s : System) (c : Conn) (k : Client) (p : Packet) : Option System :=
  match s.server.step (.message c p.message) with
  | .error _ => none
  | .ok (server, o) => some { s with
      server := server
      terminated := o.contains .terminate
      clients := (s.clients.insert c k).map (receive p.tag o)
      log := s.log ++ [(.message c p.message, o)]
      forwarded := s.forwarded ++ forwardedBy s.server p.tag o
      delivered := s.delivered ++ deliveredBy p o }

/-- The server handles the next message of the connection `c`, unless it has been terminated. -/
def serve (s : System) (c : Conn) : Option System :=
  match s.clients[c]? with
  | none => none
  | some k =>
    match k.outbound with
    | [] => none
    | p :: outbound =>
      if s.terminated then none else s.handle c { k with outbound := outbound } p

/-- The server notices that the client of the connection `c` has closed it. -/
def disconnect (s : System) (c : Conn) : Option System :=
  match s.clients[c]? with
  | none => none
  | some k =>
    if k.status = .closed ∧ c ∉ s.server.dropped then
      match s.server.step (.disconnect c) with
      | .error _ => none
      | .ok (server, o) => some { s with
          server := server
          clients := s.clients.insert c { k with outbound := [] }
          log := s.log ++ [(.disconnect c, o)] }
    else none

/-- The steps of the system. -/
inductive Action where
  | connect (c : Conn)
  | client (c : Conn) (a : Client.Action)
  | serve (c : Conn)
  | disconnect (c : Conn)

/-- One step of the system. -/
def step (s : System) : Action → Option System
  | .connect c => s.connect c
  | .client c a => s.act c a
  | .serve c => s.serve c
  | .disconnect c => s.disconnect c

/-- The steps of the system, as a relation. -/
abbrev Step : System → Action → System → Prop :=
  Follows step

/-- The branches of a step of the system. -/
inductive StepResult (s : System) : Action → System → Prop
  | connect (c) (hc : s.clients[c]? = none) :
      StepResult s (.connect c) { s with clients := s.clients.insert c .new }
  | client (c a k k' sent) (hk : s.clients[c]? = some k) (hopen : k.status ≠ .closed)
      (h : Client.StepResult k s.requests.length a k' sent) :
      StepResult s (.client c a) { s with
        clients := s.clients.insert c { k' with outbound := k'.outbound ++ sent }
        requests := s.requests ++ requestsOf c sent
        answers := s.answers ++ answersOf c sent }
  | serve (c k p outbound server o) (hk : s.clients[c]? = some k)
      (hout : k.outbound = p :: outbound) (ht : s.terminated = false)
      (hok : s.server.step (.message c p.message) = .ok (server, o)) :
      StepResult s (.serve c) { s with
        server := server
        terminated := o.contains .terminate
        clients := (s.clients.insert c { k with outbound := outbound }).map (receive p.tag o)
        log := s.log ++ [(.message c p.message, o)]
        forwarded := s.forwarded ++ forwardedBy s.server p.tag o
        delivered := s.delivered ++ deliveredBy p o }
  | disconnect (c k server o) (hk : s.clients[c]? = some k) (hclosed : k.status = .closed)
      (hok : s.server.step (.disconnect c) = .ok (server, o)) :
      StepResult s (.disconnect c) { s with
        server := server
        clients := s.clients.insert c { k with outbound := [] }
        log := s.log ++ [(.disconnect c, o)] }

/-- Every step of the system takes one of these branches. -/
theorem step_cases {s s' : System} {a : Action} (h : Step s a s') : StepResult s a s' := by
  change s.step a = some s' at h
  cases a with
  | connect c =>
    simp only [step, System.connect] at h
    split_ifs at h with hc
    cases h
    rw [← Std.ExtTreeMap.isSome_getElem?_iff_mem, Option.not_isSome_iff_eq_none] at hc
    exact .connect c hc
  | client c a =>
    simp only [step, act] at h
    split at h
    · cases h
    split at h
    · cases h
    rename_i hk _ k' sent hstep
    cases h
    obtain ⟨hopen, hres⟩ := Client.step_cases hstep
    exact .client _ _ _ _ _ hk hopen hres
  | serve c =>
    simp only [step, System.serve] at h
    split at h
    · cases h
    split at h
    · cases h
    split_ifs at h with ht
    simp only [handle] at h
    split at h
    · cases h
    · cases h
      exact .serve _ _ _ _ _ _ ‹_› ‹_› (by simpa using ht) ‹_›
  | disconnect c =>
    simp only [step, System.disconnect] at h
    split at h
    · cases h
    split_ifs at h with hc
    split at h
    · cases h
    · cases h
      exact .disconnect _ _ _ _ ‹_› hc.1 ‹_›

/-! ## Scenarios -/

/-- The client on `c` signs in. -/
def signinActions (c : Conn) : List Action :=
  [.connect c, .client c (.fetchId 0), .client c (.send 0), .serve c, .client c .read,
    .client c (.take 0), .client c (.erase 0), .client c (.proceed 0)]

/-- Thread 0 of the client on `c` has its request handled. -/
def askActions (c : Conn) (call : Client.ApiCall) : List Action :=
  [.client c (.start 0 call), .client c (.fetchId 0), .client c (.send 0), .serve c]

/-- Thread 0 of the client on `c` ends its call. -/
def takeActions (c : Conn) : List Action :=
  [.client c (.take 0), .client c (.erase 0), .client c (.proceed 0)]

end System

end PropertyTree
