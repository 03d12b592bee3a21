import Zyris.P2p.Authorize
import Zyris.Proto.Error
import Zyris.Transfer.Name

/-!
# Which peers are let in

`look_up_peer` and `authorize_peer` of `transfer/send.rs`, `PeerCache` and `serve_one` of
`transfer/listen.rs`.  A send has the key of its peer authorized under the name its caller gave.
The path of an incoming connection is what the node list says about its key, and the ledger is only
consulted, under that path.  A person may edit the ledger's file or `forget` a name in between.
-/

namespace Zyris.Transfer

open P2p Proto

/-! ### The sending side -/

/-- `ZPeerAddr`, as far as it is read before the dial. -/
structure PeerAddr where
  nodeId : String
  path : String
  endpointId : String
  online : Bool

/-- `refuse` of `send.rs`. -/
def refuse (code message : String) : WireError :=
  { WireError.new (.other code) message with retriable := false }

/-- `look_up_peer`: the answer to `peer_lookup`; `none` without a connection to ask over. -/
def lookUpPeer (node : String) : Option (Except WireError PeerAddr) → Except WireError PeerAddr
  | none =>
    .error { refuse "rendezvous_unavailable"
      ("this node is not connected to Attacca yet, so there is nothing to ask where " ++
        "a peer is") with retriable := true }
  | some (.error e) => .error e
  | some (.ok addr) =>
    if !eqIgnoreAsciiCase addr.path.toList node.toList then
      .error (refuse "peer_lookup_mismatch"
        ("asked for " ++ node ++ " and the rendezvous answered about " ++ addr.path ++ " (" ++
          addr.nodeId ++ "); refusing to send to a node that was not named"))
    else if !addr.online then
      .error { refuse "peer_offline" (node ++ " is not connected") with retriable := true }
    else .ok addr

/-- The texts of `TofuError`. -/
def tofuText : TofuError → String
  | .changed pinned offered =>
    "this node's key changed. pinned: " ++ pinned ++ ", offered: " ++ offered
  | .malformed path reason =>
    "the pin file at " ++ path ++ " could not be read (" ++ reason ++ "); refusing to continue"
  | .io message => message
  | .refused label fingerprint =>
    "peer confirmation for " ++ label ++ " was refused (fingerprint " ++ fingerprint ++
      "); not pinned"
  | .invalidEndpointId e => e.display

/-- `authorize_peer`: what it makes of the result of `authorize`. -/
def authorizePeer : Except TofuError Unit → Except WireError Unit
  | .ok () => .ok ()
  | .error e =>
    match e with
    | .changed _ _ => .error (refuse "peer_key_changed" (tofuText e))
    | .refused _ _ => .error (refuse "peer_not_confirmed" (tofuText e))
    | .malformed _ _ | .io _ | .invalidEndpointId _ =>
      .error (refuse "peer_pin_unavailable" (tofuText e))

/-- A `send_to` whose peer was found, with the index of its `authorize`. -/
structure SendTo where
  node : String
  addr : PeerAddr
  call : Nat

/-! ### The receiving side -/

/-- `ZPeerEntry`, as far as it is read. -/
structure PeerEntry where
  path : String
  endpointId : String

/-- Durations in seconds. -/
def DEFAULT_DIRECTORY_TTL : Nat := 60
def DEFAULT_REFRESH_INTERVAL : Nat := 10

/-- `PeerCache`, as `serve_peers` makes it. -/
structure PeerCache where
  byEndpoint : Table String PeerEntry
  fetched : Option Nat
  attempted : Option Nat

namespace PeerCache

def new : PeerCache := ⟨.empty, none, none⟩

def mayAttempt (cache : PeerCache) (now : Nat) : Bool :=
  cache.attempted.all fun at_ => DEFAULT_REFRESH_INTERVAL ≤ now - at_

/-- `refresh`, with what `directory.peers()` answers. -/
def refresh (cache : PeerCache) (now : Nat) : Except WireError (List PeerEntry) → PeerCache
  | .ok entries =>
    { byEndpoint := entries.foldl (fun table entry => table.insert entry.endpointId entry) .empty
      fetched := some now
      attempted := some now }
  | .error _ => { cache with attempted := some now }

/-- `find`, with the answer of the directory in case it is asked. -/
def find (cache : PeerCache) (now : Nat) (endpointId : String)
    (answer : Except WireError (List PeerEntry)) : PeerCache × Option PeerEntry :=
  let fresh := cache.fetched.any fun at_ => now - at_ < DEFAULT_DIRECTORY_TTL
  if fresh && (cache.byEndpoint.get endpointId).isSome then
    (cache, cache.byEndpoint.get endpointId)
  else
    let cache := if cache.mayAttempt now then cache.refresh now answer else cache
    (cache, cache.byEndpoint.get endpointId)

end PeerCache

/-- Where `serve_one` stands with a connection. -/
inductive InboundPc (Key : Type)
  -- before the directory is asked
  | finding (peer : Key)
  -- before the ledger is consulted
  | checking (peer : Key) (entry : PeerEntry)
  -- dropped
  | closed
  -- `LocalPeerTransfer::receiver_pending` was built for it
  | receiving (path : String)

/-! ### Both -/

/-- The ledger, and who sends and connects. -/
structure Trust (Key : Type) where
  tofu : Tofu
  sends : Arena SendTo
  cache : PeerCache
  inbound : Arena (InboundPc Key)
  now : Nat

inductive TrustAct (Key : Type)
  -- `send_to(node, ..)` has its answer from the rendezvous
  | sendTo (node : String) (answer : Option (Except WireError PeerAddr))
  -- a step of the store: an `authorize` goes on, somebody pins
  | tofu (a : TofuAct)
  -- `forget`, or a person edits the file
  | edit (file : Option LedgerFile)
  -- `establish` returns
  | accept (peer : Key)
  | find (j : Nat) (answer : Except WireError (List PeerEntry))
  | check (j : Nat) (order : WalkOrder)
  -- the ledger cannot be read
  | checkFails (j : Nat)
  | elapse (seconds : Nat)

def TrustAct.isEdit {Key : Type} : TrustAct Key → Bool
  | .edit _ => true
  | _ => false

namespace Trust

variable (keys : Keys) (path : String)

def start (file : Option LedgerFile) : Trust keys.Key :=
  ⟨⟨file, .empty, []⟩, .empty, .new, .empty, 0⟩

/-- What the `authorize_peer` of a send has returned, if it has. -/
def authorized {Key : Type} (s : Trust Key) (i : Nat) : Option (Except WireError Unit) := do
  let send ← s.sends.get i
  let call ← s.tofu.calls.get send.call
  match call.pc with
  | .returned result => some (authorizePeer result)
  | _ => none

/-- `serve_one` once `find` has answered. -/
def found {Key : Type} (peer : Key) : Option PeerEntry → InboundPc Key
  | some entry => .checking peer entry
  | none => .closed

/-- `serve_one` once `check` has answered. -/
def checked {Key : Type} (entry : PeerEntry) : Except TofuError Unit → InboundPc Key
  | .ok _ => .receiving entry.path
  | .error _ => .closed

def step (s : Trust keys.Key) : TrustAct keys.Key → Option (Trust keys.Key)
  | .sendTo node answer =>
    match lookUpPeer node answer with
    | .error _ => some s
    | .ok addr => do
      let tofu ← s.tofu.step keys path (.authorize node addr.endpointId)
      return { s with tofu := tofu, sends := s.sends.alloc ⟨node, addr, s.tofu.calls.size⟩ }
  | .tofu a => do
    let tofu ← s.tofu.step keys path a
    return { s with tofu := tofu }
  | .edit file => some { s with tofu := { s.tofu with file := file } }
  | .accept peer => some { s with inbound := s.inbound.alloc (.finding peer) }
  | .find j answer => do
    match ← s.inbound.get j with
    | .finding peer =>
      let (cache, entry) := s.cache.find s.now (keys.display peer) answer
      some { s with cache := cache, inbound := s.inbound.update j fun _ => found peer entry }
    | _ => none
  | .check j order => do
    match ← s.inbound.get j with
    | .checking peer entry =>
      let result := keys.check path order s.tofu.file entry.path (keys.display peer)
      some { s with inbound := s.inbound.update j fun _ => checked entry result }
    | _ => none
  | .checkFails j => do
    match ← s.inbound.get j with
    | .checking _ _ => some { s with inbound := s.inbound.update j fun _ => .closed }
    | _ => none
  | .elapse seconds => some { s with now := s.now + seconds }

end Trust

end Zyris.Transfer
