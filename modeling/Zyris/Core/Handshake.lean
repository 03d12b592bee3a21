import Zyris.Lib.Utf8
import Zyris.Core.Connection.State

/-!
# The handshake

`establish` of `crates/zyris-core/src/connection.rs`, up to the `Shared` it builds.  Each role is
what it makes of the one message it reads (`dial`, `accept`).
-/

namespace Zyris.Core

open Proto

def CLOSE_UNSUPPORTED_VERSION : Nat := 4400

structure ConnectionInfo where
  connId : String
  nodeId : String
  resumeToken : String
  resumed : Bool
  serialization : Serialization
  peerAgent : Option String
  peerKind : Option String
  node : Option NodeAddress

structure AcceptOptions where
  nodeId : String
  node : Option NodeAddress
  connId : String
  resumeToken : String
  resumed : Bool
  limits : Limits
  heartbeat : HeartbeatConfig
  reservedCapabilities : List String
  features : List String

structure Features where
  localFeatures : List String
  peer : List String

def Features.agreed (f : Features) (feature : String) : Bool :=
  (f.localFeatures.any fun x => x = feature) && f.peer.any fun x => x = feature

/-- What either branch of `establish` comes to. -/
structure Settled where
  serialization : Serialization
  limits : Limits
  info : ConnectionInfo
  reserved : List String
  features : Features
  heartbeat : HeartbeatConfig

/-- What `establish` makes of it: the fields of `Shared` that depend on it, and whether there are
heartbeat tasks. -/
structure Established where
  serialization : Serialization
  limits : Limits
  info : ConnectionInfo
  reserved : List String
  heartbeat : HeartbeatConfig
  side : Side
  attachmentsEnabled : Bool
  heartbeatEnabled : Bool

/-- The effective heartbeat: the timeout is at least an interval and a second. -/
def effectiveHeartbeat (h : HeartbeatConfig) : HeartbeatConfig where
  intervalS := h.intervalS
  timeoutS := max h.timeoutS (min (h.intervalS + 1) (2 ^ 32 - 1))

/-- The part of `establish` that both roles share. -/
def Settled.establish (s : Settled) : Established where
  serialization := s.serialization
  limits := s.limits
  info := s.info
  reserved := s.reserved
  heartbeat := effectiveHeartbeat s.heartbeat
  side := match s.info.peerAgent with
    | some _ => .acceptor
    | none => .dialer
  attachmentsEnabled := s.features.agreed FEATURE_ATTACHMENTS
  heartbeatEnabled := s.features.agreed FEATURE_HEARTBEAT

/-- The `n`-th id `next_stream_id` hands out. -/
def Established.streamId (e : Established) (n : Nat) : Nat :=
  (e.side.firstStreamId + 2 * n) % 2 ^ 32

/-! ### What is read and what is sent -/

/-- What `stream.next` gives during the handshake. -/
inductive HandshakeRead
  | ended
  | failed (error : WireError)
  | control (e : Envelope)
  | streamData
  | malformed (message : String)
  | text

def readHandshake : HandshakeRead → Except WireError Envelope
  | .ended => .error .connectionLost
  | .failed e => .error e
  | .control e => .ok e
  | .streamData => .error (.new .parseError "expected control frame")
  | .malformed message => .error (.new .parseError message)
  | .text => .error (.new .parseError "handshake must be msgpack")

/-- A call on the sink during the handshake. -/
inductive SinkCall
  | send (e : Envelope)
  | close (code : Nat) (reason : List Char)

/-- The loop of `truncate_close_reason`: back to a character boundary. -/
def backToBoundary (message : List Char) : Nat → Nat
  | 0 => 0
  | stop + 1 =>
    if (sliceFrom message (stop + 1)).isSome then stop + 1 else backToBoundary message stop

def truncateCloseReason (message : List Char) : List Char :=
  if (utf8 message).length ≤ 123 then message
  else
    let stop := backToBoundary message 123
    message.take (message.length - ((sliceFrom message stop).getD []).length)

/-! ### The dialer -/

/-- The payload of a version error, `json!({ "peer_major": major })` of a `u16`. -/
def peerMajor (major : Nat) : Payload :=
  ⟨.map [(.ofStr "peer_major", .integer (.ofU64 (major % 2 ^ 16) (by omega)))]⟩

/-- What a dialer that offered `offered` makes of the answer. -/
def settleAck (offered : List String) : Envelope → Except WireError Settled
  | .helloAck ack =>
    if ack.protocol.major ≠ PROTOCOL_MAJOR then
      .error ((WireError.new .unsupportedVersion
        ("server speaks v" ++ toString ack.protocol.major)).withData
          (peerMajor ack.protocol.major))
    else .ok
      { serialization := ack.serialization
        limits := ack.limits
        info :=
          { connId := ack.connId
            nodeId := ack.nodeId
            resumeToken := ack.resumeToken
            resumed := ack.resumed
            serialization := ack.serialization
            peerAgent := none
            peerKind := none
            node := ack.node }
        reserved := []
        features := ⟨offered, ack.features⟩
        heartbeat := ack.heartbeat }
  | .err _ error => .error error
  | _ => .error (.new .parseError "expected hello_ack")

/-- `Role::Dial`, once its `hello` is out. -/
def dial (offered : List String) (read : HandshakeRead) : Except WireError Established := do
  let answer ← readHandshake read
  let settled ← settleAck offered answer
  .ok settled.establish

/-! ### The acceptor -/

def AcceptOptions.ack (options : AcceptOptions) (hello : Hello) : HelloAck where
  protocol := ⟨PROTOCOL_MAJOR, PROTOCOL_MINOR⟩
  serialization := hello.serialization.head?.getD .msgpack
  connId := options.connId
  resumeToken := options.resumeToken
  nodeId := options.nodeId
  node := options.node
  heartbeat := options.heartbeat
  limits := options.limits
  resumed := options.resumed
  features := options.features

/-- What the acceptor keeps of the two. -/
def AcceptOptions.settle (options : AcceptOptions) (hello : Hello) : Settled where
  serialization := hello.serialization.head?.getD .msgpack
  limits := options.limits
  info :=
    { connId := options.connId
      nodeId := options.nodeId
      resumeToken := options.resumeToken
      resumed := options.resumed
      serialization := hello.serialization.head?.getD .msgpack
      peerAgent := some hello.agent
      peerKind := hello.kind
      node := options.node }
  reserved := options.reservedCapabilities
  features := ⟨options.features, hello.features⟩
  heartbeat := options.heartbeat

/-- What an acceptor does with a `hello`, over a sink that takes everything. -/
def answerHello (decide : Hello → Except WireError AcceptOptions) (hello : Hello) :
    List SinkCall × Except WireError Settled :=
  if hello.protocol.major ≠ PROTOCOL_MAJOR then
    ([.send (.err 0 (.new .unsupportedVersion ("supported major " ++ toString PROTOCOL_MAJOR))),
      .close CLOSE_UNSUPPORTED_VERSION "unsupported version".toList],
     .error (.new .unsupportedVersion ("peer speaks v" ++ toString hello.protocol.major)))
  else match decide hello with
    | .error error =>
      ([.send (.err 0 error), .close CLOSE_NORMAL (truncateCloseReason error.message.toList)],
       .error error)
    | .ok options => ([.send (.helloAck (options.ack hello))], .ok (options.settle hello))

def accept (decide : Hello → Except WireError AcceptOptions) (read : HandshakeRead) :
    List SinkCall × Except WireError Established :=
  match readHandshake read with
  | .error e => ([], .error e)
  | .ok (.hello hello) =>
    ((answerHello decide hello).1, (answerHello decide hello).2.map Settled.establish)
  | .ok _ => ([], .error (.new .parseError "expected hello"))

end Zyris.Core
