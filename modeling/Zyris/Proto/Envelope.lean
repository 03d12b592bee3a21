import Zyris.Proto.Error

/-!
# Envelopes and frames

`crates/zyris-proto/src/envelope.rs` and `frame.rs`.  A frame is a control envelope or a chunk of
stream data.  Writing MessagePack cannot fail, and writing JSON fails exactly when some payload has
no JSON form (`encodes`).  Request ids and byte counts are `u64`s, stream ids and chunk numbers
`u32`s.
-/

namespace Zyris.Proto

/-! ### The handshake -/

inductive Serialization
  | msgpack
  | json
  deriving DecidableEq, Repr

def PROTOCOL_MAJOR : Nat := 1

def PROTOCOL_MINOR : Nat := 0

def FEATURE_ATTACHMENTS : String := "attachments"

def FEATURE_HEARTBEAT : String := "heartbeat"

structure HelloProtocol where
  major : Nat
  minorsSupported : List Nat
  deriving DecidableEq

structure AckProtocol where
  major : Nat
  minor : Nat
  deriving DecidableEq

structure ResumeInfo where
  connId : String
  resumeToken : String
  deriving DecidableEq

structure HeartbeatConfig where
  intervalS : Nat
  timeoutS : Nat
  deriving DecidableEq

/-- `Limits`, all of them `u32`s. -/
structure Limits where
  maxControlFrame : Nat
  maxChunk : Nat
  maxInflightReqs : Nat
  initialStreamCredit : Nat
  deriving DecidableEq

def Limits.default : Limits where
  maxControlFrame := 8 * 1024 * 1024
  maxChunk := 256 * 1024
  maxInflightReqs := 64
  initialStreamCredit := 256 * 1024

structure NodeAddress where
  system : String
  program : String
  name : String
  deriving DecidableEq

def NodeAddress.path (a : NodeAddress) : String := a.system ++ "/" ++ a.program ++ "/" ++ a.name

def NodeAddress.parse (path : String) : Option NodeAddress :=
  match path.toList.splitOn '/' with
  | [system, program, name] =>
    if [system, program, name].any List.isEmpty then none
    else some ⟨.ofList system, .ofList program, .ofList name⟩
  | _ => none

structure Hello where
  protocol : HelloProtocol
  serialization : List Serialization
  agent : String
  kind : Option String
  nodeName : Option String
  features : List String
  resume : Option ResumeInfo
  deriving DecidableEq

structure HelloAck where
  protocol : AckProtocol
  serialization : Serialization
  connId : String
  resumeToken : String
  nodeId : String
  node : Option NodeAddress
  heartbeat : HeartbeatConfig
  limits : Limits
  resumed : Bool
  features : List String
  deriving DecidableEq

/-! ### Envelopes -/

/-- `Envelope`; the stream of a request is its `StreamDecl`. -/
inductive Envelope
  | hello (h : Hello)
  | helloAck (h : HelloAck)
  | req (id : Nat) (method : String) (params : Payload) (stream : Option Nat) (metadata : Payload)
  | res (id : Nat) (result : Payload)
  | err (id : Nat) (error : WireError)
  | note (method : String) (params : Payload)
  | prog (id : Nat) (payload : Payload)
  | cancel (id : Nat)
  | sCredit (stream : Nat) (bytes : Nat)
  | sEnd (stream : Nat) (trailer : Payload)
  | sErr (stream : Nat) (error : WireError)
  | sCancel (stream : Nat)

def METHOD_ANNOUNCE : String := "zyris.announce"

def METHOD_CLOSING : String := "zyris.closing"

/-- `IncomingFrame`, and what `WriterCmd::Send` carries before it is encoded. -/
inductive Frame
  | control (e : Envelope)
  | streamData (stream seq : Nat) (payload : List UInt8)

/-- The request a `res` or an `err` is the final answer to. -/
def Frame.finalId : Frame → Option Nat
  | .control (.res id _) => some id
  | .control (.err id _) => some id
  | _ => none

def Frame.reqId : Frame → Option Nat
  | .control (.req id _ _ _ _) => some id
  | _ => none

theorem Frame.eq_req_of_reqId {f : Frame} {id : Nat} (h : f.reqId = some id) :
    ∃ method params stream metadata, f = .control (.req id method params stream metadata) := by
  unfold Frame.reqId at h
  split at h
  · cases h
    exact ⟨_, _, _, _, rfl⟩
  · cases h

/-! ### Encoding -/

/-- The payload has the form the serialization writes it in. -/
def Payload.encodes (ser : Serialization) (p : Payload) : Bool :=
  match ser with
  | .msgpack => true
  | .json => match rmpvToJson p.value with
    | .ok _ => true
    | .error _ => false

/-- So has the payload an error may carry. -/
def WireError.encodes (ser : Serialization) (e : WireError) : Bool :=
  match e.data with
  | some p => p.encodes ser
  | none => true

/-- `encode_control` succeeds. -/
def Envelope.encodes (ser : Serialization) : Envelope → Bool
  | .req _ _ params _ metadata => params.encodes ser && metadata.encodes ser
  | .res _ result => result.encodes ser
  | .err _ error => error.encodes ser
  | .note _ params => params.encodes ser
  | .prog _ payload => payload.encodes ser
  | .sEnd _ trailer => trailer.encodes ser
  | .sErr _ error => error.encodes ser
  | _ => true

@[simp] theorem WireError.encodes_new (ser : Serialization) (code : ErrorCode) (message : String) :
    (WireError.new code message).encodes ser = true := rfl

@[simp] theorem Payload.encodes_msgpack (p : Payload) : p.encodes .msgpack = true := rfl

theorem WireError.encodes_msgpack (e : WireError) : e.encodes .msgpack = true := by
  unfold WireError.encodes
  split <;> rfl

/-! ### Methods -/

/-- `split_method`: `str::split_once('.')`. -/
def splitMethod (method : String) : Option (String × String) :=
  let cs := method.toList
  let name := cs.takeWhile (· ≠ '.')
  match cs.drop name.length with
  | [] => none
  | _ :: tool => some (String.ofList name, String.ofList tool)

def methodName (capability tool : String) : String := capability ++ "." ++ tool

end Zyris.Proto
