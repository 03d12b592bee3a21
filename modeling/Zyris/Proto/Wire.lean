import Zyris.Lib.Record
import Zyris.Proto.Attach
import Zyris.Proto.Msgpack

/-!
# Envelopes on the wire

`crates/zyris-proto/src/frame.rs`, with the serializers serde derives for `envelope.rs` and
`error.rs`.  Serializing an envelope makes a map of its fields (`Envelope.toField`), the name of the
variant first under `t`; payloads that are nil and options that are `None` are skipped.  Under JSON
each payload is first turned into JSON (`Field.toJson`).

Deserializing looks each field up by its name.  serde would also read a struct from a sequence, a
field by its number and a string from bytes; nothing here writes any of those, and the readers below
do not take them.  The two formats themselves are a `Codec`.
-/

namespace Zyris.Proto

open Record

/-! ### What serde's derive writes -/

/-- A field of a struct, as its serializer is handed it. -/
inductive Field
  | str (s : String)
  | uint (n : Nat)
  | bool (b : Bool)
  | payload (p : Payload)
  | seq (items : List Field)
  | struct (fields : List (String × Field))

def Payload.isNil (p : Payload) : Bool :=
  match p.value with
  | .nil => true
  | _ => false

/-- `skip_serializing_if = "Option::is_none"`. -/
def Field.opt {α : Type} (name : String) (write : α → Field) (x : Option α) :
    List (String × Field) :=
  (x.map fun a => (name, write a)).toList

/-- `skip_serializing_if = "Payload::is_nil"`. -/
def Field.unlessNil (name : String) (p : Payload) : List (String × Field) :=
  if p.isNil then [] else [(name, .payload p)]

def WireError.toFields (e : WireError) : List (String × Field) :=
  [("code", .str e.code.wire), ("message", .str e.message), ("retriable", .bool e.retriable)] ++
    Field.opt "data" .payload e.data

def HelloProtocol.toFields (p : HelloProtocol) : List (String × Field) :=
  [("major", .uint p.major), ("minors_supported", .seq (p.minorsSupported.map .uint))]

def AckProtocol.toFields (p : AckProtocol) : List (String × Field) :=
  [("major", .uint p.major), ("minor", .uint p.minor)]

def ResumeInfo.toFields (r : ResumeInfo) : List (String × Field) :=
  [("conn_id", .str r.connId), ("resume_token", .str r.resumeToken)]

def HeartbeatConfig.toFields (h : HeartbeatConfig) : List (String × Field) :=
  [("interval_s", .uint h.intervalS), ("timeout_s", .uint h.timeoutS)]

def Limits.toFields (l : Limits) : List (String × Field) :=
  [("max_control_frame", .uint l.maxControlFrame), ("max_chunk", .uint l.maxChunk),
    ("max_inflight_reqs", .uint l.maxInflightReqs),
    ("initial_stream_credit", .uint l.initialStreamCredit)]

def NodeAddress.toFields (a : NodeAddress) : List (String × Field) :=
  [("system", .str a.system), ("program", .str a.program), ("name", .str a.name)]

def streamDecl (id : Nat) : List (String × Field) := [("id", .uint id)]

def Serialization.toField (s : Serialization) : Field := .str s.wire

def Hello.toFields (h : Hello) : List (String × Field) :=
  [("protocol", .struct h.protocol.toFields),
    ("serialization", .seq (h.serialization.map (·.toField))), ("agent", .str h.agent)] ++
  Field.opt "kind" .str h.kind ++ Field.opt "node_name" .str h.nodeName ++
  [("features", .seq (h.features.map .str))] ++
  Field.opt "resume" (fun r => .struct r.toFields) h.resume

def HelloAck.toFields (h : HelloAck) : List (String × Field) :=
  [("protocol", .struct h.protocol.toFields), ("serialization", h.serialization.toField),
    ("conn_id", .str h.connId), ("resume_token", .str h.resumeToken),
    ("node_id", .str h.nodeId)] ++
  Field.opt "node" (fun a => .struct a.toFields) h.node ++
  [("heartbeat", .struct h.heartbeat.toFields), ("limits", .struct h.limits.toFields),
    ("resumed", .bool h.resumed), ("features", .seq (h.features.map .str))]

def Envelope.tag : Envelope → String
  | .hello _ => "hello"
  | .helloAck _ => "hello_ack"
  | .req .. => "req"
  | .res .. => "res"
  | .err .. => "err"
  | .note .. => "note"
  | .prog .. => "prog"
  | .cancel _ => "cancel"
  | .sCredit .. => "s_credit"
  | .sEnd .. => "s_end"
  | .sErr .. => "s_err"
  | .sCancel _ => "s_cancel"

def Envelope.toFields : Envelope → List (String × Field)
  | .hello h => h.toFields
  | .helloAck h => h.toFields
  | .req id method params stream metadata =>
    [("id", .uint id), ("method", .str method)] ++ Field.unlessNil "params" params ++
      Field.opt "stream" (fun x => .struct (streamDecl x)) stream ++ Field.unlessNil "meta" metadata
  | .res id result => ("id", .uint id) :: Field.unlessNil "result" result
  | .err id error => [("id", .uint id), ("error", .struct error.toFields)]
  | .note method params => ("method", .str method) :: Field.unlessNil "params" params
  | .prog id payload => ("id", .uint id) :: Field.unlessNil "payload" payload
  | .cancel id => [("id", .uint id)]
  | .sCredit stream bytes => [("stream", .uint stream), ("bytes", .uint bytes)]
  | .sEnd stream trailer => ("stream", .uint stream) :: Field.unlessNil "trailer" trailer
  | .sErr stream error => [("stream", .uint stream), ("error", .struct error.toFields)]
  | .sCancel stream => [("stream", .uint stream)]

/-- `#[serde(tag = "t")]`. -/
def Envelope.toField (e : Envelope) : Field := .struct (("t", .str e.tag) :: e.toFields)

/-! ### The two formats -/

mutual

/-- The value MessagePack carries. -/
def Field.toValue : Field → Value
  | .str s => .ofStr s
  | .uint n => .ofNat n
  | .bool b => .boolean b
  | .payload p => p.value
  | .seq items => .array (toValues items)
  | .struct fields => .map (toEntries fields)

def Field.toValues : List Field → List Value
  | [] => []
  | f :: fs => f.toValue :: toValues fs

def Field.toEntries : List (String × Field) → List (Value × Value)
  | [] => []
  | (name, f) :: fs => (.ofStr name, f.toValue) :: toEntries fs

end

/-- An unsigned number in JSON. -/
def jsonOfNat (n : Nat) : Json :=
  if n < 2 ^ 63 then .number (.i64 n) else .number (.u64 n)

mutual

/-- The JSON that is printed. -/
def Field.toJson : Field → Except JsonError Json
  | .str s => .ok (.string s)
  | .uint n => .ok (jsonOfNat n)
  | .bool b => .ok (.bool b)
  | .payload p => rmpvToJson p.value
  | .seq items => (toJsons items).map .array
  | .struct fields => (toJsonFields fields).map .object

def Field.toJsons : List Field → Except JsonError (List Json)
  | [] => .ok []
  | f :: fs => do
    let j ← f.toJson
    let js ← toJsons fs
    return j :: js

def Field.toJsonFields : List (String × Field) → Except JsonError (List (String × Json))
  | [] => .ok []
  | (name, f) :: fs => do
    let j ← f.toJson
    let js ← toJsonFields fs
    return (name, j) :: js

end

/-- `Value::from` on an `i64`. -/
def Integer.ofI64 (i : Int) : Integer where
  val := i.bmod (2 ^ 64)
  lo := by
    have h := Int.le_bmod (x := i) (m := 2 ^ 64) (by decide)
    omega
  hi := by
    have h := Int.bmod_lt (x := i) (m := 2 ^ 64) (by decide)
    omega

mutual

/-- `json_to_rmpv`, which is also how `rmpv` deserializes JSON. -/
def jsonToRmpv : Json → Value
  | .null => .nil
  | .bool b => .boolean b
  | .number (.i64 i) => .integer (.ofI64 i)
  | .number (.u64 n) => .ofNat n
  | .number (.f64 bits) => .f64 bits
  | .string s => .ofStr s
  | .array items => .array (jsonToRmpvItems items)
  | .object fields => .map (jsonToRmpvFields fields)

def jsonToRmpvItems : List Json → List Value
  | [] => []
  | j :: js => jsonToRmpv j :: jsonToRmpvItems js

def jsonToRmpvFields : List (String × Json) → List (Value × Value)
  | [] => []
  | (k, j) :: js => (.ofStr k, jsonToRmpv j) :: jsonToRmpvFields js

end

/-! ### What serde's derive reads -/

def readStr : Value → Option String
  | .string s => s.asStr
  | _ => none

def readBool : Value → Option Bool
  | .boolean b => some b
  | _ => none

/-- A number of an unsigned type of so many bits. -/
def readUint (bits : Nat) : Value → Option Nat
  | .integer i => i.asU64.filter (· < 2 ^ bits)
  | _ => none

def readPayload (v : Value) : Option Payload := some ⟨v⟩

/-- An `Option`, which reads nil as `None`. -/
def readOption {α : Type} (read : Value → Option α) : Value → Option (Option α)
  | .nil => some none
  | v => (read v).map some

def readSeq {α : Type} (read : Value → Option α) : Value → Option (List α)
  | .array items => items.mapM read
  | _ => none

/-- The names of a struct's fields are strings. -/
def named (entries : List (Value × Value)) : Option (List (String × Value)) :=
  entries.mapM fun e => (readStr e.1).map fun name => (name, e.2)

def readStruct {α : Type} (read : List (String × Value) → Option α) : Value → Option α
  | .map entries => (named entries).bind read
  | _ => none

def Serialization.ofWire : String → Option Serialization
  | "msgpack" => some .msgpack
  | "json" => some .json
  | _ => none

def Serialization.read (v : Value) : Option Serialization := (readStr v).bind ofWire

def WireError.read : Value → Option WireError := readStruct fun fields => do
  let code ← required "code" readStr fields
  let message ← required "message" readStr fields
  let retriable ← defaulted "retriable" false readBool fields
  let data ← defaulted "data" none (readOption readPayload) fields
  return { code := .ofWire code, message, retriable, data }

def HelloProtocol.read : Value → Option HelloProtocol := readStruct fun fields => do
  let major ← required "major" (readUint 16) fields
  let minorsSupported ← defaulted "minors_supported" [] (readSeq (readUint 16)) fields
  return { major, minorsSupported }

def AckProtocol.read : Value → Option AckProtocol := readStruct fun fields => do
  let major ← required "major" (readUint 16) fields
  let minor ← required "minor" (readUint 16) fields
  return { major, minor }

def ResumeInfo.read : Value → Option ResumeInfo := readStruct fun fields => do
  let connId ← required "conn_id" readStr fields
  let resumeToken ← required "resume_token" readStr fields
  return { connId, resumeToken }

def HeartbeatConfig.read : Value → Option HeartbeatConfig := readStruct fun fields => do
  let intervalS ← required "interval_s" (readUint 32) fields
  let timeoutS ← required "timeout_s" (readUint 32) fields
  return { intervalS, timeoutS }

def Limits.read : Value → Option Limits := readStruct fun fields => do
  let maxControlFrame ← required "max_control_frame" (readUint 32) fields
  let maxChunk ← required "max_chunk" (readUint 32) fields
  let maxInflightReqs ← required "max_inflight_reqs" (readUint 32) fields
  let initialStreamCredit ← required "initial_stream_credit" (readUint 32) fields
  return { maxControlFrame, maxChunk, maxInflightReqs, initialStreamCredit }

def NodeAddress.read : Value → Option NodeAddress := readStruct fun fields => do
  let system ← required "system" readStr fields
  let program ← required "program" readStr fields
  let name ← required "name" readStr fields
  return { system, program, name }

def readStreamDecl : Value → Option Nat := readStruct (required "id" (readUint 32))

def Hello.read (fields : List (String × Value)) : Option Hello := do
  let protocol ← required "protocol" HelloProtocol.read fields
  let serialization ← required "serialization" (readSeq Serialization.read) fields
  let agent ← required "agent" readStr fields
  let kind ← defaulted "kind" none (readOption readStr) fields
  let nodeName ← defaulted "node_name" none (readOption readStr) fields
  let features ← defaulted "features" [] (readSeq readStr) fields
  let resume ← defaulted "resume" none (readOption ResumeInfo.read) fields
  return ⟨protocol, serialization, agent, kind, nodeName, features, resume⟩

def HelloAck.read (fields : List (String × Value)) : Option HelloAck := do
  let protocol ← required "protocol" AckProtocol.read fields
  let serialization ← required "serialization" Serialization.read fields
  let connId ← required "conn_id" readStr fields
  let resumeToken ← required "resume_token" readStr fields
  let nodeId ← required "node_id" readStr fields
  let node ← defaulted "node" none (readOption NodeAddress.read) fields
  let heartbeat ← required "heartbeat" HeartbeatConfig.read fields
  let limits ← required "limits" Limits.read fields
  let resumed ← defaulted "resumed" false readBool fields
  let features ← defaulted "features" [] (readSeq readStr) fields
  return ⟨protocol, serialization, connId, resumeToken, nodeId, node, heartbeat, limits, resumed,
    features⟩

/-- The variant of that name. -/
def Envelope.readVariant (tag : String) (fields : List (String × Value)) : Option Envelope :=
  match tag with
  | "hello" => (Hello.read fields).map .hello
  | "hello_ack" => (HelloAck.read fields).map .helloAck
  | "req" => do
    let id ← required "id" (readUint 64) fields
    let method ← required "method" readStr fields
    let params ← defaulted "params" .nil readPayload fields
    let stream ← defaulted "stream" none (readOption readStreamDecl) fields
    let metadata ← defaulted "meta" .nil readPayload fields
    return .req id method params stream metadata
  | "res" => do
    let id ← required "id" (readUint 64) fields
    let result ← defaulted "result" .nil readPayload fields
    return .res id result
  | "err" => do
    let id ← required "id" (readUint 64) fields
    let error ← required "error" WireError.read fields
    return .err id error
  | "note" => do
    let method ← required "method" readStr fields
    let params ← defaulted "params" .nil readPayload fields
    return .note method params
  | "prog" => do
    let id ← required "id" (readUint 64) fields
    let payload ← defaulted "payload" .nil readPayload fields
    return .prog id payload
  | "cancel" => do
    let id ← required "id" (readUint 64) fields
    return .cancel id
  | "s_credit" => do
    let stream ← required "stream" (readUint 32) fields
    let bytes ← required "bytes" (readUint 64) fields
    return .sCredit stream bytes
  | "s_end" => do
    let stream ← required "stream" (readUint 32) fields
    let trailer ← defaulted "trailer" .nil readPayload fields
    return .sEnd stream trailer
  | "s_err" => do
    let stream ← required "stream" (readUint 32) fields
    let error ← required "error" WireError.read fields
    return .sErr stream error
  | "s_cancel" => do
    let stream ← required "stream" (readUint 32) fields
    return .sCancel stream
  | _ => none

/-- `Envelope::deserialize`: the tag, wherever it stands, and then the variant it names. -/
def Envelope.read : Value → Option Envelope := readStruct fun fields => do
  let tag ← required "t" readStr fields
  readVariant tag fields

/-! ### Frames -/

inductive CodecError
  -- "empty frame"
  | empty
  -- "unknown frame kind {0:#04x}"
  | unknownKind (kind : UInt8)
  -- "truncated stream data frame"
  | truncated
  -- "msgpack decode: {0}"
  | msgpackDecode
  -- "json: {0}", with what `Payload::serialize` had to say if it was that which failed
  | json (e : Option JsonError)

/-- What a transport delivers. -/
inductive WireMessage
  | binary (bytes : List UInt8)
  | text (text : String)

/-- `rmp_serde::to_vec_named`, `from_slice`, `serde_json::to_string` and `from_str`, below the
types. -/
structure Codec where
  toVecNamed : Value → List UInt8
  fromSlice : List UInt8 → Option Value
  toText : Json → String
  fromStr : String → Option Json

def FRAME_CONTROL : UInt8 := 0x00

def FRAME_STREAM_DATA : UInt8 := 0x01

def encodeControl (codec : Codec) (e : Envelope) (ser : Serialization) :
    Except CodecError WireMessage :=
  match ser with
  | .msgpack => .ok (.binary (FRAME_CONTROL :: codec.toVecNamed e.toField.toValue))
  | .json =>
    match e.toField.toJson with
    | .ok j => .ok (.text (codec.toText j))
    | .error reason => .error (.json (some reason))

/-- `put_u32`. -/
def beBytes (n : Nat) : List UInt8 :=
  [UInt8.ofNat (n / 2 ^ 24), UInt8.ofNat (n / 2 ^ 16), UInt8.ofNat (n / 2 ^ 8), UInt8.ofNat n]

/-- `u32::from_be_bytes`. -/
def ofBeBytes (bytes : List UInt8) : Nat := bytes.foldl (fun n b => n * 2 ^ 8 + b.toNat) 0

def encodeStreamData (stream seq : Nat) (payload : List UInt8) : List UInt8 :=
  FRAME_STREAM_DATA :: (beBytes stream ++ beBytes seq ++ payload)

def decodeBinary (codec : Codec) (frame : List UInt8) : Except CodecError Frame :=
  match frame with
  | [] => .error .empty
  | kind :: body =>
    if kind = FRAME_CONTROL then
      match (codec.fromSlice body).bind Envelope.read with
      | some e => .ok (.control e)
      | none => .error .msgpackDecode
    else if kind = FRAME_STREAM_DATA then
      if frame.length < 9 then .error .truncated
      else .ok (.streamData (ofBeBytes (body.take 4)) (ofBeBytes ((body.drop 4).take 4))
        (body.drop 8))
    else .error (.unknownKind kind)

def decodeText (codec : Codec) (text : String) : Except CodecError Envelope :=
  match (codec.fromStr text).bind fun j => Envelope.read (jsonToRmpv j) with
  | some e => .ok e
  | none => .error (.json none)

/-- How `run_reader` takes a message. -/
def decodeMessage (codec : Codec) : WireMessage → Except CodecError Frame
  | .binary bytes => decodeBinary codec bytes
  | .text text => (decodeText codec text).map .control

end Zyris.Proto
