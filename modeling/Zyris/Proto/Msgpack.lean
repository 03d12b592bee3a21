import Zyris.Proto.Envelope

/-!
# How long a control frame is

The tag byte, and what `rmp_serde::to_vec_named` writes: every integer, string, array and map with
the shortest header it fits in, a struct as a map from its field names, the variant's name first
under `t`.  Fields that are skipped are not written.
-/

namespace Zyris.Proto

/-! ### Headers -/

def uintLen (n : Nat) : Nat :=
  if n < 2 ^ 7 then 1 else if n < 2 ^ 8 then 2 else if n < 2 ^ 16 then 3
  else if n < 2 ^ 32 then 5 else 9

theorem uintLen_le (n : Nat) : uintLen n ≤ 9 := by
  unfold uintLen
  split_ifs <;> omega

def intLen (i : Int) : Nat :=
  if 0 ≤ i then uintLen i.toNat
  else if -2 ^ 5 ≤ i then 1 else if -2 ^ 7 ≤ i then 2 else if -2 ^ 15 ≤ i then 3
  else if -2 ^ 31 ≤ i then 5 else 9

def strLen (n : Nat) : Nat :=
  (if n < 2 ^ 5 then 1 else if n < 2 ^ 8 then 2 else if n < 2 ^ 16 then 3 else 5) + n

/-- `n` bytes. -/
def binLen (n : Nat) : Nat := (if n < 2 ^ 8 then 2 else if n < 2 ^ 16 then 3 else 5) + n

def extLen (n : Nat) : Nat :=
  (if n ∈ [1, 2, 4, 8, 16] then 2 else if n < 2 ^ 8 then 3 else if n < 2 ^ 16 then 4 else 6) + n

/-- The header of an array or a map of `n` entries. -/
def seqHead (n : Nat) : Nat := if n < 2 ^ 4 then 1 else if n < 2 ^ 16 then 3 else 5

def textLen (s : String) : Nat := strLen s.utf8ByteSize

/-! ### Values -/

mutual

def Value.packedLen : Value → Nat
  | .nil => 1
  | .boolean _ => 1
  | .integer i => intLen i.val
  | .f32 _ => 5
  | .f64 _ => 9
  | .string (.valid s) => textLen s
  | .string (.invalid bytes) => binLen bytes.length
  | .binary bytes => binLen bytes.length
  | .array items => seqHead items.length + packedLenItems items
  | .map entries => seqHead entries.length + packedLenEntries entries
  | .ext _ bytes => extLen bytes.length

def packedLenItems : List Value → Nat
  | [] => 0
  | v :: items => v.packedLen + packedLenItems items

def packedLenEntries : List (Value × Value) → Nat
  | [] => 0
  | (k, v) :: entries => k.packedLen + v.packedLen + packedLenEntries entries

end

/-! ### Structs -/

/-- A struct, from its field names and the lengths of their values. -/
def structLen (fields : List (String × Nat)) : Nat :=
  seqHead fields.length + (fields.map fun f => textLen f.1 + f.2).sum

def listLen (lens : List Nat) : Nat := seqHead lens.length + lens.sum

/-- A payload's field, skipped when it is `nil`. -/
def Payload.field (name : String) (p : Payload) : List (String × Nat) :=
  match p.value with
  | .nil => []
  | v => [(name, v.packedLen)]

def WireError.packedLen (e : WireError) : Nat :=
  structLen ([("code", textLen e.code.wire), ("message", textLen e.message), ("retriable", 1)] ++
    (e.data.map fun p => ("data", p.value.packedLen)).toList)

def Serialization.wire : Serialization → String
  | .msgpack => "msgpack"
  | .json => "json"

def Hello.fields (h : Hello) : List (String × Nat) :=
  [("protocol", structLen [("major", uintLen h.protocol.major),
      ("minors_supported", listLen (h.protocol.minorsSupported.map uintLen))]),
    ("serialization", listLen (h.serialization.map fun s => textLen s.wire)),
    ("agent", textLen h.agent)] ++
  (h.kind.map fun s => ("kind", textLen s)).toList ++
  (h.nodeName.map fun s => ("node_name", textLen s)).toList ++
  [("features", listLen (h.features.map textLen))] ++
  (h.resume.map fun r => ("resume", structLen [("conn_id", textLen r.connId),
    ("resume_token", textLen r.resumeToken)])).toList

def HelloAck.fields (h : HelloAck) : List (String × Nat) :=
  [("protocol", structLen [("major", uintLen h.protocol.major),
      ("minor", uintLen h.protocol.minor)]),
    ("serialization", textLen h.serialization.wire), ("conn_id", textLen h.connId),
    ("resume_token", textLen h.resumeToken), ("node_id", textLen h.nodeId)] ++
  (h.node.map fun a => ("node", structLen [("system", textLen a.system),
    ("program", textLen a.program), ("name", textLen a.name)])).toList ++
  [("heartbeat", structLen [("interval_s", uintLen h.heartbeat.intervalS),
      ("timeout_s", uintLen h.heartbeat.timeoutS)]),
    ("limits", structLen [("max_control_frame", uintLen h.limits.maxControlFrame),
      ("max_chunk", uintLen h.limits.maxChunk),
      ("max_inflight_reqs", uintLen h.limits.maxInflightReqs),
      ("initial_stream_credit", uintLen h.limits.initialStreamCredit)]),
    ("resumed", 1), ("features", listLen (h.features.map textLen))]

/-- The name of the variant, and its fields. -/
def Envelope.fields : Envelope → String × List (String × Nat)
  | .hello h => ("hello", h.fields)
  | .helloAck h => ("hello_ack", h.fields)
  | .req id method params stream metadata =>
    ("req", [("id", uintLen id), ("method", textLen method)] ++ params.field "params" ++
      (stream.map fun x => ("stream", structLen [("id", uintLen x)])).toList ++
      metadata.field "meta")
  | .res id result => ("res", ("id", uintLen id) :: result.field "result")
  | .err id error => ("err", [("id", uintLen id), ("error", error.packedLen)])
  | .note method params => ("note", ("method", textLen method) :: params.field "params")
  | .prog id payload => ("prog", ("id", uintLen id) :: payload.field "payload")
  | .cancel id => ("cancel", [("id", uintLen id)])
  | .sCredit stream bytes => ("s_credit", [("stream", uintLen stream), ("bytes", uintLen bytes)])
  | .sEnd stream trailer => ("s_end", ("stream", uintLen stream) :: trailer.field "trailer")
  | .sErr stream error => ("s_err", [("stream", uintLen stream), ("error", error.packedLen)])
  | .sCancel stream => ("s_cancel", [("stream", uintLen stream)])

/-- The length of the CONTROL frame of an envelope under MessagePack. -/
def Envelope.frameLen (e : Envelope) : Nat :=
  1 + structLen (("t", textLen e.fields.1) :: e.fields.2)

theorem Envelope.frameLen_err (id : Nat) (e : WireError) :
    (Envelope.err id e).frameLen = 17 + uintLen id + e.packedLen := by
  show 1 + (1 + (6 + ((3 + uintLen id) + ((6 + e.packedLen) + 0)))) = _
  omega

theorem Envelope.frameLen_sErr (stream : Nat) (e : WireError) :
    (Envelope.sErr stream e).frameLen = 23 + uintLen stream + e.packedLen := by
  show 1 + (1 + (8 + ((7 + uintLen stream) + ((6 + e.packedLen) + 0)))) = _
  omega

-- `00 82 a1 't' a6 'cancel' a2 'id' 07`
example : (Envelope.cancel 7).frameLen = 15 := by decide

end Zyris.Proto
