import Zyris.Fs.Edit
import Zyris.Proto.Wire

/-!
# Messages on a byte stream

`crates/zyris-p2p/src/frame.rs`, and `IrohRead::read_one` of `transport.rs`, which reads a frame off
the stream.  The stream is what the peer sends in all; `read_exact` takes so many bytes of it, or
the rest of it and fails.
-/

namespace Zyris.P2p

open Proto

def MAX_FRAME : Nat := 16 * 1024 * 1024

inductive FrameError
  | unknownKind (kind : UInt8)
  | tooLarge (len : Nat)
  | notUtf8
  deriving DecidableEq

def FrameError.display : FrameError → String
  | .unknownKind kind => "unknown frame kind: " ++ toString kind
  | .tooLarge len =>
    toString len ++ " bytes exceeds the " ++ toString MAX_FRAME ++ "-byte cap"
  | .notUtf8 => "text frame is not valid UTF-8"

/-- The kind of a message and its payload. -/
def kindAndPayload : WireMessage → UInt8 × List UInt8
  | .binary b => (0, b)
  | .text t => (1, utf8 t.toList)

def encode (msg : WireMessage) : List UInt8 :=
  let (kind, payload) := kindAndPayload msg
  kind :: (beBytes payload.length ++ payload)

/-- `decode_header`, of the kind and the four bytes after it. -/
def decodeHeader (kind : UInt8) (lenBytes : List UInt8) : Except FrameError (UInt8 × Nat) :=
  if kind > 1 then .error (.unknownKind kind)
  else
    let len := ofBeBytes lenBytes
    if len > MAX_FRAME then .error (.tooLarge len) else .ok (kind, len)

def body (kind : UInt8) (bytes : List UInt8) : Except FrameError WireMessage :=
  if kind = 0 then .ok (.binary bytes)
  else if kind = 1 then
    match Fs.fromUtf8 bytes with
    | some text => .ok (.text (String.ofList text))
    | none => .error .notUtf8
  else .error (.unknownKind kind)

/-- `TransportError::Io`, as `read_one` makes it. -/
inductive ReadError
  -- of a `read_exact`
  | finishedEarly
  | frame (text : String)
  deriving DecidableEq

/-- `read_exact`: the bytes, and what is left of the stream. -/
def readExact (len : Nat) (stream : List UInt8) : Option (List UInt8 × List UInt8) :=
  if len ≤ stream.length then some (stream.take len, stream.drop len) else none

/-- `IrohRead::read_one`, and what it leaves of the stream. -/
def readOne (stream : List UInt8) : Except ReadError WireMessage × List UInt8 :=
  match readExact 5 stream with
  | none => (.error .finishedEarly, [])
  | some (header, stream) =>
    match decodeHeader (header.headD 0) header.tail with
    | .error e => (.error (.frame e.display), stream)
    | .ok (kind, len) =>
      match readExact len stream with
      | none => (.error .finishedEarly, [])
      | some (payload, stream) => ((body kind payload).mapError (.frame ·.display), stream)

def readMany : Nat → List UInt8 → List (Except ReadError WireMessage) × List UInt8
  | 0, stream => ([], stream)
  | n + 1, stream =>
    let (first, stream) := readOne stream
    let (rest, stream) := readMany n stream
    (first :: rest, stream)

end Zyris.P2p
