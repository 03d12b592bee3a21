import Zyris.Lib.Utf8
import Zyris.Proto.Wire

/-!
# Blobs as serde reads them

`crates/zyris-proto/src/datum.rs`.  Bytes and base64 text are inline, and a map is the envelope of
an attachment.  What serde's derive does with a struct is modelled once, for any list of fields: a
key names a field as a string, as bytes or as an index, and each field has a slot, which `visit_map`
fills by name and `visit_seq` in order.
-/

namespace Zyris.Proto

inductive Blob
  | inline (bytes : List UInt8)
  | attachment (reference : AttachmentRef)
  deriving DecidableEq

/-! ### What the derive makes of a struct -/

/-- `__FieldVisitor`: the field a key names, `some none` for `__ignore`, `none` for an error. -/
def visitField (fields : List String) : Value → Option (Option Nat)
  | .string (.valid s) => some (fields.findIdx? (· = s))
  | .string (.invalid bytes) => some (fields.findIdx? fun f => utf8 f.toList = bytes)
  | .binary bytes => some (fields.findIdx? fun f => utf8 f.toList = bytes)
  | .integer i => i.asU64.map fun n => if n < fields.length then some n else none
  | _ => none

/-- The loop of `visit_map` over the entries that are left, with the fields it has so far. -/
def visitMap (fields : List String) :
    List (Value × Value) → (Nat → Option Value) → Option (Nat → Option Value)
  | [], slots => some slots
  | (k, v) :: entries, slots =>
    match visitField fields k with
    | none => none
    | some none => visitMap fields entries slots
    | some (some i) =>
      if (slots i).isSome then none
      else visitMap fields entries (Function.update slots i (some v))

/-- `deserialize_struct`: by name from a map, in order from an array, which may be too short for
defaulted fields. -/
def visitStruct {α : Type} (fields : List String) (read : (Nat → Option Value) → Option α) :
    Value → Option α
  | .map entries => (visitMap fields entries fun _ => none).bind read
  | .array items => if items.length ≤ fields.length then read fun i => items[i]? else none
  | _ => none

/-- `String::deserialize`, which takes bytes as well. -/
def readString : Value → Option String
  | .string s => s.asStr
  | .binary bytes => String.fromUTF8? ⟨bytes.toArray⟩
  | _ => none

/-! ### Attachments -/

def AttachmentRef.fields : List String := ["stream", "size", "sha256", "offset"]

def AttachmentRef.ofSlots (slots : Nat → Option Value) : Option AttachmentRef := do
  let stream ← (slots 0).bind (readUint 32)
  let size ← (slots 1).bind (readUint 64)
  let sha256 ← ((slots 2).map (readOption readString)).getD (some none)
  let offset ← ((slots 3).map (readUint 64)).getD (some 0)
  return { stream, size, sha256, offset }

def AttachmentRef.deserialize : Value → Option AttachmentRef := visitStruct fields ofSlots

def AttachmentEnvelope.fields : List String := ["attachment"]

/-- `AttachmentEnvelope::deserialize`, on the entries `visit_map` hands on. -/
def AttachmentEnvelope.deserialize (entries : List (Value × Value)) : Option AttachmentRef :=
  (visitMap fields entries fun _ => none).bind fun slots => (slots 0).bind AttachmentRef.deserialize

/-! ### Base64 -/

/-- The value of a character of the alphabet. -/
def base64Value (c : Char) : Option Nat :=
  (List.range 64).find? fun n => base64Char n = c

/-- `base64::engine::general_purpose::STANDARD.decode`: padded, and with no bits left over. -/
def base64Decode : List Char → Option (List UInt8)
  | [] => some []
  | [a, b, '=', '='] => do
    let n := (← base64Value a) * 2 ^ 6 + (← base64Value b)
    if n % 2 ^ 4 = 0 then return [UInt8.ofNat (n / 2 ^ 4)] else none
  | [a, b, c, '='] => do
    let n := (← base64Value a) * 2 ^ 12 + (← base64Value b) * 2 ^ 6 + (← base64Value c)
    if n % 2 ^ 2 = 0 then return [UInt8.ofNat (n / 2 ^ 10), UInt8.ofNat (n / 2 ^ 2)] else none
  | a :: b :: c :: d :: rest => do
    let n := (← base64Value a) * 2 ^ 18 + (← base64Value b) * 2 ^ 12 + (← base64Value c) * 2 ^ 6
      + (← base64Value d)
    let bytes ← base64Decode rest
    return UInt8.ofNat (n / 2 ^ 16) :: UInt8.ofNat (n / 2 ^ 8) :: UInt8.ofNat n :: bytes
  | _ => none

/-! ### Blobs -/

def Blob.deserialize : Value → Option Blob
  | .string (.valid s) => (base64Decode s.toList).map .inline
  | .string (.invalid bytes) => some (.inline bytes)
  | .binary bytes => some (.inline bytes)
  | .map entries => (AttachmentEnvelope.deserialize entries).map .attachment
  | _ => none

end Zyris.Proto
