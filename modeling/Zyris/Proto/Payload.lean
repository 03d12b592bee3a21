import Zyris.Proto.Value

/-!
# Payloads and their JSON form

`crates/zyris-proto/src/payload.rs`.  Under JSON a payload is first turned into a `serde_json` value
(`rmpvToJson`), which fails on an extension value and on a map key that is neither a string nor an
integer.
-/

namespace Zyris.Proto

structure Payload where
  value : Value

def Payload.nil : Payload := ⟨.nil⟩

/-! ### JSON values -/

inductive JsonNumber
  | i64 (i : Int)
  | u64 (n : Nat)
  | f64 (bits : UInt64)
  deriving DecidableEq

/-- `serde_json::Value`; the fields of an object are kept in the order of its `BTreeMap`. -/
inductive Json
  | null
  | bool (b : Bool)
  | number (n : JsonNumber)
  | string (s : String)
  | array (items : List Json)
  | object (fields : List (String × Json))

/-- `serde_json::Map::insert`: a key already there gets the new value. -/
def jsonInsert (key : String) (v : Json) : List (String × Json) → List (String × Json)
  | [] => [(key, v)]
  | (k, w) :: fields =>
    if key = k then (k, v) :: fields
    else if key < k then (key, v) :: (k, w) :: fields
    else (k, w) :: jsonInsert key v fields

/-- `f as f64` on an `f32`, on the bit patterns. -/
def f32ToF64 (bits : UInt32) : UInt64 :=
  let b := bits.toNat
  let sign := b / 2 ^ 31 * 2 ^ 63
  let e := b / 2 ^ 23 % 2 ^ 8
  let m := b % 2 ^ 23
  if e = 255 then UInt64.ofNat (sign + 2047 * 2 ^ 52 + m * 2 ^ 29)
  else if e = 0 then
    -- a subnormal `f32` is normal as an `f64`
    if m = 0 then UInt64.ofNat sign
    else UInt64.ofNat (sign + (Nat.log2 m + 874) * 2 ^ 52
      + (m - 2 ^ Nat.log2 m) * 2 ^ (52 - Nat.log2 m))
  else UInt64.ofNat (sign + (e + 896) * 2 ^ 52 + m * 2 ^ 29)

/-- `Number::from_f64`, with the `Null` its callers fall back to. -/
def jsonOfF64 (bits : UInt64) : Json :=
  if bits.toNat / 2 ^ 52 % 2 ^ 11 = 2047 then .null else .number (.f64 bits)

/-- The alphabet of standard base64. -/
def base64Char (n : Nat) : Char :=
  if n < 26 then Char.ofNat (65 + n)
  else if n < 52 then Char.ofNat (97 + (n - 26))
  else if n < 62 then Char.ofNat (48 + (n - 52))
  else if n = 62 then '+' else '/'

/-- `base64::engine::general_purpose::STANDARD.encode`, as characters. -/
def base64 : List UInt8 → List Char
  | [] => []
  | [a] =>
    let n := a.toNat * 2 ^ 4
    [base64Char (n / 2 ^ 6), base64Char (n % 2 ^ 6), '=', '=']
  | [a, b] =>
    let n := (a.toNat * 2 ^ 8 + b.toNat) * 2 ^ 2
    [base64Char (n / 2 ^ 12), base64Char (n / 2 ^ 6 % 2 ^ 6), base64Char (n % 2 ^ 6), '=']
  | a :: b :: c :: rest =>
    let n := (a.toNat * 2 ^ 8 + b.toNat) * 2 ^ 8 + c.toNat
    base64Char (n / 2 ^ 18) :: base64Char (n / 2 ^ 12 % 2 ^ 6) ::
      base64Char (n / 2 ^ 6 % 2 ^ 6) :: base64Char (n % 2 ^ 6) :: base64 rest

/-! ### From MessagePack to JSON -/

/-- Why a value has no JSON form. -/
inductive JsonError
  -- "integer out of range"
  | integerOutOfRange
  -- "unsupported map key {other}"
  | unsupportedMapKey (other : Value)
  -- "ext values are not representable"
  | extNotRepresentable

/-- The text a map key becomes. -/
def jsonKey : Value → Except JsonError String
  | .string s => .ok (s.asStr.getD "")
  | .integer i => .ok (toString i.val)
  | other => .error (.unsupportedMapKey other)

mutual

def rmpvToJson : Value → Except JsonError Json
  | .nil => .ok .null
  | .boolean b => .ok (.bool b)
  | .integer i =>
    match i.asI64, i.asU64 with
    | some v, _ => .ok (.number (.i64 v))
    | none, some v => .ok (.number (.u64 v))
    | none, none => .error .integerOutOfRange
  | .f32 f => .ok (jsonOfF64 (f32ToF64 f))
  | .f64 f => .ok (jsonOfF64 f)
  | .string s => .ok (.string (s.asStr.getD ""))
  | .binary b => .ok (.string (String.ofList (base64 b)))
  | .array items => (rmpvToJsonItems items).map .array
  | .map entries => (rmpvToJsonEntries entries []).map .object
  | .ext _ _ => .error .extNotRepresentable

/-- The items of an array, up to the first that fails. -/
def rmpvToJsonItems : List Value → Except JsonError (List Json)
  | [] => .ok []
  | item :: items => do
    let j ← rmpvToJson item
    let js ← rmpvToJsonItems items
    return j :: js

/-- The entries of a map, inserted into the object built so far. -/
def rmpvToJsonEntries : List (Value × Value) → List (String × Json) →
    Except JsonError (List (String × Json))
  | [], fields => .ok fields
  | (k, v) :: entries, fields => do
    let key ← jsonKey k
    let j ← rmpvToJson v
    rmpvToJsonEntries entries (jsonInsert key j fields)

end

end Zyris.Proto
