import Zyris.Proto.Value

/-!
# Moving blobs out of a payload and back

`crates/zyris-proto/src/attach.rs`.  `detach` replaces the oversized inline blobs of the datums in a
value by references to streams, `refs` lists the references and `splice` puts received bytes back.
All three look only at the first entry under a key and do not descend into a datum whose blob they
handled.  The allocator is the list of ids it will hand out; `digest` is the hexadecimal SHA-256.
-/

namespace Zyris.Proto

/-- `AttachmentRef`: `stream` is a `u32`, `size` and `offset` are `u64`s. -/
structure AttachmentRef where
  stream : Nat
  size : Nat
  sha256 : Option String
  offset : Nat
  deriving DecidableEq

structure Detached where
  stream : Nat
  bytes : List UInt8
  sha256 : String
  deriving DecidableEq

/-! ### Reading the wire shape -/

def asStr : Value → Option String
  | .string s => s.asStr
  | _ => none

def asU64 : Value → Option Nat
  | .integer i => i.asU64
  | _ => none

/-- `entry`: the value of the first entry under `key`. -/
def entry (entries : List (Value × Value)) (key : String) : Option Value :=
  (entries.find? fun e => asStr e.1 = some key).map (·.2)

theorem entry_cons (k u : Value) (entries : List (Value × Value)) (key : String) :
    entry ((k, u) :: entries) key = if asStr k = some key then some u else entry entries key := by
  unfold entry
  rw [List.find?_cons]
  by_cases h : asStr k = some key <;> simp [h]

/-- What assigning through `entry_mut` leaves behind: the first value under `key` replaced. -/
def setEntry (key : String) (v : Value) : List (Value × Value) → List (Value × Value)
  | [] => []
  | e :: entries =>
    if asStr e.1 = some key then (e.1, v) :: entries else e :: setEntry key v entries

/-- `is_datum`: the map is tagged `image` or `file`. -/
def isDatum (entries : List (Value × Value)) : Bool :=
  match (entry entries "kind").bind asStr with
  | some kind => kind = "image" || kind = "file"
  | none => false

/-- `parse_attachment`: the `{"attachment": {..}}` envelope, with `as u32` on the stream. -/
def parseAttachment : Value → Option AttachmentRef
  | .map outer =>
    match entry outer "attachment" with
    | some (.map inner) => do
      let stream ← (entry inner "stream").bind asU64
      let size ← (entry inner "size").bind asU64
      return {
        stream := stream % 2 ^ 32
        size := size
        sha256 := (entry inner "sha256").bind asStr
        offset := ((entry inner "offset").bind asU64).getD 0 }
    | _ => none
  | _ => none

/-- A number as a value; the source's are `u32`s and `u64`s. -/
def Value.ofNat (n : Nat) : Value :=
  .integer (Integer.ofU64 (n % 2 ^ 64) (Nat.mod_lt _ (by decide)))

def attachmentValue (reference : AttachmentRef) : Value :=
  let inner := [
    (.ofStr "stream", .ofNat reference.stream),
    (.ofStr "size", .ofNat reference.size),
    (.ofStr "offset", .ofNat reference.offset)]
  let sha := match reference.sha256 with
    | some sha256 => [(.ofStr "sha256", .ofStr sha256)]
    | none => []
  .map [(.ofStr "attachment", .map (inner ++ sha))]

/-! ### The walks -/

/-- The blob `walk_detach` moves out of a map: the first `blob` entry of a datum, inline and over
the threshold. -/
def movableBlob (threshold : Nat) (entries : List (Value × Value)) : Option (List UInt8) :=
  if isDatum entries then
    match entry entries "blob" with
    | some (.binary bytes) => if threshold < bytes.length then some bytes else none
    | _ => none
  else none

variable (digest : List UInt8 → String) (threshold : Nat)

/-- The reference a detached blob leaves behind. -/
def blobRef (stream : Nat) (bytes : List UInt8) : AttachmentRef where
  stream := stream
  size := bytes.length % 2 ^ 64
  sha256 := some (digest bytes)
  offset := 0

mutual

/-- `walk_detach`: the rewritten value, the ids left, and the blobs moved out. -/
def walkDetach : Value → List Nat → Value × List Nat × List Detached
  | .map entries, ids =>
    match movableBlob threshold entries with
    | some bytes =>
      let stream := ids.headD 0
      (.map (setEntry "blob" (attachmentValue (blobRef digest stream bytes)) entries), ids.tail,
        [{ stream := stream, bytes := bytes, sha256 := digest bytes }])
    | none =>
      let (entries', ids', out) := walkDetachEntries entries ids
      (.map entries', ids', out)
  | .array items, ids =>
    let (items', ids', out) := walkDetachItems items ids
    (.array items', ids', out)
  | v, ids => (v, ids, [])

/-- The values of a map, in order. -/
def walkDetachEntries : List (Value × Value) → List Nat →
    List (Value × Value) × List Nat × List Detached
  | [], ids => ([], ids, [])
  | (k, v) :: entries, ids =>
    let (v', ids', out) := walkDetach v ids
    let (entries', ids'', out') := walkDetachEntries entries ids'
    ((k, v') :: entries', ids'', out ++ out')

/-- The items of an array, in order. -/
def walkDetachItems : List Value → List Nat → List Value × List Nat × List Detached
  | [], ids => ([], ids, [])
  | v :: items, ids =>
    let (v', ids', out) := walkDetach v ids
    let (items', ids'', out') := walkDetachItems items ids'
    (v' :: items', ids'', out ++ out')

end

/-- `detach`: the rewritten value and the blobs to send. -/
def detach (v : Value) (ids : List Nat) : Value × List Detached :=
  let (v', _, out) := walkDetach digest threshold v ids
  (v', out)

mutual

/-- The blobs `detach` moves, in walk order: it asks the allocator for one id each. -/
def blobs : Value → List (List UInt8)
  | .map entries =>
    match movableBlob threshold entries with
    | some bytes => [bytes]
    | none => blobsEntries entries
  | .array items => blobsItems items
  | _ => []

def blobsEntries : List (Value × Value) → List (List UInt8)
  | [] => []
  | (_, v) :: entries => blobs v ++ blobsEntries entries

def blobsItems : List Value → List (List UInt8)
  | [] => []
  | v :: items => blobs v ++ blobsItems items

end

/-- The reference `walk_refs` and `splice` see in a map, under the first `blob` entry of a datum. -/
def datumRef (entries : List (Value × Value)) : Option AttachmentRef :=
  if isDatum entries then (entry entries "blob").bind parseAttachment else none

mutual

/-- `refs`: every attachment the value references, in walk order. -/
def refs : Value → List AttachmentRef
  | .map entries =>
    match datumRef entries with
    | some found => [found]
    | none => refsEntries entries
  | .array items => refsItems items
  | _ => []

def refsEntries : List (Value × Value) → List AttachmentRef
  | [] => []
  | (_, v) :: entries => refs v ++ refsEntries entries

def refsItems : List Value → List AttachmentRef
  | [] => []
  | v :: items => refs v ++ refsItems items

end

variable (stream : Nat) (bytes : List UInt8)

mutual

/-- `splice`: put the bytes back at the first reference to `stream`, if there is one. -/
def splice : Value → Value × Bool
  | .map entries =>
    match datumRef entries with
    | some found =>
      if found.stream = stream then (.map (setEntry "blob" (.binary bytes) entries), true)
      else
        let (entries', hit) := spliceEntries entries
        (.map entries', hit)
    | none =>
      let (entries', hit) := spliceEntries entries
      (.map entries', hit)
  | .array items =>
    let (items', hit) := spliceItems items
    (.array items', hit)
  | v => (v, false)

/-- `any` over the values of a map: it stops at the first that had the reference. -/
def spliceEntries : List (Value × Value) → List (Value × Value) × Bool
  | [] => ([], false)
  | (k, v) :: entries =>
    let (v', hit) := splice v
    if hit then ((k, v') :: entries, true)
    else
      let (entries', hit') := spliceEntries entries
      ((k, v') :: entries', hit')

/-- `any` over the items of an array. -/
def spliceItems : List Value → List Value × Bool
  | [] => ([], false)
  | v :: items =>
    let (v', hit) := splice v
    if hit then (v' :: items, true)
    else
      let (items', hit') := spliceItems items
      (v' :: items', hit')

end

end Zyris.Proto
