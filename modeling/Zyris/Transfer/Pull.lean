import Zyris.Fs.FileIo
import Zyris.Transfer.Resume

/-!
# What `pull` streams

`offer_file`, `offer_bytes` and `pull` of `crates/zyris-capkit/src/transfer/peer.rs`.  A read gives
as many bytes as the system likes, but at least one while there are any.  `Transfer.pull` is the
same call for the system of retries, by the bytes that are still to come.
-/

namespace Zyris.Transfer.Pull

open Proto Caps Fs

/-! ### Files -/

/-- A file, and the largest offset its file system takes, an `i64`; reading from there on
succeeds. -/
structure HostFile where
  bytes : List UInt8
  maxOffset : Nat
  length_le : bytes.length ≤ maxOffset
  maxOffset_lt : maxOffset < 2 ^ 63

/-- `tokio::fs::File`, read up to `pos`. -/
structure OpenFile where
  file : HostFile
  pos : Nat

/-- The answer to a read: at most `n` bytes and at least one, or an error. -/
inductive Answer
  | short (n : Nat)
  | failed (e : HostError)

namespace OpenFile

/-- `seek(SeekFrom::Start(offset))`. -/
def seek (f : OpenFile) (offset : UInt64) : Except HostError OpenFile :=
  if offset.toNat ≤ f.file.maxOffset then .ok { f with pos := offset.toNat }
  else .error ⟨.other, "Invalid argument (os error 22)"⟩

/-- `read` into a buffer of `want` bytes; at the end of the file there is nothing to give. -/
def read (f : OpenFile) (want : Nat) : Answer → Except HostError (List UInt8) × OpenFile
  | .failed e => (.error e, f)
  | .short n =>
    let n := min (max 1 n) (min want (f.file.bytes.length - f.pos))
    (.ok ((f.file.bytes.drop f.pos).take n), { f with pos := f.pos + n })

end OpenFile

/-! ### Offers -/

inductive Source
  | path (path : PathBuf)
  | bytes (bytes : List UInt8)

structure ToSend where
  transferId : List UInt8
  source : Source
  size : Nat
  sha256 : List Char

def offerFile (pending : List ToSend) (transferId : List UInt8) (path : PathBuf) (size : Nat)
    (sha256 : List Char) : List ToSend :=
  pending ++ [⟨transferId, .path path, size, sha256⟩]

def offerBytes (pending : List ToSend) (transferId bytes : List UInt8) (sha256 : List Char) :
    List ToSend :=
  pending ++ [⟨transferId, .bytes bytes, bytes.length, sha256⟩]

/-! ### `pull` -/

def ioError (e : HostError) : WireError := .new .internal e.message

/-- The items of the stream: the iterator over `(start..len).step_by(CHUNK_SIZE)` stands at an
index, the `unfold` has its file and its flag. -/
inductive Items
  | iter (bytes : List UInt8) (index : Nat)
  | unfold (file : OpenFile) (done : Bool)

/-- The next item, when the stream is polled and a read is answered so; `none` ends it. -/
def Items.next : Items → Answer → Option (Except WireError (List UInt8)) × Items
  | .iter bytes index, _ =>
    if index < bytes.length then
      let stop := min (index + CHUNK_SIZE) bytes.length
      (some (.ok ((bytes.drop index).take (stop - index))), .iter bytes (index + CHUNK_SIZE))
    else (none, .iter bytes index)
  | .unfold file done, answer =>
    if done then (none, .unfold file done)
    else
      match file.read CHUNK_SIZE answer with
      | (.ok [], file) => (none, .unfold file false)
      | (.ok buf, file) => (some (.ok buf), .unfold file false)
      -- without the flag the same error would be emitted forever
      | (.error e, file) => (some (.error (ioError e)), .unfold file true)

/-- The items of a stream that is polled until it ends, or once for each answer. -/
def Items.collect : Items → List Answer → List (Except WireError (List UInt8))
  | _, [] => []
  | items, answer :: answers =>
    match items.next answer with
    | (none, _) => []
    | (some item, items) => item :: items.collect answers

/-- `pull`; `openFile` is how the system answers `File::open`. -/
def pull (openFile : PathBuf → Except HostError HostFile) (pending : List ToSend)
    (transferId : List UInt8) (offset : UInt64) : Except WireError (PullHead × Items) := do
  match pending.find? fun p => p.transferId = transferId with
  | none => .error (unknownTransfer transferId)
  | some toSend =>
    let head : PullHead := ⟨toSend.size, toSend.sha256⟩
    match toSend.source with
    | .bytes bytes => .ok (head, .iter bytes (min offset.toNat bytes.length))
    | .path path =>
      let file ← (openFile path).mapError ioError
      let mut opened : OpenFile := ⟨file, 0⟩
      if 0 < offset then
        opened ← (opened.seek offset).mapError ioError
      .ok (head, .unfold opened false)

end Zyris.Transfer.Pull
