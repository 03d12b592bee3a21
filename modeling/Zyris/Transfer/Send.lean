import Zyris.Proto.Envelope
import Zyris.Transfer.Inbox
import Zyris.Transfer.Trust

/-!
# The sending side's names

Of `crates/zyris-capkit/src/transfer/send.rs`.  What a server issues and what `hash_file` produces
come with what is known of them: a node id has no NUL in it, a digest is 64 hexadecimal digits, and
the parts of a node's path are slugs.
-/

namespace Zyris.Transfer

open Caps

/-! ### `transfer_id` -/

/-- A node id, as a server issues it. -/
@[ext]
structure NodeId where
  chars : List Char
  nul_notMem : '\x00' ∉ chars

/-- The hexadecimal digits, in either case. -/
def ALL_HEX_DIGITS : List Char := "0123456789abcdefABCDEF".toList

/-- A SHA-256 in hexadecimal digits. -/
@[ext]
structure Digest where
  chars : List Char
  length_chars : chars.length = 64
  mem_digits : ∀ c ∈ chars, c ∈ ALL_HEX_DIGITS

def toBeBytes (n : UInt64) : List UInt8 :=
  (List.range 8).map fun i => UInt8.ofNat (n.toNat / 256 ^ (7 - i))

/-- What `transfer_id` feeds to the hash. -/
def transferIdInput (nodeId : NodeId) (name : List Char) (size : UInt64) (sha256 : Digest) :
    List UInt8 :=
  utf8 nodeId.chars ++ [0] ++ utf8 name ++ [0] ++ toBeBytes size ++ [0] ++ utf8 sha256.chars

/-! ### Senders -/

def SLUG_CHARS : List Char := "abcdefghijklmnopqrstuvwxyz0123456789-".toList

structure Slug where
  chars : List Char
  length_pos : 1 ≤ chars.length
  length_le : chars.length ≤ 32
  mem_slugChars : ∀ c ∈ chars, c ∈ SLUG_CHARS

/-- A node's path, `system/program/node`. -/
structure NodePath where
  system : Slug
  program : Slug
  node : Slug

def NodePath.chars (p : NodePath) : List Char :=
  p.system.chars ++ '/' :: (p.program.chars ++ '/' :: p.node.chars)

/-- What `inbox_list` takes a sender's directory for: `to_string_lossy().replace('_', "/")`. -/
def senderOf (dir : OsStr) : List Char :=
  (fromUtf8Lossy dir).map fun c => if c = '_' then '/' else c

/-! ### `resolve_source` -/

open Proto FileTree

/-- `resolve_source`, for a node with this root; `display` is the `Display` of a path. -/
def resolveSource (display : PathBuf → String) (root : PathBuf) (links : Nat) (t : FileTree OsStr)
    (path : String) : Except WireError PathBuf :=
  let unread (p : PathBuf) (e : Errno) :=
    refuse "file_not_found" (display p ++ " could not be read: " ++ errorText e)
  match t.canonicalize links (segments root) with
  | .error e =>
    .error (.internal ("this node's root " ++ display root ++ " could not be read: " ++
      errorText e))
  | .ok base =>
    let requested := resolveUnder (absolute base) (utf8 path.toList)
    match t.canonicalize links (segments requested) with
    | .error e => .error (unread requested e)
    | .ok q =>
      let real := absolute q
      if !real.startsWith (absolute base) then
        .error (refuse "path_outside_root"
          (path ++ " is outside this node's root and will not be sent"))
      else
        match t.nodeAt (t.canonicalize links (segments real)) with
        | .error e => .error (unread real e)
        | .ok .file => .ok real
        | .ok _ => .error (refuse "not_a_file" (path ++ " is not a regular file"))

end Zyris.Transfer
