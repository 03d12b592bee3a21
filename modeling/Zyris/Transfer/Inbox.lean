import Zyris.Caps.Path
import Zyris.Lib.FileTree
import Zyris.Lib.Lossy
import Zyris.Transfer.Name

/-!
# The inbox

`crates/zyris-capkit/src/transfer/inbox.rs`.  The calls to `tokio::fs` go to a file tree with
symbolic links in it; `links` is how many of them the system follows before it gives up.
-/

namespace Zyris.Transfer

open Caps FileTree

/-! ### Paths of the file system -/

def segment : Component → Seg OsStr
  | .rootDir => .root
  | .curDir => .here
  | .parentDir => .up
  | .normal part => .name part

/-- What the system is asked to walk. -/
def segments (p : PathBuf) : List (Seg OsStr) := p.components.map segment

/-- The absolute path of an object. -/
def absolute (p : List OsStr) : PathBuf where
  components := .rootDir :: p.map .normal
  leading c hc := by
    obtain ⟨part, _, rfl⟩ := List.mem_map.mp hc
    rfl

/-- `io::Error::to_string`. -/
def errorText : Errno → String
  | .noEnt => "No such file or directory (os error 2)"
  | .notDir => "Not a directory (os error 20)"
  | .loop => "Too many levels of symbolic links (os error 40)"
  | .exist => "File exists (os error 17)"
  | .wholeTree => "failed to create whole tree"

/-! ### `Inbox` -/

inductive InboxError
  | escaped
  | symlinkInPath
  | io (e : String)
  deriving DecidableEq

/-- The `map_err` of every call. -/
def mapIo {α : Type} : Except Errno α → Except InboxError α
  | .ok a => .ok a
  | .error e => .error (.io (errorText e))

/-- The loop of `ensure_no_symlink`, from `current` on. -/
def ensureNoSymlinkFrom (t : FileTree OsStr) (links : Nat) :
    PathBuf → List Component → Except InboxError Unit
  | _, [] => .ok ()
  | current, component :: rest => do
    let current := current.push component
    let info ← mapIo (t.lstat links (segments current))
    match info with
    | .link _ => .error .symlinkInPath
    | _ => ensureNoSymlinkFrom t links current rest

def ensureNoSymlink (t : FileTree OsStr) (links : Nat) (root path : PathBuf) :
    Except InboxError Unit :=
  ensureNoSymlinkFrom t links root ((path.stripBase root).getD path.components)

/-- The directory everything is received into. -/
structure Inbox where
  root : PathBuf

namespace Inbox

def parent (inbox : Inbox) (peer : List Char) : PathBuf := inbox.root.join (utf8 (peerDir peer))

/-- What `Inbox::resolve` does once the peer's directory was created. -/
def destination (inbox : Inbox) (links : Nat) (t : FileTree OsStr) (peer proposed : List Char) :
    Except InboxError PathBuf := do
  let root ← mapIo (t.canonicalize links (segments inbox.root))
  ensureNoSymlink t links inbox.root (inbox.parent peer)
  let realParent ← mapIo (t.canonicalize links (segments (inbox.parent peer)))
  if !(absolute realParent).startsWith (absolute root) then .error .escaped
  else
    let path := (absolute realParent).join (utf8 (safeName proposed))
    if !path.startsWith (absolute root) then .error .escaped
    else
      -- a failing `symlink_metadata` is passed over
      match t.lstat links (segments path) with
      | .ok (.link _) => .error .symlinkInPath
      | _ => .ok path

/-- `Inbox::resolve`, with the tree it leaves. -/
def resolve (inbox : Inbox) (links : Nat) (t : FileTree OsStr) (peer proposed : List Char) :
    FileTree OsStr × Except InboxError PathBuf :=
  match t.createDirAll links (segments (inbox.parent peer)) with
  | (t, .error e) => (t, .error (.io (errorText e)))
  | (t, .ok ()) => (t, inbox.destination links t peer proposed)

end Inbox

/-! ### `part_path` -/

/-- `part_path`: where the bytes of a transfer are collected, next to its destination. -/
def partPath (sha : Sha256) (dest : PathBuf) (transferId : List Char) : PathBuf :=
  let tail := partTail sha (utf8 transferId)
  let name := (dest.fileName.map fromUtf8Lossy).getD "file".toList
  let stem := takeBytes (MAX_BYTES - len tail) name
  let temp := dest.withFileName (utf8 (stem ++ tail))
  -- the cut name with the suffix may be the name of the destination again
  if temp = dest then dest.withFileName (utf8 (stem.dropLast ++ tail)) else temp

end Zyris.Transfer
