import Zyris.Lib.Lossy
import Zyris.Proto.Error
import Zyris.Caps.Path

/-!
# `file_io`: stat and unary reads

`crates/zyris-capkit/src/fs/file_io.rs` and the types of `crates/zyris-caps/src/file_io.rs`.  The
host's file system is what its calls answer (`Host`); an open file is its bytes, and a `usize` is
64 bits wide.
-/

namespace Zyris.Fs

open Proto Caps

/-! ### The host -/

/-- `std::io::ErrorKind`, as far as `io_err` looks. -/
inductive ErrorKind
  | notFound
  | permissionDenied
  | other
  deriving DecidableEq

structure HostError where
  kind : ErrorKind
  message : String

/-- `std::fs::Metadata`; the modification time in nanoseconds since the epoch. -/
structure Metadata where
  len : Nat
  isDir : Bool
  modified : Option Int

/-- A file, and the largest offset its file system takes, which is an `off_t`. -/
structure File where
  bytes : List UInt8
  maxOffset : Nat
  length_le : bytes.length ≤ maxOffset
  maxOffset_lt : maxOffset < 2 ^ 63

/-- `lseek` to an offset from the start. -/
def File.seek (f : File) (offset : Nat) : Except HostError Unit :=
  if offset ≤ f.maxOffset then .ok () else .error ⟨.other, "Invalid argument (os error 22)"⟩

/-- `take(want).read_to_end` from an offset. -/
def File.read (f : File) (offset want : Nat) : List UInt8 := (f.bytes.drop offset).take want

/-- The file system, by its answers. -/
structure Host where
  metadata : PathBuf → Except HostError Metadata
  openFile : PathBuf → Except HostError File

def ioErr (err : HostError) : WireError :=
  let code : ErrorCode := match err.kind with
    | .notFound => .other "not_found"
    | .permissionDenied => .forbiddenScope
    | .other => .internal
  .new code err.message

/-! ### The capability -/

def READ_UNARY_MAX : Nat := 128 * 1024

structure FileStat where
  path : String
  size : Nat
  isDir : Bool
  modifiedUnixMs : Option Nat

structure FileRead where
  stat : FileStat
  content : List Char
  offset : Nat
  len : Nat
  truncated : Bool

/-- The file capability under its root. -/
structure LocalFileIo where
  root : PathBuf

namespace LocalFileIo

def resolve (fs : LocalFileIo) (path : String) : PathBuf :=
  resolveUnder fs.root (utf8 path.toList)

end LocalFileIo

def statPath (host : Host) (display : String) (path : PathBuf) : Except WireError FileStat := do
  let metadata ← (host.metadata path).mapError ioErr
  let modified := metadata.modified.bind fun t =>
    if 0 ≤ t then some (t.toNat / 1000000 % 2 ^ 64) else none
  .ok ⟨display, metadata.len, metadata.isDir, modified⟩

namespace LocalFileIo

def read (fs : LocalFileIo) (host : Host) (path : String) (offset len : Option Nat) :
    Except WireError FileRead := do
  let resolved := fs.resolve path
  let stat ← statPath host path resolved
  if stat.isDir then .error (.invalidParams "path is a directory")
  else
    let offset := offset.getD 0
    let want := len.elim READ_UNARY_MAX (min · READ_UNARY_MAX)
    let file ← (host.openFile resolved).mapError ioErr
    if 0 < offset then (file.seek offset).mapError ioErr
    let buf := file.read offset want
    -- `saturating_add`
    let stop := min (offset + buf.length) (2 ^ 64 - 1)
    .ok ⟨stat, fromUtf8Lossy buf, offset, buf.length, stop < stat.size⟩

end LocalFileIo

end Zyris.Fs
