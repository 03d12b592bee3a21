import Zyris.Lib.Matches
import Zyris.Fs.FileIo

/-!
# `file_io`: edits

`LocalFileIo::edit` of `crates/zyris-capkit/src/fs/file_io.rs`.  It reads the file, works out a new
text and writes it back; a `Disk` is a file system with a state, of which every write may make
another.  `matches`, `replace` and `replacen` search the bytes of a `str`.
-/

namespace Zyris.Fs

open Proto Caps

/-- What the calls answer in a state, and what a write makes of it, a failed one too. -/
structure Disk (σ : Type) where
  host : σ → Host
  write : PathBuf → List UInt8 → σ → Except HostError Unit × σ

structure FileEdit where
  stat : FileStat
  replaced : Nat

/-- `std::str::from_utf8`: decoding that loses nothing. -/
def fromUtf8 (bytes : List UInt8) : Option (List Char) :=
  let text := fromUtf8Lossy bytes
  if utf8 text = bytes then some text else none

namespace LocalFileIo

/-- `FileIo::edit` up to the write: the new text and the number of matches. -/
def edited (fs : LocalFileIo) (host : Host) (path oldString newString : String)
    (replaceAll : Bool) : Except WireError (List UInt8 × Nat) := do
  if oldString = "" then .error (.invalidParams "old_string must not be empty")
  else
    let resolved := fs.resolve path
    let metadata ← (host.metadata resolved).mapError ioErr
    if metadata.isDir then .error (.invalidParams "path is a directory")
    else
      let file ← (host.openFile resolved).mapError ioErr
      match fromUtf8 file.bytes with
      | none => .error (.invalidParams "file is not valid UTF-8 text")
      | some text =>
        let text := utf8 text
        let old := utf8 oldString.toList
        let new := utf8 newString.toList
        let count := (matchIndices old text).length
        if count = 0 then .error (.invalidParams "old_string not found in file")
        else if 1 < count ∧ replaceAll = false then
          .error (.invalidParams
            s!"old_string appears {count} times; pass replace_all: true to replace all")
        else .ok (if replaceAll then replace text old new else replacen text old new 1, count)

def edit {σ : Type} (fs : LocalFileIo) (disk : Disk σ) (path oldString newString : String)
    (replaceAll : Bool) (s : σ) : Except WireError FileEdit × σ :=
  match fs.edited (disk.host s) path oldString newString replaceAll with
  | .error err => (.error err, s)
  | .ok (newText, count) =>
    match disk.write (fs.resolve path) newText s with
    | (.error err, s) => (.error (ioErr err), s)
    | (.ok (), s) =>
      ((statPath (disk.host s) path (fs.resolve path)).map fun stat => ⟨stat, count⟩, s)

end LocalFileIo

end Zyris.Fs
