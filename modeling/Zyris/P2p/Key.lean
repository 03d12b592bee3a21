import Zyris.Lib.Arena
import Zyris.Lib.Run

/-!
# The key file of a node

`load_or_create`, `create` and `check_permissions` of `crates/zyris-p2p/src/key.rs` on Unix.  Any
number of calls work on one path; each may stop for good between two of its file operations, and
somebody may change the permissions.  `write_all` and `sync_all` are one state of a call in which
the bytes arrive a few at a time.
-/

namespace Zyris.P2p

/-- `iroh::SecretKey`, by its bytes. -/
@[ext] structure SecretKey where
  bytes : List UInt8
  length_bytes : bytes.length = 32

inductive KeyError
  | permissions (mode : Nat)
  | io (message : String)
  | malformed
deriving DecidableEq

structure KeyFile where
  bytes : List UInt8
  mode : Nat

/-- `check_permissions`, for a file of this mode. -/
def checkPermissions (mode : Nat) : Except KeyError Unit :=
  let mode := mode &&& 0o777
  if mode &&& 0o077 ≠ 0 then .error (.permissions mode) else .ok ()

/-- `SecretKey::from_bytes` of what was read, if it is an array of 32 bytes. -/
def fromBytes (bytes : List UInt8) : Except KeyError SecretKey :=
  if h : bytes.length = 32 then .ok ⟨bytes, h⟩ else .error .malformed

/-- Where a call of `load_or_create` stands. -/
inductive LoadPc
  | reading
  -- `check_permissions` is next, for a file with these bytes.
  | checking (bytes : List UInt8)
  -- In `create`, before the file is opened.
  | creating (key : SecretKey)
  -- In `write_all` or `sync_all`; these bytes are not in the file yet.
  | writing (key : SecretKey) (left : List UInt8)
  | returned (result : Except KeyError SecretKey)
  | crashed

inductive KeyAct
  | loadOrCreate
  -- The next file operation of call `i` succeeds, with the key of `generate`, if it is called, and
  -- `n + 1` bytes arriving in the file.
  | ok (i : Nat) (key : SecretKey) (n : Nat)
  | fail (i : Nat) (message : String)
  | crash (i : Nat)
  | chmod (mode : Nat)

/-- The path, and the calls so far. -/
structure KeyDir where
  file : Option KeyFile
  calls : Arena LoadPc

namespace KeyDir

def empty : KeyDir := ⟨none, .empty⟩

def goto (s : KeyDir) (i : Nat) (pc : LoadPc) : KeyDir :=
  { s with calls := s.calls.update i fun _ => pc }

/-- Call `i` comes to an end before its time. -/
def stop (s : KeyDir) (i : Nat) (pc : LoadPc) : LoadPc → Option KeyDir
  | .returned _ => none
  | .crashed => none
  | _ => some (s.goto i pc)

/-- The next file operation of call `i` succeeds. -/
def proceed (s : KeyDir) (i : Nat) (key : SecretKey) (n : Nat) : LoadPc → Option KeyDir
  | .reading =>
    match s.file with
    | none => some (s.goto i (.creating key))
    | some f => some (s.goto i (.checking f.bytes))
  | .checking bytes => do
    let f ← s.file
    some (s.goto i (.returned (do checkPermissions f.mode; fromBytes bytes)))
  | .creating key =>
    match s.file with
    -- `create_new` does not open a file that exists
    | some _ => some (s.goto i (.returned (.error (.io "File exists (os error 17)"))))
    | none => some { s.goto i (.writing key key.bytes) with file := some ⟨[], 0o600⟩ }
  | .writing key [] => some (s.goto i (.returned (.ok key)))
  | .writing key left => do
    let f ← s.file
    some { s.goto i (.writing key (left.drop (n + 1))) with
      file := some { f with bytes := f.bytes ++ left.take (n + 1) } }
  | .returned _ => none
  | .crashed => none

def step (s : KeyDir) : KeyAct → Option KeyDir
  | .loadOrCreate => some { s with calls := s.calls.alloc .reading }
  | .ok i key n => do
    let pc ← s.calls.get i
    s.proceed i key n pc
  | .fail i message => do
    let pc ← s.calls.get i
    s.stop i (.returned (.error (.io message))) pc
  | .crash i => do
    let pc ← s.calls.get i
    s.stop i .crashed pc
  | .chmod mode => some { s with file := s.file.map ({ · with mode := mode }) }

end KeyDir

end Zyris.P2p
