import Zyris.Lib.Arena
import Zyris.Lib.Run
import Zyris.Lib.Table
import Zyris.Proto.Error
import Zyris.Transfer.Name

/-!
# Receiving a file

`LocalPeerTransfer::push_offer` of `crates/zyris-capkit/src/transfer/peer.rs`, with
`UndoStore::stash`.  A call is its program counter, one for each place where it awaits; a step does
one file operation, which may fail, or takes what the peer sent.  The files are those of the
directory of one peer in the inbox; the slots of the undo store and the audit log are kept apart.
-/

namespace Zyris.Transfer

open Proto

def CHUNK_SIZE : Nat := 64 * 1024

/-- What can stand under a name. -/
inductive Entry
  | file (content : List UInt8)
  | symlink
  | directory
  deriving DecidableEq

def Entry.isSymlink : Entry → Bool
  | .symlink => true
  | _ => false

/-- `TransferOffer`; of the id only its bytes matter. -/
structure TransferOffer where
  transferId : List UInt8
  name : List Char
  size : Nat
  sha256 : List Char
  overwrite : Bool
  size_lt : size < 2 ^ 64

structure PullHead where
  size : Nat
  sha256 : List Char

/-- A slot of the undo store, `{now_ms}-{seq}`. -/
structure Slot where
  nowMs : Nat
  seq : Nat
  deriving DecidableEq

/-- `TransferDone`; `written` is the name in the peer's directory. -/
structure TransferDone where
  written : List Char
  bytes : Nat
  sha256 : List Char
  replaced : Bool
  undo : Option Slot

/-- `AuditLine`, but for what the layer does not know yet (`peer_endpoint`, `direct`). -/
structure AuditLine where
  atMs : Nat
  name : List Char
  done : TransferDone

/-- `TransferConfig`, the peer's directory, and whether `set_peer` was called. -/
structure Config where
  sha : Sha256
  maxFileBytes : Nat
  directory : String
  hasPeer : Bool
  hasAudit : Bool

/-- What the calls share: files, undo store with its counter, audit log and `in_flight`. -/
structure Store where
  files : Table (List Char) Entry
  slots : Table Slot (Option (List Char × Entry))
  nextSeq : Nat
  audit : List AuditLine
  inFlight : List (List UInt8)

instance (s : Store) (id : List UInt8) : Decidable (id ∈ s.inFlight) :=
  List.instDecidableMemOfLawfulBEq id s.inFlight

/-- Where a call of `push_offer` stands. -/
inductive PushPc
  -- before the check of the size and the claim
  | entering
  -- in `Inbox::resolve`
  | resolving
  -- its look at the destination
  | resolvingDest
  | checkingDest
  | checkingTemp
  | measuringTemp
  -- awaiting `pull`
  | pulling (offset : Nat)
  | openingLeftover (offset : Nat)
  -- reading the leftover, with what was read so far
  | hashing (offset : Nat) (hashed : List UInt8)
  -- opening the `.part` to write
  | opening (offset : Nat) (hashed : List UInt8)
  -- awaiting the next chunk
  | receiving (written : Nat) (hashed : List UInt8)
  -- in `write_all`, the chunk being hashed
  | writing (written : Nat) (hashed chunk : List UInt8)
  | flushing (written : Nat) (hashed : List UInt8)
  -- `metadata` of the `.part`, the hash being right
  | measuring (written : Nat) (actual : List Char)
  | rechecking (written : Nat) (actual : List Char)
  -- `stash`: its look at the victim
  | stashing (written : Nat) (actual : List Char)
  -- `claim_slot`: creating the root
  | claimingRoot (written : Nat) (actual : List Char) (symlink : Bool)
  | claimingSlot (written : Nat) (actual : List Char) (symlink : Bool) (nowMs attempts : Nat)
  | moving (written : Nat) (actual : List Char) (symlink : Bool) (slot : Slot)
  | copying (written : Nat) (actual : List Char) (slot : Slot)
  | unlinking (written : Nat) (actual : List Char) (slot : Slot)
  | placing (written : Nat) (actual : List Char) (existed : Bool) (undo : Option Slot)
  | stripping (done : TransferDone)
  | auditing (done : TransferDone)
  -- `remove_file` of the `.part` before an error
  | discarding (error : WireError)
  | returned (result : Except WireError TransferDone)
  -- the future was dropped
  | dropped

/-- What the file system and the peer answer a call. -/
inductive PushAct
  -- nothing, or the operation succeeds
  | ok
  -- the operation fails
  | fail (error : String)
  -- `write_all` fails after some bytes
  | failAfter (n : Nat) (error : String)
  -- `metadata` of something that is not a file
  | length (n : Nat)
  | pulled (result : Except WireError PullHead)
  | read (n : Nat)
  -- the next item of the stream
  | item (item : Option (Except WireError (List UInt8)))
  -- the time is read
  | clock (nowMs : Nat)

/-- A call of `push_offer`. -/
structure Push where
  offer : TransferOffer
  pc : PushPc

namespace Push

def dest (p : Push) : List Char := safeName p.offer.name

/-- The name of its `.part`. -/
def temp (cfg : Config) (p : Push) : List Char := partName cfg.sha p.dest p.offer.transferId

end Push

/-! ### Errors -/

def retriable (e : WireError) (retriable : Bool) : WireError := { e with retriable := retriable }

def ioError (e : String) : WireError := .new .internal e

namespace TransferOffer

variable (cfg : Config) (o : TransferOffer)

/-- The destination's `Path::display`. -/
def display : String := cfg.directory ++ "/" ++ String.ofList (safeName o.name)

def tooLarge : WireError :=
  retriable (.new .payloadTooLarge (toString o.size ++ " bytes exceeds this node's limit of " ++
    toString cfg.maxFileBytes ++ " bytes")) false

/-- `TRANSFER_IN_FLIGHT`. -/
def inFlight : WireError :=
  retriable (.new (.other "transfer_in_flight") (String.ofList o.name ++
    " is already being received on this node. Its bytes are still arriving; call again once " ++
    "that settles.")) true

def noReceiver : WireError := .internal "this node is not set up as a receiver"

def alreadyExists : WireError :=
  retriable (.new .invalidParams
    (o.display cfg ++ " already exists. Enable overwrite to replace it")) false

def tempIsSymlink : WireError :=
  retriable (.new .invalidParams "the temp file location is a symbolic link") false

def otherHead : WireError :=
  .internal "the sending side is trying to hand over something different from the offer"

def tooMuch : WireError := .internal "sent more than the declared size"

def mismatch (actual : List Char) : WireError :=
  retriable (.new .internal ("sha256 mismatch: " ++ String.ofList actual ++ " ≠ " ++
    String.ofList o.sha256)) true

def wrongLength (onDisk : Nat) : WireError :=
  retriable (.internal (toString onDisk ++ " bytes are on disk but " ++ toString o.size ++
    " were offered; not renaming it into place")) true

def appeared : WireError :=
  retriable (.new .invalidParams
    (o.display cfg ++ " appeared during the transfer. Enable overwrite to replace it")) false

end TransferOffer

/-! ### File operations -/

namespace Store

/-- `symlink_metadata`: what stands there, if the call succeeds. -/
def lstat (s : Store) (name : List Char) : PushAct → Option (Option Entry)
  | .ok => some (s.files.get name)
  | .fail _ => some none
  | _ => none

/-- `metadata(..).len()`, or `0`. -/
def fileLen (s : Store) (name : List Char) : PushAct → Option Nat
  | .ok => match s.files.get name with
    | some (.file content) => some content.length
    | none => some 0
    | _ => none
  | .length n => match s.files.get name with
    | some .symlink => some n
    | some .directory => some n
    | _ => none
  | .fail _ => some 0
  | _ => none

/-- `open` of the `.part` to write: truncated, unless resumed; `O_NOFOLLOW` refuses a link. -/
def openPart (s : Store) (name : List Char) (resume : Bool) : Option Store :=
  match s.files.get name with
  | some (.file content) =>
    some { s with files := s.files.insert name (.file (if resume then content else [])) }
  | none => some { s with files := s.files.insert name (.file []) }
  | _ => none

/-- A write at the end of the file, whose length must stay an `off_t`. -/
def append (s : Store) (name : List Char) (bytes : List UInt8) : Option Store :=
  match s.files.get name with
  | some (.file content) =>
    if (content ++ bytes).length < 2 ^ 63 then
      some { s with files := s.files.insert name (.file (content ++ bytes)) }
    else none
  | _ => some s

def removeFile (s : Store) (name : List Char) : Option Store :=
  match s.files.get name with
  | some .directory => none
  | _ => some { s with files := s.files.remove name }

/-- `rename` within the directory. -/
def rename (s : Store) (source target : List Char) : Option Store :=
  match s.files.get source, s.files.get target with
  | none, _ => none
  | some _, some .directory => none
  | some e, _ => some { s with files := (s.files.remove source).insert target e }

/-- The claim's guard is dropped. -/
def release (s : Store) (o : TransferOffer) : Store :=
  { s with inFlight := s.inFlight.filter (· ≠ o.transferId) }

end Store

/-! ### The call -/

def MAX_ATTEMPTS : Nat := 64

namespace TransferOffer

variable (cfg : Config) (o : TransferOffer)

/-- The call returns, and its claim goes. -/
def finish (s : Store) (result : Except WireError TransferDone) : Option (Store × PushPc) :=
  some (s.release o, .returned result)

/-- The size check, the claim and the look at `peer`. -/
def enter (s : Store) : Store × PushPc :=
  if cfg.maxFileBytes < o.size then (s, .returned (.error (o.tooLarge cfg)))
  else if o.transferId ∈ s.inFlight then (s, .returned (.error o.inFlight))
  else if cfg.hasPeer then ({ s with inFlight := o.transferId :: s.inFlight }, .resolving)
  else (s, .returned (.error noReceiver))

def pulled (s : Store) (offset : Nat) : Except WireError PullHead → Option (Store × PushPc)
  | .error e => o.finish s (.error e)
  | .ok head =>
    if head.sha256 ≠ o.sha256 ∨ head.size ≠ o.size then o.finish s (.error otherHead)
    else if 0 < offset then some (s, .openingLeftover offset)
    else some (s, .opening offset [])

/-- A read of the leftover gave `n` bytes. -/
def readLeftover (s : Store) (temp : List Char) (offset : Nat) (hashed : List UInt8) (n : Nat) :
    Option (Store × PushPc) :=
  match s.files.get temp with
  | some (.file content) =>
    if n = 0 then
      if content.length ≤ hashed.length then some (s, .opening offset hashed) else none
    else if n ≤ CHUNK_SIZE ∧ hashed.length + n ≤ content.length then
      some (s, .hashing offset (hashed ++ (content.drop hashed.length).take n))
    else none
  | _ => none

/-- The stream gave an item. -/
def received (s : Store) (written : Nat) (hashed : List UInt8) :
    Option (Except WireError (List UInt8)) → Option (Store × PushPc)
  | none => some (s, .flushing written hashed)
  | some (.error e) => o.finish s (.error e)
  | some (.ok bytes) =>
    let total := (written + bytes.length) % 2 ^ 64
    if o.size < total then some (s, .discarding tooMuch)
    else some (s, .writing total (hashed ++ bytes) bytes)

/-- One attempt of `claim_slot`. -/
def claimSlot (s : Store) (written : Nat) (actual : List Char) (symlink : Bool)
    (nowMs attempts : Nat) : Store × PushPc :=
  let slot : Slot := ⟨nowMs, s.nextSeq⟩
  let s := { s with nextSeq := (s.nextSeq + 1) % 2 ^ 64 }
  if (s.slots.get slot).isSome then
    if attempts + 1 < MAX_ATTEMPTS then
      (s, .claimingSlot written actual symlink nowMs (attempts + 1))
    else (s, .placing written actual true none)
  else ({ s with slots := s.slots.insert slot none }, .moving written actual symlink slot)

def done (dest : List Char) (written : Nat) (actual : List Char) (existed : Bool)
    (undo : Option Slot) : TransferDone :=
  ⟨dest, written, actual, existed, undo⟩

end TransferOffer

open TransferOffer in
def Push.step (cfg : Config) (s : Store) (p : Push) (a : PushAct) : Option (Store × PushPc) :=
  let o := p.offer
  match p.pc, a with
  | .entering, .ok => some (o.enter cfg s)
  | .resolving, .ok => some (s, .resolvingDest)
  | .resolving, .fail e => o.finish s (.error (.internal e))
  | .resolvingDest, a => do
    let found ← s.lstat p.dest a
    if found.any Entry.isSymlink then
      o.finish s (.error (.internal "path contains a symbolic link"))
    else some (s, .checkingDest)
  | .checkingDest, a => do
    let found ← s.lstat p.dest a
    if found.isSome && !o.overwrite then o.finish s (.error (o.alreadyExists cfg))
    else some (s, .checkingTemp)
  | .checkingTemp, a => do
    let found ← s.lstat (p.temp cfg) a
    if found.any Entry.isSymlink then o.finish s (.error tempIsSymlink)
    else some (s, .measuringTemp)
  | .measuringTemp, a => do
    let n ← s.fileLen (p.temp cfg) a
    some (s, .pulling (if o.size < n then 0 else n))
  | .pulling offset, .pulled result => o.pulled s offset result
  | .openingLeftover offset, .ok =>
    match s.files.get (p.temp cfg) with
    | some .symlink => none
    | none => none
    | some _ => some (s, .hashing offset [])
  | .openingLeftover _, .fail e => o.finish s (.error (ioError e))
  | .hashing offset hashed, .read n => readLeftover s (p.temp cfg) offset hashed n
  | .hashing _ _, .fail e => o.finish s (.error (ioError e))
  | .opening offset hashed, .ok => do
    let s ← s.openPart (p.temp cfg) (0 < offset)
    some (s, .receiving offset hashed)
  | .opening _ _, .fail e => o.finish s (.error (ioError e))
  | .receiving written hashed, .item item => o.received s written hashed item
  | .writing written hashed chunk, .ok => do
    let s ← s.append (p.temp cfg) chunk
    some (s, .receiving written hashed)
  | .writing _ _ chunk, .failAfter n e => do
    let s ← s.append (p.temp cfg) (chunk.take n)
    o.finish s (.error (ioError e))
  | .flushing written hashed, .ok =>
    let actual := cfg.sha.hex hashed
    if actual ≠ o.sha256 then some (s, .discarding (o.mismatch actual))
    else some (s, .measuring written actual)
  | .flushing _ _, .fail e => o.finish s (.error (ioError e))
  | .measuring written actual, a => do
    let onDisk ← s.fileLen (p.temp cfg) a
    if onDisk ≠ o.size then some (s, .discarding (o.wrongLength onDisk))
    else some (s, .rechecking written actual)
  | .rechecking written actual, a => do
    let found ← s.lstat p.dest a
    if found.isSome && !o.overwrite then some (s, .discarding (o.appeared cfg))
    else if found.isSome then some (s, .stashing written actual)
    else some (s, .placing written actual false none)
  | .stashing written actual, a => do
    match ← s.lstat p.dest a with
    | some e => some (s, .claimingRoot written actual e.isSymlink)
    | none => some (s, .placing written actual true none)
  | .claimingRoot written actual symlink, .clock nowMs =>
    some (s, .claimingSlot written actual symlink nowMs 0)
  | .claimingRoot written actual _, .fail _ => some (s, .placing written actual true none)
  | .claimingSlot written actual symlink nowMs attempts, .ok =>
    some (claimSlot s written actual symlink nowMs attempts)
  | .claimingSlot written actual _ _ _, .fail _ =>
    some ({ s with nextSeq := (s.nextSeq + 1) % 2 ^ 64 }, .placing written actual true none)
  | .moving written actual _ slot, .ok => do
    let e ← s.files.get p.dest
    some ({ s with
      files := s.files.remove p.dest
      slots := s.slots.insert slot (some (p.dest, e)) }, .placing written actual true (some slot))
  | .moving written actual symlink slot, .fail _ =>
    some (s, if symlink then .placing written actual true none else .copying written actual slot)
  | .copying written actual slot, .ok =>
    match s.files.get p.dest with
    | some (.file content) =>
      some ({ s with slots := s.slots.insert slot (some (p.dest, .file content)) },
        .unlinking written actual slot)
    | _ => none
  | .copying written actual _, .fail _ => some (s, .placing written actual true none)
  | .unlinking written actual slot, .ok => do
    let s ← s.removeFile p.dest
    some (s, .placing written actual true (some slot))
  | .unlinking written actual slot, .fail _ =>
    some (s, .placing written actual true (some slot))
  | .placing written actual existed undo, .ok => do
    let s ← s.rename (p.temp cfg) p.dest
    some (s, .stripping (done p.dest written actual existed undo))
  | .placing _ _ _ _, .fail e => o.finish s (.error (ioError e))
  -- the result of `set_permissions` is ignored
  | .stripping done, .ok => if cfg.hasAudit then some (s, .auditing done) else o.finish s (.ok done)
  | .stripping done, .fail _ =>
    if cfg.hasAudit then some (s, .auditing done) else o.finish s (.ok done)
  | .auditing done, .clock nowMs =>
    o.finish { s with audit := s.audit ++ [⟨nowMs, o.name, done⟩] } (.ok done)
  | .auditing done, .fail _ => o.finish s (.ok done)
  | .discarding error, .ok => do
    let s ← s.removeFile (p.temp cfg)
    o.finish s (.error error)
  | .discarding error, .fail _ => o.finish s (.error error)
  | _, _ => none

end Zyris.Transfer
