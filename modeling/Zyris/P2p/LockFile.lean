import Zyris.Lib.Arena
import Zyris.Lib.Run
import Zyris.P2p.Tofu

/-!
# The lock file of the ledger

`TofuStore::pin_preapproved` and `forget` with their lock file.  The calls come from separate
instances over one path; each step is one file operation, any of which may fail, and a call may
crash between any two.  A nonce names one acquisition, so the content of a lock file is which call
created it and whether that call has written its nonce yet.
-/

namespace Zyris.P2p

/-- `LOCK_STALE_THRESHOLD`, in milliseconds. -/
def LOCK_STALE_THRESHOLD : Nat := 60000

/-- The lock file: its creator (none for one from before), whether it has the nonce, and its
`modified` time. -/
structure LockFile where
  owner : Option Nat
  written : Bool
  modified : Nat

/-- Where a `pin_preapproved` or `forget` stands. -/
inductive WriterPc
  | ensuringParentDir
  -- `create_new` of the lock file
  | acquiring
  | writingNonce
  -- `break_if_stale`: `metadata`
  | inspecting
  -- its `remove_file`
  | breaking
  | reading
  | creatingTemp (ledger : Ledger) (outcome : Outcome)
  -- `verify_lock_still_held`
  | verifying (ledger : Ledger) (outcome : Outcome)
  -- the `rename` of `write`
  | publishing (ledger : Ledger) (outcome : Outcome)
  -- `LockFile::drop`: its `read`
  | dropping (result : Except TofuError Outcome)
  -- its `remove_file`
  | unlocking (result : Except TofuError Outcome)
  | returned (result : Except TofuError Outcome)
  | crashed

/-- A call that rewrites the ledger. -/
structure Writer where
  op : Op
  pc : WriterPc

/-- The ledger's directory, the time, and the calls. -/
structure Disk where
  file : Option LedgerFile
  lock : Option LockFile
  now : Nat
  writers : Arena Writer

/-- How a file operation ends. -/
inductive WriterAct
  | ok
  -- the ledger is read, and its entries walked in this order
  | read (order : WalkOrder)
  | fail (message : String)
  -- the lock exists and the deadline has passed
  | timeout

/-- A call starts, goes on or crashes; the clock goes on. -/
inductive DiskAct
  | pinPreapproved (slug endpointId : String)
  | forget (slug : String)
  | act (i : Nat) (a : WriterAct)
  | crash (i : Nat)
  | clock (now : Nat)

/-! ### Errors -/

def lockPath (path : String) : String := path ++ ".lock"

def lockTimeout (path : String) : TofuError :=
  .io ("the pin file lock at " ++ lockPath path ++
    " still exists after 5s of retrying and could not be taken. If the process that created it " ++
    "is gone, delete this file and try again.")

def notConfirmed (path e : String) : TofuError :=
  .io ("could not confirm the pin file lock at " ++ lockPath path ++ " was still ours before " ++
    "publishing (" ++ e ++ "); refusing to write")

def nonceGone (path : String) : TofuError :=
  .io ("the pin file lock at " ++ lockPath path ++ " no longer holds our nonce — someone else " ++
    "took over while we were writing, most likely by breaking it as stale; refusing to publish " ++
    "a write that could race theirs")

namespace Disk

variable (keys : Keys) (path : String)

/-- The lock file holds the nonce of call `i`. -/
def holdsNonce (s : Disk) (i : Nat) : Bool :=
  s.lock.any fun l => l.owner = some i && l.written

def goto (s : Disk) (i : Nat) (pc : WriterPc) : Disk :=
  { s with writers := s.writers.update i fun w => { w with pc := pc } }

/-- `acquire_lock_file`, and `break_if_stale` in it. -/
def acquire (s : Disk) (i : Nat) : WriterPc → WriterAct → Option Disk
  | .acquiring, .ok =>
    match s.lock with
    | none => some { s.goto i .writingNonce with lock := some ⟨some i, false, s.now⟩ }
    | some _ => some (s.goto i .inspecting)
  | .acquiring, .timeout =>
    match s.lock with
    | none => none
    | some _ => some (s.goto i (.returned (.error (lockTimeout path))))
  | .acquiring, .fail e => some (s.goto i (.returned (.error (.io e))))
  | .writingNonce, .ok =>
    match s.lock with
    | some l =>
      if l.owner = some i then
        some { s.goto i .reading with lock := some ⟨some i, true, s.now⟩ }
      else some (s.goto i .reading)
    | none => some (s.goto i .reading)
  -- the `LockFile` does not exist yet, so nothing removes the file
  | .writingNonce, .fail e => some (s.goto i (.returned (.error (.io e))))
  | .inspecting, .ok =>
    match s.lock with
    | some l =>
      if l.modified + LOCK_STALE_THRESHOLD ≤ s.now then some (s.goto i .breaking)
      else some (s.goto i .acquiring)
    | none => some (s.goto i .acquiring)
  | .inspecting, .fail _ => some (s.goto i .acquiring)
  | .breaking, .ok => some { s.goto i .acquiring with lock := none }
  | .breaking, .fail _ => some (s.goto i .acquiring)
  | _, _ => none

def readDone (s : Disk) (order : WalkOrder) (i : Nat) (op : Op) : Disk :=
  match keys.read path order s.file with
  | .error e => s.goto i (.dropping (.error e))
  | .ok ledger =>
    match op.plan s.now ledger with
    | .done result => s.goto i (.dropping result)
    | .write ledger outcome => s.goto i (.creatingTemp ledger outcome)

def act (s : Disk) (i : Nat) (w : Writer) (a : WriterAct) : Option Disk :=
  match w.pc, a with
  | .ensuringParentDir, .ok => some (s.goto i .acquiring)
  | .ensuringParentDir, .fail e => some (s.goto i (.returned (.error (.io e))))
  | .reading, .read order => some (s.readDone keys path order i w.op)
  | .reading, .fail e => some (s.goto i (.dropping (.error (.io e))))
  | .creatingTemp ledger outcome, .ok => some (s.goto i (.verifying ledger outcome))
  | .creatingTemp _ _, .fail e => some (s.goto i (.dropping (.error (.io e))))
  | .verifying ledger outcome, .ok =>
    if s.holdsNonce i then some (s.goto i (.publishing ledger outcome))
    else if s.lock.isSome then some (s.goto i (.dropping (.error (nonceGone path))))
    else none
  | .verifying _ _, .fail e => some (s.goto i (.dropping (.error (notConfirmed path e))))
  | .publishing ledger outcome, .ok =>
    some { s.goto i (.dropping (.ok outcome)) with file := some (.ledger ledger) }
  | .publishing _ _, .fail e => some (s.goto i (.dropping (.error (.io e))))
  | .dropping result, .ok =>
    if s.holdsNonce i then some (s.goto i (.unlocking result))
    else some (s.goto i (.returned result))
  | .dropping result, .fail _ => some (s.goto i (.returned result))
  | .unlocking result, .ok => some { s.goto i (.returned result) with lock := none }
  | .unlocking result, .fail _ => some (s.goto i (.returned result))
  | pc, a => s.acquire path i pc a

def call (s : Disk) (op : Op) (pc : WriterPc) : Disk :=
  { s with writers := s.writers.alloc ⟨op, pc⟩ }

def step (s : Disk) : DiskAct → Option Disk
  | .pinPreapproved slug endpointId =>
    match keys.canonicalEndpointId endpointId with
    | .ok endpointId => some (s.call (.pin slug endpointId) .ensuringParentDir)
    | .error e => some (s.call (.pin slug endpointId) (.returned (.error e)))
  | .forget slug => some (s.call (.forget slug) .ensuringParentDir)
  | .act i a => do
    let w ← s.writers.get i
    s.act keys path i w a
  | .crash i => do
    let w ← s.writers.get i
    match w.pc with
    | .returned _ => none
    | .crashed => none
    | _ => some (s.goto i .crashed)
  | .clock now => some { s with now := now }

end Disk

end Zyris.P2p
