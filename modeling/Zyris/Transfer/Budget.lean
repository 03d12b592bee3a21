import Zyris.Transfer.Resume

/-!
# All that is received

Each accepted connection has a `LocalPeerTransfer` of its own, and they share one inbox, undo store,
audit log and `in_flight`.  Two peers may share a directory, and files may be there from before.
-/

namespace Zyris.Transfer

structure TransferConfig where
  sha : Sha256
  inbox : String
  hasAudit : Bool
  maxFileBytes : Nat
  maxInboxBytes : Nat

/-- A `push_offer` call on the `LocalPeerTransfer` of a peer, whose handle is set or not. -/
structure Receiving where
  peer : List Char
  hasPeer : Bool
  push : Push

/-- The configuration as a call sees it. -/
def TransferConfig.of (cfg : TransferConfig) (c : Receiving) : Config where
  sha := cfg.sha
  maxFileBytes := cfg.maxFileBytes
  directory := cfg.inbox ++ "/" ++ String.ofList (peerDir c.peer)
  hasPeer := c.hasPeer
  hasAudit := cfg.hasAudit

/-- The directories of the inbox with their files, what else the calls share, and the calls. -/
structure Receivers where
  dirs : Table (List Char) (Table (List Char) Entry)
  slots : Table Slot (Option (List Char × Entry))
  nextSeq : Nat
  audit : List AuditLine
  inFlight : List (List UInt8)
  calls : Arena Receiving

inductive ReceiversAct
  -- a peer calls `push_offer`
  | offer (peer : List Char) (hasPeer : Bool) (o : TransferOffer)
  | act (i : Nat) (a : PushAct)
  -- the future of a call is dropped, with `n` bytes of its chunk written
  | drop (i n : Nat)

namespace Receivers

/-- What a call in this directory works on. -/
def store (s : Receivers) (dir : List Char) : Store where
  files := (s.dirs.get dir).getD .empty
  slots := s.slots
  nextSeq := s.nextSeq
  audit := s.audit
  inFlight := s.inFlight

/-- Call `i` has changed that, and stands at `pc`. -/
def proceed (s : Receivers) (i : Nat) (dir : List Char) (store : Store) (pc : PushPc) :
    Receivers where
  dirs := s.dirs.insert dir store.files
  slots := store.slots
  nextSeq := store.nextSeq
  audit := store.audit
  inFlight := store.inFlight
  calls := s.calls.update i fun c => { c with push := { c.push with pc := pc } }

def step (cfg : TransferConfig) (s : Receivers) : ReceiversAct → Option Receivers
  | .offer peer hasPeer o => some { s with calls := s.calls.alloc ⟨peer, hasPeer, o, .entering⟩ }
  | .act i a => do
    let c ← s.calls.get i
    let (store, pc) ← c.push.step (cfg.of c) (s.store (peerDir c.peer)) a
    some (s.proceed i (peerDir c.peer) store pc)
  | .drop i n => do
    let c ← s.calls.get i
    let store ← (s.store (peerDir c.peer)).dropped (cfg.of c) c.push n
    some (s.proceed i (peerDir c.peer) store .dropped)

end Receivers

end Zyris.Transfer
