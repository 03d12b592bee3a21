import Zyris.Transfer.Peer

/-!
# A transfer and its retries

`LocalPeerTransfer::pull`, and one transfer of which the offer is made again and again, each call
served by `pull` until it is done, the connection is lost or its future is dropped.  The calls share
the store and may overlap.
-/

namespace Zyris.Transfer

open Proto

/-! ### `pull` -/

/-- `Source`; a file is its content. -/
inductive Source
  | path (content : List UInt8)
  | bytes (content : List UInt8)

def Source.content : Source → List UInt8
  | .path content => content
  | .bytes content => content

structure ToSend where
  transferId : List UInt8
  source : Source
  size : Nat
  sha256 : List Char

/-- The stream `pull` returns, by the bytes it has yet to give. -/
structure Chunks where
  fromFile : Bool
  rest : List UInt8

/-- The stream from an offset on; past the end there is nothing. -/
def Source.chunks (offset : Nat) : Source → Chunks
  | .path content => ⟨true, content.drop offset⟩
  | .bytes content => ⟨false, content.drop offset⟩

def unknownTransfer (transferId : List UInt8) : WireError :=
  retriable (.new .invalidParams
    ("unknown transfer: " ++ (String.fromUTF8? ⟨transferId.toArray⟩).getD "")) false

/-- `pull`, when its file can be opened. -/
def pull (pending : List ToSend) (transferId : List UInt8) (offset : Nat) :
    Except WireError (PullHead × Chunks) :=
  match pending.find? fun p => p.transferId = transferId with
  | none => .error (unknownTransfer transferId)
  | some toSend => .ok (⟨toSend.size, toSend.sha256⟩, toSend.source.chunks offset)

/-- The next item.  A read may give fewer bytes than there are; bytes in memory come in full
chunks. -/
def Chunks.next (c : Chunks) (n : Nat) : Option (Option (List UInt8) × Chunks) :=
  if c.rest = [] then some (none, c)
  else if 0 < n ∧ n ≤ min CHUNK_SIZE c.rest.length ∧
      (c.fromFile = true ∨ n = min CHUNK_SIZE c.rest.length) then
    some (some (c.rest.take n), { c with rest := c.rest.drop n })
  else none

/-! ### The calls of one transfer -/

/-- A call and the stream it reads from. -/
structure ServedCall where
  pc : PushPc
  stream : Chunks

/-- The store and the calls so far. -/
structure Retries where
  store : Store
  calls : Arena ServedCall

inductive RetriesAct
  -- `push_offer` is called
  | offer
  -- a file operation of a call is done
  | file (i : Nat) (a : PushAct)
  -- `pull` returns
  | pull (i : Nat)
  -- the stream gives an item or ends
  | next (i n : Nat)
  -- the connection is lost: `pull` or the stream fails
  | lost (i : Nat) (e : WireError)
  -- the call's future is dropped, with `n` bytes of its chunk written
  | drop (i n : Nat)
  -- something else happens
  | other (s : Store)

/-- The call holds the claim. -/
def PushPc.isClaimed : PushPc → Bool
  | .entering => false
  | .returned _ => false
  | .dropped => false
  | _ => true

def PushAct.isFile : PushAct → Bool
  | .pulled _ => false
  | .item _ => false
  | _ => true

/-- The store when a call is dropped: its claim goes, and a write may have got somewhere. -/
def Store.dropped (cfg : Config) (s : Store) (p : Push) (n : Nat) : Option Store :=
  match p.pc with
  | .entering => some s
  | .returned _ => none
  | .dropped => none
  | .writing _ _ chunk => (s.append (p.temp cfg) (chunk.take n)).map (·.release p.offer)
  | _ => some (s.release p.offer)

namespace Retries

/-- Call `i` takes a step of `push_offer`, and its stream is `stream` then. -/
def act (cfg : Config) (o : TransferOffer) (r : Retries) (i : Nat) (c : ServedCall) (a : PushAct)
    (stream : Chunks) : Option Retries := do
  let (s, pc) ← Push.step cfg r.store ⟨o, c.pc⟩ a
  some ⟨s, r.calls.update i fun _ => ⟨pc, stream⟩⟩

/-- The label of the awaited answer when the connection is lost. -/
def lostAct (e : WireError) : PushPc → PushAct
  | .pulling _ => .pulled (.error e)
  | _ => .item (some (.error e))

def step (cfg : Config) (o : TransferOffer) (pending : List ToSend) (r : Retries) :
    RetriesAct → Option Retries
  | .offer => some { r with calls := r.calls.alloc ⟨.entering, ⟨false, []⟩⟩ }
  | .file i a => do
    let c ← r.calls.get i
    if a.isFile then r.act cfg o i c a c.stream else none
  | .pull i => do
    let c ← r.calls.get i
    match c.pc with
    | .pulling offset =>
      match Transfer.pull pending o.transferId offset with
      | .error e => r.act cfg o i c (.pulled (.error e)) c.stream
      | .ok (head, stream) => r.act cfg o i c (.pulled (.ok head)) stream
    | _ => none
  | .next i n => do
    let c ← r.calls.get i
    let (item, stream) ← c.stream.next n
    r.act cfg o i c (.item (item.map .ok)) stream
  | .lost i e => do
    let c ← r.calls.get i
    r.act cfg o i c (lostAct e c.pc) c.stream
  | .drop i n => do
    let c ← r.calls.get i
    let s ← r.store.dropped cfg ⟨o, c.pc⟩ n
    some ⟨s, r.calls.update i fun c => { c with pc := .dropped }⟩
  | .other s =>
    let temp := partName cfg.sha (safeName o.name) o.transferId
    if s.files.get temp = r.store.files.get temp ∧
        (o.transferId ∈ s.inFlight ↔ o.transferId ∈ r.store.inFlight) then
      some { r with store := s }
    else none

end Retries

end Zyris.Transfer
