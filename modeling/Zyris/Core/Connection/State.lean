import Zyris.Proto.Attach
import Zyris.Proto.Envelope
import Zyris.Core.Capabilities

/-!
# One end of a connection: its state

`crates/zyris-core/src/connection.rs`.  `Shared` holds what the tasks of one end share, under the
names of the source, and the tasks themselves, each as its program counter.  The fields are grouped
by who works on them: the callers' half (`Client`), the serving half (`Serve`), the writer's queue
(`Out`) and the closing (`Closing`).  Objects behind an `Arc` or a channel sit in arenas, and the
tables hold their handles.

Only recorded, and read by no step: `received`, `seen`, `outcome`, `yielded`, `answered` and which
party set a `replied` flag.
-/

namespace Zyris.Core

open Proto

def INLINE_BLOB_MAX : Nat := 4 * 1024 * 1024

def CLOSE_NORMAL : Nat := 1000

inductive Side
  | dialer
  | acceptor
  deriving DecidableEq

/-- What the handshake settled, and the code outside: SHA-256, the codec's message for what it
cannot encode, and serde's typed readers and writers. -/
structure Config where
  side : Side
  serialization : Serialization
  limits : Limits
  attachmentsEnabled : Bool
  reserved : List String
  digest : List UInt8 → String
  encodeError : Envelope → String
  announceParams : List CapabilityDescriptor → Except WireError Payload
  toAnnounceParams : Payload → Except WireError (List CapabilityDescriptor)
  closingParams : String → Payload
  toClosingParams : Payload → Except WireError String

def Side.firstStreamId : Side → Nat
  | .dialer => 1
  | .acceptor => 2

/-- The id of the `n`-th `next_stream_id.fetch_add(2)`. -/
def Config.streamId (cfg : Config) (n : Nat) : Nat := (cfg.side.firstStreamId + 2 * n) % 2 ^ 32

/-- SHA-256 of the two bytes that some connection sends, and of nothing. -/
def sampledDigest (bytes : List UInt8) : String :=
  if bytes = [7, 8] then "bd7c250566c6e99f47c174b589b7551f8b0e930ed056511d1e8f653bc71d3c4a"
  else "e3b0c44298fc1c149afbf4c8996fb92427ae41e4649b934ca495991b7852b855"

/-- An end with the default limits, no reserved names and nothing of the code outside. -/
def Config.bare (side : Side) (serialization : Serialization) : Config where
  side := side
  serialization := serialization
  limits := .default
  attachmentsEnabled := true
  reserved := []
  digest := sampledDigest
  encodeError := fun _ => ""
  announceParams := fun _ => .ok .nil
  toAnnounceParams := fun _ => .ok []
  closingParams := fun _ => .nil
  toClosingParams := fun _ => .ok ""

/-! ### The writer's queue -/

/-- Why a connection was closed. -/
inductive CloseReason
  | graceful (r : String)
  | transport (r : String)
  | protocol (r : String)
  | heartbeat (r : String)
  deriving DecidableEq

/-- Its `Display`. -/
def CloseReason.text : CloseReason → String
  | .graceful r => "graceful close: " ++ r
  | .transport r => "transport closed: " ++ r
  | .protocol r => "protocol error: " ++ r
  | .heartbeat r => "heartbeat lapsed: " ++ r

/-- What is queued for the writer. -/
inductive WriterCmd
  | send (f : Frame)
  | close (code : Nat) (reason : String)

/-- Where `run_writer` stands. -/
inductive WriterPc
  | receiving
  -- in `sink.send`
  | sending (f : Frame)
  -- in `sink.close`
  | closing
  -- a write failed: in its own call of `shutdown`
  | failing (shutdown : Nat)
  | exited

/-! ### Calls -/

/-- A oneshot, as its receiver sees it. -/
inductive Oneshot
  | waiting
  | sent (result : Except WireError Payload)
  -- the sender was dropped without a value
  | dropped

def Oneshot.send (result : Except WireError Payload) : Oneshot → Oneshot
  | .waiting => .sent result
  | o => o

def Oneshot.drop : Oneshot → Oneshot
  | .waiting => .dropped
  | o => o

/-- Where a call of `request` stands, or of `call_streaming_raw` around it. -/
inductive CallPc
  -- the stream id is taken; `incoming` comes next
  | opening
  -- before `next_req_id.fetch_add(1)`
  | numbering
  -- before the insert into `pending`
  | inserting
  -- before the push onto `out`
  | pushing
  -- the push failed; the entry of `pending` is still there
  | unsent (error : WireError)
  -- awaiting the oneshot
  | parked
  -- the request failed; the entry of `incoming` is still there
  | failed (error : WireError)
  | returned (result : Except WireError Payload)
  -- the caller dropped the future
  | dropped

/-- A call, with the stream it declared and the channel of that stream. -/
structure Call where
  method : String
  params : Payload
  metadata : Payload
  stream : Option (Nat × Nat)
  id : Nat
  slot : Oneshot
  pc : CallPc

/-- `next_req_id`, `pending` and the calls it holds the oneshots of. -/
structure Requests where
  nextReqId : Nat
  calls : Arena Call
  pending : Table Nat Nat

namespace Requests

def start : Requests := ⟨1, .empty, .empty⟩

def update (r : Requests) (i : Nat) (f : Call → Call) : Requests :=
  { r with calls := r.calls.update i f }

/-- Change the oneshots of these calls. -/
def settle (r : Requests) (is : List Nat) (f : Oneshot → Oneshot) : Requests :=
  { r with calls := r.calls.updateAll is fun c => { c with slot := f c.slot } }

/-- `pending.insert`: a sender already under that id is dropped. -/
def insert (r : Requests) (id i : Nat) : Requests :=
  { r.settle (r.pending.get id).toList .drop with pending := r.pending.insert id i }

/-- `pending.remove(&id)`: the sender is dropped. -/
def remove (r : Requests) (id : Nat) : Requests :=
  { r.settle (r.pending.get id).toList .drop with pending := r.pending.remove id }

/-- `pending.remove(&id)`, and the value sent to the call it belonged to. -/
def deliver (r : Requests) (id : Nat) (result : Except WireError Payload) : Requests :=
  { r.settle (r.pending.get id).toList (.send result) with pending := r.pending.remove id }

/-- `pending.drain()`, every oneshot sent `connection_lost`. -/
def drain (r : Requests) : Requests :=
  { r.settle (r.pending.entries.map Prod.snd) (.send (.error .connectionLost)) with
    pending := .empty }

end Requests

/-! ### Incoming streams -/

/-- What a stream's channel carries. -/
inductive StreamEvent
  | data (bytes : List UInt8)
  | done
  | failed (error : WireError)

/-- The unbounded channel of a stream: all events ever sent, and how many were taken. -/
structure Chan where
  stream : Nat
  log : List StreamEvent
  read : Nat

/-- `IncomingStreamEntry`; `next_seq` is a `u32`. -/
structure IncomingStreamEntry where
  tx : Nat
  nextSeq : Nat
  deriving DecidableEq

/-- A registered attachment, not claimed yet. -/
structure PendingAttachment where
  reference : AttachmentRef
  rx : Nat
  deriving DecidableEq

/-- The consumer of a stream, with what it has seen. -/
structure RawIncomingStream where
  streamId : Nat
  rx : Nat
  finished : Bool
  dropped : Bool
  seen : List StreamEvent

/-- `incoming` and `attachments`, with the channels and their consumers. -/
structure Streams where
  incoming : Table Nat IncomingStreamEntry
  attachments : Table Nat PendingAttachment
  chans : Arena Chan
  consumers : Arena RawIncomingStream

/-! ### Credit -/

/-- The credit left to send on a stream. -/
structure CreditGate where
  available : Nat
  canceled : Bool
  deriving DecidableEq

/-- `credits`, with the gates. -/
structure Credits where
  table : Table Nat Nat
  gates : Arena CreditGate

/-! ### Handler tasks -/

/-- What a handler's `dispatch` came to. -/
inductive Outcome
  | response (result : Payload)
  | stream (head : Payload)
  | error (e : WireError)
  | panicked

/-- What `items.next()` came to. -/
inductive Item
  | bytes (b : List UInt8)
  | error (e : WireError)
  | done
  | panicked

/-- The item the stream loop ends with: an error, or the end of the items. -/
def Item.last : Option WireError → Item
  | some e => .error e
  | none => .done

/-- What a handler does once `reply_res` is through. -/
inductive After
  | finish
  -- the stream loop, with its gate
  | stream (gate : Nat)

/-- Where a handler task stands. -/
inductive TaskPc
  -- awaiting `dispatch`
  | dispatching
  -- a stream with a declaration: its gate comes next
  | opening (head : Payload)
  -- in `reply_res`, before the swap of `replied`
  | replying (result : Payload) (next : After)
  -- in `attach::detach`, with the ids allocated so far
  | detaching (result : Payload) (ids : List Nat) (next : After)
  -- registering the gates of the detached blobs
  | registering (result : Payload) (todo detached : List Detached) (next : After)
  | pushingRes (result : Payload) (detached : List Detached) (next : After)
  | spawning (detached : List Detached) (next : After)
  -- in `reply_err`, before the swap
  | refusing (error : WireError)
  | pushingErr (error : WireError)
  -- awaiting `items.next()`
  | streaming (gate seq : Nat)
  -- awaiting `gate.acquire`
  | acquiring (gate seq : Nat) (bytes : List UInt8)
  | pushingData (gate seq : Nat) (bytes : List UInt8)
  -- before `s_err`, or `s_end`
  | pushingEnd (error : Option WireError)
  -- before `credits.remove`
  | closingGate
  -- before the store to `done`
  | finishing
  -- before `inflight.remove`
  | leaving
  | ended
  -- aborted at an await
  | stopped
  | panicked

/-- Who may set a call's `replied` flag. -/
inductive Party
  | task
  | reader
  | replace (r : Nat)
  deriving DecidableEq

/-- The spawned task of an accepted request, with the flags it shares. -/
structure Task where
  id : Nat
  capability : String
  target : Capability
  tool : String
  params : Payload
  metadata : Payload
  stream : Option Nat
  -- `replied`: set, and by whom
  replied : Option Party
  done : Bool
  aborted : Bool
  outcome : Option Outcome
  yielded : List Item
  answered : Option Payload
  pc : TaskPc

/-- `InflightCall`; the task's handle stands for `abort`, `replied` and `done`. -/
structure InflightCall where
  capability : String
  task : Nat
  stream : Option Nat
  deriving DecidableEq

/-- Where a `send_attachment` task stands. -/
inductive SenderPc
  -- before the lookup of the gate
  | starting
  -- at the head of the chunk loop, with the bytes left
  | acquiring (gate seq : Nat) (rest : List UInt8)
  | pushing (gate seq : Nat) (chunk rest : List UInt8)
  | pushingEnd
  | closingGate
  | ended

/-- The task that sends one attachment. -/
structure Sender where
  item : Detached
  pc : SenderPc

/-! ### The reader -/

/-- A request whose capability was found. -/
structure Accepted where
  id : Nat
  capability : String
  target : Capability
  tool : String
  params : Payload
  stream : Option Nat
  metadata : Payload

/-- Where the reader stands in handling a frame. -/
inductive ReaderPc
  | idle
  -- about to hand over its answer
  | pushing (e : Envelope)
  -- the capability was looked up, the task not yet spawned
  | accepted (r : Accepted)
  -- the task was spawned, `inflight` not yet locked
  | spawned (task : Nat)
  -- a cancel took the call out of `inflight`, aborted it and set `done`
  | canceling (id : Nat) (call : InflightCall)
  -- the call had been answered: its stream's gate comes next
  | cancelGate (stream : Nat)

/-! ### Capability changes -/

/-- Where a `replace` stands on this connection, the set being swapped. -/
inductive ReplacePc
  -- before `is_closed`
  | checking
  -- before the next name's `revoke_inflight`
  | revoking
  -- in `revoke_inflight`, before the next victim's swap
  | failing (name : String) (victims : List (Nat × InflightCall))
  | answering (name : String) (victim : Nat × InflightCall) (victims : List (Nat × InflightCall))
  | pushingErr (name : String) (stream : Nat) (victim : Nat × InflightCall)
      (victims : List (Nat × InflightCall))
  | closingGate (name : String) (stream : Nat) (victim : Nat × InflightCall)
      (victims : List (Nat × InflightCall))
  | aborting (name : String) (victim : Nat × InflightCall) (victims : List (Nat × InflightCall))
  -- before `announce`
  | announcing
  | awaiting (call : Nat)
  | finished

/-- A `replace`, with the task it runs in and the names still to revoke. -/
structure Replace where
  caller : Option Nat
  revoked : List String
  pc : ReplacePc

/-! ### Closing -/

/-- Where a call of `shutdown` stands. -/
inductive ShutdownPc
  | takingGraceful
  | drainingPending
  | drainingIncoming
  | drainingCredits
  | clearingAttachments
  | drainingInflight
  -- before the look at the stored reason
  | checking
  -- none was stored: the replacement comes next
  | publishing
  | pushingClose
  | finished
  deriving DecidableEq

/-- A call of `shutdown`. -/
structure Shutdown where
  reason : CloseReason
  pc : ShutdownPc

/-! ### Collecting attachments -/

/-- Where a `hydrate` stands. -/
inductive HydratePc
  -- before the next reference
  | next
  -- in the loop of `collect_attachment`
  | collecting (reference : AttachmentRef) (consumer : Nat) (buf : List UInt8)
  | returned (result : Except WireError Unit)
  | dropped

/-- A call of `hydrate`. -/
structure Hydration where
  payload : Value
  maxBytes : Nat
  left : List AttachmentRef
  pc : HydratePc

/-! ### One end -/

/-- The calling half of an end. -/
structure Client where
  requests : Requests
  streams : Streams
  hydrations : Arena Hydration

/-- The serving half of an end. -/
structure Serve where
  reader : ReaderPc
  credits : Credits
  inflight : Table Nat InflightCall
  tasks : Arena Task
  senders : Arena Sender
  served : Served
  replaces : Arena Replace

/-- `out`, and the writer at its other end. -/
structure Out where
  -- everything handed to the writer, in order
  handed : List WriterCmd
  -- how many of them it has taken
  taken : Nat
  writer : WriterPc
  -- the frames it has put on the wire
  wire : List Frame

/-- What `shutdown` leaves behind, and the calls of it. -/
structure Closing where
  graceful : Option String
  closeReason : Option CloseReason
  shutdowns : Arena Shutdown

/-- `Shared`, and the tasks that work on it. -/
structure Shared where
  client : Client
  serve : Serve
  out : Out
  closing : Closing
  -- how often `next_stream_id` was advanced
  allocs : Nat
  -- the frames the reader has taken off the wire
  received : List Frame
  peerCaps : List CapabilityDescriptor

/-- A connection right after the handshake. -/
def Shared.start (served : Served) : Shared where
  client := ⟨.start, ⟨.empty, .empty, .empty, .empty⟩, .empty⟩
  serve := ⟨.idle, ⟨.empty, .empty⟩, .empty, .empty, .empty, served, .empty⟩
  out := ⟨[], 0, .receiving, []⟩
  closing := ⟨none, none, .empty⟩
  allocs := 0
  received := []
  peerCaps := []

/-- A connection as `establish` returns it: a set that is not empty is being announced. -/
def Shared.established (served : Served) : Shared :=
  { Shared.start served with serve := { (Shared.start served).serve with
    replaces :=
      if served.capabilities.isEmpty then .empty else Arena.empty.alloc ⟨none, [], .announcing⟩ } }

/-- The receiver of `out` is alive. -/
def WriterPc.live : WriterPc → Bool
  | .exited => false
  | _ => true

/-- What a step of one half needs to know of the rest. -/
structure Env where
  -- whether `out.send` succeeds
  live : Bool
  -- what `next_stream_id.fetch_add(2)` gives
  streamId : Nat

/-- What a step of one half does to the rest. -/
structure Emit where
  -- what it sends on `out`
  cmds : List WriterCmd
  -- how many stream ids it takes
  allocs : Nat

/-- A step that touches nothing else. -/
def Emit.none : Emit := ⟨[], 0⟩

def Emit.send (cmds : List WriterCmd) : Emit := ⟨cmds, 0⟩

@[simp] theorem Emit.cmds_none : Emit.none.cmds = [] := rfl

@[simp] theorem Emit.cmds_send (cmds : List WriterCmd) : (Emit.send cmds).cmds = cmds := rfl

/-- `encode_control`: the command `send_envelope` sends, if the envelope can be encoded. -/
def Config.encode (cfg : Config) (e : Envelope) : List WriterCmd :=
  if e.encodes cfg.serialization then [.send (.control e)] else []

namespace Shared

def env (cfg : Config) (s : Shared) : Env := ⟨s.out.writer.live, cfg.streamId s.allocs⟩

/-- `out.send`: once the writer has exited nothing is kept. -/
def hand (s : Shared) (cmds : List WriterCmd) : Shared :=
  { s with out := { s.out with
    handed := s.out.handed ++ if s.out.writer.live then cmds else [] } }

/-- The outcome of a step of the callers' half. -/
def withClient (s : Shared) (c : Client) (e : Emit) : Shared :=
  { s.hand e.cmds with client := c, allocs := s.allocs + e.allocs }

/-- The outcome of a step of the serving half. -/
def withServe (s : Shared) (v : Serve) (e : Emit) : Shared :=
  { s.hand e.cmds with serve := v, allocs := s.allocs + e.allocs }

end Shared

end Zyris.Core
