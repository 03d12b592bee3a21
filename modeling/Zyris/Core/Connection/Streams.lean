import Zyris.Core.Connection.State

/-!
# Incoming streams and attachments

The receiving half.  The sending half of a channel lives in its entry of `incoming`, so a channel is
closed once that entry is gone.
-/

namespace Zyris.Core

open Proto

def StreamEvent.isData : StreamEvent → Bool
  | .data _ => true
  | _ => false

namespace Streams

def send (st : Streams) (rx : Nat) (ev : StreamEvent) : Streams :=
  { st with chans := st.chans.update rx fun c => { c with log := c.log ++ [ev] } }

/-- `incoming.remove(&stream)`, and the last event sent to the channel it belonged to. -/
def finish (st : Streams) (stream : Nat) (ev : StreamEvent) : Streams :=
  match st.incoming.get stream with
  | some entry => { st.send entry.tx ev with incoming := st.incoming.remove stream }
  | none => st

/-- A chunk with a number other than the expected one. -/
def gap (st : Streams) (stream seq : Nat) : Option Nat :=
  match st.incoming.get stream with
  | some entry => if seq ≠ entry.nextSeq then some entry.nextSeq else none
  | none => none

/-- `handle_frame` on a chunk. -/
def data (st : Streams) (stream seq : Nat) (payload : List UInt8) : Streams :=
  match st.incoming.get stream with
  | some entry =>
    if seq ≠ entry.nextSeq then
      st.finish stream (.failed (.new .streamLagged
        ("chunk gap: expected " ++ toString entry.nextSeq ++ " got " ++ toString seq)))
    else
      { st.send entry.tx (.data payload) with
        incoming := st.incoming.insert stream { entry with nextSeq := (seq + 1) % 2 ^ 32 } }
  | none => st

/-- `register_attachments`, for one reference. -/
def registerOne (st : Streams) (reference : AttachmentRef) : Streams :=
  if (st.incoming.get reference.stream).isSome then st
  else
    { st with
      chans := st.chans.alloc ⟨reference.stream, [], 0⟩
      incoming := st.incoming.insert reference.stream ⟨st.chans.size, 0⟩
      attachments := st.attachments.insert reference.stream ⟨reference, st.chans.size⟩ }

def register (st : Streams) (references : List AttachmentRef) : Streams :=
  references.foldl registerOne st

/-- `incoming.drain()`, every channel sent `connection_lost`. -/
def drain (st : Streams) : Streams :=
  { st with
    incoming := .empty
    chans := st.chans.updateAll (st.incoming.entries.map fun e => e.2.tx) fun c =>
      { c with log := c.log ++ [.failed .connectionLost] } }

/-- The channel's entry of `incoming` is still there. -/
def isOpen (st : Streams) (rx : Nat) (chan : Chan) : Bool :=
  (st.incoming.get chan.stream).map IncomingStreamEntry.tx = some rx

/-- What `poll_recv` finds; an empty closed channel reads as `connection_lost`. -/
def next (st : Streams) (rx : Nat) : Option StreamEvent :=
  match st.chans.get rx with
  | some chan =>
    match chan.log[chan.read]? with
    | some ev => some ev
    | none => if st.isOpen rx chan then none else some (.failed .connectionLost)
  | none => none

/-- Take the event `ev` out for the consumer `k`. -/
def take (st : Streams) (k rx : Nat) (ev : StreamEvent) : Streams :=
  { st with
    chans := st.chans.update rx fun c => { c with read := min (c.read + 1) c.log.length }
    consumers := st.consumers.update k fun c =>
      { c with seen := c.seen ++ [ev], finished := !ev.isData } }

end Streams

namespace Client

/-- The credit a consumed event earns its sender. -/
def creditFor (cfg : Config) (stream : Nat) : StreamEvent → List WriterCmd
  | .data bytes => cfg.encode (.sCredit stream bytes.length)
  | _ => []

/-- `RawIncomingStream::poll_next`; a finished stream has no further event. -/
def pollNext (cfg : Config) (v : Client) (k : Nat) : Option (StreamEvent × Client × Emit) :=
  match v.streams.consumers.get k with
  | some c =>
    if c.finished || c.dropped then none
    else match v.streams.next c.rx with
      | some ev =>
        some (ev, { v with streams := v.streams.take k c.rx ev },
          .send (creditFor cfg c.streamId ev))
      | none => none
  | none => none

/-- `Drop for RawIncomingStream`. -/
def dropStream (cfg : Config) (v : Client) (k : Nat) : Option (Client × Emit) :=
  match v.streams.consumers.get k with
  | some c =>
    let consumers := v.streams.consumers.update k ({ · with dropped := true })
    if c.dropped then none
    else if c.finished then
      some ({ v with streams := { v.streams with consumers := consumers } }, .none)
    else
      some ({ v with streams := { v.streams with
          incoming := v.streams.incoming.remove c.streamId
          consumers := consumers } },
        .send (cfg.encode (.sCancel c.streamId)))
  | none => none

/-- `Connection::attachment`: the reference; the stream's handle is `consumers.size`. -/
def attachment (v : Client) (stream : Nat) : Option (AttachmentRef × Client) :=
  match v.streams.attachments.get stream with
  | some pending =>
    some (pending.reference, { v with streams := { v.streams with
      attachments := v.streams.attachments.remove stream
      consumers := v.streams.consumers.alloc ⟨stream, pending.rx, false, false, []⟩ } })
  | none => none

/-- The claim grace of `register_attachments` has run out.  One step for what the source does under
one lock after the other. -/
def sweep (cfg : Config) (v : Client) (stream : Nat) : Option (Client × Emit) :=
  match v.streams.attachments.get stream with
  | some _ =>
    some ({ v with streams := { v.streams with
        attachments := v.streams.attachments.remove stream
        incoming := v.streams.incoming.remove stream } },
      .send (cfg.encode (.sCancel stream)))
  | none => none

/-! ### Collecting -/

/-- What `collect_attachment` makes of a whole buffer. -/
def checkAttachment (cfg : Config) (reference : AttachmentRef) (buf : List UInt8) :
    Except WireError Unit :=
  if buf.length % 2 ^ 64 ≠ reference.size then
    .error (.new (.other "attachment_truncated")
      ("attachment declared " ++ toString reference.size ++ " bytes, " ++ toString buf.length ++
        " arrived"))
  else match reference.sha256 with
    | some expected =>
      if cfg.digest buf ≠ expected then
        .error (.new (.other "attachment_corrupt")
          ("attachment sha256 " ++ cfg.digest buf ++ " does not match the declared " ++ expected))
      else .ok ()
    | none => .ok ()

def hydratePc (v : Client) (h : Nat) (pc : HydratePc) : Client :=
  { v with hydrations := v.hydrations.update h ({ · with pc := pc }) }

/-- The collected bytes go back into the payload, and the next reference comes up. -/
def hydrateSplice (v : Client) (h : Nat) (wanted : AttachmentRef) (bytes : List UInt8) : Client :=
  { v with hydrations := v.hydrations.update h fun x =>
    { x with
      payload := (splice wanted.stream bytes x.payload).1
      left := x.left.tail
      pc := .next } }

/-- `collect_attachment` gives up on a stream, which is dropped. -/
def hydrateFail (cfg : Config) (v : Client) (h k : Nat) (pc : HydratePc) (cmds : List WriterCmd) :
    Option (Client × Emit) :=
  match v.dropStream cfg k with
  | some (v, e) => some (v.hydratePc h pc, .send (cmds ++ e.cmds))
  | none => none

/-- `collect_attachment` starts: it claims the stream and looks at the declared size. -/
def hydrateNext (cfg : Config) (v : Client) (h : Nat) (x : Hydration) (wanted : AttachmentRef) :
    Option (Client × Emit) :=
  match v.attachment wanted.stream with
  | none =>
    some (v.hydratePc h (.returned (.error (.new (.other "attachment_gone")
      ("stream " ++ toString wanted.stream ++
        " was never announced, or has already been claimed")))), .none)
  | some (reference, v') =>
    if x.maxBytes % 2 ^ 64 < reference.size then
      v'.hydrateFail cfg h v.streams.consumers.size (.returned (.error (.new .payloadTooLarge
        ("attachment is " ++ toString reference.size ++ " bytes, over the " ++
          toString x.maxBytes ++ "-byte limit")))) []
    else some (v'.hydratePc h (.collecting reference v.streams.consumers.size []), .none)

/-- The loop of `collect_attachment` was given an event. -/
def hydrateEvent (cfg : Config) (v : Client) (h : Nat) (x : Hydration) (reference : AttachmentRef)
    (k : Nat) (buf : List UInt8) (e : Emit) : StreamEvent → Option (Client × Emit)
  | .data bytes =>
    if x.maxBytes < (buf ++ bytes).length then
      v.hydrateFail cfg h k (.returned (.error (.new .payloadTooLarge
        ("attachment exceeded the " ++ toString x.maxBytes ++ "-byte limit mid-transfer")))) e.cmds
    else some (v.hydratePc h (.collecting reference k (buf ++ bytes)), e)
  | .failed error => some (v.hydratePc h (.returned (.error error)), e)
  | .done =>
    match checkAttachment cfg reference buf, x.left with
    | .ok _, wanted :: _ => some (v.hydrateSplice h wanted buf, e)
    | .error error, _ => some (v.hydratePc h (.returned (.error error)), e)
    | .ok _, [] => none

def hydrateRun (cfg : Config) (v : Client) (h : Nat) (x : Hydration) : Option (Client × Emit) :=
  match x.pc with
  | .next =>
    match x.left with
    | [] => some (v.hydratePc h (.returned (.ok ())), .none)
    | wanted :: _ => v.hydrateNext cfg h x wanted
  | .collecting reference k buf =>
    match v.pollNext cfg k with
    | some (ev, v, e) => v.hydrateEvent cfg h x reference k buf e ev
    | none => none
  | .returned _ => none
  | .dropped => none

/-- What consumers of streams do. -/
inductive StreamAct
  | poll (consumer : Nat)
  | drop (consumer : Nat)
  | claim (stream : Nat)
  | sweep (stream : Nat)
  | hydrate (payload : Payload) (maxBytes : Nat)
  | hydrateRun (h : Nat)
  -- the caller drops a `hydrate`, and with it the stream it was reading
  | hydrateDrop (h : Nat)

/-- The consumer belongs to a `collect_attachment`, so nobody else can poll it or drop it. -/
def isCollecting (v : Client) (k : Nat) : Bool :=
  v.hydrations.objects.any fun x => match x.pc with
    | .collecting _ k' _ => k' = k
    | _ => false

def beginHydrate (v : Client) (payload : Payload) (maxBytes : Nat) : Client :=
  { v with hydrations :=
    v.hydrations.alloc ⟨payload.value, maxBytes, refs payload.value, .next⟩ }

def streamStep (cfg : Config) (v : Client) : StreamAct → Option (Client × Emit)
  | .poll k =>
    if v.isCollecting k then none
    else match v.pollNext cfg k with
      | some (_, v, e) => some (v, e)
      | none => none
  | .drop k => if v.isCollecting k then none else v.dropStream cfg k
  | .claim stream =>
    match v.attachment stream with
    | some (_, v) => some (v, .none)
    | none => none
  | .sweep stream => v.sweep cfg stream
  | .hydrate payload maxBytes => some (v.beginHydrate payload maxBytes, .none)
  | .hydrateRun h =>
    match v.hydrations.get h with
    | some x => v.hydrateRun cfg h x
    | none => none
  | .hydrateDrop h =>
    match (v.hydrations.get h).map Hydration.pc with
    | some (.collecting _ k _) => v.hydrateFail cfg h k .dropped []
    | _ => none

end Client

end Zyris.Core
