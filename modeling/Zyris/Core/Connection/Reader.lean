import Zyris.Core.Connection.Streams
import Zyris.Core.Connection.Serve

/-!
# The reader

`handle_frame`, `handle_control`, `handle_request` and `handle_announce`.  A request's lookup, the
spawn of its task and its registration in `inflight` are separate steps, and so are the flag and the
answer of a cancel.
-/

namespace Zyris.Core

open Proto

/-! ### Frames for the callers' half -/

/-- `handle_frame` and `handle_control`, as far as the callers' half goes. -/
def Client.handle (v : Client) : Frame → Client
  | .control (.res id result) =>
    -- the attachments are registered before the payload leaves the reader
    { v with
      streams := v.streams.register (refs result.value)
      requests := v.requests.deliver id (.ok result) }
  | .control (.err id error) => { v with requests := v.requests.deliver id (.error error) }
  | .control (.sEnd stream _) => { v with streams := v.streams.finish stream .done }
  | .control (.sErr stream error) => { v with streams := v.streams.finish stream (.failed error) }
  | .streamData stream seq payload => { v with streams := v.streams.data stream seq payload }
  | _ => v

/-- What the reader sends at once: the `s_cancel` for a chunk that left a gap. -/
def Client.reaction (cfg : Config) (v : Client) : Frame → List WriterCmd
  | .streamData stream seq _ =>
    if (v.streams.gap stream seq).isSome then cfg.encode (.sCancel stream) else []
  | _ => []

/-! ### Frames for the serving half -/

/-- What `handle_announce` keeps of an announcement. -/
def Config.keptCaps (cfg : Config) (capabilities : List CapabilityDescriptor) :
    List CapabilityDescriptor :=
  capabilities.filter fun c => c.name ∉ cfg.reserved

def Config.announceAnswer (cfg : Config) (id : Nat) (params : Payload) : Envelope :=
  match cfg.toAnnounceParams params with
  | .error e => .err id e
  | .ok capabilities =>
    let rejected := capabilities.filter fun c => c.name ∈ cfg.reserved
    let result : AnnounceResult := {
      accepted := (cfg.keptCaps capabilities).map (·.name)
      rejected := rejected.map fun c => ⟨c.name, "reserved"⟩ }
    .res id ⟨result.value⟩

def Accepted.task (r : Accepted) : Task where
  id := r.id
  capability := r.capability
  target := r.target
  tool := r.tool
  params := r.params
  metadata := r.metadata
  stream := r.stream
  replied := none
  done := false
  aborted := false
  outcome := none
  yielded := []
  answered := none
  pc := .dispatching

namespace Serve

/-- `handle_request`, up to the lookup of the capability. -/
def handleRequest (cfg : Config) (v : Serve) (id : Nat) (method : String) (params : Payload)
    (stream : Option Nat) (metadata : Payload) : ReaderPc :=
  if method = METHOD_ANNOUNCE then .pushing (cfg.announceAnswer id params)
  else match splitMethod method with
    | none => .pushing (.err id (.methodNotFound method))
    | some (name, tool) =>
      match v.served.byName.get name with
      | none => .pushing (.err id (.new .capabilityNotAnnounced
          ("capability " ++ name ++ " not available")))
      | some target => .accepted ⟨id, name, target, tool, params, stream, metadata⟩

/-- `cancel`: the call is taken out of `inflight`, aborted and marked done. -/
def handleCancel (v : Serve) (id : Nat) : Serve :=
  match v.inflight.get id with
  | some call =>
    { v with
      inflight := v.inflight.remove id
      tasks := v.tasks.update call.task ({ · with aborted := true, done := true })
      reader := .canceling id call }
  | none => v

/-- `handle_control`, as far as the serving half goes. -/
def handle (cfg : Config) (v : Serve) : Frame → Serve
  | .control (.req id method params stream metadata) =>
    { v with reader := v.handleRequest cfg id method params stream metadata }
  | .control (.cancel id) => v.handleCancel id
  | .control (.sCredit stream bytes) => { v with credits := v.credits.add stream bytes }
  | .control (.sCancel stream) => { v with credits := v.credits.cancel stream }
  | _ => v

/-- Where a cancel goes from its swap. -/
def cancelPc (id : Nat) (call : InflightCall) (task : Task) : ReaderPc :=
  if task.replied.isNone then .pushing (.err id .canceled)
  else match call.stream with
    | some stream => .cancelGate stream
    | none => .idle

/-- What the reader has left to do with its frame. -/
def readerRun (cfg : Config) (v : Serve) : Option (Serve × Emit) :=
  match v.reader with
  | .idle => none
  | .pushing e => some ({ v with reader := .idle }, .send (cfg.encode e))
  | .accepted r =>
    some ({ v with tasks := v.tasks.alloc r.task, reader := .spawned v.tasks.size }, .none)
  | .spawned t =>
    match v.tasks.get t with
    | some task =>
      some ({ v with
        inflight :=
          if task.done then v.inflight
          else v.inflight.insert task.id ⟨task.capability, t, task.stream⟩
        reader := .idle }, .none)
    | none => none
  | .canceling id call =>
    match v.tasks.get call.task with
    | some task =>
      some ({ v.updateTask call.task (·.takeReply .reader) with
        reader := cancelPc id call task }, .none)
    | none => none
  | .cancelGate stream =>
    let pc : ReaderPc :=
      if (v.credits.table.get stream).isSome then .pushing (.sErr stream .canceled) else .idle
    some ({ v with credits := v.credits.close stream, reader := pc }, .none)

end Serve

end Zyris.Core
