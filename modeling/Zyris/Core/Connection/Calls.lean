import Zyris.Core.Connection.State

/-!
# Calls

`Connection::request` and `Connection::call_streaming_raw`: a call takes its ids, enters `pending`
(a streaming one `incoming` first), pushes its `req` and parks on the oneshot.  The caller may drop
the future while it is parked.
-/

namespace Zyris.Core

open Proto

/-- What callers do. -/
inductive CallAct
  -- `call_raw_with_meta` starts
  | call (method : String) (params metadata : Payload)
  -- `call_streaming_raw` starts and takes its stream id
  | callStreaming (method : String) (params : Payload)
  | run (i : Nat)
  | drop (i : Nat)

def Call.envelope (c : Call) : Envelope :=
  .req c.id c.method c.params (c.stream.map Prod.fst) c.metadata

/-- What the oneshot gives the parked call; `none` while it waits. -/
def Oneshot.result : Oneshot → Option (Except WireError Payload)
  | .waiting => none
  | .sent result => some result
  | .dropped => some (.error .connectionLost)

/-- The error `send_envelope` returns. -/
def Config.sendError (cfg : Config) (env : Env) (e : Envelope) : Option WireError :=
  if ¬ e.encodes cfg.serialization then some (.internal ("encode: " ++ cfg.encodeError e))
  else if env.live then none
  else some .connectionLost

namespace Client

def updateCall (v : Client) (i : Nat) (f : Call → Call) : Client :=
  { v with requests := v.requests.update i f }

def callPc (v : Client) (i : Nat) (pc : CallPc) : Client := v.updateCall i ({ · with pc := pc })

def beginCall (v : Client) (method : String) (params metadata : Payload) : Client :=
  { v with requests := { v.requests with
    calls := v.requests.calls.alloc ⟨method, params, metadata, none, 0, .waiting, .numbering⟩ } }

def beginStreaming (v : Client) (streamId : Nat) (method : String) (params : Payload) : Client :=
  { v with
    streams := { v.streams with chans := v.streams.chans.alloc ⟨streamId, [], 0⟩ }
    requests := { v.requests with
      calls := v.requests.calls.alloc
        ⟨method, params, .nil, some (streamId, v.streams.chans.size), 0, .waiting, .opening⟩ } }

/-- `request` returned: a unary call returns with it, a streaming one makes its stream of a head or
cleans up. -/
def callReturn (v : Client) (i : Nat) (c : Call) (result : Except WireError Payload) : Client :=
  match c.stream, result with
  | some (streamId, rx), .ok head =>
    { v.callPc i (.returned (.ok head)) with
      streams := { v.streams with
        consumers := v.streams.consumers.alloc ⟨streamId, rx, false, false, []⟩ } }
  | some _, .error e => v.callPc i (.failed e)
  | none, result => v.callPc i (.returned result)

def callRun (cfg : Config) (env : Env) (v : Client) (i : Nat) (c : Call) :
    Option (Client × Emit) :=
  match c.pc with
  | .opening =>
    match c.stream with
    | some (streamId, rx) =>
      some ({ v.callPc i .numbering with
        streams := { v.streams with incoming := v.streams.incoming.insert streamId ⟨rx, 0⟩ } },
        .none)
    | none => none
  | .numbering =>
    let id := v.requests.nextReqId
    some ({ v with requests :=
      { v.requests.update i ({ · with id := id, pc := .inserting }) with
        nextReqId := (id + 1) % 2 ^ 64 } }, .none)
  | .inserting =>
    some ({ v with requests :=
      (v.requests.update i ({ · with pc := .pushing })).insert c.id i }, .none)
  | .pushing =>
    match cfg.sendError env c.envelope with
    | none => some (v.callPc i .parked, .send (cfg.encode c.envelope))
    | some e => some (v.callPc i (.unsent e), .none)
  | .unsent e =>
    some (({ v with requests := v.requests.remove c.id } : Client).callReturn i c (.error e), .none)
  | .parked =>
    match c.slot.result with
    | some result => some (v.callReturn i c result, .none)
    | none => none
  | .failed e =>
    match c.stream with
    | some (streamId, _) =>
      some ({ v.callPc i (.returned (.error e)) with
        streams := { v.streams with incoming := v.streams.incoming.remove streamId } }, .none)
    | none => none
  | .returned _ => none
  | .dropped => none

def callStep (cfg : Config) (env : Env) (v : Client) : CallAct → Option (Client × Emit)
  | .call method params metadata => some (v.beginCall method params metadata, .none)
  | .callStreaming method params => some (v.beginStreaming env.streamId method params, ⟨[], 1⟩)
  | .run i =>
    match v.requests.calls.get i with
    | some c => v.callRun cfg env i c
    | none => none
  | .drop i =>
    match (v.requests.calls.get i).map Call.pc with
    | some .parked => some (v.callPc i .dropped, .none)
    | _ => none

end Client

end Zyris.Core
