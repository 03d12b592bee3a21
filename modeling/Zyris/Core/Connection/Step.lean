import Zyris.Core.Connection.Calls
import Zyris.Core.Connection.Reader

/-!
# A step of one end

`Shared.step` puts the halves together, with the writer and `shutdown`.  `run_writer` may stay in
`sink.send` for any time, and stops for good at the first `Close` or failed write.  `shutdown` goes
through the tables one critical section at a time.
-/

namespace Zyris.Core

open Proto

/-- What the serving half does. -/
inductive ServeAct
  | dispatched (task : Nat) (o : Outcome)
  | yielded (task : Nat) (i : Item)
  | run (task : Nat)
  | stop (task : Nat)
  | senderRun (sender : Nat)
  | readerRun
  -- a `replace` swaps the set, from inside the task `caller` or from outside
  | replace (caller : Option Nat) (capabilities : List Capability)
  | collect (replace : Nat) (order : List (Nat × InflightCall))
  | replaceRun (replace : Nat)

/-- A step of the serving half; `closed` is what `is_closed` sees. -/
def Serve.step (cfg : Config) (env : Env) (closed : Bool) (v : Serve) :
    ServeAct → Option (Serve × Emit)
  | .dispatched t o =>
    match v.tasks.get t with
    | some task => v.dispatched t task o
    | none => none
  | .yielded t i =>
    match v.tasks.get t with
    | some task => v.yielded t task i
    | none => none
  | .run t =>
    match v.tasks.get t with
    | some task => v.taskRun cfg env t task
    | none => none
  | .stop t =>
    match v.tasks.get t with
    | some task => v.taskStop t task
    | none => none
  | .senderRun k =>
    match v.senders.get k with
    | some x => v.senderRun cfg env k x
    | none => none
  | .readerRun => v.readerRun cfg
  | .replace caller capabilities => v.replace caller capabilities
  | .collect r order =>
    match v.replaces.get r with
    | some x => v.collect r x order
    | none => none
  | .replaceRun r =>
    match v.replaces.get r with
    | some x => v.replaceRun cfg closed r x
    | none => none

/-! ### Closing -/

/-- What goes on at the close. -/
inductive ClosingAct
  -- the reader's loop ended, or the watchdog fired
  | shutdown (reason : CloseReason)
  | shutdownRun (k : Nat)
  -- `Connection::notify`, a heartbeat, or the note of `Connection::close`
  | notify (method : String) (params : Payload)
  -- the command of `Connection::close`
  | close (reason : String)

/-- What the writer does. -/
inductive WriterAct
  -- the writer takes a command
  | recv
  -- `sink.send` succeeds
  | sent
  -- `sink.send` fails
  | failed (error : String)
  -- `sink.close`, or the writer's own `shutdown`, is through
  | exit

/-- `Connection::closed`, when it looks: the reason it returns, or `none` while it waits. -/
def Shared.closed (s : Shared) : Option CloseReason := s.closing.closeReason

def Closing.begin (c : Closing) (reason : CloseReason) : Closing :=
  { c with shutdowns := c.shutdowns.alloc ⟨reason, .takingGraceful⟩ }

def Closing.move (c : Closing) (k : Nat) (pc : ShutdownPc) : Closing :=
  { c with shutdowns := c.shutdowns.update k ({ · with pc := pc }) }

/-- `graceful.take()`, which replaces the reason. -/
def Closing.takeGraceful (c : Closing) (k : Nat) : Closing :=
  { c with
    graceful := none
    shutdowns := c.shutdowns.update k fun x =>
      { reason := match c.graceful with
          | some msg => .graceful msg
          | none => x.reason
        pc := .drainingPending } }

/-- `inflight.drain()`, every task aborted. -/
def Serve.drainInflight (v : Serve) : Serve :=
  { v with
    inflight := .empty
    tasks := v.tasks.updateAll (v.inflight.entries.map fun e => e.2.task)
      ({ · with aborted := true }) }

namespace Shared

def shutdownRun (s : Shared) (k : Nat) (x : Shutdown) : Option Shared :=
  match x.pc with
  | .takingGraceful => some { s with closing := s.closing.takeGraceful k }
  | .drainingPending =>
    some { s with
      closing := s.closing.move k .drainingIncoming
      client := { s.client with requests := s.client.requests.drain } }
  | .drainingIncoming =>
    some { s with
      closing := s.closing.move k .drainingCredits
      client := { s.client with streams := s.client.streams.drain } }
  | .drainingCredits =>
    some { s with
      closing := s.closing.move k .clearingAttachments
      serve := { s.serve with credits := s.serve.credits.drain } }
  | .clearingAttachments =>
    some { s with
      closing := s.closing.move k .drainingInflight
      client := { s.client with streams := { s.client.streams with attachments := .empty } } }
  | .drainingInflight =>
    some { s with closing := s.closing.move k .checking, serve := s.serve.drainInflight }
  | .checking =>
    let pc := if s.closing.closeReason.isNone then .publishing else .pushingClose
    some { s with closing := s.closing.move k pc }
  | .publishing =>
    some { s with closing :=
      { s.closing.move k .pushingClose with closeReason := some x.reason } }
  | .pushingClose =>
    some (({ s with closing := s.closing.move k .finished } : Shared).hand
      [.close CLOSE_NORMAL x.reason.text])
  | .finished => none

def closingStep (cfg : Config) (s : Shared) : ClosingAct → Option Shared
  | .shutdown reason => some { s with closing := s.closing.begin reason }
  | .shutdownRun k =>
    match s.closing.shutdowns.get k with
    | some x => s.shutdownRun k x
    | none => none
  | .notify method params => some (s.hand (cfg.encode (.note method params)))
  | .close reason => some (s.hand [.close CLOSE_NORMAL reason])

def writerStep (s : Shared) : WriterAct → Option Shared
  | .recv =>
    match s.out.writer, s.out.handed[s.out.taken]? with
    | .receiving, some (.send f) =>
      some { s with out := { s.out with writer := .sending f, taken := s.out.taken + 1 } }
    | .receiving, some (.close _ _) =>
      some { s with out := { s.out with writer := .closing, taken := s.out.taken + 1 } }
    | _, _ => none
  | .sent =>
    match s.out.writer with
    | .sending f =>
      some { s with out := { s.out with writer := .receiving, wire := s.out.wire ++ [f] } }
    | _ => none
  | .failed e =>
    match s.out.writer with
    | .sending _ =>
      some { s with
        closing := s.closing.begin (.transport ("write failed: " ++ e))
        out := { s.out with writer := .failing s.closing.shutdowns.size } }
    | _ => none
  | .exit =>
    match s.out.writer with
    | .closing => some { s with out := { s.out with writer := .exited } }
    | .failing k =>
      if (s.closing.shutdowns.get k).map Shutdown.pc = some .finished then
        some { s with out := { s.out with writer := .exited } }
      else none
    | _ => none

/-! ### The halves together -/

/-- `METHOD_CLOSING` notes are kept for the next `shutdown`. -/
def gracefulFrom (cfg : Config) (s : Shared) : Frame → Option String
  | .control (.note method params) =>
    if method = METHOD_CLOSING then
      some (match cfg.toClosingParams params with
        | .ok reason => reason
        | .error _ => "closing")
    else s.closing.graceful
  | _ => s.closing.graceful

/-- What an announcement leaves in `peer_caps`. -/
def peerCapsFrom (cfg : Config) (s : Shared) : Frame → List CapabilityDescriptor
  | .control (.req _ method params _ _) =>
    if method = METHOD_ANNOUNCE then
      match cfg.toAnnounceParams params with
      | .ok capabilities => cfg.keptCaps capabilities
      | .error _ => s.peerCaps
    else s.peerCaps
  | _ => s.peerCaps

def receive (cfg : Config) (s : Shared) (f : Frame) : Shared :=
  { s.hand (s.client.reaction cfg f) with
    client := s.client.handle f
    serve := s.serve.handle cfg f
    received := s.received ++ [f]
    peerCaps := s.peerCapsFrom cfg f
    closing := { s.closing with graceful := s.gracefulFrom cfg f } }

/-- A `replace` announces what is served now. -/
def announce (cfg : Config) (s : Shared) (r : Nat) : Option Shared :=
  match (s.serve.replaces.get r).map Replace.pc with
  | some .announcing =>
    match cfg.announceParams s.serve.served.descriptors with
    | .ok params =>
      some { s with
        client := s.client.beginCall METHOD_ANNOUNCE params .nil
        serve := s.serve.replacePc r (.awaiting s.client.requests.calls.size) }
    | .error _ => some { s with serve := s.serve.replacePc r .finished }
  | some (.awaiting i) =>
    match (s.client.requests.calls.get i).map Call.pc with
    | some (.returned _) => some { s with serve := s.serve.replacePc r .finished }
    | _ => none
  | _ => none

end Shared

/-- Whatever an end does. -/
inductive Act
  | call (a : CallAct)
  | stream (a : Client.StreamAct)
  | serve (a : ServeAct)
  | announce (replace : Nat)
  | receive (f : Frame)
  | closing (a : ClosingAct)
  | writer (a : WriterAct)

def Shared.step (cfg : Config) (s : Shared) : Act → Option Shared
  | .call a =>
    match s.client.callStep cfg (s.env cfg) a with
    | some (c, e) => some (s.withClient c e)
    | none => none
  | .stream a =>
    match s.client.streamStep cfg a with
    | some (c, e) => some (s.withClient c e)
    | none => none
  | .serve a =>
    match s.serve.step cfg (s.env cfg) s.closing.closeReason.isSome a with
    | some (v, e) => some (s.withServe v e)
    | none => none
  | .announce r => s.announce cfg r
  | .receive f =>
    match s.serve.reader with
    | .idle => some (s.receive cfg f)
    | _ => none
  | .closing a => s.closingStep cfg a
  | .writer a => s.writerStep a

end Zyris.Core
