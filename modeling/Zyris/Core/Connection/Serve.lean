import Zyris.Core.Connection.State

/-!
# Serving

The sending half: the handler task of a request with its stream loop, the `send_attachment` tasks,
and what a `replace` of the served set does on this connection (`propagate`, `revoke_inflight`).
`abort` takes effect where the task awaits, but a task that runs on past an await which is ready has
not noticed yet.
-/

namespace Zyris.Core

open Proto

/-! ### Credit -/

namespace Credits

/-- `credits.insert(stream, CreditGate::new(initial))`; the gate's handle is `gates.size`. -/
def openGate (c : Credits) (stream initial : Nat) : Credits where
  table := c.table.insert stream c.gates.size
  gates := c.gates.alloc ⟨initial, false⟩

/-- `credits.remove(&stream)`. -/
def close (c : Credits) (stream : Nat) : Credits := { c with table := c.table.remove stream }

/-- `CreditGate::add` on the stream's gate; the counter is a `u64`. -/
def add (c : Credits) (stream n : Nat) : Credits :=
  { c with gates := c.gates.updateAll (c.table.get stream).toList fun g =>
    { g with available := (g.available + n) % 2 ^ 64 } }

/-- `s_cancel`: the gate is taken out and canceled. -/
def cancel (c : Credits) (stream : Nat) : Credits where
  table := c.table.remove stream
  gates := c.gates.updateAll (c.table.get stream).toList fun g => { g with canceled := true }

/-- `credits.drain()`, every gate canceled. -/
def drain (c : Credits) : Credits where
  table := .empty
  gates := c.gates.updateAll (c.table.entries.map Prod.snd) fun g => { g with canceled := true }

/-- `CreditGate::acquire` takes `n`. -/
def take (c : Credits) (gate n : Nat) : Credits :=
  { c with gates := c.gates.update gate fun g => { g with available := g.available - n } }

end Credits

/-- What `acquire` comes to when it looks at the gate: `none` while it waits. -/
def CreditGate.acquire (g : CreditGate) (n : Nat) : Option (Except WireError Unit) :=
  if g.canceled then some (.error .canceled)
  else if n ≤ g.available then some (.ok ())
  else none

/-! ### Handler tasks -/

/-- Where the task goes once `reply_res` is through. -/
def After.pc : After → TaskPc
  | .finish => .finishing
  | .stream gate => .streaming gate 0

/-- `swap(true)` on the task's `replied`. -/
def Task.takeReply (t : Task) (p : Party) : Task :=
  { t with replied := match t.replied with
    | none => some p
    | some q => some q }

/-- The task awaits something, so an abort may stop it. -/
def TaskPc.awaits : TaskPc → Bool
  | .dispatching => true
  | .streaming .. => true
  | .acquiring .. => true
  | _ => false

/-- The task runs the capability's code: `dispatch`, or the stream it returned. -/
def TaskPc.inHandler : TaskPc → Bool
  | .dispatching => true
  | .streaming .. => true
  | _ => false

/-- Where the task goes from `dispatch`. -/
def Outcome.pc : Outcome → Option Nat → TaskPc
  | .response result, _ => .replying result .finish
  | .stream head, some _ => .opening head
  | .stream _, none =>
    .refusing (.invalidParams "streaming tool requires a stream declaration")
  | .error e, _ => .refusing e
  | .panicked, _ => .panicked

namespace Serve

def updateTask (v : Serve) (t : Nat) (f : Task → Task) : Serve :=
  { v with tasks := v.tasks.update t f }

def taskPc (v : Serve) (t : Nat) (pc : TaskPc) : Serve := v.updateTask t ({ · with pc := pc })

def dispatched (v : Serve) (t : Nat) (task : Task) (o : Outcome) : Option (Serve × Emit) :=
  match task.pc with
  | .dispatching =>
    some (v.updateTask t ({ · with outcome := some o, pc := o.pc task.stream }), .none)
  | _ => none

/-- Where the stream loop goes from an item. -/
def itemPc (gate seq : Nat) : Item → TaskPc
  | .bytes b => .acquiring gate seq b
  | .error e => .pushingEnd (some e)
  | .done => .pushingEnd none
  | .panicked => .panicked

def yielded (v : Serve) (t : Nat) (task : Task) (i : Item) : Option (Serve × Emit) :=
  match task.pc with
  | .streaming gate seq =>
    some (v.updateTask t fun task =>
      { task with yielded := task.yielded ++ [i], pc := itemPc gate seq i }, .none)
  | _ => none

/-- What the stream loop sends when it ends. -/
def endEnvelope (stream : Nat) : Option WireError → Envelope
  | some e => .sErr stream e
  | none => .sEnd stream .nil

def taskRun (cfg : Config) (env : Env) (v : Serve) (t : Nat) (task : Task) :
    Option (Serve × Emit) :=
  match task.pc with
  | .opening head =>
    match task.stream with
    | some stream =>
      some ({ v.taskPc t (.replying head (.stream v.credits.gates.size)) with
        credits := v.credits.openGate stream cfg.limits.initialStreamCredit }, .none)
    | none => none
  | .replying result next =>
    if task.replied.isSome then some (v.taskPc t next.pc, .none)
    else
      let pc : TaskPc :=
        if cfg.attachmentsEnabled then .detaching result [] next else .pushingRes result [] next
      some (v.updateTask t ({ ·.takeReply .task with pc := pc }), .none)
  | .detaching result ids next =>
    if ids.length < (blobs INLINE_BLOB_MAX result.value).length then
      some (v.taskPc t (.detaching result (ids ++ [env.streamId]) next), ⟨[], 1⟩)
    else
      let d := detach cfg.digest INLINE_BLOB_MAX result.value ids
      some (v.taskPc t (.registering ⟨d.1⟩ d.2 d.2 next), .none)
  | .registering result (item :: todo) detached next =>
    some ({ v.taskPc t (.registering result todo detached next) with
      credits := v.credits.openGate item.stream cfg.limits.initialStreamCredit }, .none)
  | .registering result [] detached next =>
    some (v.taskPc t (.pushingRes result detached next), .none)
  | .pushingRes result detached next =>
    some (v.updateTask t ({ · with answered := some result, pc := .spawning detached next }),
      .send (cfg.encode (.res task.id result)))
  | .spawning detached next =>
    some ({ v.taskPc t next.pc with
      senders := detached.foldl (fun senders item => senders.alloc ⟨item, .starting⟩) v.senders },
      .none)
  | .refusing e =>
    if task.replied.isSome then some (v.taskPc t .finishing, .none)
    else some (v.updateTask t ({ ·.takeReply .task with pc := .pushingErr e }), .none)
  | .pushingErr e => some (v.taskPc t .finishing, .send (cfg.encode (.err task.id e)))
  | .acquiring gate seq bytes =>
    match (v.credits.gates.get gate).bind (·.acquire bytes.length) with
    | some (.ok _) =>
      some ({ v.taskPc t (.pushingData gate seq bytes) with
        credits := v.credits.take gate bytes.length }, .none)
    | some (.error _) => some (v.taskPc t .closingGate, .none)
    | none => none
  | .pushingData gate seq bytes =>
    match task.stream with
    | some stream =>
      let pc : TaskPc := if env.live then .streaming gate ((seq + 1) % 2 ^ 32) else .closingGate
      some (v.taskPc t pc, .send [.send (.streamData stream seq bytes)])
    | none => none
  | .pushingEnd error =>
    match task.stream with
    | some stream => some (v.taskPc t .closingGate, .send (cfg.encode (endEnvelope stream error)))
    | none => none
  | .closingGate =>
    match task.stream with
    | some stream => some ({ v.taskPc t .finishing with credits := v.credits.close stream }, .none)
    | none => none
  | .finishing => some (v.updateTask t ({ · with done := true, pc := .leaving }), .none)
  | .leaving => some ({ v.taskPc t .ended with inflight := v.inflight.remove task.id }, .none)
  | .dispatching => none
  | .streaming _ _ => none
  | .ended => none
  | .stopped => none
  | .panicked => none

/-- An aborted task stops at an await. -/
def taskStop (v : Serve) (t : Nat) (task : Task) : Option (Serve × Emit) :=
  if task.aborted && task.pc.awaits then some (v.taskPc t .stopped, .none) else none

/-! ### `send_attachment` -/

def senderPc (v : Serve) (k : Nat) (pc : SenderPc) : Serve :=
  { v with senders := v.senders.update k ({ · with pc := pc }) }

def trailer (sha256 : String) : Payload := ⟨.map [(.ofStr "sha256", .ofStr sha256)]⟩

def senderRun (cfg : Config) (env : Env) (v : Serve) (k : Nat) (x : Sender) :
    Option (Serve × Emit) :=
  let chunkSize := max cfg.limits.maxChunk 1
  match x.pc with
  | .starting =>
    match v.credits.table.get x.item.stream with
    | some gate => some (v.senderPc k (.acquiring gate 0 x.item.bytes), .none)
    | none => some (v.senderPc k .ended, .none)
  | .acquiring gate seq rest =>
    if rest.isEmpty then some (v.senderPc k .pushingEnd, .none)
    else match (v.credits.gates.get gate).bind (·.acquire (rest.take chunkSize).length) with
      | some (.ok _) =>
        some ({ v.senderPc k (.pushing gate seq (rest.take chunkSize) (rest.drop chunkSize)) with
          credits := v.credits.take gate (rest.take chunkSize).length }, .none)
      | some (.error _) => some (v.senderPc k .closingGate, .none)
      | none => none
  | .pushing gate seq chunk rest =>
    let pc : SenderPc :=
      if env.live then .acquiring gate ((seq + 1) % 2 ^ 32) rest else .closingGate
    some (v.senderPc k pc, .send [.send (.streamData x.item.stream seq chunk)])
  | .pushingEnd =>
    some (v.senderPc k .closingGate,
      .send (cfg.encode (.sEnd x.item.stream (trailer x.item.sha256))))
  | .closingGate =>
    some ({ v.senderPc k .ended with credits := v.credits.close x.item.stream }, .none)
  | .ended => none

/-! ### `replace` -/

/-- The calls `revoke_inflight` takes out: those on the capability but the caller's own. -/
def victims (v : Serve) (caller : Option Nat) (name : String) : List (Nat × InflightCall) :=
  v.inflight.entries.filter fun e => e.2.capability = name ∧ caller ≠ some e.2.task

/-- The swap of `replace`, which may run inside a handler task; the dropped names are to be revoked
here. -/
def replace (v : Serve) (caller : Option Nat) (capabilities : List Capability) :
    Option (Serve × Emit) :=
  if caller.all fun t => (v.tasks.get t).any fun task => task.pc.inHandler then
    match Served.build capabilities with
    | .ok built =>
      some ({ v with
        served := built
        replaces := v.replaces.alloc ⟨caller, v.served.revokedBy built, .checking⟩ }, .none)
    | .error _ => none
  else none

def replacePc (v : Serve) (r : Nat) (pc : ReplacePc) : Serve :=
  { v with replaces := v.replaces.update r ({ · with pc := pc }) }

/-- The locked section of `revoke_inflight`; `order` is the iteration order of the map. -/
def collect (v : Serve) (r : Nat) (x : Replace) (order : List (Nat × InflightCall)) :
    Option (Serve × Emit) :=
  match x.pc, x.revoked with
  | .revoking, name :: names =>
    if order.isPerm (v.victims x.caller name) then
      some ({ v with
        inflight := v.inflight.retain fun id call => (id, call) ∉ order
        replaces := v.replaces.update r
          ({ · with revoked := names, pc := .failing name order }) }, .none)
    else none
  | _, _ => none

def revokedError (name : String) : WireError :=
  .new .capabilityUnavailable ("capability " ++ name ++ " was revoked")

/-- Where `revoke_inflight` goes from a victim's swap. -/
def revokePc (name : String) (victim : Nat × InflightCall) (rest : List (Nat × InflightCall))
    (task : Task) : ReplacePc :=
  if task.replied.isNone then .answering name victim rest
  else match victim.2.stream with
    | some stream => .pushingErr name stream victim rest
    | none => .aborting name victim rest

/-- What comes next in a `replace` on this connection, up to the announce. -/
def replaceRun (cfg : Config) (closed : Bool) (v : Serve) (r : Nat) (x : Replace) :
    Option (Serve × Emit) :=
  match x.pc with
  | .checking => some (v.replacePc r (if closed then .finished else .revoking), .none)
  | .revoking => if x.revoked.isEmpty then some (v.replacePc r .announcing, .none) else none
  | .failing _ [] => some (v.replacePc r .revoking, .none)
  | .failing name (victim :: rest) =>
    match v.tasks.get victim.2.task with
    | some task =>
      some ((v.replacePc r (revokePc name victim rest task)).updateTask victim.2.task
        (·.takeReply (.replace r)), .none)
    | none => none
  | .answering name victim rest =>
    some (v.replacePc r (.aborting name victim rest),
      .send (cfg.encode (.err victim.1 (revokedError name))))
  | .pushingErr name stream victim rest =>
    some (v.replacePc r (.closingGate name stream victim rest),
      .send (cfg.encode (.sErr stream (revokedError name))))
  | .closingGate name stream victim rest =>
    some ({ v.replacePc r (.aborting name victim rest) with
      credits := v.credits.close stream }, .none)
  | .aborting name victim rest =>
    some ((v.replacePc r (.failing name rest)).updateTask victim.2.task
      ({ · with aborted := true }), .none)
  | .announcing => none
  | .awaiting _ => none
  | .finished => none

end Serve

end Zyris.Core
