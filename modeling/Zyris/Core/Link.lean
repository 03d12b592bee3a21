import Zyris.Lib.Run

/-!
# The link and its reconnect loop

`crates/zyris-core/src/node.rs`: the task that keeps a connection up (`Maintain`, one constructor
for each point where it can rest) and the calls that watch it end.  The two watch channels follow
tokio: `send` with no live receiver fails and leaves the stored value as it was.  What the
environment decides is in the labels of `step`.
-/

namespace Zyris.Core

/-! ### Endings -/

inductive TransportError
  | closed
  | io (message : String)
  deriving DecidableEq, Repr

/-- `ConnectError`: why a dial did not produce a connection. -/
inductive ConnectError
  | revoked
  | unauthorized
  | versionMismatch (ours : String) (theirs : Option String)
  | unreachable (inner : TransportError)
  | noTlsProvider
  deriving DecidableEq, Repr

/-- `Ending`: why a link stopped, in a form that can be handed out more than once. -/
inductive Ending
  | asked
  | revoked
  | unauthorized
  | version (ours : String) (theirs : Option String)
  | unreachable (inner : TransportError)
  | noTlsProvider
  deriving DecidableEq, Repr

def Ending.of : ConnectError → Ending
  | .revoked => .revoked
  | .unauthorized => .unauthorized
  | .versionMismatch ours theirs => .version ours theirs
  | .unreachable inner => .unreachable inner
  | .noTlsProvider => .noTlsProvider

/-- `Ending::into_result`: `none` for `Ok(())`. -/
def Ending.intoResult : Ending → Option ConnectError
  | .asked => none
  | .revoked => some .revoked
  | .unauthorized => some .unauthorized
  | .version ours theirs => some (.versionMismatch ours theirs)
  | .unreachable inner => some (.unreachable inner)
  | .noTlsProvider => some .noTlsProvider

/-- `is_fatal`: retrying changes none of these. -/
def isFatal : ConnectError → Bool
  | .revoked | .unauthorized | .versionMismatch _ _ | .noTlsProvider => true
  | .unreachable _ => false

/-! ### The maintaining task -/

/-- Durations in seconds. -/
def STABLE_AFTER : Nat := 30
def BACKOFF_MIN : Nat := 1
def BACKOFF_MAX : Nat := 30

/-- Where `maintain` rests. -/
inductive Maintain
  -- In `wait_then_widen`: after a failed dial or a dropped connection.
  | waiting
  -- At the head of the loop; `held` is the eager connection, until it is taken.
  | top (held : Bool)
  -- In `redial().await`.
  | dialing
  -- In the select on `conn.closed()` and `stop.changed()`.
  | up
  -- The closing frame is out and `CLOSE_GRACE` runs.
  | closing
  -- About to run `done.send(Some(e))`.
  | sending (e : Ending)
  -- Returned, its last act the send of `e`.
  | returned (e : Ending)
  deriving DecidableEq, Repr

/-- Where a `wait_closed` or `disconnect` call stands. -/
inductive LinkCallPc
  -- About to subscribe to `done`.
  | begun
  -- At the head of its loop, with the version its receiver has seen.
  | looping (seen : Nat)
  -- In `settled.changed().await`.
  | parked (seen : Nat)
  -- Returned; `none` for `Ok(())`.
  | returned (r : Option ConnectError)
  -- Its future was dropped.
  | dropped
  deriving DecidableEq, Repr

/-- A call on the link; `disconnect` has nothing to report. -/
structure LinkCall where
  disconnects : Bool
  pc : LinkCallPc
  deriving DecidableEq, Repr

/-- A link, its maintaining task and the calls made on it. -/
structure Link where
  maintain : Maintain
  backoff : Nat
  -- The value of the `stop` channel.
  stop : Bool
  -- A change of `stop` the task's receiver has not seen, or its sender is gone.
  stopChanged : Bool
  -- The value and the version of the `done` channel.
  done : Option Ending
  version : Nat
  calls : List LinkCall
  deriving DecidableEq, Repr

/-- A call holds a live receiver of `done`. -/
def LinkCall.subscribed (c : LinkCall) : Bool :=
  match c.pc with
  | .looping _ | .parked _ => true
  | _ => false

/-- The live receivers of `done`; `start` keeps none of its own. -/
def Link.receivers (l : Link) : Nat := l.calls.countP LinkCall.subscribed

/-- `Link::start`, once the eager dial has settled without a fatal refusal. -/
def Link.start (first : Bool) : Link where
  maintain := if first then .top true else .waiting
  backoff := BACKOFF_MIN
  stop := false
  stopChanged := false
  done := none
  version := 0
  calls := []

/-- `done.send(Some(e))`: without a receiver the value stays as it is. -/
def Link.sendDone (l : Link) (e : Ending) : Link :=
  if l.receivers = 0 then l else { l with done := some e, version := l.version + 1 }

/-- `stop.send(true)`: the task holds the only receiver, until it returns. -/
def Link.sendStop (l : Link) : Link :=
  match l.maintain with
  | .returned _ => l
  | _ => { l with stop := true, stopChanged := true }

/-- What a call hands back for an ending. -/
def LinkCall.result (c : LinkCall) (e : Ending) : Option ConnectError :=
  if c.disconnects then none else e.intoResult

/-- One step of a call against the `done` channel; `none` while it has to wait. -/
def LinkCall.step (done : Option Ending) (version : Nat) (c : LinkCall) : Option LinkCall :=
  match c.pc with
  | .begun => some { c with pc := .looping version }
  | .looping seen =>
    match done with
    | some e => some { c with pc := .returned (c.result e) }
    | none => some { c with pc := .parked seen }
  | .parked seen => if seen = version then none else some { c with pc := .looping version }
  | .returned _ => none
  | .dropped => none

/-- A step of the task or of a caller. -/
inductive LinkAct
  -- The sleep of `wait_then_widen` is over.
  | timer
  -- `stop.changed()` wins a select.
  | stopped
  -- The loop head looks at `stop` and takes the held connection or dials.
  | check
  -- `redial()` settles; `none` for a connection.
  | dialed (error : Option ConnectError)
  -- The connection closed after a lifetime in seconds.
  | closed (lifetime : Nat)
  -- `CLOSE_GRACE` is over.
  | graced
  -- `done.send(Some(e))`, and the task returns.
  | send
  | waitClosed
  | disconnect
  -- The call with this index takes its next step.
  | call (i : Nat)
  -- The future of this call is dropped.
  | dropCall (i : Nat)
  -- The `Link` is dropped, and the sender of `stop` with it.
  | dropLink
  deriving DecidableEq, Repr

/-- `wait_then_widen` returned: `(backoff * 2).min(BACKOFF_MAX)`. -/
def Link.widen (l : Link) : Link := { l with backoff := min (l.backoff * 2) BACKOFF_MAX }

/-- One step of the link; `none` when the label is not enabled. -/
def Link.step (l : Link) : LinkAct → Option Link
  | .timer =>
    match l.maintain with
    | .waiting => some { l.widen with maintain := .top false }
    | _ => none
  | .stopped =>
    if l.stopChanged then
      match l.maintain with
      | .waiting => some { l.widen with maintain := .sending .asked, stopChanged := false }
      | .up => some { l with maintain := .closing, stopChanged := false }
      | _ => none
    else none
  | .check =>
    match l.maintain with
    | .top held =>
      if l.stop then some { l with maintain := .sending .asked }
      else some { l with maintain := if held then .up else .dialing }
    | _ => none
  | .dialed error =>
    match l.maintain, error with
    | .dialing, none => some { l with maintain := .up }
    | .dialing, some error =>
      if isFatal error then some { l with maintain := .sending (.of error) }
      else some { l with maintain := .waiting }
    | _, _ => none
  | .closed lifetime =>
    match l.maintain with
    | .up => some { l with
        maintain := .waiting
        backoff := if STABLE_AFTER ≤ lifetime then BACKOFF_MIN else l.backoff }
    | _ => none
  | .graced =>
    match l.maintain with
    | .closing => some { l with maintain := .sending .asked }
    | _ => none
  | .send =>
    match l.maintain with
    | .sending e => some { l.sendDone e with maintain := .returned e }
    | _ => none
  | .waitClosed => some { l with calls := l.calls ++ [⟨false, .begun⟩] }
  | .disconnect => some { l.sendStop with calls := l.calls ++ [⟨true, .begun⟩] }
  | .call i => do
    let c ← l.calls[i]?
    let c' ← c.step l.done l.version
    return { l with calls := l.calls.set i c' }
  | .dropCall i => do
    let c ← l.calls[i]?
    match c.pc with
    | .returned _ => none
    | _ => return { l with calls := l.calls.set i { c with pc := .dropped } }
  | .dropLink => some { l with stopChanged := true }

end Zyris.Core
