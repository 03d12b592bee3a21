import Zyris.Core.Connection.Serve

/-!
# A credit gate and the task that waits at it

`CreditGate` of `crates/zyris-core/src/connection.rs`, one critical section and one notification at
a time; in the model of a whole connection a task at `acquire` simply waits.

`Notify::notify_waiters` is a counter: a `Notified` is ready once it has changed since the future
was created.  `available += n` on a `u64` wraps, or panics in a build that checks for overflow
(`checks`); a panic under the lock poisons it.
-/

namespace Zyris.Core

open Proto

/-- `state.available += n`; `none` is a panic. -/
def CreditGate.add (checks : Bool) (g : CreditGate) (n : Nat) : Option CreditGate :=
  if checks ∧ 2 ^ 64 ≤ g.available + n then none
  else some { g with available := (g.available + n) % 2 ^ 64 }

/-- Where the acquiring task stands. -/
inductive AcquirePc
  | idle
  -- before `notify.notified()`
  | creating (n : Nat)
  -- the future was created when the waiters had been notified `seen` times
  | checking (n seen : Nat)
  -- in `notified.await`
  | awaiting (n seen : Nat)
  | returned (result : Except WireError Unit)
  | panicked

/-- A gate, its `Notify`, and those who work on it. -/
structure GateState where
  gate : CreditGate
  poisoned : Bool
  -- how often `notify_waiters` was called
  notified : Nat
  -- how many calls of `add` and `cancel` have changed the gate and not yet notified
  partWay : Nat
  pc : AcquirePc

/-- A step of a call on the gate. -/
inductive GateAct
  -- `acquire(n)` is called
  | acquire (n : Nat)
  | create
  | check
  -- the future is ready, and the loop goes round
  | wake
  -- the locked part of `add(n)`
  | add (n : Nat)
  -- the locked part of `cancel`
  | cancel
  | notify

namespace GateState

def new (initial : Nat) : GateState := ⟨⟨initial, false⟩, false, 0, 0, .idle⟩

/-- The locked part of `acquire`. -/
def look (s : GateState) (n seen : Nat) : GateState :=
  if s.poisoned then { s with pc := .panicked }
  else match s.gate.acquire n with
    | some (.ok _) =>
      { s with
        gate := { s.gate with available := s.gate.available - n }
        pc := .returned (.ok ()) }
    | some (.error e) => { s with pc := .returned (.error e) }
    | none => { s with pc := .awaiting n seen }

/-- A call of `add` or `cancel` that finds the lock poisoned ends there. -/
def change (s : GateState) (gate : Option CreditGate) : GateState :=
  if s.poisoned then s
  else match gate with
    | some g => { s with gate := g, partWay := s.partWay + 1 }
    | none => { s with poisoned := true }

def step (checks : Bool) (s : GateState) : GateAct → Option GateState
  | .acquire n =>
    match s.pc with
    | .idle => some { s with pc := .creating n }
    | .returned _ => some { s with pc := .creating n }
    | _ => none
  | .create =>
    match s.pc with
    | .creating n => some { s with pc := .checking n s.notified }
    | _ => none
  | .check =>
    match s.pc with
    | .checking n seen => some (s.look n seen)
    | _ => none
  | .wake =>
    match s.pc with
    | .awaiting n seen => if seen < s.notified then some { s with pc := .creating n } else none
    | _ => none
  | .add n => some (s.change (s.gate.add checks n))
  | .cancel => some (s.change (some { s.gate with canceled := true }))
  | .notify =>
    if 0 < s.partWay then
      some { s with notified := s.notified + 1, partWay := s.partWay - 1 }
    else none

/-- The task waits for `n` bytes, and no notification has come since its future was created. -/
def isParked (s : GateState) (n : Nat) : Prop := s.pc = .awaiting n s.notified

end GateState

def granted (as : List GateAct) : Nat :=
  (as.map fun a => match a with
    | .add n => n
    | _ => 0).sum

end Zyris.Core
