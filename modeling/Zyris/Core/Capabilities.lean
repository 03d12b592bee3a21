import Zyris.Lib.Run
import Zyris.Lib.Table
import Zyris.Lib.Arena
import Zyris.Proto.Capability
import Zyris.Proto.Error

/-!
# What a node offers

`crates/zyris-core/src/capabilities.rs`.  `add_arc` and `remove` copy the served list under the read
lock, build the new set without a lock and put it in place under the write lock.  Each of these is a
step here.  What a swap sets off on the live connections does not touch the set.
-/

namespace Zyris.Core

open Proto

/-- `Arc<dyn ServeCapability>`: an object and the descriptor it gives. -/
structure Capability where
  object : Nat
  descriptor : CapabilityDescriptor
  deriving DecidableEq

/-- A capability of version 1 with no tools. -/
def Capability.bare (object : Nat) (name : String) : Capability := ⟨object, ⟨name, 1, []⟩⟩

/-- The served set, its descriptors and the table it is looked up in. -/
structure Served where
  capabilities : List Capability
  descriptors : List CapabilityDescriptor
  byName : Table String Capability

def Served.default : Served := ⟨[], [], .empty⟩

/-- The loop of `Served::build`, over the capabilities left. -/
def Served.buildLoop : List Capability → List CapabilityDescriptor → Table String Capability →
    Except WireError (List CapabilityDescriptor × Table String Capability)
  | [], descriptors, byName => .ok (descriptors, byName)
  | capability :: rest, descriptors, byName =>
    let d := capability.descriptor
    if descriptors.any fun seen => seen.name = d.name ∧ seen.version = d.version then
      .error (.invalidParams ("duplicate capability " ++ d.name ++ " v" ++ toString d.version))
    else buildLoop rest (descriptors ++ [d]) (byName.insert d.name capability)

def Served.build (capabilities : List Capability) : Except WireError Served :=
  match Served.buildLoop capabilities [] .empty with
  | .ok (descriptors, byName) => .ok ⟨capabilities, descriptors, byName⟩
  | .error e => .error e

def Served.one (c : Capability) : Served :=
  ⟨[c], [c.descriptor], Table.empty.insert c.descriptor.name c⟩

/-- The names `replace` has to revoke: those the new set no longer has. -/
def Served.revokedBy (old new : Served) : List String :=
  (old.byName.entries.map Prod.fst).filter fun name => (new.byName.get name).isNone

def Served.keys (s : Served) : List (String × Nat) := s.descriptors.map fun d => (d.name, d.version)

/-! ### Changing the set -/

/-- A call of `Capabilities::add` or `Capabilities::remove`. -/
inductive Change
  | add (capability : Capability)
  | remove (name : String)
  deriving DecidableEq

/-- The list the call wants served, from what it copies under the read lock; `remove` of an unknown
name copies nothing. -/
def Change.copy : Change → Served → Option (List Capability)
  | .add capability, served => some (served.capabilities ++ [capability])
  | .remove name, served =>
    if (served.byName.get name).isNone then none
    else some (((served.capabilities.zip served.descriptors).filter fun p =>
      p.2.name ≠ name).map Prod.fst)

/-- What the call returns when `replace` failed: `remove` only says that it did. -/
def Change.refused : Change → WireError → Except WireError Bool
  | .add _, e => .error e
  | .remove _, _ => .ok false

/-- Where a call that changes the set stands. -/
inductive ChangePc
  | started
  -- the list was copied, the lock given back
  | copied (next : List Capability)
  -- `Served::build` succeeded
  | built (served : Served)
  -- the set was swapped; the connections are being told
  | propagating (revoked : List String)
  -- `Ok(())` is `ok true`
  | returned (result : Except WireError Bool)

/-- A call that changes the set. -/
structure Changing where
  change : Change
  pc : ChangePc

/-- `CapabilitySet`, with the calls that work on it. -/
structure CapabilitySet where
  served : Served
  calls : Arena Changing

def CapabilitySet.start (served : Served) : CapabilitySet := ⟨served, .empty⟩

/-- A call starts or goes on. -/
inductive ChangeAct
  | call (change : Change)
  | run (i : Nat)

/-- Move the call with handle `i` on. -/
def CapabilitySet.move (s : CapabilitySet) (i : Nat) (pc : ChangePc) : CapabilitySet :=
  { s with calls := s.calls.update i fun c => { c with pc := pc } }

/-- One step: a call starts, or does what comes next in it. -/
def CapabilitySet.step (s : CapabilitySet) : ChangeAct → Option CapabilitySet
  | .call change => some { s with calls := s.calls.alloc ⟨change, .started⟩ }
  | .run i => do
    let c ← s.calls.get i
    match c.pc with
    | .started =>
      match c.change.copy s.served with
      | some next => return s.move i (.copied next)
      | none => return s.move i (.returned (.ok false))
    | .copied next =>
      match Served.build next with
      | .ok built => return s.move i (.built built)
      | .error e => return s.move i (.returned (c.change.refused e))
    | .built built =>
      return { s.move i (.propagating (s.served.revokedBy built)) with served := built }
    | .propagating _ => return s.move i (.returned (.ok true))
    | .returned _ => none

/-! ### Whole calls, one after another -/

/-- A call of `CapabilitySet::push` or of `Capabilities`. -/
inductive SetCall
  | push (capability : Capability)
  | addArc (capability : Capability)
  | remove (name : String)
  | replace (capabilities : List Capability)

/-- How a call ends: what is served, what it returns (`Ok(())` is `ok true`) and the names it gave
to `propagate`. -/
structure Called where
  served : Served
  result : Except WireError Bool
  propagated : Option (List String)

def Served.replace (s : Served) (capabilities : List Capability) : Called :=
  match Served.build capabilities with
  | .ok built => ⟨built, .ok true, some (s.revokedBy built)⟩
  | .error e => ⟨s, .error e, none⟩

/-- `CapabilitySet::push`: nothing is connected yet, so nothing is propagated. -/
def Served.push (s : Served) (capability : Capability) : Called :=
  match Served.build (s.capabilities ++ [capability]) with
  | .ok built => ⟨built, .ok true, none⟩
  | .error e => ⟨s, .error e, none⟩

def Served.remove (s : Served) (name : String) : Called :=
  match (Change.remove name).copy s with
  | none => ⟨s, .ok false, none⟩
  | some next => { s.replace next with result := .ok (s.replace next).result.isOk }

/-- A call with nobody else around. -/
def Served.call (s : Served) : SetCall → Called
  | .push capability => s.push capability
  | .addArc capability => s.replace (s.capabilities ++ [capability])
  | .remove name => s.remove name
  | .replace capabilities => s.replace capabilities

/-- What is served after these calls. -/
def Served.calls (s : Served) (cs : List SetCall) : Served :=
  cs.foldl (fun s c => (s.call c).served) s

/-- What `propagate` does on the connections. -/
inductive Told
  | revoke (connection : Nat) (name : String)
  | announce (connection : Nat)

/-- What a call does on the connections that are live and not closed. -/
def Called.tells (c : Called) (live : List Nat) : List Told :=
  match c.propagated with
  | none => []
  | some revoked =>
    live.flatMap fun connection => revoked.map (.revoke connection) ++ [.announce connection]

end Zyris.Core
