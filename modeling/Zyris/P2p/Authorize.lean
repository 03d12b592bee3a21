import Zyris.Lib.Arena
import Zyris.Lib.Run
import Zyris.P2p.Tofu

/-!
# Asking before a key is pinned

`TofuStore::check`, `authorize` and `lookup`.  Each `authorize` looks the peer up without a lock,
waits for its confirmer, and pins.  A `pin_preapproved` is one step here.
-/

namespace Zyris.P2p

namespace Keys

variable (keys : Keys) (path : String) (order : WalkOrder)

def lookup (file : Option LedgerFile) (slug : String) : Except TofuError (Option LedgerEntry) :=
  match keys.read path order file with
  | .error e => .error e
  | .ok ledger => .ok (ledger.get slug)

def check (file : Option LedgerFile) (slug endpointId : String) : Except TofuError Unit :=
  match keys.canonicalEndpointId endpointId with
  | .error e => .error e
  | .ok endpointId =>
    match keys.lookup path order file slug with
    | .error e => .error e
    | .ok none => .ok ()
    | .ok (some entry) =>
      if entry.endpointId = endpointId then .ok ()
      else .error (.changed entry.endpointId endpointId)

/-- `TofuStore::pin_preapproved`, in one step. -/
def pinPreapproved (file : Option LedgerFile) (slug endpointId : String) (nowMs : Nat) :
    Option LedgerFile × Except TofuError Unit :=
  match keys.canonicalEndpointId endpointId with
  | .error e => (file, .error e)
  | .ok endpointId =>
    match keys.read path order file with
    | .error e => (file, .error e)
    | .ok ledger =>
      match Op.plan nowMs ledger (.pin slug endpointId) with
      | .done (.ok _) => (file, .ok ())
      | .done (.error e) => (file, .error e)
      | .write ledger _ => (some (.ledger ledger), .ok ())

/-- `TofuStore::authorize` in one go: its lookup reads `file`, and after `confirm` it reads `later`
in the order `order'`. -/
def authorize (order' : WalkOrder) (confirm : String → String → Bool)
    (file later : Option LedgerFile) (slug endpointId : String) (nowMs : Nat) :
    Option LedgerFile × Except TofuError Unit :=
  match keys.canonicalEndpointId endpointId with
  | .error e => (file, .error e)
  | .ok endpointId =>
    match keys.lookup path order file slug with
    | .error e => (file, .error e)
    | .ok (some entry) =>
      if entry.endpointId = endpointId then (file, .ok ())
      else (file, .error (.changed entry.endpointId endpointId))
    | .ok none =>
      match keys.fingerprint endpointId with
      | .error e => (file, .error e)
      | .ok fingerprint =>
        if confirm slug fingerprint then keys.pinPreapproved path order' later slug endpointId nowMs
        else (later, .error (.refused slug fingerprint))

/-- `TofuStore::forget`, in one step. -/
def forget (file : Option LedgerFile) (slug : String) :
    Option LedgerFile × Except TofuError Bool :=
  match keys.read path order file with
  | .error e => (file, .error e)
  | .ok ledger =>
    match ledger.get slug with
    | none => (file, .ok false)
    | some _ => (some (.ledger (ledger.remove slug)), .ok true)

end Keys

/-- Where an `authorize` stands; the key is canonical. -/
inductive AuthorizePc
  | looking (endpointId : String)
  -- awaiting `confirm`
  | confirming (endpointId fingerprint : String)
  | pinning (endpointId : String)
  | returned (result : Except TofuError Unit)

def AuthorizePc.isConfirming : AuthorizePc → Bool
  | .confirming _ _ => true
  | _ => false

/-- An `authorize`, with the key as it was offered. -/
structure AuthorizeCall where
  slug : String
  endpointId : String
  pc : AuthorizePc

/-- The file, the calls, and which keys were confirmed or given to `pin_preapproved` under which
name. -/
structure Tofu where
  file : Option LedgerFile
  calls : Arena AuthorizeCall
  approvals : List (String × String)

/-- A step of a call, or of somebody else. -/
inductive TofuAct
  -- `authorize` is called
  | authorize (slug endpointId : String)
  | lookup (i : Nat) (order : WalkOrder)
  -- `confirm` returns
  | answer (i : Nat) (accepted : Bool)
  | pin (i nowMs : Nat) (order : WalkOrder)
  -- the file cannot be read, locked or written
  | fail (i : Nat) (message : String)
  -- `pin_preapproved` is called by somebody else
  | pinPreapproved (slug endpointId : String) (nowMs : Nat) (order : WalkOrder)

namespace Tofu

variable (keys : Keys) (path : String)

/-- `authorize` up to its `lookup`. -/
def enter (endpointId : String) : AuthorizePc :=
  match keys.canonicalEndpointId endpointId with
  | .error e => .returned (.error e)
  | .ok endpointId => .looking endpointId

def lookedUp (endpointId : String) : Except TofuError (Option LedgerEntry) → AuthorizePc
  | .error e => .returned (.error e)
  | .ok (some entry) =>
    if entry.endpointId = endpointId then .returned (.ok ())
    else .returned (.error (.changed entry.endpointId endpointId))
  | .ok none =>
    match keys.fingerprint endpointId with
    | .error e => .returned (.error e)
    | .ok fingerprint => .confirming endpointId fingerprint

def goto (s : Tofu) (i : Nat) (pc : AuthorizePc) : Tofu :=
  { s with calls := s.calls.update i fun c => { c with pc := pc } }

def step (s : Tofu) : TofuAct → Option Tofu
  | .authorize slug endpointId =>
    some { s with calls := s.calls.alloc ⟨slug, endpointId, enter keys endpointId⟩ }
  | .lookup i order => do
    let c ← s.calls.get i
    match c.pc with
    | .looking endpointId =>
      some (s.goto i (lookedUp keys endpointId (keys.lookup path order s.file c.slug)))
    | _ => none
  | .answer i accepted => do
    let c ← s.calls.get i
    match c.pc with
    | .confirming endpointId fingerprint =>
      if accepted then
        some { s.goto i (.pinning endpointId) with
          approvals := s.approvals ++ [(c.slug, endpointId)] }
      else some (s.goto i (.returned (.error (.refused c.slug fingerprint))))
    | _ => none
  | .pin i nowMs order => do
    let c ← s.calls.get i
    match c.pc with
    | .pinning endpointId =>
      let (file, result) := keys.pinPreapproved path order s.file c.slug endpointId nowMs
      some { s.goto i (.returned result) with file := file }
    | _ => none
  | .fail i message => do
    let c ← s.calls.get i
    match c.pc with
    | .looking _ => some (s.goto i (.returned (.error (.io message))))
    | .pinning _ => some (s.goto i (.returned (.error (.io message))))
    | _ => none
  | .pinPreapproved slug endpointId nowMs order =>
    let (file, _) := keys.pinPreapproved path order s.file slug endpointId nowMs
    match keys.canonicalEndpointId endpointId with
    | .ok endpointId =>
      some { s with file := file, approvals := s.approvals ++ [(slug, endpointId)] }
    | .error _ => some s

end Tofu

end Zyris.P2p
