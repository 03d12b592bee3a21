import Zyris.Lib.Table

/-!
# The ledger of pinned keys

`crates/zyris-p2p/src/tofu.rs`: what the calls compute on a ledger once they have read it.  Parsing,
rendering and hashing of keys is code outside the model, and so is the JSON of the file: a file is
its ledger, or something `serde_json` refuses.  Each read makes a new `HashMap` of it, which is
walked in an order of its own.
-/

namespace Zyris.P2p

/-- `char::escape_debug`, as `{:?}` has it; what is unprintable beyond ASCII is left as it is. -/
def escapeDebug (c : Char) : List Char :=
  if c = '\x00' then ['\\', '0']
  else if c = '\t' then ['\\', 't']
  else if c = '\r' then ['\\', 'r']
  else if c = '\n' then ['\\', 'n']
  else if c = '\x22' || c = '\\' then ['\\', c]
  else if c.toNat < 32 || c.toNat = 127 then
    ['\\', 'u', '\x7b'] ++ Nat.toDigits 16 c.toNat ++ ['\x7d']
  else [c]

/-- `{:?}` of a `String`. -/
def debug (s : String) : String :=
  String.ofList ('\x22' :: s.toList.flatMap escapeDebug ++ ['\x22'])

structure InvalidEndpointId where
  endpointId : String
  reason : String
  deriving DecidableEq

def InvalidEndpointId.display (e : InvalidEndpointId) : String :=
  debug e.endpointId ++ " is not a valid endpoint id: " ++ e.reason

inductive TofuError
  | changed (pinned offered : String)
  | malformed (path reason : String)
  | io (message : String)
  | refused (label fingerprint : String)
  | invalidEndpointId (e : InvalidEndpointId)
  deriving DecidableEq

/-- `iroh::EndpointId`: `FromStr`, `Display`, and the rendering of `fingerprint`. -/
structure Keys where
  Key : Type
  fromStr : String → Except String Key
  display : Key → String
  render : Key → String
  fromStr_display : ∀ k, fromStr (display k) = .ok k

/-- `Entry`. -/
structure LedgerEntry where
  endpointId : String
  firstSeenMs : Nat
  deriving DecidableEq

abbrev Ledger := Table String LedgerEntry

/-- The order a `HashMap` is walked in; its seed is drawn when the map is made. -/
structure WalkOrder where
  walk : List (String × LedgerEntry) → List (String × LedgerEntry)
  perm : ∀ es, (walk es).Perm es

/-- The entries as they stand in the file. -/
def WalkOrder.stored : WalkOrder := ⟨id, fun _ => .refl _⟩

/-- What the file at the ledger's path holds. -/
inductive LedgerFile
  | ledger (peers : Ledger)
  | malformed (reason : String)

namespace Keys

variable (keys : Keys)

def parse (endpointId : String) : Except InvalidEndpointId keys.Key :=
  match keys.fromStr endpointId with
  | .ok key => .ok key
  | .error reason => .error ⟨endpointId, reason⟩

def canonicalEndpointId (endpointId : String) : Except TofuError String :=
  match keys.parse endpointId with
  | .ok key => .ok (keys.display key)
  | .error e => .error (.invalidEndpointId e)

def fingerprint (endpointId : String) : Except TofuError String :=
  match keys.parse endpointId with
  | .ok key => .ok (keys.render key)
  | .error e => .error (.invalidEndpointId e)

/-- The entry's key in its canonical form. -/
def canonicalEntry (entry : LedgerEntry) : LedgerEntry :=
  match keys.parse entry.endpointId with
  | .ok key => { entry with endpointId := keys.display key }
  | .error _ => entry

/-- The slug and the error of an entry whose key does not parse. -/
def badEntry (e : String × LedgerEntry) : Option (String × InvalidEndpointId) :=
  match keys.parse e.2.endpointId with
  | .ok _ => none
  | .error err => some (e.1, err)

/-- `canonicalize_ledger_entries`, which stops at the first bad entry on its way. -/
def canonicalizeLedgerEntries (path : String) (order : WalkOrder) (ledger : Ledger) :
    Except TofuError Ledger :=
  match (order.walk ledger.entries).findSome? keys.badEntry with
  | some (slug, err) =>
    .error (.malformed path ("entry " ++ debug slug ++ ": " ++ err.display))
  | none => .ok (ledger.map keys.canonicalEntry)

/-- `TofuStore::read`, when the file can be read or is not there. -/
def read (path : String) (order : WalkOrder) : Option LedgerFile → Except TofuError Ledger
  | none => .ok .empty
  | some (.malformed reason) => .error (.malformed path reason)
  | some (.ledger peers) => keys.canonicalizeLedgerEntries path order peers

end Keys

/-! ### What the calls do with a ledger -/

/-- A call that may replace the ledger, its key canonical. -/
inductive Op
  -- `pin_preapproved`
  | pin (slug endpointId : String)
  | forget (slug : String)
  deriving DecidableEq

inductive Outcome
  | pinned
  | forgot (removed : Bool)
  deriving DecidableEq

/-- What a call goes on to do once it has read the ledger. -/
inductive Plan
  | done (result : Except TofuError Outcome)
  | write (ledger : Ledger) (outcome : Outcome)

/-- The bodies of `pin_preapproved` and `forget` after `read`. -/
def Op.plan (nowMs : Nat) (ledger : Ledger) : Op → Plan
  | .pin slug endpointId =>
    match ledger.get slug with
    | some entry =>
      if entry.endpointId = endpointId then .done (.ok .pinned)
      else .done (.error (.changed entry.endpointId endpointId))
    | none => .write (ledger.insert slug ⟨endpointId, nowMs⟩) .pinned
  | .forget slug =>
    match ledger.get slug with
    | none => .done (.ok (.forgot false))
    | some _ => .write (ledger.remove slug) (.forgot true)

end Zyris.P2p
