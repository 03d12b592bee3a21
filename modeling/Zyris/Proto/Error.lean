import Zyris.Proto.Payload

/-!
# Wire errors

`crates/zyris-proto/src/error.rs`.
-/

namespace Zyris.Proto

/-- `ErrorCode`: the registered codes, and whatever else a capability defines. -/
inductive ErrorCode
  | parseError
  | unsupportedVersion
  | unauthorized
  | forbiddenScope
  | methodNotFound
  | invalidParams
  | capabilityNotAnnounced
  | capabilityRejected
  | capabilityUnavailable
  | nodeOffline
  | connectionLost
  | streamLagged
  | creditViolation
  | payloadTooLarge
  | overloaded
  | canceled
  | timeout
  | unsupported
  | internal
  | other (code : String)
  deriving DecidableEq, Repr

def ErrorCode.defaultRetriable : ErrorCode → Bool
  | .nodeOffline | .connectionLost | .streamLagged | .overloaded | .timeout => true
  | _ => false

/-- The registered codes with serde's string for each (`rename_all = "snake_case"`). -/
def ErrorCode.registered : List (ErrorCode × String) :=
  [(.parseError, "parse_error"), (.unsupportedVersion, "unsupported_version"),
    (.unauthorized, "unauthorized"), (.forbiddenScope, "forbidden_scope"),
    (.methodNotFound, "method_not_found"), (.invalidParams, "invalid_params"),
    (.capabilityNotAnnounced, "capability_not_announced"),
    (.capabilityRejected, "capability_rejected"),
    (.capabilityUnavailable, "capability_unavailable"), (.nodeOffline, "node_offline"),
    (.connectionLost, "connection_lost"), (.streamLagged, "stream_lagged"),
    (.creditViolation, "credit_violation"), (.payloadTooLarge, "payload_too_large"),
    (.overloaded, "overloaded"), (.canceled, "canceled"), (.timeout, "timeout"),
    (.unsupported, "unsupported"), (.internal, "internal")]

/-- The string a code travels as: its name, or the text of an untagged `Other`. -/
def ErrorCode.wire (code : ErrorCode) : String :=
  match code with
  | .other s => s
  | code => (registered.lookup code).getD ""

/-- How that string is read: a registered name is its code, whatever else is `Other`. -/
def ErrorCode.ofWire (s : String) : ErrorCode :=
  match registered.find? fun e => e.2 = s with
  | some e => e.1
  | none => .other s

structure WireError where
  code : ErrorCode
  message : String
  retriable : Bool
  data : Option Payload

namespace WireError

def new (code : ErrorCode) (message : String) : WireError where
  code := code
  message := message
  retriable := code.defaultRetriable
  data := none

def methodNotFound (method : String) : WireError :=
  new .methodNotFound ("unknown method " ++ method)

def invalidParams (detail : String) : WireError := new .invalidParams detail

def canceled : WireError := new .canceled "request canceled"

def connectionLost : WireError := new .connectionLost "connection lost"

def internal (detail : String) : WireError := new .internal detail

def withData (e : WireError) (data : Payload) : WireError := { e with data := some data }

end WireError

end Zyris.Proto
