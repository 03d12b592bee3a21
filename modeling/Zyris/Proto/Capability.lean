import Zyris.Proto.Value

/-!
# Capability descriptors

`crates/zyris-proto/src/capability.rs`.
-/

namespace Zyris.Proto

/-- `ToolDescriptor`; the rest passes through the connection unread. -/
structure ToolDescriptor where
  name : String
  deriving DecidableEq, Repr

/-- `CapabilityDescriptor`; the version is a `u32`. -/
structure CapabilityDescriptor where
  name : String
  version : Nat
  tools : List ToolDescriptor
  deriving DecidableEq, Repr

structure RejectedCapability where
  name : String
  reason : String
  deriving DecidableEq, Repr

structure AnnounceResult where
  accepted : List String
  rejected : List RejectedCapability
  deriving DecidableEq, Repr

/-- `Payload::from_typed` of an announce result; `rejected` is left out when empty. -/
def AnnounceResult.value (r : AnnounceResult) : Value :=
  let rejected := r.rejected.map fun c =>
    Value.map [(.ofStr "name", .ofStr c.name), (.ofStr "reason", .ofStr c.reason)]
  .map ((.ofStr "accepted", .array (r.accepted.map .ofStr)) ::
    if r.rejected.isEmpty then [] else [(.ofStr "rejected", .array rejected)])

end Zyris.Proto
