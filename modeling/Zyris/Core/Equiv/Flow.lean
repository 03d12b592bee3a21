import Zyris.Core.Duplex

/-!
# What a sequence of frames says about a stream

The requests that declare the stream, the chunks and the terminator sent on it (`flow`) and the
credit granted for it.  Each reads a longer sequence as the sum of its parts.
-/

/-! ### One frame -/

namespace Zyris.Proto.Frame

open Zyris.Core

/-- How often the frame is a request that declares the stream. -/
def declares (x : Nat) : Frame → Nat
  | .control (.req _ _ _ stream _) => if stream = some x then 1 else 0
  | _ => 0

def references : Frame → List AttachmentRef
  | .control (.res _ result) => refs result.value
  | _ => []

/-- A chunk of the stream with its number, or its terminator. -/
def part (x : Nat) : Frame → Option (Nat × StreamEvent)
  | .streamData stream seq bytes => if stream = x then some (seq, .data bytes) else none
  | .control (.sEnd stream _) => if stream = x then some (0, .done) else none
  | .control (.sErr stream error) => if stream = x then some (0, .failed error) else none
  | _ => none

/-- The credit the frame grants for the stream. -/
def credit (x : Nat) : Frame → Nat
  | .control (.sCredit stream bytes) => if stream = x then bytes else 0
  | _ => 0

end Zyris.Proto.Frame

namespace Zyris.Core

open Proto

/-! ### A sequence of frames -/

/-- The requests that declare the stream. -/
def declared (x : Nat) (fs : List Frame) : Nat := (fs.map (·.declares x)).sum

/-- What was sent on the stream. -/
def flow (x : Nat) (fs : List Frame) : List (Nat × StreamEvent) := fs.filterMap (·.part x)

def credited (x : Nat) (fs : List Frame) : Nat := (fs.map (·.credit x)).sum

section Append

variable (x : Nat) (fs gs : List Frame)

@[simp] theorem declared_append : declared x (fs ++ gs) = declared x fs + declared x gs := by
  simp [declared]

@[simp] theorem flow_append : flow x (fs ++ gs) = flow x fs ++ flow x gs := by simp [flow]

@[simp] theorem credited_append : credited x (fs ++ gs) = credited x fs + credited x gs := by
  simp [credited]

@[simp] theorem flow_nil : flow x [] = [] := rfl

@[simp] theorem credited_nil : credited x [] = 0 := rfl

theorem flow_singleton (f : Frame) : flow x [f] = (f.part x).toList := by
  cases h : f.part x <;> simp [flow, h]

theorem declared_singleton (f : Frame) : declared x [f] = f.declares x := by simp [declared]

theorem credited_singleton (f : Frame) : credited x [f] = f.credit x := by simp [credited]

end Append

end Zyris.Core
