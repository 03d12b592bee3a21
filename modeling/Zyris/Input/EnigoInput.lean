import Zyris.Input.Chord

/-!
# Pressing a chord

`EnigoInput::key` of `crates/zyris-capkit/src/input/enigo_input.rs`.  What the display server says
to a call may depend on all the calls before it.  The closure holds a lock and runs to its end when
the caller drops the future.
-/

namespace Zyris.Input

open Proto

inductive Direction
  | press
  | release
  | click
  deriving DecidableEq

/-- A call of `Enigo::key`, with the text of the error if it failed. -/
structure KeyCall where
  key : Key
  direction : Direction
  failure : Option String
  deriving DecidableEq

/-- The connection: what the display server says to the next call, and the calls so far. -/
structure Enigo where
  answer : List KeyCall → Key → Direction → Option String
  calls : List KeyCall

def inputErr (err : String) : WireError := .new .internal err

/-- `Enigo::key`, with `input_err` on its error. -/
def Enigo.key (enigo : Enigo) (key : Key) (direction : Direction) :
    Enigo × Except WireError Unit :=
  let failure := enigo.answer enigo.calls key direction
  ({ enigo with calls := enigo.calls ++ [⟨key, direction, failure⟩] },
    match failure with
    | none => .ok ()
    | some err => .error (inputErr err))

/-- The loop of presses: which modifiers are held, and the error of the one that failed. -/
def pressAll : List Key → Enigo → List Key → Enigo × List Key × Except WireError Unit
  | [], enigo, held => (enigo, held, .ok ())
  | modifier :: modifiers, enigo, held =>
    match enigo.key modifier .press with
    | (enigo, .ok ()) => pressAll modifiers enigo (held ++ [modifier])
    | (enigo, .error err) => (enigo, held, .error err)

/-- The loop of releases, over the held modifiers from the last. -/
def releaseAll : List Key → Enigo → Except WireError Unit → Enigo × Except WireError Unit
  | [], enigo, result => (enigo, result)
  | modifier :: held, enigo, result =>
    let (enigo, released) := enigo.key modifier .release
    releaseAll held enigo (if result.isOk then released else result)

/-- The closure of `key`. -/
def pressChord (modifiers : List Key) (key : Key) (enigo : Enigo) :
    Enigo × Except WireError Unit :=
  let (enigo, held, result) := pressAll modifiers enigo []
  let (enigo, result) := if result.isOk then enigo.key key .click else (enigo, result)
  releaseAll held.reverse enigo result

/-- `EnigoInput`: the connection behind its lock, which may be poisoned. -/
structure EnigoInput where
  enigo : Enigo
  poisoned : Bool

def EnigoInput.key (input : EnigoInput) (chord : List Char) : EnigoInput × Except WireError Unit :=
  match parseChord chord with
  | .error e => (input, .error e)
  | .ok (modifiers, key) =>
    if input.poisoned then
      (input, .error (.new .internal "input connection is poisoned by an earlier panic"))
    else
      let (enigo, result) := pressChord modifiers key input.enigo
      ({ input with enigo := enigo }, result)

end Zyris.Input
