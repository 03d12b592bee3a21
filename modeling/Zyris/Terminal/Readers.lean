import Zyris.Lib.Arena
import Zyris.Lib.Run
import Zyris.Terminal.Session

/-!
# The readers of a ring

A session's `read` and every `open_stream` subscriber has a cursor of its own.  A reader may keep
less than `read_at` gave it and put its cursor back by the rest.  The subtractions of `read_at` are
on unsigned integers, so they are checked here.
-/

namespace Zyris.Terminal

/-- `a - b` on unsigned integers. -/
def checkedSub (a b : Nat) : Except Fault Nat := if b ≤ a then .ok (a - b) else .error .panic

/-- `read_at`, with its subtractions. -/
def OutputBuffer.readAtChecked (b : OutputBuffer) (cursor max : Nat) : Except Fault ReadAt := do
  let start ← checkedSub b.totalWritten b.ring.length
  -- `saturating_sub`
  let dropped := start - cursor
  let cursor := if 0 < dropped then start else cursor
  let off ← checkedSub cursor start
  let left ← checkedSub b.ring.length off
  let n := min left max
  return { bytes := (b.ring.drop off).take n, dropped := dropped, cursor := cursor + n }

/-- A ring and the cursors of its readers. -/
structure Readers where
  buf : OutputBuffer
  cursors : Arena Nat

def Readers.new (cap : Nat) : Readers := ⟨.new cap, .empty⟩

/-- What writers and readers of a ring do. -/
inductive RingAct
  | push (bytes : List UInt8)
  -- a reader that starts at the cursor
  | attach (cursor : Nat)
  -- a reader asks for up to `max` bytes and keeps `keep` of those it gets
  | read (reader max keep : Nat)
  deriving DecidableEq

inductive RingResult
  | done
  | got (r : OutputBuffer.ReadAt)
  | panicked

namespace Readers

def step (r : Readers) : RingAct → Option (Readers × RingResult)
  | .push bytes => some ({ r with buf := r.buf.push bytes }, .done)
  | .attach cursor =>
    if cursor ≤ r.buf.totalWritten then
      some ({ r with cursors := r.cursors.alloc cursor }, .done)
    else none
  | .read i max keep => do
    let cursor ← r.cursors.get i
    match r.buf.readAtChecked cursor max with
    | .ok out =>
      if keep ≤ out.bytes.length then
        let cursor := out.cursor - (out.bytes.length - keep)
        some ({ r with cursors := r.cursors.update i fun _ => cursor }, .got out)
      else none
    | .error _ => some (r, .panicked)

def Performs (r : Readers) (l : RingAct × RingResult) (r' : Readers) : Prop :=
  r.step l.1 = some (r', l.2)

end Readers

end Zyris.Terminal
