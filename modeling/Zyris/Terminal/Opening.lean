import Zyris.Lib.Arena
import Zyris.Lib.Run
import Zyris.Lib.Table
import Zyris.Proto.Error

/-!
# Opening PTYs

`new_session`, `ensure_sweeper`, `touch` and `close` of `mod.rs`, with `spawn` of `session.rs` up to
the insertion.  Each time a call locks the map or draws a number is a step of its own.  Of a session
only its last touch is kept; what the operating system says is an input.
-/

namespace Zyris.Terminal

open Proto

def MAX_SESSIONS : Nat := 8

/-- The refusal of `new_session`. -/
def tooManyPtys : WireError :=
  .new (.other "too_many_ptys")
    ("at most " ++ toString MAX_SESSIONS ++ " PTYs at a time; close one first")

def ptyErr (msg : String) : WireError := .new .internal msg

/-- Where a call of `new_session` stands. -/
inductive OpenPc
  -- before `ensure_sweeper`
  | entered
  -- before it counts the sessions
  | counting
  -- it found room, and has no id yet
  | admitted
  -- in `session::spawn`
  | spawning (id : String)
  -- the shell runs; the session is not in the map yet
  | inserting (id : String) (now : Nat)
  | returned (result : Except WireError String)

/-- The terminal: `next_id`, the sessions with when each was touched, `sweeper_started`, the clock
and the calls. -/
structure PtyPool where
  nextId : Nat
  sessions : Table String Nat
  sweeperStarted : Bool
  now : Nat
  calls : Arena OpenPc

inductive OpenAct
  | ensureSweeper
  -- `sessions.lock().unwrap().len() >= MAX_SESSIONS`
  | count
  -- `next_id.fetch_add(1)`
  | fetchAdd
  -- one of the fallible lines of `spawn` fails
  | spawnFails (msg : String)
  | spawned
  -- `sessions.lock().unwrap().insert(..)`
  | insert

/-- What happens to the pool. -/
inductive PoolAct
  -- `open` or `open_stream` is called
  | call
  | turn (i : Nat) (a : OpenAct)
  -- a tool touches a session
  | touch (id : String)
  | close (id : String)
  -- the sweeper wakes up
  | sweep
  | elapse (d : Nat)

namespace PtyPool

def new : PtyPool := ⟨1, .empty, false, 0, .empty⟩

/-- A step of a call, as the call and the terminal see it. -/
def turn (s : PtyPool) : OpenPc → OpenAct → Option (PtyPool × OpenPc)
  | .entered, .ensureSweeper => some ({ s with sweeperStarted := true }, .counting)
  | .counting, .count =>
    if MAX_SESSIONS ≤ s.sessions.len then some (s, .returned (.error tooManyPtys))
    else some (s, .admitted)
  | .admitted, .fetchAdd =>
    some ({ s with nextId := (s.nextId + 1) % 2 ^ 64 }, .spawning ("pty-" ++ toString s.nextId))
  | .spawning _, .spawnFails msg => some (s, .returned (.error (ptyErr msg)))
  | .spawning id, .spawned => some (s, .inserting id s.now)
  | .inserting id now, .insert =>
    some ({ s with sessions := s.sessions.insert id now }, .returned (.ok id))
  | _, _ => none

/-- One step, with the timeout of the sweeper. -/
def step (idle : Nat) (s : PtyPool) : PoolAct → Option PtyPool
  | .call => some { s with calls := s.calls.alloc .entered }
  | .turn i a => do
    let pc ← s.calls.get i
    let (s', pc') ← s.turn pc a
    return { s' with calls := s.calls.update i fun _ => pc' }
  | .touch id =>
    match s.sessions.get id with
    | some _ => some { s with sessions := s.sessions.insert id s.now }
    | none => some s
  | .close id => some { s with sessions := s.sessions.remove id }
  | .sweep =>
    if s.sweeperStarted then
      some { s with sessions := s.sessions.retain fun _ touched => s.now - touched < idle }
    else none
  | .elapse d => some { s with now := s.now + d }

end PtyPool

end Zyris.Terminal
