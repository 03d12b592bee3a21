import Zyris.Lib.Run
import Zyris.Terminal.Session

/-!
# The output stream of a session

`subscribe` of `mod.rs` and the thread that `spawn` of `session.rs` starts, which copies what the
PTY gives, waits for the child and stores its exit code.  Both lock the map of all sessions, which
other threads and tools change in between and may poison.
-/

namespace Zyris.Terminal

def STREAM_CHUNK_MAX : Nat := 64 * 1024

/-- Where the thread of a session stands. -/
inductive CopyPc
  -- in `reader.read`
  | reading
  -- in `child.wait`
  | waiting
  -- ended, or panicked at the lock
  | ended
  deriving DecidableEq

/-- Where the stream of a subscriber stands. -/
inductive SubscriberPc
  -- between two items or asleep, with its cursor
  | walking (cursor : Nat)
  -- it gave `None`: the shell has exited, or the session is gone
  | ended (exited : Bool)
  | panicked
  deriving DecidableEq

/-- The terminal, the thread of the session `id` and a stream of it. -/
structure Streaming where
  term : PtyTerminal
  copier : CopyPc
  stream : SubscriberPc

inductive StreamAct
  -- `reader.read` gives bytes
  | copy (bytes : List UInt8)
  -- it gives none, or an error
  | eof
  -- `child.wait` returns
  | waited (code : Int)
  -- the stream is polled, or wakes up
  | poll
  -- what other threads and the tools do
  | other (op : TermOp)

/-- The section is not one of the session's own thread; no other session gets its id. -/
def TermOp.isForeign (id : String) : TermOp → Bool
  | .spawn i => i ≠ id
  | .output i _ => i ≠ id
  | .exit i _ => i ≠ id
  | .read _ => true
  | .close _ => true

namespace Streaming

variable (lossy : List UInt8 → List Char) (id : String)

/-- The thread has read something. -/
def copy (st : Streaming) (bytes : List UInt8) : Streaming :=
  { st with
    term := (st.term.step lossy (.output id bytes)).1
    copier :=
      if st.term.poisoned then .ended
      else if (st.term.sessions.get id).isSome then .reading else .waiting }

/-- A poll: what the stream yields, and where it stands then. -/
def poll (t : PtyTerminal) (cursor : Nat) : SubscriberPc × Option (List UInt8) :=
  if t.poisoned then (.panicked, none)
  else match t.sessions.get id with
    | none => (.ended false, none)
    | some s =>
      let r := s.buf.readAt cursor STREAM_CHUNK_MAX
      if r.bytes ≠ [] then (.walking r.cursor, some r.bytes)
      else if s.exited.isSome then (.ended true, none)
      else (.walking r.cursor, none)

/-- A step, and what the stream yields in it. -/
def step (st : Streaming) : StreamAct → Option (Streaming × Option (List UInt8))
  | .copy bytes =>
    match st.copier with
    | .reading => some (st.copy lossy id bytes, none)
    | _ => none
  | .eof =>
    match st.copier with
    | .reading => some ({ st with copier := .waiting }, none)
    | _ => none
  | .waited code =>
    match st.copier with
    | .waiting =>
      some ({ st with term := (st.term.step lossy (.exit id code)).1, copier := .ended }, none)
    | _ => none
  | .poll =>
    match st.stream with
    | .walking cursor =>
      let (stream, chunk) := poll id st.term cursor
      some ({ st with stream := stream }, chunk)
    | _ => none
  | .other op =>
    if op.isForeign id then some ({ st with term := (st.term.step lossy op).1 }, none) else none

def Performs (st : Streaming) (l : StreamAct × Option (List UInt8)) (st' : Streaming) : Prop :=
  st.step lossy id l.1 = some (st', l.2)

/-- A stream of a session that was just spawned. -/
def start (t : PtyTerminal) : Streaming := ⟨t, .reading, .walking 0⟩

end Streaming

end Zyris.Terminal
