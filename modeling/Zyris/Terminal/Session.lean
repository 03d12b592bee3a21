import Zyris.Lib.Table
import Zyris.Proto.Error
import Zyris.Terminal.Sanitize

/-!
# PTY sessions and `PtyTerminal::read`

`crates/zyris-capkit/src/terminal/buffer.rs`, `session.rs` and the `read` of `mod.rs`.  A panic
while the mutex of the sessions is held poisons it, and from then on every `lock().unwrap()` panics.
`from_utf8_lossy` is a parameter, and waiting for the output to settle is outside the model, since
it only decides when the locked section runs.
-/

namespace Zyris.Terminal

open Proto

/-! ### The ring -/

/-- `OutputBuffer`: the ring never holds more than was written.  That is counted in a `u64`, which
no session lives to overflow; here it has no bound. -/
structure OutputBuffer where
  cap : Nat
  ring : List UInt8
  totalWritten : Nat
  ring_le_total : ring.length ≤ totalWritten

namespace OutputBuffer

def new (cap : Nat) : OutputBuffer := ⟨cap, [], 0, Nat.le_refl 0⟩

/-- The absolute offset of the oldest byte still left in the ring. -/
def ringStart (b : OutputBuffer) : Nat := b.totalWritten - b.ring.length

/-- The ring after `push`: the front gives way to the trailing `cap` bytes. -/
def pushed (b : OutputBuffer) (bytes : List UInt8) : List UInt8 :=
  let tail := if b.cap < bytes.length then bytes.drop (bytes.length - b.cap) else bytes
  let ring := b.ring ++ tail
  ring.drop (ring.length - b.cap)

theorem length_pushed_le (b : OutputBuffer) (bytes : List UInt8) :
    (b.pushed bytes).length ≤ b.totalWritten + bytes.length := by
  have := b.ring_le_total
  simp only [pushed, List.length_drop, List.length_append]
  split_ifs
  · rw [List.length_drop]
    omega
  · omega

def push (b : OutputBuffer) (bytes : List UInt8) : OutputBuffer where
  cap := b.cap
  ring := b.pushed bytes
  totalWritten := b.totalWritten + bytes.length
  ring_le_total := b.length_pushed_le bytes

/-- What `read_at` gives back: the bytes, the count lost for good, and the cursor after. -/
structure ReadAt where
  bytes : List UInt8
  dropped : Nat
  cursor : Nat

/-- `read_at`: up to `max` bytes from `cursor`. -/
def readAt (b : OutputBuffer) (cursor max : Nat) : ReadAt :=
  let start := b.ringStart
  let dropped := start - cursor
  let cursor := if 0 < dropped then start else cursor
  let off := cursor - start
  let n := min (b.ring.length - off) max
  { bytes := (b.ring.drop off).take n, dropped := dropped, cursor := cursor + n }

theorem readAt_cursor_le (b : OutputBuffer) {cursor : Nat} (max : Nat)
    (h : cursor ≤ b.totalWritten) : (b.readAt cursor max).cursor ≤ b.totalWritten := by
  have := b.ring_le_total
  unfold readAt ringStart
  by_cases h0 : 0 < b.totalWritten - b.ring.length - cursor
  · simp only [if_pos h0]
    omega
  · simp only [if_neg h0]
    omega

end OutputBuffer

/-- `trim_incomplete_tail`: length with a truncated multibyte sequence excluded. -/
def trimIncompleteTail (b : List UInt8) : Nat :=
  go (min 3 b.length) 1
where
  -- `n` more steps back are allowed; `back` is the one to look at.
  go : Nat → Nat → Nat
    | 0, _ => b.length
    | n + 1, back =>
      let i := b.length - back
      let c := b.getD i 0
      if c < 0x80 then b.length
      else if 0xC0 ≤ c then
        let need := if 0xF0 ≤ c then 4 else if 0xE0 ≤ c then 3 else 2
        if back < need then i else b.length
      -- a continuation byte: keep stepping back to find the lead byte
      else go n (back + 1)

/-! ### Reading a session -/

def RING_MAX : Nat := 1024 * 1024

def PTY_READ_MAX : Nat := 128 * 1024

/-- What `read` uses of `PtySession`: its cursor never passes the output, and is as unbounded here
as the count. -/
structure PtySession where
  buf : OutputBuffer
  readCursor : Nat
  exited : Option Int
  cursor_le : readCursor ≤ buf.totalWritten

/-- What `read` returns. -/
structure PtyRead where
  content : List Char
  more : Bool
  dropped : Nat
  exited : Option Int

namespace PtySession

/-- A session as `spawn` inserts it. -/
def new : PtySession := ⟨.new RING_MAX, 0, none, Nat.le_refl 0⟩

/-- The reader thread copies output into the ring. -/
def output (s : PtySession) (bytes : List UInt8) : PtySession where
  buf := s.buf.push bytes
  readCursor := s.readCursor
  exited := s.exited
  cursor_le := Nat.le_trans s.cursor_le (Nat.le_add_right _ _)

/-- The bytes at the cursor, one page of them. -/
def next (s : PtySession) : OutputBuffer.ReadAt := s.buf.readAt s.readCursor PTY_READ_MAX

/-- How many of the bytes just read `read` keeps: a cut-off character or escape sequence carries
over, unless these are the last bytes. -/
def keep (s : PtySession) : Nat :=
  let atEnd := s.exited.isSome && s.next.cursor = s.buf.totalWritten
  if atEnd then s.next.bytes.length
  else min (trimIncompleteTail s.next.bytes) (trimIncompleteEscape s.next.bytes)

/-- The bytes `read` decodes. -/
def page (s : PtySession) : List UInt8 := s.next.bytes.take s.keep

/-- The session after `read` moved its cursor. -/
def advance (s : PtySession) : PtySession :=
  { s with
    readCursor := s.next.cursor - (s.next.bytes.length - s.keep)
    cursor_le := Nat.le_trans (Nat.sub_le _ _) (s.buf.readAt_cursor_le _ s.cursor_le) }

/-- The locked section of `PtyTerminal::read`; `bytes[..keep]` may panic. -/
def read (lossy : List UInt8 → List Char) (s : PtySession) : Except Fault PtyRead := do
  if s.next.bytes.length < s.keep then throw .panic
  let content ← stripControls (lossy s.page)
  return {
    content := content
    more := s.advance.readCursor < s.buf.totalWritten
    dropped := s.next.dropped
    exited := s.exited }

end PtySession

/-! ### The terminal -/

/-- The session map and whether its mutex is poisoned. -/
structure PtyTerminal where
  sessions : Table String PtySession
  poisoned : Bool

def PtyTerminal.new : PtyTerminal := ⟨.empty, false⟩

/-- One locked section: a session is spawned, writes, exits, is read or closed. -/
inductive TermOp
  | spawn (id : String)
  | output (id : String) (bytes : List UInt8)
  | exit (id : String) (code : Int)
  | read (id : String)
  | close (id : String)

/-- How a locked section ends. -/
inductive TermResult
  | done
  -- `Err(gone())`: "no such pty".
  | gone
  | page (r : PtyRead)
  | panicked

/-- The effect and the result of one locked section. -/
def PtyTerminal.step (lossy : List UInt8 → List Char) (t : PtyTerminal) (op : TermOp) :
    PtyTerminal × TermResult :=
  if t.poisoned then (t, .panicked)
  else
    match op with
    | .spawn id => ({ t with sessions := t.sessions.insert id .new }, .done)
    | .output id bytes =>
      match t.sessions.get id with
      | some s => ({ t with sessions := t.sessions.insert id (s.output bytes) }, .done)
      | none => (t, .done)
    | .exit id code =>
      match t.sessions.get id with
      | some s =>
        ({ t with sessions := t.sessions.insert id { s with exited := some code } }, .done)
      | none => (t, .done)
    | .read id =>
      match t.sessions.get id with
      | none => (t, .gone)
      | some s =>
        -- the cursor is stored before the text is stripped, with the guard held throughout
        let sessions := t.sessions.insert id s.advance
        match s.read lossy with
        | .ok r => ({ t with sessions := sessions }, .page r)
        | .error _ => ({ sessions := sessions, poisoned := true }, .panicked)
    | .close id => ({ t with sessions := t.sessions.remove id }, .done)

/-- The terminal after a sequence of locked sections. -/
def PtyTerminal.run (lossy : List UInt8 → List Char) (t : PtyTerminal) (ops : List TermOp) :
    PtyTerminal :=
  ops.foldl (fun t op => (t.step lossy op).1) t

end Zyris.Terminal
