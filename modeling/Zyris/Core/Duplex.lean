import Zyris.Core.Connection.Step

/-!
# Two ends of one connection

What one end's writer has put on the wire the other end's reader takes in the same order, one frame
at a time, at any time later.  Every other step is a step of one end alone.
-/

namespace Zyris.Core

open Proto

def Side.peer : Side → Side
  | .dialer => .acceptor
  | .acceptor => .dialer

@[simp] theorem Side.peer_peer (side : Side) : side.peer.peer = side := by cases side <;> rfl

theorem Side.peer_ne (side : Side) : side.peer ≠ side := by cases side <;> simp [Side.peer]

def Duplex := Side → Shared

namespace Duplex

/-- Both ends as `establish` returns them. -/
def established (served : Side → Served) : Duplex := fun side => .established (served side)

def set (d : Duplex) (side : Side) (s : Shared) : Duplex := fun x => if x = side then s else d x

@[simp] theorem set_self (d : Duplex) (side : Side) (s : Shared) : d.set side s side = s :=
  if_pos rfl

theorem set_of_ne (d : Duplex) {side x : Side} (s : Shared) (h : x ≠ side) : d.set side s x = d x :=
  if_neg h

@[simp] theorem set_peer (d : Duplex) (side : Side) (s : Shared) :
    d.set side s side.peer = d side.peer :=
  d.set_of_ne s side.peer_ne

end Duplex

/-- An end moves, or takes the next frame off the wire. -/
inductive DuplexAct
  -- a step of one end that takes no frame
  | act (side : Side) (a : Act)
  -- the end takes the next frame off the other end's wire
  | deliver (side : Side)

def Act.isReceive : Act → Bool
  | .receive _ => true
  | _ => false

def Duplex.step (cfg : Side → Config) (d : Duplex) : DuplexAct → Option Duplex
  | .act side a =>
    if a.isReceive then none
    else ((d side).step (cfg side) a).map (d.set side)
  | .deliver side =>
    match (d side.peer).out.wire[(d side).received.length]? with
    | some f => ((d side).step (cfg side) (.receive f)).map (d.set side)
    | none => none

/-! ### Conditions on a run -/

def WriterCmd.isSend : WriterCmd → Bool
  | .send _ => true
  | .close _ _ => false

/-- The connection was not shut down, and nobody has asked to close it. -/
def Shared.isOpen (s : Shared) : Bool :=
  s.closing.shutdowns.objects.isEmpty && s.out.handed.all WriterCmd.isSend

def Outcome.payload : Outcome → Option Payload
  | .response result => some result
  | .stream head => some head
  | .error _ => none
  | .panicked => none

end Zyris.Core
