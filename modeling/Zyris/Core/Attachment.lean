import Zyris.Core.Equiv.Open

/-!
# The transfer of one attachment

`send_attachment` at one end, and a receiver at the other that reads whatever arrives.  What one end
sends the other takes in the same order, any time later; the connection stays open.
-/

namespace Zyris.Core

open Proto

/-- Two ends and one attachment on its way between them. -/
structure Transfer where
  -- the sending end
  serve : Serve
  -- on the way to the receiver
  down : List Frame
  -- the receiving end
  client : Client
  -- on the way to the sender
  up : List Frame
  -- what the sender's reader has taken in
  taken : List Frame

/-- Who moves. -/
inductive TransferAct
  -- the sender goes on
  | send
  -- the receiver's reader takes a frame
  | deliver
  -- the receiver's consumer reads
  | poll
  -- the sender's reader takes a frame
  | credit

namespace Transfer

/-- Right after `reply_res` at one end and the claim of the attachment at the other. -/
def start (cfg : Config) (served : Served) (item : Detached) : Transfer where
  serve := { (Shared.start served).serve with
    credits := Credits.openGate ⟨.empty, .empty⟩ item.stream cfg.limits.initialStreamCredit
    senders := Arena.empty.alloc ⟨item, .starting⟩ }
  down := []
  client := { (Shared.start served).client with
    streams := {
      incoming := Table.empty.insert item.stream ⟨0, 0⟩
      attachments := .empty
      chans := Arena.empty.alloc ⟨item.stream, [], 0⟩
      consumers := Arena.empty.alloc ⟨item.stream, 0, false, false, []⟩ } }
  up := []
  taken := []

/-- The task of `send_attachment`. -/
def sender (t : Transfer) : Option Sender := t.serve.senders.get 0

/-- The sender's next step, on a connection that is open. -/
def sends (cfg : Config) (t : Transfer) : Option (Serve × Emit) :=
  t.sender.bind fun x => t.serve.senderRun cfg ⟨true, 0⟩ 0 x

def step (sending receiving : Config) (t : Transfer) : TransferAct → Option Transfer
  | .send => (t.sends sending).map fun r =>
    { t with serve := r.1, down := t.down ++ frames r.2.cmds }
  | .deliver =>
    match t.down with
    | f :: down => some { t with
        down := down
        client := t.client.handle f
        up := t.up ++ frames (t.client.reaction receiving f) }
    | [] => none
  | .poll => (t.client.pollNext receiving 0).map fun r =>
    { t with client := r.2.1, up := t.up ++ frames r.2.2.cmds }
  | .credit =>
    match t.up with
    | f :: up => some { t with
        up := up
        serve := t.serve.handle sending f
        taken := t.taken ++ [f] }
    | [] => none

/-! ### Being stuck -/

def SenderPc.isAcquiring : SenderPc → Bool
  | .acquiring .. => true
  | _ => false

/-- The sender waits in `CreditGate::acquire`. -/
def isWaiting (cfg : Config) (t : Transfer) : Bool :=
  t.sender.any (fun x => SenderPc.isAcquiring x.pc) && (t.sends cfg).isNone

def eventBytes : StreamEvent → Nat
  | .data bytes => bytes.length
  | _ => 0

/-- The events that wait in the receiver's channel. -/
def unread (t : Transfer) : List StreamEvent :=
  (t.client.streams.chans.get 0).toList.flatMap fun c => c.log.drop c.read

def consumed (t : Transfer) : Nat :=
  ((t.client.streams.consumers.get 0).toList.flatMap (·.seen)).map eventBytes |>.sum

/-- **Stuck**: the sender waits for credit, nothing of the stream is on its way, and the receiver
has read everything and credited it back. -/
structure Stuck (cfg : Config) (item : Detached) (t : Transfer) : Prop where
  waiting : t.isWaiting cfg = true
  down : t.down = []
  up : t.up = []
  unread : t.unread = []
  credited : credited item.stream t.taken = t.consumed

end Transfer

end Zyris.Core
