import Zyris.Core.Equiv.Client
import Zyris.Core.Equiv.Serve
import Zyris.Core.Equiv.Flow

/-!
# Ends that stay open

`Shared.Moves` is what an end can do while it stays open, but for taking a frame, which is
`Shared.receive`.  Its writer runs all the time, so everything handed over is sent in this order
(`Shared.Writes`), and what the peer has received is the beginning of it.
-/

namespace Zyris.Core

open Proto

/-! ### What was handed over -/

def WriterCmd.frame : WriterCmd → Option Frame
  | .send f => some f
  | .close _ _ => none

def frames (cmds : List WriterCmd) : List Frame := cmds.filterMap WriterCmd.frame

@[simp] theorem frames_nil : frames [] = [] := rfl

@[simp] theorem frames_append (cmds cmds' : List WriterCmd) :
    frames (cmds ++ cmds') = frames cmds ++ frames cmds' := by simp [frames]

variable {cmds : List WriterCmd} {f : Frame} {cfg : Config}

theorem mem_frames : f ∈ frames cmds ↔ WriterCmd.send f ∈ cmds := by
  simp only [frames, List.mem_filterMap]
  constructor
  · rintro ⟨c, hc, hf⟩
    cases c with
    | send g =>
      obtain rfl := Option.some.inj hf
      exact hc
    | close code reason => cases hf
  · intro h
    exact ⟨_, h, rfl⟩

@[simp] theorem frames_send (f : Frame) : frames [.send f] = [f] := rfl

def Shared.sent (s : Shared) : List Frame := frames s.out.handed

theorem frames_encode (cfg : Config) (e : Envelope) :
    frames (cfg.encode e) = if e.encodes cfg.serialization then [.control e] else [] := by
  unfold Config.encode
  split_ifs <;> rfl

theorem mem_frames_encode {e : Envelope} (h : f ∈ frames (cfg.encode e)) : f = .control e :=
  WriterCmd.send.inj (mem_encode (mem_frames.mp h))

/-! ### The writer -/

def WriterPc.isRunning : WriterPc → Bool
  | .receiving => true
  | .sending _ => true
  | _ => false

def WriterPc.current : WriterPc → List Frame
  | .sending f => [f]
  | _ => []

theorem WriterPc.live_of_isRunning {w : WriterPc} (h : w.isRunning = true) : w.live = true := by
  cases w <;> first | rfl | cases h

/-- The wire holds what the writer has taken, up to the frame it is sending. -/
structure Shared.Writes (s : Shared) : Prop where
  running : s.out.writer.isRunning = true
  wire : s.out.wire ++ s.out.writer.current = frames (s.out.handed.take s.out.taken)
  taken_le : s.out.taken ≤ s.out.handed.length

namespace Shared

variable {s s' : Shared}

theorem isOpen_iff : s.isOpen = true ↔
    s.closing.shutdowns.objects = [] ∧ ∀ c ∈ s.out.handed, c.isSend = true := by
  simp [isOpen]

theorem Writes.wire_isPrefix (h : s.Writes) : s.out.wire <+: s.sent := by
  refine (List.prefix_append _ s.out.writer.current).trans ?_
  rw [h.wire]
  exact (List.take_prefix _ _).filterMap _

theorem sent_hand (h : s.out.writer.isRunning = true) (cmds : List WriterCmd) :
    (s.hand cmds).sent = s.sent ++ frames cmds := by
  unfold sent hand
  rw [if_pos (WriterPc.live_of_isRunning h), frames_append]

theorem Writes.hand (h : s.Writes) (cmds : List WriterCmd) : (s.hand cmds).Writes where
  running := h.running
  wire := by
    show s.out.wire ++ s.out.writer.current = frames ((s.out.handed ++ _).take s.out.taken)
    rw [List.take_append_of_le_length h.taken_le]
    exact h.wire
  taken_le := by
    show s.out.taken ≤ (s.out.handed ++ _).length
    rw [List.length_append]
    exact Nat.le_trans h.taken_le (Nat.le_add_right _ _)

/-- What an end can do while it stays open, but for taking a frame. -/
inductive Moves (cfg : Config) (s : Shared) : Shared → Prop
  | called (a : CallAct) (c : Client) (e : Emit) :
    s.client.callStep cfg (s.env cfg) a = some (c, e) → Moves cfg s (s.withClient c e)
  | read (a : Client.StreamAct) (c : Client) (e : Emit) :
    s.client.streamStep cfg a = some (c, e) → Moves cfg s (s.withClient c e)
  | served (a : ServeAct) (v : Serve) (e : Emit) (closed : Bool) :
    s.serve.step cfg (s.env cfg) closed a = some (v, e) → Moves cfg s (s.withServe v e)
  | announced (r : Nat) (x : Replace) (params : Payload) : s.serve.replaces.get r = some x →
    x.pc = .announcing →
    Moves cfg s { s with
      client := s.client.beginCall METHOD_ANNOUNCE params .nil
      serve := s.serve.replacePc r (.awaiting s.client.requests.calls.size) }
  | announceOver (r : Nat) (x : Replace) : s.serve.replaces.get r = some x →
    (x.pc = .announcing ∨ ∃ i, x.pc = .awaiting i) →
    Moves cfg s { s with serve := s.serve.replacePc r .finished }
  | noted (method : String) (params : Payload) :
    Moves cfg s (s.hand (cfg.encode (.note method params)))
  | took (f : Frame) : s.out.writer = .receiving → s.out.handed[s.out.taken]? = some (.send f) →
    Moves cfg s { s with out := { s.out with writer := .sending f, taken := s.out.taken + 1 } }
  | wrote (f : Frame) : s.out.writer = .sending f →
    Moves cfg s { s with out := { s.out with writer := .receiving, wire := s.out.wire ++ [f] } }

theorem moves_of_step {a : Act} (h : s.step cfg a = some s') (ha : a.isReceive = false)
    (hw : s.out.writer.isRunning = true) (ho : s.isOpen = true) (ho' : s'.isOpen = true) :
    s.Moves cfg s' := by
  rw [isOpen_iff] at ho ho'
  cases acts_of_step h with
  | call hstep => exact .called _ _ _ hstep
  | stream hstep => exact .read _ _ _ hstep
  | serve hstep => exact .served _ _ _ _ hstep
  | announced hx hpc _ => exact .announced _ _ _ hx hpc
  | announceOver hx hor =>
    exact .announceOver _ _ hx (hor.imp And.left fun ⟨i, _, _, hpc, _⟩ => ⟨i, hpc⟩)
  | receive => cases ha
  | shutdown reason => simp [Closing.begin, Arena.alloc] at ho'
  | shutdownRun hk =>
    rw [Arena.get, ho.1] at hk
    cases hk
  | notify method params => exact .noted method params
  | close reason =>
    have hclose := ho'.2 (.close CLOSE_NORMAL reason)
    simp [hand, WriterPc.live_of_isRunning hw, WriterCmd.isSend] at hclose
  | @writer a _ _ _ _ hwriter =>
    unfold writerStep at hwriter
    repeat' split at hwriter
    all_goals cases hwriter
    · exact .took _ ‹_› ‹_›
    · have hclose := ho.2 _ (List.mem_of_getElem? ‹s.out.handed[s.out.taken]? = _›)
      cases hclose
    · exact .wrote _ ‹_›
    · simp [Closing.begin, Arena.alloc] at ho'
    -- a writer that runs does not exit
    all_goals simp_all [WriterPc.isRunning]

theorem Writes.moves (h : s.Writes) (hm : s.Moves cfg s') : s'.Writes := by
  cases hm with
  | called a c e hs | read a c e hs | served a v e closed hs =>
    obtain ⟨hr, hwire, hle⟩ := h.hand e.cmds
    exact ⟨hr, hwire, hle⟩
  | announced | announceOver => exact ⟨h.running, h.wire, h.taken_le⟩
  | noted method params => exact h.hand _
  | took f hw hget =>
    obtain ⟨hlt, hf⟩ := List.getElem?_eq_some_iff.mp hget
    refine ⟨rfl, ?_, hlt⟩
    have hwire := h.wire
    rw [hw] at hwire
    show s.out.wire ++ [f] = frames (s.out.handed.take (s.out.taken + 1))
    rw [List.take_succ_eq_append_getElem hlt, hf, frames_append, ← hwire]
    simp [WriterPc.current]
  | wrote f hw =>
    refine ⟨rfl, ?_, h.taken_le⟩
    have hwire := h.wire
    rw [hw] at hwire
    show (s.out.wire ++ [f]) ++ [] = _
    rw [List.append_nil]
    exact hwire

theorem Writes.receive (h : s.Writes) (f : Frame) : (s.receive cfg f).Writes := by
  obtain ⟨hr, hwire, hle⟩ := h.hand (s.client.reaction cfg f)
  exact ⟨hr, hwire, hle⟩

/-! ### Ends that may close -/

theorem out_of_step {a : Act} (h : s.step cfg a = some s') (ha : ∀ b, a ≠ .writer b) :
    ∃ cmds, s'.out = { s.out with handed := s.out.handed ++ cmds } := by
  have keep : ∃ cmds, s.out = { s.out with handed := s.out.handed ++ cmds } :=
    ⟨[], by rw [List.append_nil]⟩
  cases acts_of_step h with
  | call | stream | serve | receive | notify | close => exact ⟨_, rfl⟩
  | announced | announceOver | shutdown => exact keep
  | shutdownRun _ hrun =>
    unfold shutdownRun at hrun
    split at hrun <;> cases hrun
    all_goals first | exact keep | exact ⟨_, rfl⟩
  | @writer b => exact absurd rfl (ha b)

theorem wire_isPrefix_of_step {a : Act} (h : s.step cfg a = some s') :
    s.out.wire <+: s'.out.wire := by
  by_cases ha : ∃ b, a = .writer b
  · obtain ⟨b, rfl⟩ := ha
    simp only [step] at h
    unfold Shared.writerStep at h
    repeat' split at h
    all_goals cases h
    all_goals first | exact List.prefix_rfl | exact List.prefix_append _ _
  · obtain ⟨cmds, hout⟩ := out_of_step h (not_exists.mp ha)
    have hwire := congrArg Out.wire hout
    exact ⟨[], (List.append_nil _).trans hwire.symm⟩

end Shared

end Zyris.Core
