import Zyris.Core.Equiv.Open
import Zyris.Core.Equiv.Answers
import Zyris.Core.Equiv.Incoming
import Zyris.Core.Equiv.Reason

/-!
# Two open ends

What every run of one end has, each end of a `Duplex` has (`Duplex.exists_run_side`).  While both
are open the ends are `Linked`: what one has received is the beginning of what the other has handed
to its writer.  For ends that may close, `frames_arrive_in_order` is what is left of this.
-/

namespace Zyris.Core

open Proto

/-! ### One end -/

namespace Shared

variable {cfg : Config} {s s' : Shared}

theorem handed_prefix_of_step {a : Act} (h : s.step cfg a = some s') :
    s.out.handed <+: s'.out.handed := by
  rcases step_sides h with ⟨b, v, e, -, -, rfl⟩ | ⟨f, -, rfl⟩ | ⟨-, -, cmds, -, hcmds⟩
  · exact List.prefix_append _ _
  · exact List.prefix_append _ _
  · rw [hcmds]
    exact List.prefix_append _ _

theorem isOpen_of_step {a : Act} (h : s.step cfg a = some s') (ho : s'.isOpen = true) :
    s.isOpen = true := by
  rw [isOpen_iff] at ho ⊢
  have hnone : s'.NoShutdown := by simp [NoShutdown, Arena.size, ho.1]
  refine ⟨?_, fun c hc => ho.2 c ((handed_prefix_of_step h).subset hc)⟩
  exact List.eq_nil_of_length_eq_zero (NoShutdown.of_step h hnone).1

theorem closeReason_of_step {a : Act} (h : s.step cfg a = some s') (ho : s'.isOpen = true)
    (hs : s.closing.closeReason = none) : s'.closing.closeReason = none := by
  have hnone : s'.NoShutdown := by simp [NoShutdown, Arena.size, (isOpen_iff.mp ho).1]
  rcases closing_cases h with ⟨hr, -⟩ | ⟨reason, hbegin⟩ | ⟨k, x, hk, -⟩
  · rw [hr, hs]
  · rw [hbegin]
    exact hs
  · exact absurd hk ((NoShutdown.of_step h hnone).2 k)

theorem received_of_step {a : Act} (h : s.step cfg a = some s') (ha : a.isReceive = false) :
    s'.received = s.received := by
  rcases step_sides h with ⟨b, v, e, -, -, rfl⟩ | ⟨f, rfl, -⟩ | ⟨-, hrec, -⟩
  · rfl
  · cases ha
  · exact hrec

end Shared

/-! ### Both ends -/

namespace Duplex

variable {cfg : Side → Config} {d d' : Duplex}

def isOpen (d : Duplex) : Prop := ∀ side, (d side).isOpen = true

instance (d : Duplex) : Decidable d.isOpen :=
  decidable_of_iff ((d .dialer).isOpen = true ∧ (d .acceptor).isOpen = true)
    ⟨fun h side => by cases side; exacts [h.1, h.2], fun h => ⟨h .dialer, h .acceptor⟩⟩

variable {a : DuplexAct} {d₀ : Duplex} {as : List DuplexAct} {side : Side}

theorem step_cases (h : d.step cfg a = some d') :
    ∃ side b s, (d side).step (cfg side) b = some s ∧ d' = d.set side s ∧
      (a = .act side b ∧ b.isReceive = false ∨ ∃ f, b = .receive f ∧
        (d side.peer).out.wire[(d side).received.length]? = some f) := by
  cases a with
  | act side b =>
    simp only [step] at h
    split_ifs at h with hb
    obtain ⟨s, hs, rfl⟩ := Option.map_eq_some_iff.mp h
    exact ⟨side, b, s, hs, rfl, .inl ⟨rfl, by simpa using hb⟩⟩
  | deliver side =>
    simp only [step] at h
    split at h
    · rename_i f hf
      obtain ⟨s, hs, rfl⟩ := Option.map_eq_some_iff.mp h
      exact ⟨side, .receive f, s, hs, rfl, .inr ⟨f, rfl, hf⟩⟩
    · cases h

theorem isOpen_of_step (h : d.step cfg a = some d') (ho : d'.isOpen) : d.isOpen := by
  obtain ⟨side, b, s, hs, rfl, -⟩ := step_cases h
  intro x
  by_cases hx : x = side
  · subst hx
    have hside := ho x
    rw [set_self] at hside
    exact Shared.isOpen_of_step hs hside
  · have hother := ho x
    rwa [set_of_ne d s hx] at hother

/-- Each end makes a run of its own. -/
theorem exists_guarded_run_side {ok : Shared → Act → Prop} {okBoth : Duplex → DuplexAct → Prop}
    (h : Run (Guarded (Steps (Duplex.step cfg)) okBoth) d₀ as d)
    (hact : ∀ d a, okBoth d (.act side a) → ok (d side) a) (hrec : ∀ s f, ok s (.receive f)) :
    ∃ bs, Run (Guarded (Steps (Shared.step (cfg side))) ok) (d₀ side) bs (d side) := by
  refine h.state_invariant
    (I := fun d => ∃ bs, Run (Guarded (Steps (Shared.step (cfg side))) ok) (d₀ side) bs (d side))
    ⟨[], .nil⟩ ?_
  rintro d₁ a d₂ ⟨bs, hbs⟩ ⟨hstep, hok⟩
  obtain ⟨x, b, s, hs, rfl, hb⟩ := step_cases hstep
  by_cases hx : side = x
  · subst hx
    rw [set_self]
    refine ⟨_, hbs.snoc ⟨hs, ?_⟩⟩
    obtain ⟨rfl, -⟩ | ⟨f, rfl, -⟩ := hb
    · exact hact d₁ b hok
    · exact hrec _ f
  · rw [set_of_ne d₁ s hx]
    exact ⟨bs, hbs⟩

theorem exists_run_side (h : Run (Steps (Duplex.step cfg)) d₀ as d) (side : Side) :
    ∃ bs, Run (Steps (Shared.step (cfg side))) (d₀ side) bs (d side) := by
  have hall : Run (Guarded (Steps (Duplex.step cfg)) fun _ _ => True) d₀ as d :=
    h.guarded fun _ _ _ => trivial
  obtain ⟨bs, hbs⟩ : ∃ bs, Run (Guarded (Steps (Shared.step (cfg side))) fun _ _ => True) (d₀ side)
      bs (d side) := exists_guarded_run_side hall (fun _ _ h => h) fun _ _ => trivial
  exact ⟨bs, hbs.of_guarded⟩

theorem forall_set {P : Side → Shared → Prop} {s : Shared} (hs : P side s) (h : ∀ x, P x (d x))
    (x : Side) : P x (d.set side s x) := by
  by_cases hx : x = side
  · subst hx
    rwa [set_self]
  · rw [set_of_ne d s hx]
    exact h x

/-- What an end has received is the beginning of the other's wire. -/
def InOrder (d : Duplex) : Prop := ∀ side, (d side).received <+: (d side.peer).out.wire

theorem InOrder.snoc (h : d.InOrder) {f : Frame}
    (hf : (d side.peer).out.wire[(d side).received.length]? = some f) :
    (d side).received ++ [f] <+: (d side.peer).out.wire := by
  obtain ⟨hlt, hget⟩ := List.getElem?_eq_some_iff.mp hf
  have htake := List.prefix_iff_eq_take.mp (h side)
  rw [htake, ← hget, ← List.take_succ_eq_append_getElem hlt]
  exact List.take_prefix _ _

theorem InOrder.step (h : d.InOrder) (hstep : d.step cfg a = some d') : d'.InOrder := by
  obtain ⟨side, b, s, hs, rfl, hb⟩ := step_cases hstep
  have hrec : s.received <+: (d side.peer).out.wire := by
    obtain ⟨-, hb⟩ | ⟨f, rfl, hf⟩ := hb
    · rw [Shared.received_of_step hs hb]
      exact h side
    · obtain rfl := Shared.eq_receive_of_step hs
      exact h.snoc hf
  intro x
  by_cases hx : x = side
  · subst hx
    rwa [set_self, set_peer]
  · obtain rfl : side = x.peer := by cases x <;> cases side <;> simp_all [Side.peer]
    rw [set_of_ne d s hx, set_self]
    exact (h x).trans (Shared.wire_isPrefix_of_step hs)

/-- The wires of two open ends. -/
structure Linked (d : Duplex) : Prop where
  writes : ∀ side, (d side).Writes
  received : ∀ side, (d side).received <+: (d side.peer).out.wire
  closeReason : ∀ side, (d side).closing.closeReason = none

theorem Linked.received_isPrefix (h : d.Linked) (side : Side) :
    (d side).received <+: (d side.peer).sent :=
  (h.received side).trans (h.writes side.peer).wire_isPrefix

theorem Linked.step (h : d.Linked) (hstep : d.step cfg a = some d') (ho : d'.isOpen) :
    d'.Linked := by
  have hopen := isOpen_of_step hstep ho
  have hrec := InOrder.step h.received hstep
  obtain ⟨side, b, s, hs, rfl, hb⟩ := step_cases hstep
  have hs' : s.isOpen = true := by
    have hside := ho side
    rwa [set_self] at hside
  have hwrites : s.Writes := by
    obtain ⟨-, hb⟩ | ⟨f, rfl, -⟩ := hb
    · exact (h.writes side).moves
        (Shared.moves_of_step hs hb (h.writes side).running (hopen side) hs')
    · obtain rfl := Shared.eq_receive_of_step hs
      exact (h.writes side).receive f
  exact ⟨forall_set (P := fun _ s => s.Writes) hwrites h.writes, hrec,
    forall_set (P := fun _ s => s.closing.closeReason = none)
      (Shared.closeReason_of_step hs hs' (h.closeReason side)) h.closeReason⟩

theorem linked_of_run (h₀ : d₀.Linked) (h : Run (Steps (Duplex.step cfg)) d₀ as d) (ho : d.isOpen) :
    d.Linked := by
  refine h.state_invariant (I := fun d => d.isOpen → d.Linked) (fun _ => h₀) ?_ ho
  intro d₁ a d₂ hi hstep ho₂
  exact (hi (isOpen_of_step hstep ho₂)).step hstep ho₂

end Duplex

/-! ### However the connection ends -/

/-- The wire holds what was queued before the first `Close`; a running writer has taken nothing
else, and sent all of it but its current frame. -/
structure Out.Sends (o : Out) : Prop where
  wire : o.wire <+: frames (o.handed.takeWhile WriterCmd.isSend)
  running : o.writer.isRunning = true → o.taken ≤ o.handed.length ∧
    (∀ c ∈ o.handed.take o.taken, c.isSend = true) ∧
    o.wire ++ o.writer.current = frames (o.handed.take o.taken)

namespace Out.Sends

variable {o : Out} {f : Frame}

/-- The writer takes the next frame. -/
theorem recv (h : o.Sends) (hw : o.writer = .receiving)
    (hget : o.handed[o.taken]? = some (.send f)) :
    { o with writer := .sending f, taken := o.taken + 1 }.Sends := by
  obtain ⟨hlt, hf⟩ := List.getElem?_eq_some_iff.mp hget
  obtain ⟨-, hall, hwire⟩ := h.running (by rw [hw]; rfl)
  rw [hw] at hwire
  have htake : o.handed.take (o.taken + 1) = o.handed.take o.taken ++ [.send f] := by
    rw [List.take_succ_eq_append_getElem hlt, hf]
  refine ⟨h.wire, fun _ => ⟨hlt, fun c hc => ?_, ?_⟩⟩
  · rw [htake] at hc
    rcases List.mem_append.mp hc with hc | hc
    · exact hall c hc
    · rw [List.mem_singleton.mp hc]
      rfl
  · rw [htake, frames_append, ← hwire]
    simp [WriterPc.current]

/-- The frame is on the wire. -/
theorem sent (h : o.Sends) (hw : o.writer = .sending f) :
    { o with writer := .receiving, wire := o.wire ++ [f] }.Sends := by
  obtain ⟨hle, hall, hwire⟩ := h.running (by rw [hw]; rfl)
  rw [hw] at hwire
  have hsplit : (_ ++ o.handed.drop o.taken).takeWhile _ = _ :=
    List.takeWhile_append_of_pos hall
  rw [List.take_append_drop] at hsplit
  refine ⟨?_, fun _ => ⟨hle, hall, (List.append_nil _).trans hwire⟩⟩
  show o.wire ++ [f] <+: _
  rw [show o.wire ++ [f] = _ from hwire, hsplit]
  exact (List.prefix_append _ _).filterMap _

/-- Commands are queued. -/
theorem queue (h : o.Sends) (cmds : List WriterCmd) :
    { o with handed := o.handed ++ cmds }.Sends := by
  have hlonger : o.handed.takeWhile WriterCmd.isSend <+:
      (o.handed ++ cmds).takeWhile WriterCmd.isSend := by
    rw [List.takeWhile_append]
    split_ifs
    · exact (List.takeWhile_prefix _).trans (List.prefix_append _ _)
    · exact List.prefix_rfl
  refine ⟨h.wire.trans (hlonger.filterMap _), fun hr => ?_⟩
  obtain ⟨hle, hall, hwire⟩ := h.running hr
  have htake : (o.handed ++ cmds).take o.taken = o.handed.take o.taken :=
    List.take_append_of_le_length hle
  rw [htake]
  exact ⟨by rw [List.length_append]; exact Nat.le_add_right_of_le hle, hall, hwire⟩

end Out.Sends

theorem Shared.sends_of_step {cfg : Config} {s s' : Shared} {a : Act} (h : s.out.Sends)
    (hstep : s.step cfg a = some s') : s'.out.Sends := by
  by_cases ha : ∃ b, a = .writer b
  · obtain ⟨b, rfl⟩ := ha
    simp only [step] at hstep
    unfold Shared.writerStep at hstep
    repeat' split at hstep
    all_goals cases hstep
    · rename_i f hw hget
      exact h.recv hw hget
    · exact ⟨h.wire, fun hr => by cases hr⟩
    · rename_i f hw
      exact h.sent hw
    -- a writer that fails or exits puts nothing on the wire any more
    all_goals exact ⟨h.wire, fun hr => by cases hr⟩
  · obtain ⟨cmds, hout⟩ := out_of_step hstep (not_exists.mp ha)
    rw [hout]
    exact h.queue cmds

/-- **Frames arrive in order, however the connection ends.**  Also when ends close, shut down or
fail to write, what a reader has taken is the beginning of what the other end queued before its
first `Close`: nothing is lost in between, doubled, overtaken, or arrives from behind a `Close`. -/
theorem frames_arrive_in_order {cfg : Side → Config} {served : Side → Served}
    {as : List DuplexAct} {d : Duplex}
    (h : Run (Steps (Duplex.step cfg)) (.established served) as d) (side : Side) :
    (d side).received <+: frames ((d side.peer).out.handed.takeWhile WriterCmd.isSend) := by
  have hin : d.InOrder := h.state_invariant (I := Duplex.InOrder) (fun _ => List.prefix_rfl)
    fun d a d' hd hstep => hd.step hstep
  obtain ⟨bs, hbs⟩ := Duplex.exists_run_side h side.peer
  have hsends : (d side.peer).out.Sends :=
    hbs.state_invariant (I := fun s => s.out.Sends)
      ⟨List.prefix_rfl, fun _ => ⟨Nat.le_refl 0, nofun, rfl⟩⟩
      fun s a s' hs hstep => Shared.sends_of_step hs hstep
  exact (hin side).trans hsends.wire

/-- The dialer queues a note, a `Close` and another note. -/
def notesAroundClose : List DuplexAct :=
  [.act .dialer (.closing (.notify "a" .nil)), .act .dialer (.closing (.close "bye")),
    .act .dialer (.closing (.notify "b" .nil)), .act .dialer (.writer .recv),
    .act .dialer (.writer .sent), .deliver .acceptor, .act .dialer (.writer .recv)]

theorem frames_arrive_in_order_notesAroundClose :
    ∃ d, Run (Steps (Duplex.step (Config.bare · .msgpack))) (.established fun _ => .default)
        notesAroundClose d ∧ (d .acceptor).received.length = 1 ∧
      (d .acceptor).received <+: frames ((d .dialer).out.handed.takeWhile WriterCmd.isSend) := by
  obtain ⟨d, hrun, hone⟩ := exists_run_of_exec (Duplex.step (Config.bare · .msgpack))
    (.established fun _ => .default) notesAroundClose
    (fun d => (d .acceptor).received.length = 1) rfl
  exact ⟨d, hrun, hone, frames_arrive_in_order hrun .acceptor⟩

end Zyris.Core
