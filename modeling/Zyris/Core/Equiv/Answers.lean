import Zyris.Core.Equiv.Client
import Zyris.Core.Equiv.Serve

/-!
# One final answer for each request

The reader, the handler task and a `replace` race on the `replied` flag of an accepted request; the
party that sets it holds the answer until it has handed it over.
-/

namespace Zyris.Core

open Proto

/-! ### Answers in the log -/

/-- The request that a command answers. -/
def WriterCmd.finalId : WriterCmd → Option Nat
  | .send f => f.finalId
  | .close _ _ => none

/-- How many final answers to the request `id` were handed to the writer. -/
def answers (log : List WriterCmd) (id : Nat) : Nat := log.countP (·.finalId = some id)

/-- None of the commands is an answer. -/
def NoFinal (cmds : List WriterCmd) : Prop := ∀ c ∈ cmds, c.finalId = none

variable {cmds log log' : List WriterCmd} {st st' : Streams} {s s' : Shared} {x y : Task}
  {f : Task → Task} {cfg : Config} {e : Envelope} {v v' : Serve} {a : Act}

/-- Commands that answer nothing leave the number of answers. -/
theorem answers_noFinal (h : NoFinal cmds) (hl : log' = log ∨ log' = log ++ cmds) (id : Nat) :
    answers log' id = answers log id := by
  rcases hl with rfl | rfl
  · rfl
  have : cmds.countP (·.finalId = some id) = 0 := by
    rw [List.countP_eq_zero]
    intro c hc
    simp [h c hc]
  rw [answers, List.countP_append, this]
  rfl

theorem noFinal_nil : NoFinal [] := fun c hc => absurd hc (by simp)

theorem noFinal_encode (h : Frame.finalId (.control e) = none) : NoFinal (cfg.encode e) := by
  intro c hc
  rw [mem_encode hc]
  exact h

/-- None of the commands is one of the serving half. -/
def NoReply (cmds : List WriterCmd) : Prop := ∀ c ∈ cmds, ¬ c.Replies

theorem NoReply.noFinal (h : NoReply cmds) : NoFinal cmds := by
  intro c hc
  obtain ⟨e | _⟩ | _ := c
  · cases e with
    | res id p => exact absurd (.res id p) (h _ hc)
    | err id error => exact absurd (.err id error) (h _ hc)
    | _ => rfl
  · rfl
  · rfl

theorem noReply_nil : NoReply [] := fun c hc => absurd hc (by simp)

/-- Grants answer nothing. -/
theorem noReply_of_grants (h : ∀ c ∈ cmds, c.Grants) : NoReply cmds := by
  intro c hc hr
  cases h c hc <;> cases hr

/-- One envelope answers at most the request it is the answer to. -/
theorem answers_encode (cfg : Config) {id : Nat} (h : Frame.finalId (.control e) = some id)
    (hl : log' = log ∨ log' = log ++ cfg.encode e) :
    (∀ id', id' ≠ id → answers log' id' = answers log id') ∧
      answers log' id ≤ answers log id + 1 := by
  rcases hl with rfl | rfl
  · exact ⟨fun _ _ => rfl, Nat.le_succ _⟩
  · unfold Config.encode answers
    split_ifs
    · simp only [List.countP_append, List.countP_singleton, WriterCmd.finalId, h]
      exact ⟨fun id' hne => by simp [Ne.symm hne], by simp⟩
    · simp

/-! ### What a step does to an answer -/

/-- The task has set the flag and has not handed its answer over. -/
def TaskPc.holdsReply : TaskPc → Bool
  | .detaching .. => true
  | .registering .. => true
  | .pushingRes .. => true
  | .pushingErr _ => true
  | _ => false

/-- A change of a task that its answer does not see: request and flag stay, and it comes to hold no
answer. -/
structure Task.Quiet (task task' : Task) : Prop where
  id : task'.id = task.id
  capability : task'.capability = task.capability
  replied : task'.replied = task.replied
  holds : task'.pc.holdsReply = true → task.pc.holdsReply = true

theorem After.pc_holdsReply (next : After) : next.pc.holdsReply = false := by cases next <;> rfl

theorem Outcome.pc_holdsReply (o : Outcome) (stream : Option Nat) :
    (o.pc stream).holdsReply = false := by
  cases o <;> cases stream <;> rfl

namespace Serve

variable {env : Env} {e : Emit}

/-- A step of a handler task leaves its answer alone, sets the flag, or hands over the answer it
holds. -/
theorem TaskStep.reply {t : Nat} {task : Task} (h : TaskStep cfg env v t task v' e) :
    v'.reader = v.reader ∧ v'.replaces = v.replaces ∧
    (v'.inflight = v.inflight ∨ ∃ id, v'.inflight = v.inflight.remove id) ∧
    ∃ f, v'.tasks = v.tasks.update t f ∧
      (task.Quiet (f task) ∧ NoFinal e.cmds ∨
      (task.replied = none ∧ (f task).id = task.id ∧ (f task).capability = task.capability ∧
        (f task).replied = some .task ∧ e.cmds = []) ∨
      (task.pc.holdsReply = true ∧ (f task).id = task.id ∧
        (f task).capability = task.capability ∧ (f task).replied = task.replied ∧
        (f task).pc.holdsReply = false ∧
        ∃ env, Frame.finalId (.control env) = some task.id ∧ e.cmds = cfg.encode env)) := by
  cases h with
  | dispatched o _ =>
    refine ⟨rfl, rfl, .inl rfl, _, rfl, .inl ⟨⟨rfl, rfl, rfl, fun h => ?_⟩, noFinal_nil⟩⟩
    exact absurd h (by simp [Outcome.pc_holdsReply])
  | replyLate result next _ _ | spawned all next _ =>
    refine ⟨rfl, rfl, .inl rfl, _, rfl, .inl ⟨⟨rfl, rfl, rfl, fun h => ?_⟩, noFinal_nil⟩⟩
    exact absurd h (by simp [After.pc_holdsReply])
  | replyTaken result next pc _ hr _ | refuseTaken err _ hr =>
    exact ⟨rfl, rfl, .inl rfl, _, rfl,
      Or.inr (.inl ⟨hr, rfl, rfl, by simp [Task.takeReply, hr], rfl⟩)⟩
  | allocated result ids next hpc _ | detached result ids next d hpc _ _
  | registered result item todo all next hpc | registeredAll result all next hpc =>
    exact ⟨rfl, rfl, .inl rfl, _, rfl,
      Or.inl ⟨⟨rfl, rfl, rfl, fun _ => by rw [hpc]; rfl⟩, noFinal_nil⟩⟩
  | pushedRes result all next hpc | pushedErr err hpc =>
    exact ⟨rfl, rfl, .inl rfl, _, rfl,
      Or.inr (.inr ⟨by rw [hpc]; rfl, rfl, rfl, rfl, rfl, _, rfl, rfl⟩)⟩
  | pushedData gate seq stream bytes pc _ _ hpc =>
    refine ⟨rfl, rfl, .inl rfl, _, rfl, .inl ⟨⟨rfl, rfl, rfl, fun h => ?_⟩, ?_⟩⟩
    · rcases hpc with ⟨rfl, -⟩ | ⟨rfl, -⟩ <;> exact absurd h (by simp [TaskPc.holdsReply])
    · simp [NoFinal, Emit.send, WriterCmd.finalId, Frame.finalId]
  | pushedEnd error stream _ _ =>
    refine ⟨rfl, rfl, .inl rfl, _, rfl, .inl ⟨⟨rfl, rfl, rfl, by simp [TaskPc.holdsReply]⟩, ?_⟩⟩
    cases error <;> exact noFinal_encode rfl
  | left _ =>
    exact ⟨rfl, rfl, .inr ⟨_, rfl⟩, _, rfl,
      Or.inl ⟨⟨rfl, rfl, rfl, by simp [TaskPc.holdsReply]⟩, noFinal_nil⟩⟩
  | _ =>
    exact ⟨rfl, rfl, .inl rfl, _, rfl,
      Or.inl ⟨⟨rfl, rfl, rfl, by simp [TaskPc.holdsReply]⟩, noFinal_nil⟩⟩

/-- A step of a sender answers nothing, and leaves the calls alone. -/
theorem SenderStep.reply {k : Nat} {x : Sender} (h : SenderStep cfg env v k x v' e) :
    v'.tasks = v.tasks ∧ v'.reader = v.reader ∧ v'.replaces = v.replaces ∧
      v'.inflight = v.inflight ∧ NoFinal e.cmds := by
  cases h with
  | pushedData =>
    exact ⟨rfl, rfl, rfl, rfl, by simp [NoFinal, Emit.send, WriterCmd.finalId, Frame.finalId]⟩
  | pushedEnd => exact ⟨rfl, rfl, rfl, rfl, noFinal_encode rfl⟩
  | _ => exact ⟨rfl, rfl, rfl, rfl, noFinal_nil⟩

end Serve

/-! ### Steps outside the serving half -/

/-- A call of this end answers nothing. -/
theorem Client.callStep_noReply {env : Env} {v v' : Client} {a : CallAct} {e : Emit}
    (h : v.callStep cfg env a = some (v', e)) : NoReply e.cmds := by
  intro d hd hr
  obtain ⟨c, rfl⟩ := Client.callStep_sends h d hd
  cases hr

theorem Client.reaction_noReply (cfg : Config) (v : Client) (f : Frame) :
    NoReply (v.reaction cfg f) := noReply_of_grants (v.reaction_grants cfg f)

/-- What happens to the serving half while another part of the end takes a step. -/
inductive Serve.Outside (v : Serve) : Serve → Prop
  | unchanged : Outside v v
  | drainedCredits : Outside v { v with credits := v.credits.drain }
  | drainedInflight : Outside v v.drainInflight
  | announced (r : Nat) (x : Replace) (pc : ReplacePc) : v.replaces.get r = some x →
    (x.pc = .announcing ∨ ∃ i, x.pc = .awaiting i) → (pc = .finished ∨ ∃ i, pc = .awaiting i) →
    Outside v (v.replacePc r pc)

theorem Serve.Outside.reader_eq (h : v.Outside v') : v'.reader = v.reader := by
  cases h <;> rfl

/-- The step is one of the serving half, or of the reader taking a frame. -/
def Act.serves : Act → Bool
  | .serve _ => true
  | .receive _ => true
  | _ => false

/-- Commands are queued, or dropped behind a writer that is gone. -/
theorem Shared.hand_cases (s : Shared) (cmds : List WriterCmd) :
    (s.hand cmds).out.handed = s.out.handed ∨ (s.hand cmds).out.handed = s.out.handed ++ cmds := by
  unfold Shared.hand
  split_ifs
  · exact .inr rfl
  · exact .inl (List.append_nil _)

theorem Shared.handed_hand (s : Shared) (h : NoReply cmds) :
    ∃ cmds', NoReply cmds' ∧ (s.hand cmds).out.handed = s.out.handed ++ cmds' := by
  refine ⟨_, ?_, rfl⟩
  split_ifs
  · exact h
  · exact noReply_nil

theorem Shared.handed_nil (s : Shared) :
    ∃ cmds, NoReply cmds ∧ s.out.handed = s.out.handed ++ cmds :=
  ⟨[], noReply_nil, (List.append_nil _).symm⟩

/-- A `shutdown` answers nothing. -/
theorem Shared.shutdownRun_outside {k : Nat} {x : Shutdown} (h : s.shutdownRun k x = some s') :
    s.serve.Outside s'.serve ∧ s'.received = s.received ∧
      ∃ cmds, NoReply cmds ∧ s'.out.handed = s.out.handed ++ cmds := by
  unfold Shared.shutdownRun at h
  split at h <;> cases h
  case h_4 => exact ⟨.drainedCredits, rfl, s.handed_nil⟩
  case h_6 => exact ⟨.drainedInflight, rfl, s.handed_nil⟩
  case h_9 =>
    refine ⟨.unchanged, rfl, Shared.handed_hand { s with closing := _ } fun c hc => ?_⟩
    rw [List.mem_singleton.mp hc]
    exact nofun
  all_goals exact ⟨.unchanged, rfl, s.handed_nil⟩

/-- A step outside the serving half answers nothing. -/
theorem Shared.step_outside (ha : a.serves = false) (h : s.step cfg a = some s') :
    s.serve.Outside s'.serve ∧ s'.received = s.received ∧
      ∃ cmds, NoReply cmds ∧ s'.out.handed = s.out.handed ++ cmds := by
  cases acts_of_step h with
  | call hstep => exact ⟨.unchanged, rfl, s.handed_hand (Client.callStep_noReply hstep)⟩
  | stream hstep =>
    have hreads := (Client.streamStep_reads hstep).2.2
    exact ⟨.unchanged, rfl, s.handed_hand (noReply_of_grants hreads.grants)⟩
  | serve | receive => cases ha
  | announced hx hpc _ =>
    exact ⟨.announced _ _ _ hx (.inl hpc) (.inr ⟨_, rfl⟩), rfl, s.handed_nil⟩
  | announceOver hx hor =>
    refine ⟨.announced _ _ _ hx ?_ (.inl rfl), rfl, s.handed_nil⟩
    exact hor.imp And.left fun ⟨i, _, _, hpc, _⟩ => ⟨i, hpc⟩
  | shutdownRun _ hrun => exact Shared.shutdownRun_outside hrun
  | notify =>
    refine ⟨.unchanged, rfl, s.handed_hand fun c hc => ?_⟩
    rw [mem_encode hc]
    exact nofun
  | close =>
    refine ⟨.unchanged, rfl, s.handed_hand fun c hc => ?_⟩
    rw [List.mem_singleton.mp hc]
    exact nofun
  | shutdown => exact ⟨.unchanged, rfl, s.handed_nil⟩
  | writer hout => exact ⟨.unchanged, rfl, [], noReply_nil, by rw [List.append_nil, hout]⟩

/-! ### The invariant -/

/-- The call belongs to a task of the request `id`. -/
def Owns (tasks : Arena Task) (id : Nat) (call : InflightCall) : Prop :=
  ∃ task, tasks.get call.task = some task ∧ task.id = id ∧ task.capability = call.capability

/-- The tasks have distinct requests and at most one answer each, none while the flag is not set or
the answer is held. -/
structure TasksOk (tasks : Arena Task) (log : List WriterCmd) (ids : List Nat) : Prop where
  task_id : ∀ t task, tasks.get t = some task → task.id ∈ ids
  task_inj : ∀ t u x y, tasks.get t = some x → tasks.get u = some y → x.id = y.id → t = u
  unseen : ∀ id, id ∉ ids → answers log id = 0
  atMost : ∀ id, answers log id ≤ 1
  unreplied : ∀ t task, tasks.get t = some task → task.replied = none → answers log task.id = 0
  held : ∀ t task, tasks.get t = some task → task.pc.holdsReply = true →
    task.replied = some .task ∧ answers log task.id = 0

/-- The reader is busy with a request without task and answer, or with an answer that is its to
give. -/
def ReaderOk (tasks : Arena Task) (log : List WriterCmd) (ids : List Nat) : ReaderPc → Prop
  | .accepted r => r.id ∈ ids ∧ answers log r.id = 0 ∧
    ∀ t task, tasks.get t = some task → task.id ≠ r.id
  | .pushing e => ∀ id, Frame.finalId (.control e) = some id → id ∈ ids ∧ answers log id = 0 ∧
    ∀ t task, tasks.get t = some task → task.id = id →
      task.replied = some .reader ∧ e = .err id .canceled
  | .canceling id call => Owns tasks id call
  | _ => True

/-- All victims a `replace` still has to fail, with the name it revokes. -/
def ReplacePc.AllVictims (P : String → Nat × InflightCall → Prop) : ReplacePc → Prop
  | .failing name ws => ∀ w ∈ ws, P name w
  | .answering name w ws => ∀ u ∈ w :: ws, P name u
  | .pushingErr name _ w ws => ∀ u ∈ w :: ws, P name u
  | .closingGate name _ w ws => ∀ u ∈ w :: ws, P name u
  | .aborting name w ws => ∀ u ∈ w :: ws, P name u
  | _ => True

theorem ReplacePc.AllVictims.mono {P Q : String → Nat × InflightCall → Prop} {pc : ReplacePc}
    (h : pc.AllVictims P) (hPQ : ∀ name w, P name w → Q name w) : pc.AllVictims Q := by
  cases pc with
  | checking | revoking | announcing | awaiting | finished => trivial
  | failing name ws => exact fun w hw => hPQ name w (h w hw)
  | answering name w ws | pushingErr name stream w ws | closingGate name stream w ws
  | aborting name w ws => exact fun u hu => hPQ name u (h u hu)

/-- The victim is a call on the capability the `replace` revokes. -/
def Victim (tasks : Arena Task) (name : String) (w : Nat × InflightCall) : Prop :=
  w.2.capability = name ∧ Owns tasks w.1 w.2

/-- The `replace` `r` is busy with calls of tasks, and with an answer that is its to give. -/
structure ReplaceOk (tasks : Arena Task) (log : List WriterCmd) (r : Nat) (pc : ReplacePc) :
    Prop where
  victims : pc.AllVictims (Victim tasks)
  answering : ∀ name w rest, pc = .answering name w rest →
    ∃ task, tasks.get w.2.task = some task ∧ task.id = w.1 ∧ task.replied = some (.replace r) ∧
      answers log w.1 = 0

/-- The invariant: at most one answer to each request. -/
structure Answers (v : Serve) (log : List WriterCmd) (ids : List Nat) : Prop where
  tasks : TasksOk v.tasks log ids
  reader : ReaderOk v.tasks log ids v.reader
  replaces : ∀ r x, v.replaces.get r = some x → ReplaceOk v.tasks log r x.pc
  inflight : ∀ id call, v.inflight.get id = some call → Owns v.tasks id call

/-- The task is still of the same request, and its flag, once set, stays. -/
structure Task.Keeps (x y : Task) : Prop where
  id : y.id = x.id
  capability : y.capability = x.capability
  replied : ∀ p, x.replied = some p → y.replied = some p

theorem Task.keeps_refl (x : Task) : x.Keeps x := ⟨rfl, rfl, fun _ h => h⟩

theorem Task.Keeps.trans {z : Task} (h : x.Keeps y) (h' : y.Keeps z) : x.Keeps z :=
  ⟨h'.id.trans h.id, h'.capability.trans h.capability, fun p hp => h'.replied p (h.replied p hp)⟩

/-- A quiet step keeps what the others know of a task. -/
theorem Task.Quiet.keeps (h : x.Quiet y) : x.Keeps y :=
  ⟨h.id, h.capability, fun p hp => by rw [h.replied, hp]⟩

/-! ### What the other parties do to a task -/

/-- Another party works on the task: it may set its flags, but not move it. -/
structure Task.Aside (x y : Task) : Prop where
  id : y.id = x.id
  capability : y.capability = x.capability
  stream : y.stream = x.stream
  outcome : y.outcome = x.outcome
  pc : y.pc = x.pc
  replied : y.replied = x.replied ∨ x.replied = none ∧ ∃ p, p ≠ .task ∧ y.replied = some p

/-- An abort stays, too. -/
structure Task.Flagged (x y : Task) : Prop extends x.Aside y where
  yielded : y.yielded = x.yielded
  aborted : x.aborted = true → y.aborted = true

/-- The party does not answer for the task. -/
def Task.Aborts (x y : Task) : Prop := x.Flagged y ∧ y.replied = x.replied

theorem Task.aside_refl (x : Task) : x.Aside x := ⟨rfl, rfl, rfl, rfl, rfl, .inl rfl⟩

theorem Task.flagged_refl (x : Task) : x.Flagged x := ⟨x.aside_refl, rfl, fun h => h⟩

theorem Task.aborts_refl (x : Task) : x.Aborts x := ⟨x.flagged_refl, rfl⟩

theorem Task.aborts_aborted (x : Task) (done : Bool) :
    x.Aborts { x with aborted := true, done := done } :=
  ⟨⟨⟨rfl, rfl, rfl, rfl, rfl, .inl rfl⟩, rfl, fun _ => rfl⟩, rfl⟩

/-- To take a task's flag is a step beside it. -/
theorem Task.flagged_takeReply (x : Task) {p : Party} (hp : p ≠ .task) :
    x.Flagged (x.takeReply p) := by
  refine ⟨⟨rfl, rfl, rfl, rfl, rfl, ?_⟩, rfl, fun h => h⟩
  unfold Task.takeReply
  cases h : x.replied with
  | none => exact .inr ⟨rfl, p, hp, rfl⟩
  | some q => exact .inl rfl

theorem Task.Aside.keeps (h : x.Aside y) : x.Keeps y := by
  refine ⟨h.id, h.capability, fun p hp => ?_⟩
  rcases h.replied with hr | ⟨hr, -⟩
  · rw [hr, hp]
  · rw [hp] at hr
    cases hr

namespace Serve

variable {env : Env} {e : Emit} {closed : Bool} {r : Nat} {x : Replace}

/-- The reader spawns a task, or touches no more than flags. -/
theorem ReaderStep.tasks (h : ReaderStep cfg v v' e) :
    (∃ r, v.reader = .accepted r ∧ e = .none ∧
      v' = { v with tasks := v.tasks.alloc r.task, reader := .spawned v.tasks.size }) ∨
    v.tasks.Rel Task.Flagged v'.tasks ∧ v'.replaces = v.replaces ∧ v'.senders = v.senders ∧
      ∀ r, v.reader ≠ .accepted r ∧ v'.reader ≠ .accepted r := by
  cases h with
  | spawned r hr => exact .inl ⟨r, hr, rfl, rfl⟩
  | cancelTaken _ _ _ hr =>
    exact .inr ⟨Arena.rel_update Task.flagged_refl fun x _ => x.flagged_takeReply (by simp), rfl,
      rfl, fun r => ⟨by simp [hr], by simp⟩⟩
  | cancelLate _ _ _ pc hr _ _ hor =>
    refine .inr ⟨Arena.rel_update Task.flagged_refl fun x _ => x.flagged_takeReply (by simp), rfl,
      rfl, fun r => ⟨by simp [hr], ?_⟩⟩
    rcases hor with ⟨stream, -, rfl⟩ | ⟨-, rfl⟩ <;> simp
  | pushed _ hr | inserted _ _ hr | skipped _ _ hr | closedGate _ _ hr | gateGone _ hr =>
    exact .inr ⟨Arena.rel_refl Task.flagged_refl _, rfl, rfl, fun r => ⟨by simp [hr], by simp⟩⟩

/-- A `replace` touches flags and aborts tasks. -/
theorem ReplaceStep.tasks (h : ReplaceStep cfg closed v r x v' e) :
    v.tasks.Rel Task.Flagged v'.tasks ∧ v'.reader = v.reader ∧ v'.senders = v.senders := by
  cases h with
  | taken | late =>
    exact ⟨Arena.rel_update Task.flagged_refl fun x _ => x.flagged_takeReply (by simp), rfl, rfl⟩
  | aborted =>
    exact ⟨Arena.rel_update Task.flagged_refl fun x _ => (x.aborts_aborted x.done).1, rfl, rfl⟩
  | _ => exact ⟨Arena.rel_refl Task.flagged_refl _, rfl, rfl⟩

end Serve

section Keep

variable {a b : Arena Task} {ids : List Nat}

/-- An entry of `inflight` keeps its owner. -/
theorem Owns.keep {id : Nat} {call : InflightCall} (h : Owns a id call)
    (hk : ∀ t x, a.get t = some x → ∃ y, b.get t = some y ∧ x.Keeps y) : Owns b id call := by
  obtain ⟨x, hx, hid, hcap⟩ := h
  obtain ⟨y, hy, hxy⟩ := hk _ x hx
  exact ⟨y, hy, by rw [hxy.id, hid], by rw [hxy.capability, hcap]⟩

/-- What the reader is about to answer stays open. -/
theorem ReaderOk.keep {pc : ReaderPc} (h : ReaderOk a log ids pc) (hk : a.Rel Task.Keeps b) :
    ReaderOk b log ids pc := by
  cases pc with
  | accepted r =>
    obtain ⟨hid, h0, hne⟩ := h
    refine ⟨hid, h0, fun t y hy => ?_⟩
    obtain ⟨x, hx, hxy⟩ := hk.get hy
    rw [hxy.id]
    exact hne t x hx
  | pushing e =>
    intro id hid
    obtain ⟨hmem, h0, hrep⟩ := h id hid
    refine ⟨hmem, h0, fun t y hy hyid => ?_⟩
    obtain ⟨x, hx, hxy⟩ := hk.get hy
    obtain ⟨hr, he⟩ := hrep t x hx (hxy.id ▸ hyid)
    exact ⟨hxy.replied _ hr, he⟩
  | canceling id call => exact Owns.keep h fun _ _ => hk.get_right
  | idle => trivial
  | spawned t => trivial
  | cancelGate stream => trivial

/-- The victims of a `replace` stay what they are. -/
theorem ReplaceOk.keep {r : Nat} {pc : ReplacePc} (h : ReplaceOk a log r pc)
    (hk : ∀ t x, a.get t = some x → ∃ y, b.get t = some y ∧ x.Keeps y) : ReplaceOk b log r pc := by
  refine ⟨h.victims.mono fun name w hw => ⟨hw.1, hw.2.keep hk⟩, fun name w rest hpc => ?_⟩
  obtain ⟨x, hx, hid, hrep, h0⟩ := h.answering name w rest hpc
  obtain ⟨y, hy, hxy⟩ := hk _ x hx
  exact ⟨y, hy, by rw [hxy.id, hid], hxy.replied _ hrep, h0⟩

/-- A flag set anew has no answer behind it, and whoever holds an answer is entitled to it. -/
theorem TasksOk.keep (h : TasksOk a log ids) (hk : a.Rel Task.Keeps b)
    (hheld : ∀ t y, b.get t = some y → y.pc.holdsReply = true →
      y.replied = some .task ∧ answers log y.id = 0) : TasksOk b log ids where
  task_id t y hy := by
    obtain ⟨x, hx, hxy⟩ := hk.get hy
    rw [hxy.id]
    exact h.task_id t x hx
  task_inj t u y z hy hz hid := by
    obtain ⟨x, hx, hxy⟩ := hk.get hy
    obtain ⟨w, hw, hwz⟩ := hk.get hz
    exact h.task_inj t u x w hx hw (by rw [← hxy.id, hid, hwz.id])
  unseen := h.unseen
  atMost := h.atMost
  unreplied t y hy hrep := by
    obtain ⟨x, hx, hxy⟩ := hk.get hy
    rw [hxy.id]
    refine h.unreplied t x hx ?_
    cases hxr : x.replied with
    | none => rfl
    | some p => rw [hxy.replied p hxr] at hrep; exact absurd hrep (by simp)
  held := hheld

/-- Steps beside the tasks keep them. -/
theorem TasksOk.aside (h : TasksOk a log ids) (hk : a.Rel Task.Aside b) : TasksOk b log ids := by
  refine h.keep (hk.mono fun _ _ => Task.Aside.keeps) fun t y hy hh => ?_
  obtain ⟨x, hx, hxy⟩ := hk.get hy
  rw [hxy.pc] at hh
  obtain ⟨hrep, h0⟩ := h.held t x hx hh
  exact ⟨hxy.keeps.replied _ hrep, hxy.id ▸ h0⟩

/-- One more answer to `j`, by whoever has set its flag. -/
theorem TasksOk.answer (h : TasksOk a log ids) {j : Nat} (hj : j ∈ ids) (h0 : answers log j = 0)
    (hne : ∀ id, id ≠ j → answers log' id = answers log id)
    (hle : answers log' j ≤ answers log j + 1)
    (hdone : ∀ t x, a.get t = some x → x.id = j → x.replied ≠ none ∧ x.pc.holdsReply = false) :
    TasksOk a log' ids where
  task_id := h.task_id
  task_inj := h.task_inj
  unseen id hid := by
    rw [hne id (fun he => hid (he ▸ hj)), h.unseen id hid]
  atMost id := by
    by_cases he : id = j
    · rw [he]
      omega
    · rw [hne id he]
      exact h.atMost id
  unreplied t x hx hrep := by
    rw [hne x.id fun he => (hdone t x hx he).1 hrep]
    exact h.unreplied t x hx hrep
  held t x hx hh := by
    have hxj : x.id ≠ j := fun he => by
      rw [(hdone t x hx he).2] at hh
      exact absurd hh (by simp)
    rw [hne x.id hxj]
    exact h.held t x hx hh

/-- An answer by another party leaves the reader's. -/
theorem ReaderOk.answer {pc : ReaderPc} (h : ReaderOk a log ids pc) {j : Nat}
    (hne : ∀ id, id ≠ j → answers log' id = answers log id) {t : Nat} {x : Task}
    (hx : a.get t = some x) (hxj : x.id = j) (hrep : x.replied ≠ some .reader) :
    ReaderOk a log' ids pc := by
  cases pc with
  | accepted r =>
    obtain ⟨hid, h0, hnew⟩ := h
    refine ⟨hid, ?_, hnew⟩
    rw [hne r.id (fun he => hnew t x hx (hxj.trans he.symm)), h0]
  | pushing e =>
    intro id hid
    obtain ⟨hmem, h0, hr⟩ := h id hid
    refine ⟨hmem, ?_, hr⟩
    rw [hne id (fun he => hrep (hr t x hx (hxj.trans he.symm)).1), h0]
  | canceling id call => exact h
  | idle => trivial
  | spawned t => trivial
  | cancelGate stream => trivial

/-- An answer by another party leaves those of a `replace`. -/
theorem ReplaceOk.answer {r : Nat} {pc : ReplacePc} (h : ReplaceOk a log r pc) {j : Nat}
    (hne : ∀ id, id ≠ j → answers log' id = answers log id)
    (hrep : ∀ t x, a.get t = some x → x.id = j → x.replied ≠ some (.replace r)) :
    ReplaceOk a log' r pc := by
  refine ⟨h.victims, fun name w rest hpc => ?_⟩
  obtain ⟨x, hx, hid, hr, h0⟩ := h.answering name w rest hpc
  refine ⟨x, hx, hid, hr, ?_⟩
  rw [hne w.1 (fun he => hrep _ x hx (hid.trans he) hr), h0]

end Keep

/-- A request is accepted, or answered at once. -/
theorem Serve.handleRequest_cases (cfg : Config) (v : Serve) (id : Nat) (method : String)
    (params : Payload) (stream : Option Nat) (metadata : Payload) :
    (∃ r : Accepted, r.id = id ∧
      v.handleRequest cfg id method params stream metadata = .accepted r) ∨
    ∃ e, Frame.finalId (.control e) = some id ∧
      v.handleRequest cfg id method params stream metadata = .pushing e := by
  unfold Serve.handleRequest
  split_ifs
  · refine .inr ⟨_, ?_, rfl⟩
    unfold Config.announceAnswer
    split <;> rfl
  · split
    · exact .inr ⟨_, rfl, rfl⟩
    · split
      · exact .inr ⟨_, rfl, rfl⟩
      · exact .inl ⟨_, rfl, rfl⟩

/-- The senders there were, and one for each item. -/
theorem Serve.get_spawned {items : List Detached} {senders : Arena Sender} {k : Nat} {z : Sender}
    (h : (items.foldl (fun senders item => senders.alloc ⟨item, .starting⟩) senders).get k =
      some z) : senders.get k = some z ∨ ∃ item ∈ items, z = ⟨item, .starting⟩ := by
  induction items generalizing senders with
  | nil => exact .inl h
  | cons item items ih =>
    rcases ih h with h | ⟨item', hitem, rfl⟩
    · rcases Arena.get_alloc_cases h with ⟨-, rfl⟩ | h
      · exact .inr ⟨item, List.mem_cons_self, rfl⟩
      · exact .inl h
    · exact .inr ⟨item', List.mem_cons_of_mem _ hitem, rfl⟩

/-- A `replace` stays where it is, or goes on with its announcement. -/
def Replace.Announces (x y : Replace) : Prop :=
  y = x ∨ (x.pc = .announcing ∨ ∃ i, x.pc = .awaiting i) ∧
    (y.pc = .finished ∨ ∃ i, y.pc = .awaiting i) ∧ y.revoked = x.revoked

theorem Replace.announces_refl (x : Replace) : x.Announces x := Or.inl rfl

/-- What the rest of the end makes of the serving half: it aborts tasks and takes out calls. -/
structure Serve.Beside (v v' : Serve) : Prop where
  tasks : v.tasks.Rel Task.Aborts v'.tasks
  replaces : v.replaces.Rel Replace.Announces v'.replaces
  inflight : ∀ id call, v'.inflight.get id = some call → v.inflight.get id = some call
  spawned : ∀ t, v'.reader = .spawned t → v.reader = .spawned t
  senders : v'.senders = v.senders

/-- Steps outside the serving half change no call. -/
theorem Serve.Outside.beside (h : v.Outside v') : v.Beside v' := by
  have htasks := Arena.rel_refl Task.aborts_refl v.tasks
  have hrep := Arena.rel_refl Replace.announces_refl v.replaces
  cases h with
  | unchanged | drainedCredits => exact ⟨htasks, hrep, fun _ _ h => h, fun _ h => h, rfl⟩
  | drainedInflight =>
    refine ⟨Arena.rel_updateAll Task.aborts_refl fun x => x.aborts_aborted x.done, hrep,
      fun id call hc => ?_, fun _ h => h, rfl⟩
    simp [Serve.drainInflight] at hc
  | announced r x pc hx hpc hnext =>
    refine ⟨htasks, Arena.rel_update Replace.announces_refl fun y hy => ?_, fun _ _ h => h,
      fun _ h => h, rfl⟩
    obtain rfl := Option.mem_unique hx hy
    exact .inr ⟨hpc, hnext, rfl⟩

/-- Other frames change no call. -/
theorem Serve.handle_beside (cfg : Config) (v : Serve) (f : Frame) : v.Beside (v.handle cfg f) := by
  have htasks := Arena.rel_refl Task.aborts_refl v.tasks
  have hrep := Arena.rel_refl Replace.announces_refl v.replaces
  unfold Serve.handle
  split
  · refine ⟨htasks, hrep, fun _ _ h => h, fun t ht => ?_, rfl⟩
    rcases v.handleRequest_cases cfg _ _ _ _ _ with ⟨r, -, hr⟩ | ⟨e, -, hr⟩ <;>
      exact absurd (hr.symm.trans ht) (by simp)
  · unfold Serve.handleCancel
    split
    · exact ⟨Arena.rel_update Task.aborts_refl fun x _ => x.aborts_aborted true, hrep,
        fun _ _ h => (Table.get_of_get_remove h).2, nofun, rfl⟩
    · exact ⟨htasks, hrep, fun _ _ h => h, fun _ h => h, rfl⟩
  all_goals exact ⟨htasks, hrep, fun _ _ h => h, fun _ h => h, rfl⟩

namespace Answers

variable {ids : List Nat}

/-- Nothing is asked and nothing answered at the start. -/
theorem start (served : Served) : Answers (Shared.start served).serve [] [] where
  tasks := {
    task_id := fun t task h => by simp [Shared.start] at h
    task_inj := fun t u x y h => by simp [Shared.start] at h
    unseen := fun id _ => rfl
    atMost := fun id => by simp [answers]
    unreplied := fun t task h => by simp [Shared.start] at h
    held := fun t task h => by simp [Shared.start] at h }
  reader := trivial
  replaces r x h := by simp [Shared.start] at h
  inflight id call h := by simp [Shared.start] at h

/-- Only the number of answers counts. -/
theorem of_log (h : Answers v log ids) (hl : ∀ id, answers log' id = answers log id) :
    Answers v log' ids := by
  have hl' : answers log' = answers log := funext hl
  obtain ⟨⟨h1, h2, h3, h4, h5, h6⟩, hr, hp, hi⟩ := h
  refine ⟨⟨h1, h2, by rwa [hl'], by rwa [hl'], by rwa [hl'], by rwa [hl']⟩, ?_,
    fun r x hx => ?_, hi⟩
  · unfold ReaderOk at hr ⊢
    rwa [hl']
  · obtain ⟨hv, ha⟩ := hp r x hx
    exact ⟨hv, by rwa [hl']⟩

/-- What happens beside the tasks keeps the invariant. -/
theorem keep (h : Answers v log ids) (hk : v.tasks.Rel Task.Keeps v'.tasks)
    (htasks : TasksOk v'.tasks log ids) (hreader : ReaderOk v'.tasks log ids v'.reader)
    (hrep : v'.replaces = v.replaces)
    (hinf : ∀ id call, v'.inflight.get id = some call → v.inflight.get id = some call) :
    Answers v' log ids where
  tasks := htasks
  reader := hreader
  replaces r x hx := by
    rw [hrep] at hx
    exact (h.replaces r x hx).keep fun _ _ => hk.get_right
  inflight id call hc := (h.inflight id call (hinf id call hc)).keep fun _ _ => hk.get_right

/-- Commands that answer nothing keep the invariant. -/
theorem quiet (h : Answers v log ids) (hno : NoFinal cmds) (hl : log' = log ∨ log' = log ++ cmds) :
    Answers v log' ids := h.of_log fun id => answers_noFinal hno hl id

variable {t r : Nat} {task : Task} {env : Env} {e : Emit} {closed : Bool}

/-- The one answer to `j` keeps the invariant. -/
theorem answer (h : Answers v log ids) {j : Nat} {p : Party} (hj : j ∈ ids)
    (h0 : answers log j = 0) (hne : ∀ id, id ≠ j → answers log' id = answers log id)
    (hle : answers log' j ≤ answers log j + 1)
    (hdone : ∀ t x, v.tasks.get t = some x → x.id = j →
      x.replied = some p ∧ x.pc.holdsReply = false)
    (hreader : ReaderOk v.tasks log' ids v.reader)
    (hrep : ∀ r x, v.replaces.get r = some x → p = .replace r → ReplaceOk v.tasks log' r x.pc) :
    Answers v log' ids where
  tasks := h.tasks.answer hj h0 hne hle fun t x hx hxj =>
    ⟨by simp [(hdone t x hx hxj).1], (hdone t x hx hxj).2⟩
  reader := hreader
  replaces r x hx := by
    by_cases hp : p = .replace r
    · exact hrep r x hx hp
    · refine (h.replaces r x hx).answer hne fun t y hy hyj hr => hp ?_
      rw [(hdone t y hy hyj).1] at hr
      exact Option.some.inj hr
  inflight := h.inflight

/-- A step of a handler task, whether the writer is still there or not. -/
theorem taskStep (h : Answers v log ids) (ht : v.tasks.get t = some task)
    (hstep : Serve.TaskStep cfg env v t task v' e) (hl : log' = log ∨ log' = log ++ e.cmds) :
    Answers v' log' ids := by
  obtain ⟨hreader, hrep, hinf, f, htasks, hf⟩ := hstep.reply
  have hinf' : ∀ id call, v'.inflight.get id = some call → v.inflight.get id = some call := by
    intro id call hc
    rcases hinf with hinf | ⟨j, hinf⟩ <;> rw [hinf] at hc
    · exact hc
    · exact (Table.get_of_get_remove hc).2
  -- whatever the step does to the task, it keeps its request and its flag
  have kept (hkeeps : task.Keeps (f task)) (hheld : (f task).pc.holdsReply = true →
      (f task).replied = some .task ∧ answers log (f task).id = 0) : Answers v' log ids := by
    have hk : v.tasks.Rel Task.Keeps v'.tasks := by
      rw [htasks]
      refine Arena.rel_update Task.keeps_refl fun x hx => ?_
      obtain rfl := Option.mem_unique ht hx
      exact hkeeps
    refine h.keep hk (h.tasks.keep hk ?_) (hreader ▸ h.reader.keep hk) hrep hinf'
    rw [htasks]
    exact Arena.forall_update_known h.tasks.held ht hheld
  rcases hf with ⟨hq, hno⟩ | ⟨hnone, hid, hcap, htaken, hcmds⟩ |
    ⟨hholds, hid, hcap, hsame, hdone, env', hfin, hcmds⟩
  · -- the answer does not see the step
    refine (kept hq.keeps fun hh => ?_).quiet hno hl
    rw [hq.id, hq.replied]
    exact h.tasks.held t task ht (hq.holds hh)
  · -- the task sets the flag
    rw [hcmds] at hl
    refine Answers.quiet ?_ noFinal_nil hl
    refine kept ⟨hid, hcap, fun p hp => absurd hp (by simp [hnone])⟩ fun _ => ⟨htaken, ?_⟩
    rw [hid]
    exact h.tasks.unreplied t task ht hnone
  · -- the task hands its answer over
    obtain ⟨hmine, h0⟩ := h.tasks.held t task ht hholds
    have hv' : Answers v' log ids := kept ⟨hid, hcap, fun p hp => hsame.trans hp⟩ fun hh =>
      absurd hh (by simp [hdone])
    have ht' : v'.tasks.get t = some (f task) := by simp [htasks, ht]
    rw [hcmds] at hl
    obtain ⟨hne, hle⟩ := answers_encode cfg hfin hl
    refine hv'.answer (p := .task) (h.tasks.task_id t task ht) h0 hne hle (fun u x hx hxj => ?_)
      (hv'.reader.answer hne ht' hid (by simp [hsame, hmine])) nofun
    obtain rfl := hv'.tasks.task_inj u t x (f task) hx ht' (hxj.trans hid.symm)
    obtain rfl := Option.mem_unique ht' hx
    exact ⟨hsame.trans hmine, hdone⟩

/-- **A step of a sender** keeps the invariant. -/
theorem senderStep {k : Nat} {x : Sender} (h : Answers v log ids)
    (hstep : Serve.SenderStep cfg env v k x v' e) (hl : log' = log ∨ log' = log ++ e.cmds) :
    Answers v' log' ids := by
  obtain ⟨htasks, hreader, hrep, hinf, hno⟩ := hstep.reply
  refine Answers.quiet ⟨htasks ▸ h.tasks, ?_, ?_, ?_⟩ hno hl
  · rw [htasks, hreader]
    exact h.reader
  · rw [htasks, hrep]
    exact h.replaces
  · rw [htasks, hinf]
    exact h.inflight

/-- A new task has the flag to itself. -/
theorem spawn (h : Answers v log ids) {r : Accepted} (hr : v.reader = .accepted r) :
    Answers { v with tasks := v.tasks.alloc r.task, reader := .spawned v.tasks.size } log ids := by
  obtain ⟨hid, h0, hnew⟩ : ReaderOk v.tasks log ids (.accepted r) := hr ▸ h.reader
  have hk : ∀ t x, v.tasks.get t = some x →
      ∃ y, (v.tasks.alloc r.task).get t = some y ∧ x.Keeps y := fun t x hx =>
    ⟨x, Arena.get_alloc_of_get hx _, rfl, rfl, fun _ h => h⟩
  refine ⟨⟨Arena.forall_alloc h.tasks.task_id hid, fun t u x y hx hy hxy => ?_, h.tasks.unseen,
    h.tasks.atMost, Arena.forall_alloc h.tasks.unreplied fun _ => h0,
    Arena.forall_alloc h.tasks.held nofun⟩, trivial,
    fun k x hx => (h.replaces k x hx).keep hk, fun id call hc => (h.inflight id call hc).keep hk⟩
  rcases Arena.get_alloc_cases hx with ⟨rfl, rfl⟩ | hx <;>
    rcases Arena.get_alloc_cases hy with ⟨rfl, rfl⟩ | hy
  · rfl
  · exact absurd hxy.symm (hnew u y hy)
  · exact absurd hxy (hnew t x hx)
  · exact h.tasks.task_inj t u x y hx hy hxy

/-- A task whose flag another party has set holds no answer. -/
theorem holdsReply_of_replied (h : Answers v log ids) {p : Party} (ht : v.tasks.get t = some task)
    (hrep : task.replied = some p) (hp : p ≠ .task) : task.pc.holdsReply = false := by
  by_contra hh
  have hmine := (h.tasks.held t task ht (by simpa using hh)).1
  rw [hrep] at hmine
  exact hp (Option.some.inj hmine)

/-- **A step of the reader** keeps the invariant. -/
theorem readerStep (h : Answers v log ids) (hstep : Serve.ReaderStep cfg v v' e)
    (hl : log' = log ∨ log' = log ++ e.cmds) : Answers v' log' ids := by
  rcases hstep.tasks with ⟨r, hr, rfl, rfl⟩ | ⟨hflag, -⟩
  · exact (h.spawn hr).quiet noFinal_nil hl
  have haside := hflag.mono fun _ _ h => h.toAside
  have hk := haside.mono fun _ _ => Task.Aside.keeps
  have hok := h.tasks.aside haside
  cases hstep with
  | pushed a hr =>
    have hreader : ReaderOk v.tasks log ids (.pushing a) := hr ▸ h.reader
    have hidle : Answers { v with reader := .idle } log ids :=
      ⟨h.tasks, trivial, h.replaces, h.inflight⟩
    rcases hfin : Frame.finalId (.control a) with _ | j
    · exact hidle.quiet (noFinal_encode hfin) hl
    obtain ⟨hj, h0, howner⟩ := hreader j hfin
    obtain ⟨hne, hle⟩ := answers_encode cfg hfin hl
    refine hidle.answer (p := .reader) hj h0 hne hle (fun t x hx hxj => ?_) trivial
      nofun
    have hmine := (howner t x hx hxj).1
    exact ⟨hmine, h.holdsReply_of_replied hx hmine (by simp)⟩
  | spawned r hr => exact (h.spawn hr).quiet noFinal_nil hl
  | inserted t task hr ht hd =>
    exact Answers.quiet ⟨h.tasks, trivial, h.replaces,
      Table.forall_insert h.inflight ⟨task, ht, rfl, rfl⟩⟩ noFinal_nil hl
  | skipped t task hr ht hd | gateGone stream hr hg =>
    exact Answers.quiet ⟨h.tasks, trivial, h.replaces, h.inflight⟩ noFinal_nil hl
  | cancelTaken id call task hr ht hnone =>
    obtain ⟨x, hx, hxid, -⟩ : ReaderOk v.tasks log ids (.canceling id call) := hr ▸ h.reader
    obtain rfl := Option.mem_unique ht hx
    refine (h.keep hk hok (fun j hj => ?_) rfl fun _ _ hc => hc).quiet noFinal_nil hl
    obtain rfl := Option.some.inj hj
    refine ⟨hxid ▸ h.tasks.task_id _ task ht, hxid ▸ h.tasks.unreplied _ task ht hnone,
      fun t y hy hyid => ?_⟩
    have hmine := Arena.get_update_self ht (·.takeReply .reader)
    obtain rfl := hok.task_inj t call.task y _ hy hmine (hyid.trans hxid.symm)
    obtain rfl := Option.mem_unique hmine hy
    exact ⟨by simp [Task.takeReply, hnone], rfl⟩
  | cancelLate id call task pc hr ht hsome hpc =>
    refine (h.keep hk hok ?_ rfl fun _ _ hc => hc).quiet noFinal_nil hl
    rcases hpc with ⟨stream, -, rfl⟩ | ⟨-, rfl⟩ <;> trivial
  | closedGate stream gate hr hg =>
    exact Answers.quiet ⟨h.tasks, nofun, h.replaces, h.inflight⟩ noFinal_nil
      hl

/-- A `replace` keeps the invariant, apart from what it queues. -/
theorem replaced {x : Replace} (h : Answers v log ids) (hx : v.replaces.get r = some x)
    (hstep : Serve.ReplaceStep cfg closed v r x v' e) : Answers v' log ids := by
  obtain ⟨hflag, hreader, -⟩ := hstep.tasks
  have haside := hflag.mono fun _ _ h => h.toAside
  have hk := haside.mono fun _ _ => Task.Aside.keeps
  have hold : ReplaceOk v'.tasks log r x.pc := (h.replaces r x hx).keep fun _ _ => hk.get_right
  have move {f : Replace → Replace} (hrep : v'.replaces = v.replaces.update r f)
      (hpc : ReplaceOk v'.tasks log r (f x).pc)
      (hinf : ∀ id call, v'.inflight.get id = some call → v.inflight.get id = some call) :
      Answers v' log ids := by
    refine ⟨h.tasks.aside haside, hreader ▸ h.reader.keep hk, ?_, fun id call hc =>
      (h.inflight id call (hinf id call hc)).keep fun _ _ => hk.get_right⟩
    rw [hrep]
    exact Arena.forall_update_known
      (fun k y hy => (h.replaces k y hy).keep fun _ _ => hk.get_right) hx hpc
  cases hstep with
  | checked pc hpc hnext =>
    refine move rfl ?_ fun _ _ hc => hc
    rcases hnext with ⟨rfl, -⟩ | ⟨rfl, -⟩ <;> exact ⟨trivial, by simp⟩
  | collected name names order hpc hrev hperm =>
    refine move rfl ⟨fun w hw => ?_, by simp⟩ fun id call hc => ?_
    · obtain ⟨hmem, hname⟩ := List.mem_filter.mp (hperm.mem_iff.mp hw)
      exact ⟨(of_decide_eq_true hname).1,
        h.inflight w.1 w.2 ((Table.mem_entries_iff _ _ _).mp hmem)⟩
    · rw [Table.get_retain] at hc
      exact (Option.filter_eq_some_iff.mp hc).1
  | revokedAll hpc hrev | passDone name hpc =>
    exact move rfl ⟨trivial, by simp⟩ fun _ _ hc => hc
  | taken name w rest task hpc ht hnone =>
    obtain ⟨hv, -⟩ := hpc ▸ hold
    refine move rfl ⟨hv, fun name' w' rest' hpc' => ?_⟩ fun _ _ hc => hc
    cases hpc'
    obtain ⟨y, hy, hid, -⟩ := (hv w (by simp)).2
    obtain rfl := Option.mem_unique (Arena.get_update_self ht _) hy
    refine ⟨_, Arena.get_update_self ht _, hid, by simp [Task.takeReply, hnone], ?_⟩
    rw [← hid]
    exact h.tasks.unreplied _ task ht hnone
  | late name w rest task pc hpc ht hsome hnext =>
    obtain ⟨hv, -⟩ := hpc ▸ hold
    refine move rfl ?_ fun _ _ hc => hc
    rcases hnext with ⟨stream, -, rfl⟩ | ⟨-, rfl⟩ <;> exact ⟨hv, by simp⟩
  | answered name w rest hpc | pushedErr name stream w rest hpc
  | closedGate name stream w rest hpc =>
    obtain ⟨hv, -⟩ := hpc ▸ hold
    exact move rfl ⟨hv, by simp⟩ fun _ _ hc => hc
  | aborted name w rest hpc =>
    obtain ⟨hv, -⟩ := hpc ▸ hold
    exact move rfl ⟨fun u hu => hv u (List.mem_cons_of_mem _ hu), by simp⟩ fun _ _ hc => hc

/-- **A step of a `replace`** keeps the invariant. -/
theorem replaceStep {x : Replace} (h : Answers v log ids) (hx : v.replaces.get r = some x)
    (hstep : Serve.ReplaceStep cfg closed v r x v' e) (hl : log' = log ∨ log' = log ++ e.cmds) :
    Answers v' log' ids := by
  have hv' := h.replaced hx hstep
  cases hstep with
  | answered name w rest hpc =>
    obtain ⟨task, ht, hid, hmine, h0⟩ := (h.replaces r x hx).answering name w rest hpc
    obtain ⟨hne, hle⟩ := answers_encode cfg (e := .err w.1 (Serve.revokedError name)) rfl hl
    refine hv'.answer (p := .replace r) (hid ▸ h.tasks.task_id _ task ht) h0 hne hle
      (fun t y hy hyid => ?_) (h.reader.answer hne ht hid (by simp [hmine])) fun k y hy hk => ?_
    · obtain rfl := h.tasks.task_inj t w.2.task y task hy ht (hyid.trans hid.symm)
      obtain rfl := Option.mem_unique ht hy
      exact ⟨hmine, h.holdsReply_of_replied ht hmine (by simp)⟩
    · cases hk
      obtain ⟨hv, -⟩ := hv'.replaces r y hy
      rcases Arena.get_update_cases hy with ⟨-, x', -, rfl⟩ | ⟨hne, -⟩
      · exact ⟨hv, by simp⟩
      · exact absurd rfl hne
  | pushedErr name stream w rest hpc =>
    have hno : NoFinal (cfg.encode (.sErr stream (Serve.revokedError name))) := noFinal_encode rfl
    exact hv'.quiet hno hl
  | _ => exact hv'.quiet noFinal_nil hl

/-- **One step** of the serving half keeps the invariant. -/
theorem serveStep {a : ServeAct} (h : Answers v log ids)
    (hstep : v.step cfg env closed a = some (v', e)) (hl : log' = log ∨ log' = log ++ e.cmds) :
    Answers v' log' ids := by
  rcases Serve.step_cases hstep with ⟨t, task, ht, -, hs⟩ | ⟨k, x, -, hs⟩ | ⟨-, hs⟩ |
    ⟨caller, capabilities, built, -, -, rfl, rfl⟩ | ⟨r, x, -, hx, hs⟩
  · exact h.taskStep ht hs hl
  · exact h.senderStep hs hl
  · exact h.readerStep hs hl
  · exact Answers.quiet ⟨h.tasks, h.reader, Arena.forall_alloc h.replaces ⟨trivial, by simp⟩,
      h.inflight⟩ noFinal_nil hl
  · exact h.replaceStep hx hs hl

theorem beside (h : Answers v log ids) (hb : v.Beside v')
    (hreader : ReaderOk v'.tasks log ids v'.reader) : Answers v' log ids := by
  have hk := hb.tasks.mono fun _ _ h => h.1.keeps
  refine ⟨h.tasks.aside (hb.tasks.mono fun _ _ h => h.1.toAside), hreader, fun r y hy => ?_,
    fun id call hc => (h.inflight id call (hb.inflight id call hc)).keep fun _ _ => hk.get_right⟩
  obtain ⟨x, hx, rfl | ⟨-, hpc, -⟩⟩ := hb.replaces.get hy
  · exact (h.replaces r y hx).keep fun _ _ => hk.get_right
  · rcases hpc with hpc | ⟨i, hpc⟩ <;> rw [hpc] <;> exact ⟨trivial, by simp⟩

theorem outside (h : Answers v log ids) (hstep : v.Outside v') : Answers v' log ids := by
  refine h.beside hstep.beside ?_
  rw [hstep.reader_eq]
  exact h.reader.keep (hstep.beside.tasks.mono fun _ _ h => h.1.keeps)

/-- A request with a new id is not answered yet. -/
theorem handleRequest (h : Answers v log ids) {id : Nat} (hid : id ∉ ids) {pc : ReaderPc}
    (hpc : (∃ r : Accepted, r.id = id ∧ pc = .accepted r) ∨
      ∃ e, Frame.finalId (.control e) = some id ∧ pc = .pushing e) :
    Answers { v with reader := pc } log (ids ++ [id]) := by
  have hnew : ∀ t task, v.tasks.get t = some task → task.id ≠ id := fun t task ht he =>
    hid (he ▸ h.tasks.task_id t task ht)
  have h0 := h.tasks.unseen id hid
  refine ⟨⟨fun t task ht => List.mem_append_left _ (h.tasks.task_id t task ht), h.tasks.task_inj,
    fun j hj => h.tasks.unseen j fun hm => hj (List.mem_append_left _ hm), h.tasks.atMost,
    h.tasks.unreplied, h.tasks.held⟩, ?_, h.replaces, h.inflight⟩
  rcases hpc with ⟨r, rfl, rfl⟩ | ⟨e, he, rfl⟩
  · exact ⟨by simp, h0, hnew⟩
  · intro j hj
    obtain rfl := Option.mem_unique he hj
    exact ⟨by simp, h0, fun t task ht hj => absurd hj (hnew t task ht)⟩

/-- A frame keeps the invariant, if a request has a new id. -/
theorem handle (h : Answers v log ids) (f : Frame) (hnodup : (ids ++ f.reqId.toList).Nodup) :
    Answers (v.handle cfg f) log (ids ++ f.reqId.toList) := by
  cases hf : f.reqId with
  | some id =>
    rw [hf] at hnodup
    obtain ⟨method, params, stream, metadata, rfl⟩ := Frame.eq_req_of_reqId hf
    exact h.handleRequest (List.disjoint_of_nodup_append hnodup · (by simp))
      (v.handleRequest_cases ..)
  | none =>
    rw [Option.toList_none, List.append_nil]
    have hb := v.handle_beside cfg f
    have hk := hb.tasks.mono fun _ _ h => h.1.keeps
    refine h.beside hb ?_
    have hreader : (v.handle cfg f).reader = v.reader ∨ ∃ id call,
        v.inflight.get id = some call ∧ (v.handle cfg f).reader = .canceling id call := by
      unfold Serve.handle
      split
      · cases hf
      · unfold Serve.handleCancel
        split
        · exact .inr ⟨_, _, ‹_›, rfl⟩
        · exact .inl rfl
      all_goals exact .inl rfl
    rcases hreader with hr | ⟨id, call, hcall, hr⟩
    · exact hr ▸ h.reader.keep hk
    · exact hr ▸ (h.inflight id call hcall).keep fun _ _ => hk.get_right

end Answers

theorem Shared.replaces_established {served : Served} {r : Nat} {x : Replace}
    (h : (Shared.established served).serve.replaces.get r = some x) :
    x = ⟨none, [], .announcing⟩ := by
  unfold Shared.established at h
  split_ifs at h
  · cases h
  · rcases Arena.get_alloc_cases h with ⟨-, rfl⟩ | h
    · rfl
    · cases h

/-- The ids of the requests received. -/
def Shared.reqIds (s : Shared) : List Nat := s.received.filterMap Frame.reqId

/-- A step of an end is one of its serving half, a frame taken, or reaches the serving half from
outside. -/
theorem Shared.step_sides (h : s.step cfg a = some s') :
    (∃ b v e, a = .serve b ∧
      s.serve.step cfg (s.env cfg) s.closing.closeReason.isSome b = some (v, e) ∧
      s' = s.withServe v e) ∨
    (∃ f, a = .receive f ∧ s' = s.receive cfg f) ∨
    (s.serve.Outside s'.serve ∧ s'.received = s.received ∧
      ∃ cmds, NoReply cmds ∧ s'.out.handed = s.out.handed ++ cmds) := by
  cases acts_of_step h with
  | serve hstep => exact .inl ⟨_, _, _, rfl, hstep, rfl⟩
  | receive => exact .inr (.inl ⟨_, rfl, rfl⟩)
  | _ => exact .inr (.inr (Shared.step_outside rfl h))

/-- A step of an end is one of its serving half, or moves no task and answers nothing. -/
theorem Shared.step_beside (h : s.step cfg a = some s') :
    (∃ b v e, a = .serve b ∧
      s.serve.step cfg (s.env cfg) s.closing.closeReason.isSome b = some (v, e) ∧
      s' = s.withServe v e) ∨
    s.serve.Beside s'.serve ∧ ∃ cmds, NoReply cmds ∧
      (s'.out.handed = s.out.handed ∨ s'.out.handed = s.out.handed ++ cmds) := by
  rcases Shared.step_sides h with hserve | ⟨f, -, rfl⟩ | ⟨hout, -, cmds, hno, hlog⟩
  · exact .inl hserve
  · exact .inr ⟨s.serve.handle_beside cfg f, _, s.client.reaction_noReply cfg f, s.hand_cases _⟩
  · exact .inr ⟨hout.beside, cmds, hno, .inr hlog⟩

/-- What was received stays. -/
theorem Shared.received_isPrefix_of_step (h : s.step cfg a = some s') :
    s.received <+: s'.received := by
  rcases step_sides h with ⟨b, v, e, -, -, rfl⟩ | ⟨f, -, rfl⟩ | ⟨-, hrec, -⟩
  · exact List.prefix_rfl
  · exact List.prefix_append _ _
  · exact hrec ▸ List.prefix_rfl

theorem Shared.reqIds_receive (cfg : Config) (s : Shared) (f : Frame) :
    (s.receive cfg f).reqIds = s.reqIds ++ f.reqId.toList := by
  simp only [Shared.reqIds, Shared.receive, List.filterMap_append]
  cases hf : f.reqId <;> simp [hf]

/-- **One step** of the connection keeps the invariant. -/
theorem Shared.answers_step (h : s.reqIds.Nodup → Answers s.serve s.out.handed s.reqIds)
    (hstep : s.step cfg a = some s') (hnodup : s'.reqIds.Nodup) :
    Answers s'.serve s'.out.handed s'.reqIds := by
  rcases Shared.step_sides hstep with ⟨b, v, e, -, hserve, rfl⟩ | ⟨f, -, rfl⟩ |
    ⟨hout, hrec, cmds, hno, hlog⟩
  · exact (h hnodup).serveStep hserve (s.hand_cases _)
  · rw [s.reqIds_receive] at hnodup ⊢
    exact ((h hnodup.of_append_left).handle f hnodup).of_log fun id =>
      answers_noFinal (s.client.reaction_noReply cfg f).noFinal (s.hand_cases _) id
  · rw [Shared.reqIds, hrec] at hnodup ⊢
    exact ((h hnodup).outside hout).of_log fun id => answers_noFinal hno.noFinal (.inr hlog) id

/-- It holds along every run that has distinct request ids. -/
theorem Shared.answers_of_run {s₀ : Shared} {as : List Act}
    (h₀ : Answers s₀.serve s₀.out.handed s₀.reqIds) (h : Run (Steps (Shared.step cfg)) s₀ as s) :
    s.reqIds.Nodup → Answers s.serve s.out.handed s.reqIds :=
  h.state_invariant (I := fun s => s.reqIds.Nodup → Answers s.serve s.out.handed s.reqIds)
    (fun _ => h₀) fun _ _ _ hs hstep => Shared.answers_step hs hstep

/-- **At most one final answer for each request.**  If the peer never reuses a request id, then
whatever handlers, cancels, revocations and `shutdown`s do, at most one `res` or `err` with that id
is handed to the writer. -/
theorem at_most_one_final_answer {cfg : Config} {served : Served} {as : List Act} {s : Shared}
    (h : Run (Steps (Shared.step cfg)) (.start served) as s) (hfresh : s.reqIds.Nodup) (id : Nat) :
    answers s.out.handed id ≤ 1 := by
  have hinv := Shared.answers_of_run (Answers.start served) h hfresh
  exact hinv.tasks.atMost id

/-- A handler has its response ready, but a cancel takes the flag first. -/
def cancelBeforeReply : List Act :=
  [.serve (.replace none [.bare 0 "fs"]),
    .receive (.control (.req 7 "fs.read" .nil none .nil)), .serve .readerRun, .serve .readerRun,
    .serve (.dispatched 0 (.response .nil)), .receive (.control (.cancel 7)), .serve .readerRun,
    .serve (.run 0), .serve .readerRun, .serve (.run 0)]

theorem at_most_one_final_answer_cancelBeforeReply :
    ∃ s, Run (Steps (Shared.step (.bare .acceptor .msgpack))) (.start .default)
        cancelBeforeReply s ∧
      s.reqIds.Nodup ∧ answers s.out.handed 7 = 1 ∧ answers s.out.handed 7 ≤ 1 := by
  obtain ⟨s, hrun, hfresh, hone⟩ := exists_run_of_exec
    (Shared.step (.bare .acceptor .msgpack)) (.start .default) cancelBeforeReply
    (fun s => s.reqIds.Nodup ∧ answers s.out.handed 7 = 1) rfl
  exact ⟨s, hrun, hfresh, hone, at_most_one_final_answer hrun hfresh 7⟩

end Zyris.Core
