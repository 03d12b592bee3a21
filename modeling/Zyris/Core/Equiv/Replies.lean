import Zyris.Core.Equiv.Answers
import Zyris.Proto.Equiv.Payload

/-!
# What a handler task answers

The flag is set before the response is encoded, so a response that cannot be encoded is dropped, and
nobody else may answer instead; a panic drops the task without an answer.
-/

namespace Zyris.Core

open Proto

/-! ### What a step does to a task -/

variable {t u : Nat} {y : Task} {o : Outcome} {stream : Option Nat} {s s' : Shared} {a : Act}

namespace Serve

variable {cfg : Config} {env : Env} {v v' : Serve} {e : Emit}

theorem step_tasks {closed : Bool} {a : ServeAct} (h : v.step cfg env closed a = some (v', e))
    {u : Nat} {y : Task} (hy : v'.tasks.get u = some y) :
    (∃ x, v.tasks.get u = some x ∧ (x.pc = .leaving → a = .run u) ∧
      TaskStep cfg env v u x v' e) ∨
    (∃ r, v.reader = .accepted r ∧ y = r.task) ∨
    ∃ x, v.tasks.get u = some x ∧ x.Flagged y := by
  rcases step_cases h with ⟨t, task, ht, hrun, hs⟩ | ⟨k, x, -, hs⟩ | ⟨-, hs⟩ |
    ⟨caller, capabilities, built, -, -, -, rfl⟩ | ⟨r, x, -, -, hs⟩
  · obtain ⟨-, -, -, f, htasks, -⟩ := hs.reply
    by_cases hu : u = t
    · subst hu
      exact .inl ⟨task, ht, hrun, hs⟩
    · rw [htasks, Arena.get_update, if_neg hu] at hy
      exact .inr (.inr ⟨y, hy, y.flagged_refl⟩)
  · rw [hs.reply.1] at hy
    exact .inr (.inr ⟨y, hy, y.flagged_refl⟩)
  · right
    rcases hs.tasks with ⟨r, hr, -, rfl⟩ | ⟨hflag, -⟩
    · rcases Arena.get_alloc_cases hy with ⟨-, rfl⟩ | hy
      · exact .inl ⟨r, hr, rfl⟩
      · exact .inr ⟨y, hy, y.flagged_refl⟩
    · exact .inr (hflag.get hy)
  · exact .inr (.inr ⟨y, hy, y.flagged_refl⟩)
  · exact .inr (.inr (hs.tasks.1.get hy))

end Serve

variable {cfg : Config} {env : Env} {v v' : Serve} {e : Emit} {log : List WriterCmd} {F : Prop}
  {task : Task}

/-- Nobody answers for a task that has answered. -/
theorem Answers.frame {closed : Bool} {a : ServeAct} {ids : List Nat} (h : Answers v log ids)
    (hstep : v.step cfg env closed a = some (v', e)) {x : Task} (hx : v.tasks.get u = some x)
    (hrep : x.replied = some .task) (hdone : x.pc.holdsReply = false) :
    answers (log ++ e.cmds) x.id = answers log x.id := by
  have hnil : answers (log ++ Emit.none.cmds) x.id = answers log x.id :=
    answers_noFinal noFinal_nil (.inr rfl) _
  rcases Serve.step_cases hstep with ⟨t, task, ht, -, hs⟩ | ⟨k, z, -, hs⟩ | ⟨-, hs⟩ |
    ⟨caller, capabilities, built, -, -, rfl, rfl⟩ | ⟨r, z, -, hz, hs⟩
  · obtain ⟨-, -, -, f, -, ⟨-, hno⟩ | ⟨-, -, -, -, hcmds⟩ |
      ⟨hholds, -, -, -, -, env', hfin, hcmds⟩⟩ := hs.reply
    · exact answers_noFinal hno (.inr rfl) _
    · rw [hcmds, List.append_nil]
    · rw [hcmds]
      refine (answers_encode cfg hfin (.inr rfl)).1 _ fun he => ?_
      obtain rfl := h.tasks.task_inj u t x task hx ht he
      obtain rfl := Option.mem_unique hx ht
      rw [hdone] at hholds
      cases hholds
  · exact answers_noFinal hs.reply.2.2.2.2 (.inr rfl) _
  · cases hs with
    | pushed b hr =>
      have hreader : ReaderOk v.tasks log ids (.pushing b) := hr ▸ h.reader
      rcases hfin : Frame.finalId (.control b) with _ | j
      · exact answers_noFinal (noFinal_encode hfin) (.inr rfl) _
      refine (answers_encode cfg hfin (.inr rfl)).1 _ fun he => ?_
      obtain ⟨-, -, howner⟩ := hreader j hfin
      rw [(howner u x hx he).1] at hrep
      cases hrep
    | _ => exact hnil
  · exact hnil
  · cases hs with
    | answered name w rest hpc =>
      refine (answers_encode cfg (e := .err w.1 (Serve.revokedError name)) rfl (.inr rfl)).1 _
        fun he => ?_
      obtain ⟨task, ht, hid, hmine, -⟩ := (h.replaces r z hz).answering name w rest hpc
      obtain rfl := h.tasks.task_inj u _ x task hx ht (he.trans hid.symm)
      obtain rfl := Option.mem_unique hx ht
      rw [hmine] at hrep
      cases hrep
    | pushedErr name stream w rest =>
      have hno : NoFinal (cfg.encode (.sErr stream (Serve.revokedError name))) := noFinal_encode rfl
      exact answers_noFinal hno (.inr rfl) _
    | _ => exact hnil

/-! ### The task and its answer -/

/-- What a handler task is to answer, by what `dispatch` returned. -/
def Outcome.reply (stream : Option Nat) : Outcome → Option (Except WireError Payload)
  | .response result => some (.ok result)
  | .stream head =>
    if stream.isSome then some (.ok head)
    else some (.error (.invalidParams "streaming tool requires a stream declaration"))
  | .error e => some (.error e)
  | .panicked => none

def replyEncodes (ser : Serialization) : Except WireError Payload → Bool
  | .ok result => result.encodes ser
  | .error e => e.encodes ser

/-- `dispatch` returned something the serialization can write. -/
def Task.answerable (ser : Serialization) (task : Task) : Bool :=
  (task.outcome.bind (·.reply task.stream)).any (replyEncodes ser)

def TaskPc.pending : TaskPc → Option (Except WireError Payload)
  | .opening head => some (.ok head)
  | .replying result _ => some (.ok result)
  | .detaching result _ _ => some (.ok result)
  | .registering result _ _ _ => some (.ok result)
  | .pushingRes result _ _ => some (.ok result)
  | .refusing e => some (.error e)
  | .pushingErr e => some (.error e)
  | _ => none

/-- The task has not come to its flag. -/
def TaskPc.early : TaskPc → Bool
  | .dispatching => true
  | .opening _ => true
  | .replying _ _ => true
  | .refusing _ => true
  | _ => false

/-- The task is past its answer. -/
def TaskPc.late : TaskPc → Bool
  | .spawning _ _ => true
  | .streaming _ _ => true
  | .acquiring _ _ _ => true
  | .pushingData _ _ _ => true
  | .pushingEnd _ => true
  | .closingGate => true
  | .finishing => true
  | .leaving => true
  | .ended => true
  | _ => false

/-- The flag is set; if by the task, its answer is in the log if it can be written, and with
distinct requests (`F`) only then. -/
def Task.Told (ser : Serialization) (log : List WriterCmd) (F : Prop) (task : Task) : Prop :=
  task.replied.isSome = true ∧ (task.replied = some .task →
    (task.answerable ser = true → 0 < answers log task.id) ∧
    (F → 0 < answers log task.id → task.answerable ser = true))

/-- A task and what it has answered so far. -/
structure Task.Ok (ser : Serialization) (log : List WriterCmd) (F : Prop) (task : Task) :
    Prop where
  pending : ∀ r, task.pc.pending = some r → replyEncodes ser r = task.answerable ser
  early : task.pc.early = true → task.replied ≠ some .task
  held : task.pc.holdsReply = true → task.replied = some .task
  late : task.pc.late = true → task.Told ser log F
  panicked : task.pc = .panicked →
    task.outcome = some .panicked ∧ task.replied ≠ some .task ∨ task.Told ser log F

namespace TaskPc

theorem of_late {pc : TaskPc} (h : pc.late = true) : pc.pending = none ∧ pc.early = false := by
  cases pc <;> simp_all [late, pending, early]

theorem holdsReply_of_late {pc : TaskPc} (h : pc.late = true) : pc.holdsReply = false := by
  cases pc <;> simp_all [late, holdsReply]

theorem of_holdsReply {pc : TaskPc} (h : pc.holdsReply = true) :
    pc.early = false ∧ pc.late = false ∧ pc ≠ .panicked := by
  cases pc <;> simp_all [holdsReply, early, late]

end TaskPc

theorem After.late_pc (next : After) : next.pc.late = true := by cases next <;> rfl

theorem Outcome.reply_of_pending {r : Except WireError Payload}
    (h : (o.pc stream).pending = some r) : o.reply stream = some r := by
  cases o <;> cases stream <;> simp_all [Outcome.pc, Outcome.reply, TaskPc.pending]

theorem Outcome.late_pc (o : Outcome) (stream : Option Nat) : (o.pc stream).late = false := by
  cases o <;> cases stream <;> rfl

theorem Outcome.eq_panicked (h : o.pc stream = .panicked) : o = .panicked := by
  cases o <;> cases stream <;> simp_all [Outcome.pc]

namespace Task

variable {ser : Serialization} {log' : List WriterCmd} {F' : Prop} {task' : Task}

/-- The log grows, and with distinct requests no further answer of the task is in it. -/
structure Grows (task : Task) (log log' : List WriterCmd) (F F' : Prop) : Prop where
  mono : answers log task.id ≤ answers log' task.id
  fresh : F' → F
  same : F' → task.replied = some .task → task.pc.holdsReply = false →
    answers log' task.id = answers log task.id

theorem grows_noFinal {cmds : List WriterCmd} (hno : NoFinal cmds)
    (hl : log' = log ∨ log' = log ++ cmds) (hF : F' → F) : task.Grows log log' F F' where
  mono := Nat.le_of_eq (answers_noFinal hno hl _).symm
  fresh := hF
  same _ _ _ := answers_noFinal hno hl _

theorem Told.congr (h : task.Told ser log F) (hid : task'.id = task.id)
    (hreplied : task'.replied = task.replied) (hstream : task'.stream = task.stream)
    (houtcome : task'.outcome = task.outcome) (hdone : task.pc.holdsReply = false)
    (hlog : task.Grows log log' F F') : task'.Told ser log' F' := by
  unfold Told answerable at h ⊢
  rw [hid, hreplied, hstream, houtcome]
  refine ⟨h.1, fun hr => ⟨fun ha => Nat.lt_of_lt_of_le ((h.2 hr).1 ha) hlog.mono, fun hF' => ?_⟩⟩
  rw [hlog.same hF' hr hdone]
  exact (h.2 hr).2 (hlog.fresh hF')

theorem Told.ok (h : task.Told ser log F) (hpc : task.pc.late = true) : task.Ok ser log F where
  pending r hr := absurd hr (by simp [(TaskPc.of_late hpc).1])
  early he := absurd he (by simp [(TaskPc.of_late hpc).2])
  held hh := absurd hh (by simp [TaskPc.holdsReply_of_late hpc])
  late _ := h
  panicked _ := Or.inr h

theorem told_of_answer {cfg : Config} {r : Except WireError Payload} {env : Envelope}
    (hmine : task.replied = some .task) (h0 : F → answers log task.id = 0)
    (hfin : Frame.finalId (.control env) = some task.id)
    (henc : env.encodes cfg.serialization = replyEncodes cfg.serialization r)
    (hr : replyEncodes cfg.serialization r = task.answerable cfg.serialization) :
    task.Told cfg.serialization (log ++ cfg.encode env) F := by
  refine ⟨by rw [hmine]; rfl, fun _ => ?_⟩
  rw [← hr, ← henc]
  unfold Config.encode
  split_ifs with he
  · simp [answers, WriterCmd.finalId, hfin, he]
  · rw [List.append_nil]
    exact ⟨fun he' => absurd he' he, fun hF hpos => absurd (h0 hF) (Nat.ne_of_gt hpos)⟩

theorem ok_of_pending {r : Except WireError Payload} (hpc : task.pc.holdsReply = true)
    (hp : task.pc.pending = some r) (hr : replyEncodes ser r = task.answerable ser)
    (hmine : task.replied = some .task) : task.Ok ser log F where
  pending r' hr' := by
    obtain rfl := Option.mem_unique hp hr'
    exact hr
  early he := absurd he (by simp [(TaskPc.of_holdsReply hpc).1])
  held _ := hmine
  late hl := absurd hl (by simp [(TaskPc.of_holdsReply hpc).2.1])
  panicked hp := absurd hp (TaskPc.of_holdsReply hpc).2.2

theorem Told.aside (h : task.Told ser log F) (ha : task.Aside task')
    (hdone : task.pc.holdsReply = false) (hlog : task.Grows log log' F F') :
    task'.Told ser log' F' := by
  rcases ha.replied with hsame | ⟨hnone, -⟩
  · exact h.congr ha.id hsame ha.stream ha.outcome hdone hlog
  · exact absurd h.1 (by simp [hnone])

theorem Aside.replied_ne_task (ha : task.Aside task') (h : task.replied ≠ some .task) :
    task'.replied ≠ some .task := by
  rcases ha.replied with hsame | ⟨-, p, hp, hnew⟩
  · rwa [hsame]
  · rw [hnew]
    exact fun he => hp (Option.some.inj he)

theorem Ok.aside (h : task.Ok ser log F) (ha : task.Aside task')
    (hlog : task.Grows log log' F F') : task'.Ok ser log' F' := by
  have hans : task'.answerable ser = task.answerable ser := by
    rw [answerable, ha.outcome, ha.stream]
    rfl
  refine ⟨fun r hr => ?_, fun he => ?_, fun hh => ?_, fun hl => ?_, fun hp => ?_⟩
  · rw [hans]
    exact h.pending r (ha.pc ▸ hr)
  · exact ha.replied_ne_task (h.early (ha.pc ▸ he))
  · have hmine := h.held (ha.pc ▸ hh)
    rcases ha.replied with hsame | ⟨hnone, -⟩
    · exact hsame.trans hmine
    · exact absurd hmine (by simp [hnone])
  · rw [ha.pc] at hl
    exact (h.late hl).aside ha (TaskPc.holdsReply_of_late hl) hlog
  · rw [ha.pc] at hp
    rcases h.panicked hp with ⟨ho, hr⟩ | ht
    · exact .inl ⟨by rw [ha.outcome, ho], ha.replied_ne_task hr⟩
    · exact .inr (ht.aside ha (by rw [hp]; rfl) hlog)

end Task

theorem Serve.TaskStep.ok {F' : Prop} (h : TaskStep cfg env v t task v' e)
    (ht : v.tasks.get t = some task) (hok : task.Ok cfg.serialization log F) (hF : F' → F)
    (hheld : F' → task.pc.holdsReply = true → answers log task.id = 0)
    (hy : v'.tasks.get t = some y) : y.Ok cfg.serialization (log ++ e.cmds) F' := by
  suffices hmoved : ∃ f, v'.tasks = v.tasks.update t f ∧
      (f task).Ok cfg.serialization (log ++ e.cmds) F' by
    obtain ⟨f, htasks, hok'⟩ := hmoved
    rw [htasks] at hy
    rwa [Arena.eq_of_get_update ht hy]
  -- most steps come after the answer and hand over no other
  have after {task' : Task} {cmds : List WriterCmd} (hl : task.pc.late = true)
      (hl' : task'.pc.late = true) (hid : task'.id = task.id)
      (hreplied : task'.replied = task.replied) (hstream : task'.stream = task.stream)
      (houtcome : task'.outcome = task.outcome) (hno : NoFinal cmds) :
      task'.Ok cfg.serialization (log ++ cmds) F' :=
    ((hok.late hl).congr hid hreplied hstream houtcome (TaskPc.holdsReply_of_late hl)
      (Task.grows_noFinal hno (.inr rfl) hF)).ok hl'
  cases h with
  | dispatched o hpc =>
    refine ⟨_, rfl, fun r hr => ?_, fun _ => hok.early (by rw [hpc]; rfl), fun hh => ?_,
      fun hl => ?_, fun hp => .inl ?_⟩
    · simp [Task.answerable, Outcome.reply_of_pending hr]
    · rw [Outcome.pc_holdsReply] at hh
      cases hh
    · rw [Outcome.late_pc] at hl
      cases hl
    · exact ⟨by rw [Outcome.eq_panicked hp], hok.early (by rw [hpc]; rfl)⟩
  | stopped =>
    exact ⟨_, rfl, nofun, nofun, nofun,
      nofun, nofun⟩
  | itemsPanicked gate seq hpc =>
    refine ⟨_, rfl, nofun, nofun, nofun,
      nofun, fun _ => .inr ?_⟩
    exact (hok.late (by rw [hpc]; rfl)).congr rfl rfl rfl rfl (by rw [hpc]; rfl)
      (Task.grows_noFinal noFinal_nil (.inr rfl) hF)
  | opened head stream hpc =>
    refine ⟨_, rfl, fun r hr => ?_, fun _ => hok.early (by rw [hpc]; rfl), nofun,
      nofun, nofun⟩
    exact hok.pending r (by rw [hpc]; exact hr)
  | replyLate result next hpc hsome =>
    refine ⟨_, rfl, Task.Told.ok ?_ next.late_pc⟩
    exact ⟨hsome, fun h => absurd h (hok.early (by rw [hpc]; rfl))⟩
  | refuseLate err hpc hsome =>
    refine ⟨_, rfl, Task.Told.ok ?_ rfl⟩
    exact ⟨hsome, fun h => absurd h (hok.early (by rw [hpc]; rfl))⟩
  | replyTaken result next pc hpc hnone hnext =>
    have hr := hok.pending (.ok result) (by rw [hpc]; rfl)
    have hmine : (task.takeReply .task).replied = some .task := by simp [Task.takeReply, hnone]
    rcases hnext with ⟨rfl, -⟩ | ⟨rfl, -⟩
    all_goals exact ⟨_, rfl, Task.ok_of_pending rfl rfl hr hmine⟩
  | refuseTaken err hpc hnone =>
    exact ⟨_, rfl, Task.ok_of_pending rfl rfl (hok.pending (.error err) (by rw [hpc]; rfl))
      (by simp [Task.takeReply, hnone])⟩
  | detached result ids next d hpc hlen hd =>
    -- what is left of the payload can be written if the payload can
    refine ⟨_, rfl, Task.ok_of_pending rfl rfl
      (Eq.trans ?_ (hok.pending (.ok result) (by rw [hpc]; rfl))) (hok.held (by rw [hpc]; rfl))⟩
    rw [hd]
    exact Payload.encodes_detach cfg.digest INLINE_BLOB_MAX cfg.serialization result ids
  | allocated result _ _ hpc | registered result _ _ _ _ hpc | registeredAll result _ _ hpc =>
    exact ⟨_, rfl, Task.ok_of_pending rfl rfl (hok.pending (.ok result) (by rw [hpc]; rfl))
      (hok.held (by rw [hpc]; rfl))⟩
  | pushedRes result all next hpc =>
    refine ⟨_, rfl, Task.Told.ok ?_ rfl⟩
    exact Task.told_of_answer (r := .ok result) (hok.held (by rw [hpc]; rfl))
      (fun hF' => hheld hF' (by rw [hpc]; rfl)) rfl rfl
      (hok.pending (.ok result) (by rw [hpc]; rfl))
  | pushedErr err hpc =>
    refine ⟨_, rfl, Task.Told.ok ?_ rfl⟩
    exact Task.told_of_answer (r := .error err) (hok.held (by rw [hpc]; rfl))
      (fun hF' => hheld hF' (by rw [hpc]; rfl)) rfl rfl
      (hok.pending (.error err) (by rw [hpc]; rfl))
  | spawned all next hpc =>
    exact ⟨_, rfl, after (by rw [hpc]; rfl) next.late_pc rfl rfl rfl rfl noFinal_nil⟩
  | pushedData gate seq stream bytes pc hpc _ hnext =>
    refine ⟨_, rfl, after (by rw [hpc]; rfl) ?_ rfl rfl rfl rfl ?_⟩
    · rcases hnext with ⟨rfl, -⟩ | ⟨rfl, -⟩ <;> rfl
    · simp [NoFinal, Emit.send, WriterCmd.finalId, Frame.finalId]
  | pushedEnd error stream hpc =>
    refine ⟨_, rfl, after (by rw [hpc]; rfl) rfl rfl rfl rfl rfl ?_⟩
    cases error <;> exact noFinal_encode rfl
  | itemYielded gate seq b hpc | itemsEnded gate seq error hpc | acquired gate seq bytes g hpc
  | acquireCanceled gate seq bytes g hpc | closedGate stream hpc | finished hpc | left hpc =>
    exact ⟨_, rfl, after (by rw [hpc]; rfl) rfl rfl rfl rfl rfl noFinal_nil⟩

/-! ### Along a run -/

theorem Shared.live_of_step (h : s.step cfg a = some s') (hlive : s'.out.writer.live = true) :
    s.out.writer.live = true := by
  cases acts_of_step h with
  | shutdownRun _ hrun =>
    unfold Shared.shutdownRun at hrun
    split at hrun <;> cases hrun
    all_goals exact hlive
  | writer _ _ hwriter =>
    unfold Shared.writerStep at hwriter
    repeat' split at hwriter
    all_goals cases hwriter
    all_goals simp_all [WriterPc.live]
  | _ => exact hlive

theorem Shared.handed_of_live (h : s.out.writer.live = true) (cmds : List WriterCmd) :
    (s.hand cmds).out.handed = s.out.handed ++ cmds := by
  simp [Shared.hand, h]

/-- The answers of an end and its tasks, as long as the writer takes them. -/
structure Shared.Replies (cfg : Config) (s : Shared) : Prop where
  answers : s.reqIds.Nodup → Answers s.serve s.out.handed s.reqIds
  tasks : ∀ t task, s.serve.tasks.get t = some task →
    task.Ok cfg.serialization s.out.handed s.reqIds.Nodup

/-- Distinct request ids were distinct before. -/
theorem Shared.nodup_of_step (h : s.step cfg a = some s') (hnodup : s'.reqIds.Nodup) :
    s.reqIds.Nodup := by
  rcases Shared.step_sides h with ⟨b, v, e, -, -, rfl⟩ | ⟨f, -, rfl⟩ | ⟨-, hrec, -⟩
  · exact hnodup
  · rw [s.reqIds_receive] at hnodup
    exact hnodup.of_append_left
  · rwa [Shared.reqIds, hrec] at hnodup

theorem Shared.replies_step (h : s.out.writer.live = true → s.Replies cfg)
    (hstep : s.step cfg a = some s') (hlive' : s'.out.writer.live = true) : s'.Replies cfg := by
  have hlive := Shared.live_of_step hstep hlive'
  have hfresh : s'.reqIds.Nodup → s.reqIds.Nodup := Shared.nodup_of_step hstep
  obtain ⟨hans, htasks⟩ := h hlive
  refine ⟨Shared.answers_step hans hstep, fun u y hy => ?_⟩
  rcases Shared.step_beside hstep with ⟨b, v, e, -, hserve, rfl⟩ | ⟨hb, cmds, hno, hlog⟩
  · show y.Ok cfg.serialization (s.hand e.cmds).out.handed s.reqIds.Nodup
    rw [Shared.handed_of_live hlive]
    rcases Serve.step_tasks hserve hy with ⟨x, hx, -, hs⟩ | ⟨r, hr, rfl⟩ | ⟨x, hx, hxy⟩
    · exact hs.ok hx (htasks u x hx) id (fun hn hh => ((hans hn).tasks.held u x hx hh).2) hy
    · exact ⟨nofun, fun _ => (by simp [Accepted.task]), nofun,
        nofun, nofun⟩
    · refine (htasks u x hx).aside hxy.toAside ⟨?_, id, fun hn => (hans hn).frame hserve hx⟩
      simp [Core.answers]
  · obtain ⟨x, hx, hxy, -⟩ := hb.tasks.get hy
    exact (htasks u x hx).aside hxy.toAside (Task.grows_noFinal hno.noFinal hlog hfresh)

theorem Shared.replies_of_run {served : Served} {as : List Act}
    (h : Run (Steps (Shared.step cfg)) (.start served) as s) (hlive : s.out.writer.live = true) :
    s.Replies cfg := by
  have hinv : s.out.writer.live = true → s.Replies cfg :=
    h.state_invariant (I := fun s => s.out.writer.live = true → s.Replies cfg)
      (fun _ => ⟨fun _ => Answers.start served, fun t task ht => by simp [Shared.start] at ht⟩)
      fun s a s' hs hstep => Shared.replies_step hs hstep
  exact hinv hlive

/-- The task has come to its end by itself, or by a panic. -/
def TaskPc.isOver : TaskPc → Bool
  | .ended => true
  | .panicked => true
  | _ => false

/-- The task's flag was taken by a cancel, or by a revocation. -/
def Task.interrupted (task : Task) : Bool :=
  match task.replied with
  | some .reader => true
  | some (.replace _) => true
  | _ => false

theorem Task.Told.replied_eq {ser : Serialization} (h : task.Told ser log F)
    (hint : task.interrupted = false) : task.replied = some .task := by
  have hsome := h.1
  cases hr : task.replied with
  | none => simp [hr] at hsome
  | some p => cases p <;> simp_all [Task.interrupted]

/-- **A handler task that ends has answered its request if `dispatch` returned something the
serialization can write, and with distinct request ids only then.**  In every run, while the writer
has not exited, for every task that came to its end and was not canceled or revoked. -/
theorem answered_iff_answerable {cfg : Config} {served : Served} {as : List Act} {s : Shared}
    (h : Run (Steps (Shared.step cfg)) (.start served) as s) (hlive : s.out.writer.live = true)
    {t : Nat} {task : Task} (ht : s.serve.tasks.get t = some task)
    (hover : task.pc.isOver = true) (hint : task.interrupted = false) :
    (task.answerable cfg.serialization = true → 0 < answers s.out.handed task.id) ∧
    (s.reqIds.Nodup → 0 < answers s.out.handed task.id →
      task.answerable cfg.serialization = true) := by
  obtain ⟨hans, htasks⟩ := Shared.replies_of_run h hlive
  have hok := htasks t task ht
  cases hpc : task.pc <;> rw [hpc] at hover <;>
    simp only [TaskPc.isOver, Bool.false_eq_true] at hover
  · have hT := hok.late (by rw [hpc]; rfl)
    exact hT.2 (hT.replied_eq hint)
  rcases hok.panicked hpc with ⟨ho, hr⟩ | hT
  · -- a panic in `dispatch`: nobody has set the flag, and nobody has answered
    have hnone : task.replied = none := by
      cases hr' : task.replied with
      | none => rfl
      | some p => cases p <;> simp_all [Task.interrupted]
    refine ⟨fun ha => absurd ha (by simp [Task.answerable, ho, Outcome.reply]), fun hn hpos => ?_⟩
    exact absurd ((hans hn).tasks.unreplied t task ht hnone) (Nat.ne_of_gt hpos)
  · exact hT.2 (hT.replied_eq hint)

/-- A request whose handler comes to `o`, and `n` steps of its task after that. -/
def serveOnce (o : Outcome) (n : Nat) : List Act :=
  [.serve (.replace none [.bare 0 "fs"]),
    .receive (.control (.req 7 "fs.read" .nil none .nil)), .serve .readerRun, .serve .readerRun,
    .serve (.dispatched 0 o)] ++ List.replicate n (.serve (.run 0))

theorem answered_iff_answerable_serveOnce :
    ∃ s task, Run (Steps (Shared.step (.bare .acceptor .json))) (.start .default)
        (serveOnce (.response .nil) 7) s ∧
      s.serve.tasks.get 0 = some task ∧ task.pc.isOver = true ∧
      (task.answerable .json = true → 0 < answers s.out.handed task.id) ∧
      (s.reqIds.Nodup → 0 < answers s.out.handed task.id → task.answerable .json = true) := by
  obtain ⟨s, hrun, hlive, hany⟩ := exists_run_of_exec
    (Shared.step (.bare .acceptor .json)) (.start .default) (serveOnce (.response .nil) 7)
    (fun s => s.out.writer.live = true ∧
      (s.serve.tasks.get 0).any fun task => task.pc.isOver && !task.interrupted) rfl
  obtain ⟨task, ht, hover⟩ := (Option.any_eq_true _ _).mp hany
  rw [Bool.and_eq_true, Bool.not_eq_true'] at hover
  exact ⟨s, task, hrun, ht, hover.1,
    answered_iff_answerable hrun hlive ht hover.1 hover.2⟩

/-- A response with an extension value, under JSON: the flag is set, the encoding fails, and the
task ends with nothing handed over.  A panic in `dispatch` ends the same way. -/
theorem accepted_request_unanswered :
    (∃ s, Run (Steps (Shared.step (.bare .acceptor .json))) (.start .default)
        (serveOnce (.response ⟨.ext 1 []⟩) 7) s ∧
      ((s.serve.tasks.get 0).any fun task => task.pc.isOver && !task.aborted) ∧
      s.out.writer.live = true ∧ answers s.out.handed 7 = 0) ∧
    ∀ ser, ∃ s, Run (Steps (Shared.step (.bare .acceptor ser))) (.start .default)
        (serveOnce .panicked 0) s ∧
      ((s.serve.tasks.get 0).any fun task => task.pc.isOver && !task.aborted) ∧
      s.out.writer.live = true ∧ answers s.out.handed 7 = 0 := by
  refine ⟨exists_run_of_exec _ _ _ _ rfl, fun ser => ?_⟩
  cases ser with
  | msgpack | json => exact exists_run_of_exec _ _ _ _ rfl

end Zyris.Core
