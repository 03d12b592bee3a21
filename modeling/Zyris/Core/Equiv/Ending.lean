import Zyris.Core.Equiv.Revoke
import Zyris.Core.Equiv.Open
import Zyris.Core.Equiv.Incoming
import Zyris.Proto.Equiv.Attach

/-!
# A stream ends once

The task of a `uni_stream`, a cancel and a `replace` may send its terminator.  Of the last two only
one comes to the call (`Serve.claims`), but neither waits for the task.  If the task is at an await
whenever one of them makes up its mind, and goes no further once it is held there
(`Shared.abortsInTime`), then the stream ends once.
-/

namespace Zyris.Core

open Proto

/-! ### A task that is held -/

namespace TaskPc

/-- At an await of the stream loop. -/
def isParked : TaskPc → Bool
  | .streaming .. => true
  | .acquiring .. => true
  | _ => false

/-- The task was stopped, or has panicked. -/
def isGone : TaskPc → Bool
  | .stopped => true
  | .panicked => true
  | _ => false

/-- The task is through with its stream. -/
def isThrough : TaskPc → Bool
  | .closingGate => true
  | .finishing => true
  | .leaving => true
  | .ended => true
  | _ => false

theorem not_isThrough_of_isParked {pc : TaskPc} (h : pc.isParked = true) :
    pc.isThrough = false := by
  cases pc <;> first | rfl | cases h

theorem not_isThrough_of_isGone {pc : TaskPc} (h : pc.isGone = true) : pc.isThrough = false := by
  cases pc <;> first | rfl | cases h

end TaskPc

/-- The `replace` is failing the call of the task, whose head is out. -/
def ReplacePc.fails (t : Nat) : ReplacePc → Bool
  | .pushingErr _ _ w _ => w.2.task = t
  | .closingGate _ _ w _ => w.2.task = t
  | .aborting _ w _ => w.2.task = t
  | _ => false

namespace Serve

/-- The task was aborted, or a `replace` is about to abort it. -/
def isHeld (v : Serve) (t : Nat) (task : Task) : Bool :=
  task.aborted || v.replaces.objects.any (·.pc.fails t)

/-- The task is gone, or held at an await of its stream loop. -/
def isHalted (v : Serve) (t : Nat) (task : Task) : Bool :=
  task.pc.isGone || task.pc.isParked && v.isHeld t task

/-- The task is not held at an await of its stream loop. -/
def mayGoOn (v : Serve) (t : Nat) : Bool :=
  (v.tasks.get t).all fun task => !(task.pc.isParked && v.isHeld t task)

/-- A task that is held goes no further than its await; when a cancel that found the gate, or a
`replace` that found the call answered, decides to end the stream, the task is gone or at such an
await, and the abort has reached it or is about to. -/
def abortsInTime (v : Serve) : ServeAct → Bool
  | .yielded t _ => v.mayGoOn t
  | .run t => v.mayGoOn t
  | .readerRun =>
    match v.reader with
    | .cancelGate x => (v.credits.table.get x).isNone || v.tasks.objects.all fun task =>
      task.stream ≠ some x || task.pc.isGone || task.pc.isParked && task.aborted
    | _ => true
  | .replaceRun r => (v.replaces.get r).all fun x =>
    match x.pc with
    | .failing _ (w :: _) => w.2.stream.isNone || (v.tasks.get w.2.task).all fun task =>
      task.replied.isNone || task.pc.isGone || task.pc.isParked
    | _ => true
  | _ => true

end Serve

/-- Every step of the serving half is so. -/
def Shared.abortsInTime (s : Shared) : Act → Bool
  | .serve a => s.serve.abortsInTime a
  | _ => true

/-! ### Who sends on the stream -/

/-- One for a task that serves a request declaring the stream. -/
def Task.serves (x : Nat) (task : Task) : Nat := if task.stream = some x then 1 else 0

/-- One for a reader that has accepted such a request, whose task is not spawned yet. -/
def ReaderPc.serves (x : Nat) : ReaderPc → Nat
  | .accepted r => if r.stream = some x then 1 else 0
  | _ => 0

variable {x : Nat}

theorem ReaderPc.serves_eq_zero {pc : ReaderPc} (h : ∀ r, pc ≠ .accepted r) :
    pc.serves x = 0 := by
  cases pc with
  | accepted r => exact absurd rfl (h r)
  | _ => rfl

def Serve.serving (v : Serve) (x : Nat) : Nat := v.tasks.total (Task.serves x)

/-- The ids a task has taken for blobs, until their senders are spawned. -/
@[simp] def TaskPc.ids : TaskPc → List Nat
  | .detaching _ ids _ => ids
  | .registering _ _ detached _ => detached.map (·.stream)
  | .pushingRes _ detached _ => detached.map (·.stream)
  | .spawning detached _ => detached.map (·.stream)
  | _ => []

/-- No blob goes out on the stream. -/
structure Serve.Foreign (v : Serve) (x : Nat) : Prop where
  tasks : ∀ t task, v.tasks.get t = some task → x ∉ task.pc.ids
  senders : ∀ k z, v.senders.get k = some z → z.item.stream ≠ x

/-! ### Who may end the stream -/

/-- One for a call with the stream. -/
def InflightCall.claims (x : Nat) (c : InflightCall) : Nat := if c.stream = some x then 1 else 0

/-- One for a reader that has such a call, or is about to register it. -/
def ReaderPc.claims (tasks : Arena Task) (x : Nat) : ReaderPc → Nat
  | .accepted r => if r.stream = some x then 1 else 0
  | .spawned t => if (tasks.get t).bind Task.stream = some x then 1 else 0
  | .canceling _ c => c.claims x
  | .cancelGate y => if y = x then 1 else 0
  | _ => 0

/-- How many such calls a `replace` is yet to come to. -/
def ReplacePc.claims (x : Nat) (pc : ReplacePc) : Nat :=
  (pc.waiting.map fun w => w.2.claims x).sum

/-- One for a reader that is about to end the stream. -/
def ReaderPc.ends (x : Nat) : ReaderPc → Nat
  | .pushing e => if ((Frame.control e).part x).isSome then 1 else 0
  | _ => 0

/-- One for a `replace` that is. -/
def ReplacePc.ends (x : Nat) : ReplacePc → Nat
  | .pushingErr _ y _ _ => if y = x then 1 else 0
  | _ => 0

/-- Whoever announces has no calls to come to. -/
theorem Replace.Announces.claims {y z : Replace} (h : y.Announces z) :
    z.pc.claims x = y.pc.claims x ∧ z.pc.ends x = y.pc.ends x := by
  rcases h with rfl | ⟨hy, hz, -⟩
  · exact ⟨rfl, rfl⟩
  · rcases hy with hy | ⟨i, hy⟩ <;> rcases hz with hz | ⟨j, hz⟩ <;> rw [hy, hz] <;>
      exact ⟨rfl, rfl⟩

/-- The task of the call is there, with the call's stream. -/
def InflightCall.Of (tasks : Arena Task) (c : InflightCall) : Prop :=
  ∃ task, tasks.get c.task = some task ∧ task.stream = c.stream

namespace Serve

variable (v : Serve) (x : Nat)

/-- How often a cancel or a `replace` may yet make up its mind to end the stream. -/
def claims : Nat :=
  v.reader.claims v.tasks x + v.inflight.total (fun _ c => c.claims x) +
    v.replaces.total fun y => y.pc.claims x

/-- How many of them have. -/
def ends : Nat := v.reader.ends x + v.replaces.total fun y => y.pc.ends x

/-- Each call that is registered, or that a `replace` is yet to come to, is of its task. -/
structure OwnCalls : Prop where
  inflight : ∀ id c, v.inflight.get id = some c → c.Of v.tasks
  replaces : ∀ r y, v.replaces.get r = some y → ∀ w ∈ y.pc.waiting, w.2.Of v.tasks

end Serve

def terminators (log : List StreamEvent) : Nat := log.countP fun ev => !ev.isData

theorem terminators_append (log log' : List StreamEvent) :
    terminators (log ++ log') = terminators log + terminators log' := List.countP_append

theorem allData_iff {log : List StreamEvent} : AllData log ↔ terminators log = 0 := by
  simp [AllData, terminators, List.countP_eq_zero]

/-! ### Flags and streams -/

/-- The second task has the stream of the first. -/
def Task.SameStream (a b : Task) : Prop := b.stream = a.stream

theorem Task.sameStream_refl (a : Task) : a.SameStream a := rfl

theorem Task.Flagged.sameStream {a b : Task} (h : a.Flagged b) : a.SameStream b := h.stream

section SameStream

variable {tasks tasks' : Arena Task} {x : Nat}

theorem InflightCall.Of.rel {c : InflightCall} (h : c.Of tasks)
    (hrel : tasks.Rel Task.SameStream tasks') : c.Of tasks' := by
  obtain ⟨task, ht, hs⟩ := h
  obtain ⟨y, hy, hyx⟩ := hrel.get_right ht
  exact ⟨y, hy, hyx.trans hs⟩

theorem InflightCall.Of.alloc {c : InflightCall} (h : c.Of tasks) (y : Task) :
    c.Of (tasks.alloc y) := by
  obtain ⟨task, ht, hs⟩ := h
  exact ⟨task, Arena.get_alloc_of_get ht y, hs⟩

theorem ReaderPc.claims_rel (pc : ReaderPc) (hrel : tasks.Rel Task.SameStream tasks') :
    pc.claims tasks' x = pc.claims tasks x := by
  cases pc with
  | spawned t =>
    have hbind : (tasks'.get t).bind Task.stream = (tasks.get t).bind Task.stream := by
      cases ht : tasks.get t with
      | none =>
        cases hy : tasks'.get t with
        | none => rfl
        | some y =>
          obtain ⟨z, hz, -⟩ := hrel.get hy
          rw [ht] at hz
          cases hz
      | some z =>
        obtain ⟨y, hy, hyz⟩ := hrel.get_right ht
        rw [hy]
        exact hyz
    simp only [ReaderPc.claims, hbind]
  | _ => rfl

end SameStream

/-! ### What a handler task does to its stream -/

theorem flow_encode (cfg : Config) {e : Envelope} (h : (Frame.control e).part x = none) :
    flow x (frames (cfg.encode e)) = [] := by
  refine List.filterMap_eq_nil_iff.mpr fun f hf => ?_
  rw [mem_frames_encode hf]
  exact h

theorem flow_encode_cases (cfg : Config) {a : Envelope} {p : Nat × StreamEvent}
    (h : (Frame.control a).part x = some p) :
    flow x (frames (cfg.encode a)) = [] ∨ flow x (frames (cfg.encode a)) = [p] := by
  rw [frames_encode]
  split_ifs
  · rw [flow_singleton, h]
    exact .inr rfl
  · exact .inl rfl

/-- A control frame ends a stream, or says nothing on it. -/
theorem part_control {e : Envelope} {p : Nat × StreamEvent}
    (h : (Frame.control e).part x = some p) : p.2.isData = false := by
  unfold Frame.part at h
  split at h
  · rename_i heq
    cases heq
  · split_ifs at h
    cases h
    rfl
  · split_ifs at h
    cases h
    rfl
  · cases h

/-- A step of a task: the place it leaves and the one it comes to, and what it sends. -/
inductive Task.Onward (task y : Task) (fs : List Frame) : Prop
  | through : task.pc.isThrough = true → y.pc.isThrough = true → (∀ x, flow x fs = []) →
    Onward task y fs
  | stopped : task.pc.awaits = true → y.pc = .stopped → (∀ x, flow x fs = []) → Onward task y fs
  | silent : task.pc.isThrough = false → task.pc.isGone = false → (∀ x, flow x fs = []) →
    Onward task y fs
  | data (gate seq x : Nat) (bytes : List UInt8) : task.pc = .pushingData gate seq bytes →
    task.stream = some x → fs = [.streamData x seq bytes] → Onward task y fs
  | ended (error : Option WireError) (x : Nat) (cfg : Config) : task.pc = .pushingEnd error →
    task.stream = some x → y.pc = .closingGate →
    fs = frames (cfg.encode (Serve.endEnvelope x error)) → Onward task y fs

/-- A task sends nothing on another stream than its own. -/
theorem Task.Onward.flow_eq_nil {task y : Task} {fs : List Frame} (h : task.Onward y fs)
    (hne : task.stream ≠ some x) : flow x fs = [] := by
  cases h with
  | through _ _ hflow | stopped _ _ hflow | silent _ _ hflow => exact hflow x
  | data gate seq stream bytes hpc hs hfs =>
    have hx : stream ≠ x := by
      rintro rfl
      exact hne hs
    rw [hfs, flow_singleton, Frame.part, if_neg hx]
    rfl
  | ended error stream cfg hpc hs hy hfs =>
    have hx : stream ≠ x := by
      rintro rfl
      exact hne hs
    rw [hfs]
    exact flow_encode cfg (by cases error <;> exact if_neg hx)

namespace Serve

variable {cfg : Config} {env : Env} {v v' : Serve} {e : Emit} {x : Nat}

variable {task : Task}

theorem TaskStep.onward {t : Nat} (h : TaskStep cfg env v t task v' e) :
    ∃ f, v'.tasks = v.tasks.update t f ∧ (f task).stream = task.stream ∧
      task.Onward (f task) (frames e.cmds) := by
  have quiet : ∀ x, flow x (frames Emit.none.cmds) = [] := fun _ => rfl
  cases h with
  | stopped _ hpc => exact ⟨_, rfl, rfl, .stopped hpc rfl quiet⟩
  | pushedData gate seq stream bytes pc hpc hs =>
    exact ⟨_, rfl, rfl, .data gate seq stream bytes hpc hs rfl⟩
  | pushedEnd error stream hpc hs =>
    exact ⟨_, rfl, rfl, .ended error stream cfg hpc hs rfl rfl⟩
  | closedGate _ hpc | finished hpc | left hpc =>
    exact ⟨_, rfl, rfl, .through (by rw [hpc]; rfl) rfl quiet⟩
  | pushedRes _ _ _ hpc | pushedErr _ hpc =>
    exact ⟨_, rfl, rfl,
      .silent (by rw [hpc]; rfl) (by rw [hpc]; rfl) fun x => flow_encode cfg rfl⟩
  | dispatched _ hpc | itemYielded _ _ _ hpc | itemsEnded _ _ _ hpc | itemsPanicked _ _ hpc
  | opened _ _ hpc | replyLate _ _ hpc | replyTaken _ _ _ hpc | allocated _ _ _ hpc
  | detached _ _ _ _ hpc | registered _ _ _ _ _ hpc | registeredAll _ _ _ hpc | spawned _ _ hpc
  | refuseLate _ hpc | refuseTaken _ hpc | acquired _ _ _ _ hpc | acquireCanceled _ _ _ _ hpc =>
    exact ⟨_, rfl, rfl, .silent (by rw [hpc]; rfl) (by rw [hpc]; rfl) quiet⟩

theorem TaskStep.sameStream {t : Nat} (h : TaskStep cfg env v t task v' e)
    (ht : v.tasks.get t = some task) : v.tasks.Rel Task.SameStream v'.tasks := by
  obtain ⟨f, htasks, hs, -⟩ := h.onward
  rw [htasks]
  refine Arena.rel_update Task.sameStream_refl fun z hz => ?_
  obtain rfl := Option.mem_unique ht hz
  exact hs

theorem serving_rel (h : v.tasks.Rel Task.SameStream v'.tasks) : v'.serving x = v.serving x :=
  h.total_eq fun a b hab => by rw [Task.serves, show b.stream = a.stream from hab, Task.serves]

theorem step_serving {closed : Bool} {a : ServeAct} (h : v.step cfg env closed a = some (v', e)) :
    v'.serving x + v'.reader.serves x ≤ v.serving x + v.reader.serves x := by
  rcases step_cases h with ⟨t, task, ht, -, hs⟩ | ⟨k, z, -, hs⟩ | ⟨-, hs⟩ |
    ⟨caller, capabilities, built, -, -, -, rfl⟩ | ⟨r, y, -, -, hs⟩
  · rw [serving_rel (hs.sameStream ht), hs.reply.1]
  · obtain ⟨htasks, hreader, -⟩ := hs.reply
    rw [serving, htasks, hreader, serving]
  · rcases hs.tasks with ⟨r, hr, -, rfl⟩ | ⟨hflag, -, -, hnot⟩
    · rw [hr, serving, Arena.total_alloc]
      exact Nat.le_refl _
    · rw [serving_rel (hflag.mono fun _ _ h => h.sameStream),
        ReaderPc.serves_eq_zero fun r => (hnot r).2]
      omega
  · exact Nat.le_refl _
  · rw [serving_rel (hs.tasks.1.mono fun _ _ h => h.sameStream), hs.tasks.2.1]

theorem handle_serves (cfg : Config) (f : Frame) (hidle : v.reader = .idle) :
    (v.handle cfg f).reader.serves x ≤ f.declares x := by
  have hzero : v.reader.serves x = 0 := by
    rw [hidle]
    rfl
  unfold handle
  split
  · unfold handleRequest
    split_ifs <;> (try split) <;> (try split) <;> simp_all [ReaderPc.serves, Frame.declares]
  · unfold handleCancel
    split
    · exact Nat.zero_le _
    · exact hzero ▸ Nat.zero_le _
  all_goals exact hzero ▸ Nat.zero_le _

/-! ### Blobs go out on streams of their own -/

namespace Foreign

theorem flagged (h : v.Foreign x) (ht : v.tasks.Rel Task.Flagged v'.tasks)
    (hs : v'.senders = v.senders) : v'.Foreign x where
  tasks t y hy := by
    obtain ⟨z, hz, hzy⟩ := ht.get hy
    rw [hzy.pc]
    exact h.tasks t z hz
  senders := hs ▸ h.senders

theorem taskStep {t : Nat} {task : Task} (h : v.Foreign x) (ht : v.tasks.get t = some task)
    (hx : env.streamId ≠ x) (hs : TaskStep cfg env v t task v' e) : v'.Foreign x := by
  have hids := h.tasks t task ht
  have move {v' : Serve} {f : Task → Task} (htasks : v'.tasks = v.tasks.update t f)
      (hf : x ∉ (f task).pc.ids)
      (hsenders : ∀ k z, v'.senders.get k = some z → z.item.stream ≠ x) : v'.Foreign x := by
    refine ⟨?_, hsenders⟩
    rw [htasks]
    exact Arena.forall_update_known h.tasks ht hf
  cases hs with
  | allocated result ids next hpc =>
    rw [hpc] at hids
    refine move rfl ?_ h.senders
    show x ∉ ids ++ [env.streamId]
    rw [List.mem_append, List.mem_singleton]
    exact not_or.mpr ⟨hids, hx.symm⟩
  | detached result ids next d hpc hlen hd =>
    rw [hpc] at hids
    subst hd
    refine move rfl (fun hmem => hids ?_) h.senders
    rw [TaskPc.ids, detach_snd _ _ hlen, map_stream_detachedAs _ hlen] at hmem
    exact List.mem_of_mem_take hmem
  | registered _ _ _ _ _ hpc | registeredAll _ _ _ hpc | pushedRes _ _ _ hpc =>
    rw [hpc] at hids
    exact move rfl hids h.senders
  | spawned all next hpc =>
    rw [hpc] at hids
    refine move rfl (by cases next <;> simp [After.pc]) fun k z hz => ?_
    rcases get_spawned hz with hz | ⟨item, hitem, rfl⟩
    · exact h.senders k z hz
    · exact fun heq => hids (List.mem_map.mpr ⟨item, hitem, heq⟩)
  | replyTaken _ _ pc _ _ hor =>
    refine move rfl ?_ h.senders
    rcases hor with ⟨rfl, -⟩ | ⟨rfl, -⟩ <;> simp
  | replyLate _ next => exact move rfl (by cases next <;> simp [After.pc]) h.senders
  | dispatched o =>
    refine move rfl ?_ h.senders
    show x ∉ (o.pc task.stream).ids
    unfold Outcome.pc
    split <;> simp
  | pushedData _ _ _ _ pc _ _ hor =>
    refine move rfl ?_ h.senders
    rcases hor with ⟨rfl, -⟩ | ⟨rfl, -⟩ <;> simp
  | _ => exact move rfl (by simp) h.senders

theorem serveStep {closed : Bool} {a : ServeAct} (h : v.Foreign x) (hx : env.streamId ≠ x)
    (hstep : v.step cfg env closed a = some (v', e)) : v'.Foreign x := by
  rcases step_cases hstep with ⟨t, task, ht, -, hs⟩ | ⟨k, y, hy, hs⟩ | ⟨-, hs⟩ |
    ⟨caller, capabilities, built, -, -, -, rfl⟩ | ⟨r, y, -, -, hs⟩
  · exact h.taskStep ht hx hs
  · obtain ⟨pc, hsenders⟩ : ∃ pc, v'.senders = (v.senderPc k pc).senders := by
      cases hs <;> exact ⟨_, rfl⟩
    refine ⟨hs.reply.1 ▸ h.tasks, ?_⟩
    rw [hsenders]
    exact Arena.forall_update_known h.senders hy (h.senders k y hy)
  · rcases hs.tasks with ⟨r, -, -, rfl⟩ | ⟨hflag, -, hsenders, -⟩
    · exact ⟨Arena.forall_alloc h.tasks List.not_mem_nil, h.senders⟩
    · exact h.flagged hflag hsenders
  · exact ⟨h.tasks, h.senders⟩
  · exact h.flagged hs.tasks.1 hs.tasks.2.2

end Foreign

/-! ### What the others do to it -/

/-- Tasks change in their flags only, and one that is held stays so. -/
structure Eases (v v' : Serve) : Prop where
  tasks : v.tasks.Rel Task.Flagged v'.tasks
  held : ∀ t z y, v.tasks.get t = some z → v'.tasks.get t = some y → v.isHeld t z = true →
    v'.isHeld t y = true

theorem isHeld_iff {t : Nat} : v.isHeld t task = true ↔
    task.aborted = true ∨ ∃ r y, v.replaces.get r = some y ∧ y.pc.fails t = true := by
  rw [isHeld, Bool.or_eq_true, List.any_eq_true]
  refine or_congr_right ⟨?_, ?_⟩
  · rintro ⟨y, hy, hfails⟩
    obtain ⟨r, hr⟩ := Arena.mem_objects_iff.mp hy
    exact ⟨r, y, hr, hfails⟩
  · rintro ⟨r, y, hr, hfails⟩
    exact ⟨y, Arena.mem_objects_of_get hr, hfails⟩

theorem Eases.of_replaces (h : v.tasks.Rel Task.Flagged v'.tasks) (hr : v'.replaces = v.replaces) :
    v.Eases v' := by
  refine ⟨h, fun t z y hz hy hheld => ?_⟩
  obtain ⟨z', hz', hflag⟩ := h.get hy
  obtain rfl := Option.mem_unique hz hz'
  rw [isHeld_iff] at hheld ⊢
  rw [hr]
  exact hheld.imp_left hflag.aborted

theorem Beside.eases (h : v.Beside v') : v.Eases v' := by
  refine ⟨h.tasks.mono fun _ _ h => h.1, fun t z y hz hy hheld => ?_⟩
  obtain ⟨z', hz', hflag, -⟩ := h.tasks.get hy
  obtain rfl := Option.mem_unique hz hz'
  rw [isHeld_iff] at hheld ⊢
  refine hheld.imp hflag.aborted ?_
  rintro ⟨r, w, hw, hf⟩
  rcases h.get_replace hw with hw' | hpc | ⟨i, hpc⟩
  · exact ⟨r, w, hw', hf⟩
  all_goals rw [hpc] at hf; cases hf

/-- Those who may end the stream come closer to it at most, or one decides to while the task is
halted, or does so. -/
inductive Proceeds (v v' : Serve) (fs : List Frame) (x : Nat) : Prop
  | quiet : v'.claims x ≤ v.claims x → v'.ends x = v.ends x → flow x fs = [] → Proceeds v v' fs x
  | decided : 0 < v.serving x → v'.claims x + 1 ≤ v.claims x → v'.ends x = v.ends x + 1 →
    flow x fs = [] →
    (∀ t y, v'.tasks.get t = some y → y.stream = some x → v'.isHalted t y = true) →
    Proceeds v v' fs x
  | pushed (p : Nat × StreamEvent) : p.2.isData = false → v'.claims x ≤ v.claims x →
    v'.ends x + 1 = v.ends x → (flow x fs = [] ∨ flow x fs = [p]) → Proceeds v v' fs x

theorem ReaderStep.proceeds (h : ReaderStep cfg v v' e)
    (hle : v.claims x + v.ends x ≤ v.serving x + v.reader.serves x)
    (hok : v.reader = .cancelGate x → (v.credits.table.get x).isSome = true →
      ∀ t task, v.tasks.get t = some task → task.stream = some x →
        task.pc.isGone = true ∨ task.pc.isParked = true ∧ task.aborted = true)
    (hr : ∀ r, v.reader ≠ .accepted r) : v.Proceeds v' (frames e.cmds) x := by
  unfold claims ends at hle
  cases h with
  | pushed a ha =>
    cases hpart : (Frame.control a).part x with
    | none =>
      refine .quiet ?_ ?_ (flow_encode cfg hpart)
      · simp [claims, ha, ReaderPc.claims]
      · simp [ends, ha, ReaderPc.ends, hpart]
    | some p =>
      refine .pushed p (part_control hpart) ?_ ?_ (flow_encode_cases cfg hpart)
      · simp [claims, ha, ReaderPc.claims]
      · simp [ends, ha, ReaderPc.ends, hpart, Nat.add_comm]
  | spawned r ha => exact absurd ha (hr r)
  | inserted t task ha ht hd =>
    refine .quiet ?_ (by simp [ends, ha, ReaderPc.ends]) rfl
    have htotal := v.inflight.total_insert task.id ⟨task.capability, t, task.stream⟩
      fun _ c => c.claims x
    have hrem := v.inflight.total_remove_le task.id fun _ c => c.claims x
    have hcall : InflightCall.claims x ⟨task.capability, t, task.stream⟩ =
      if task.stream = some x then 1 else 0 := rfl
    simp only [claims, ha, ReaderPc.claims, ht, Option.bind_some, htotal, hcall]
    omega
  | skipped t task ha | gateGone stream ha hg =>
    refine .quiet ?_ (by simp [ends, ha, ReaderPc.ends]) rfl
    simp [claims, ha, ReaderPc.claims]
  | cancelTaken id call task ha ht hrep =>
    refine .quiet ?_ (by simp [ends, ha, ReaderPc.ends, Frame.part, updateTask]) rfl
    simp [claims, ha, ReaderPc.claims, updateTask]
  | cancelLate id call task pc ha ht hrep hor =>
    rcases hor with ⟨stream, hs, rfl⟩ | ⟨hs, rfl⟩
    · refine .quiet ?_ (by simp [ends, ha, ReaderPc.ends, updateTask]) rfl
      simp [claims, ha, ReaderPc.claims, updateTask, InflightCall.claims, hs]
    · refine .quiet ?_ (by simp [ends, ha, ReaderPc.ends, updateTask]) rfl
      simp [claims, ha, ReaderPc.claims, updateTask]
  | closedGate stream gate ha hg =>
    by_cases hx : stream = x
    · subst hx
      -- the cancel makes up its mind: its claim becomes an end
      rw [ha] at hle
      simp only [ReaderPc.claims, if_true, ReaderPc.serves] at hle
      refine .decided (by omega) ?_ ?_ rfl fun t y hy hs => ?_
      · simp only [claims, ha, ReaderPc.claims, if_true]
        omega
      · simp [ends, ha, ReaderPc.ends, Frame.part, Nat.add_comm]
      · rw [isHalted, Bool.or_eq_true, Bool.and_eq_true, isHeld_iff]
        exact (hok ha (by rw [hg]; rfl) t y hy hs).imp_right fun h => ⟨h.1, .inl h.2⟩
    · refine .quiet ?_ (by simp [ends, ha, ReaderPc.ends, Frame.part, hx]) rfl
      simp [claims, ha, ReaderPc.claims, hx]

variable {closed : Bool} {r : Nat} {y : Task} {fs' : List Frame}

theorem ReplaceStep.eases {y : Replace} (h : ReplaceStep cfg closed v r y v' e)
    (hy : v.replaces.get r = some y) : v.Eases v' := by
  obtain ⟨htasks, -⟩ := h.tasks
  -- a task that the `replace` was failing is still being failed, or was aborted
  have move {f : Replace → Replace} (hrep : v'.replaces = v.replaces.update r f)
      (hfails : ∀ t, y.pc.fails t = true → (f y).pc.fails t = true ∨
        ∀ z, v'.tasks.get t = some z → z.aborted = true) : v.Eases v' := by
    refine ⟨htasks, fun t z z' hz hz' hheld => ?_⟩
    obtain ⟨z₀, hz₀, hflag⟩ := htasks.get hz'
    obtain rfl := Option.mem_unique hz hz₀
    rw [isHeld_iff] at hheld ⊢
    rcases hheld with ha | ⟨k, y', hy', hf⟩
    · exact .inl (hflag.aborted ha)
    by_cases hk : k = r
    · subst hk
      obtain rfl := Option.mem_unique hy hy'
      rcases hfails t hf with hf' | ha
      · exact .inr ⟨k, f y, by rw [hrep, Arena.get_update_self hy], hf'⟩
      · exact .inl (ha z' hz')
    · exact .inr ⟨k, y', by rw [hrep, Arena.get_update, if_neg hk, hy'], hf⟩
  cases h with
  | checked _ hpc | revokedAll hpc | passDone _ hpc | answered _ _ _ hpc | collected _ _ _ hpc
  | taken _ _ _ _ hpc | late _ _ _ _ _ hpc =>
    exact move rfl fun t ht => by simp [hpc, ReplacePc.fails] at ht
  | pushedErr name stream w rest hpc | closedGate name stream w rest hpc =>
    refine move rfl fun t ht => .inl ?_
    rw [hpc] at ht
    exact ht
  | aborted name w rest hpc =>
    refine move rfl fun t ht => .inr fun z hz => ?_
    rw [hpc] at ht
    obtain rfl : w.2.task = t := of_decide_eq_true ht
    rcases Arena.get_update_cases hz with ⟨-, z', -, rfl⟩ | ⟨hne, -⟩
    · rfl
    · exact absurd rfl hne

/-- One task at most serves the stream. -/
theorem eq_of_serving_le_one (hone : v.serving x ≤ 1) {t u : Nat}
    (ht : v.tasks.get t = some task) (hs : task.stream = some x) (hu : v.tasks.get u = some y)
    (hs' : y.stream = some x) : u = t := by
  by_contra hne
  have htwo := Arena.add_le_total hu ht hne (Task.serves x)
  rw [show y.serves x = 1 from if_pos hs', show task.serves x = 1 from if_pos hs] at htwo
  have hle : v.tasks.total (Task.serves x) ≤ 1 := hone
  omega

theorem ReplaceStep.proceeds {y : Replace} (h : ReplaceStep cfg closed v r y v' e)
    (hy : v.replaces.get r = some y) (hcalls : v.OwnCalls) (hone : v.serving x ≤ 1)
    (hok : ∀ name w rest task, y.pc = .failing name (w :: rest) → w.2.stream = some x →
      v.tasks.get w.2.task = some task → task.replied.isSome = true → task.pc.isGone = true ∨
      task.pc.isParked = true) :
    v.Proceeds v' (frames e.cmds) x := by
  obtain ⟨htasks, hreader, -⟩ := h.tasks
  have hrel := v.reader.claims_rel (x := x) (htasks.mono fun _ _ h => h.sameStream)
  -- the `replace` goes on, with `n` calls of the stream taken out of `inflight`
  have move (pc' : ReplacePc) (n : Nat) {f : Replace → Replace}
      (hrep : v'.replaces = v.replaces.update r f) (hpc' : (f y).pc = pc')
      (hinf : v'.inflight.total (fun _ c => c.claims x) + n =
        v.inflight.total fun _ c => c.claims x) :
      v'.claims x + y.pc.claims x + n = v.claims x + pc'.claims x ∧
        v'.ends x + y.pc.ends x = v.ends x + pc'.ends x := by
    subst hpc'
    have hclaims := Arena.total_update hy f fun y => y.pc.claims x
    have hends := Arena.total_update hy f fun y => y.pc.ends x
    unfold claims ends
    rw [hrep, hreader, hrel]
    omega
  -- most steps only leave calls behind
  have quiet {pc : ReplacePc} (pc' : ReplacePc) (n : Nat) {f : Replace → Replace}
      {fs : List Frame} (hpc : y.pc = pc) (hrep : v'.replaces = v.replaces.update r f)
      (hpc' : (f y).pc = pc')
      (hinf : v'.inflight.total (fun _ c => c.claims x) + n =
        v.inflight.total fun _ c => c.claims x)
      (hclaims : pc'.claims x ≤ pc.claims x + n) (hends : pc'.ends x = pc.ends x)
      (hfs : flow x fs = []) : v.Proceeds v' fs x := by
    subst hpc
    have hmove := move pc' n hrep hpc' hinf
    exact .quiet (by omega) (by omega) hfs
  cases h with
  | checked pc hpc hor =>
    refine quiet pc 0 hpc rfl rfl rfl ?_ ?_ rfl
    · rcases hor with ⟨rfl, -⟩ | ⟨rfl, -⟩ <;> exact Nat.zero_le _
    · rcases hor with ⟨rfl, -⟩ | ⟨rfl, -⟩ <;> rfl
  | collected name names order hpc hnames hperm =>
    -- what is taken out of `inflight` waits with the `replace`
    exact quiet (.failing name order) _ hpc rfl rfl
      (Table.total_retain_notMem hperm fun _ c => c.claims x) (Nat.le_add_left _ _) rfl rfl
  | revokedAll hpc =>
    exact quiet .announcing 0 hpc rfl rfl rfl (Nat.zero_le _) rfl rfl
  | passDone name hpc =>
    exact quiet .revoking 0 hpc rfl rfl rfl (Nat.zero_le _) rfl rfl
  | taken name w rest task hpc =>
    exact quiet (.answering name w rest) 0 hpc rfl rfl rfl
      (Nat.le_add_left _ _) rfl rfl
  | late name w rest task pc hpc ht hrep hor =>
    rcases hor with ⟨stream, hs, rfl⟩ | ⟨hs, rfl⟩
    · by_cases hx : stream = x
      · subst hx
        -- the `replace` makes up its mind: the call it comes to is that of the stream's task
        obtain ⟨hclaims, hends⟩ := move (.pushingErr name stream w rest) 0 rfl rfl rfl
        have hone' : w.2.claims stream = 1 := if_pos hs
        have hold : y.pc.claims stream =
            w.2.claims stream + (ReplacePc.pushingErr name stream w rest).claims stream := by
          rw [hpc]
          rfl
        have hzero : y.pc.ends stream = 0 := by
          rw [hpc]
          rfl
        have hnew : (ReplacePc.pushingErr name stream w rest).ends stream = 1 := if_pos rfl
        obtain ⟨task', ht', hs'⟩ := hcalls.replaces r y hy w (by simp [hpc, ReplacePc.waiting])
        obtain rfl := Option.mem_unique ht ht'
        have hserves : task.serves stream = 1 := if_pos (hs'.trans hs)
        have hserving : task.serves stream ≤ v.serving stream :=
          Arena.le_total_of_get ht (Task.serves stream)
        refine .decided (by omega) (by omega) (by omega) rfl fun u z hz hzs => ?_
        obtain ⟨z', hz', hflag⟩ := htasks.get hz
        have hu := eq_of_serving_le_one hone ht (hs'.trans hs) hz' (hflag.stream.symm.trans hzs)
        subst hu
        obtain rfl := Option.some.inj ((Arena.get_update_self ht _).symm.trans hz)
        rw [isHalted, Bool.or_eq_true, Bool.and_eq_true, isHeld_iff]
        refine (hok name w rest task hpc hs ht hrep).imp_right fun h => ⟨h, .inr ?_⟩
        exact ⟨r, _, Arena.get_update_self hy _, decide_eq_true rfl⟩
      · exact quiet (.pushingErr name stream w rest) 0 hpc rfl rfl rfl
          (Nat.le_add_left _ _) (if_neg hx) rfl
    · exact quiet (.aborting name w rest) 0 hpc rfl rfl rfl
        (Nat.le_add_left _ _) rfl rfl
  | answered name w rest hpc =>
    exact quiet (.aborting name w rest) 0 hpc rfl rfl rfl (Nat.le_refl _) rfl
      (flow_encode cfg (e := .err w.1 (revokedError name)) rfl)
  | pushedErr name stream w rest hpc =>
    by_cases hx : stream = x
    · subst hx
      obtain ⟨hclaims, hends⟩ := move (.closingGate name stream w rest) 0 rfl rfl rfl
      have hpart : (Frame.control (.sErr stream (revokedError name))).part stream =
        some (0, .failed (revokedError name)) := if_pos rfl
      have hold : y.pc.ends stream = 1 := by
        rw [hpc]
        exact if_pos rfl
      have hnew : (ReplacePc.closingGate name stream w rest).ends stream = 0 := rfl
      have hsame : (ReplacePc.closingGate name stream w rest).claims stream =
          y.pc.claims stream := by
        rw [hpc]
        rfl
      exact .pushed _ rfl (by omega) (by omega) (flow_encode_cases cfg hpart)
    · exact quiet (.closingGate name stream w rest) 0 hpc rfl rfl rfl (Nat.le_refl _)
        (if_neg hx).symm (flow_encode cfg (e := .sErr stream (revokedError name)) (if_neg hx))
  | closedGate name stream w rest hpc =>
    exact quiet (.aborting name w rest) 0 hpc rfl rfl rfl (Nat.le_refl _) rfl rfl
  | aborted name w rest hpc =>
    exact quiet (.failing name rest) 0 hpc rfl rfl rfl (Nat.le_refl _)
      rfl rfl

/-- An accepted request is a claim on the stream it declares; an immediate answer ends none. -/
theorem claims_handleRequest (cfg : Config) (v : Serve) (id : Nat) (method : String)
    (params : Payload) (stream : Option Nat) (metadata : Payload) (tasks : Arena Task) (x : Nat) :
    (v.handleRequest cfg id method params stream metadata).claims tasks x =
        (v.handleRequest cfg id method params stream metadata).serves x ∧
      (v.handleRequest cfg id method params stream metadata).ends x = 0 := by
  rcases v.handleRequest_cases cfg id method params stream metadata with ⟨r, -, hr⟩ | ⟨a, ha, hr⟩
  · rw [hr]
    exact ⟨rfl, rfl⟩
  · have hpart : (Frame.control a).part x = none := by
      cases a <;> first | rfl | cases ha
    rw [hr]
    exact ⟨rfl, by simp [ReaderPc.ends, hpart]⟩

theorem handle_proceeds (f : Frame) (hidle : v.reader = .idle)
    (hserves : (v.handle cfg f).reader.serves x = 0) : v.Proceeds (v.handle cfg f) [] x := by
  unfold handle at hserves ⊢
  split
  · rename_i id method params stream metadata
    obtain ⟨hclaims, hends⟩ :=
      v.claims_handleRequest cfg id method params stream metadata v.tasks x
    refine .quiet ?_ ?_ rfl
    · simp only [claims, hclaims, hserves]
      omega
    · simp only [ends, hends, hidle]
      rfl
  · unfold handleCancel
    split
    · -- a cancel takes the call out of `inflight`
      rename_i call hcall
      have hrem := Table.total_remove_of_get hcall fun _ c => c.claims x
      refine .quiet ?_ ?_ rfl
      · simp only [claims, ReaderPc.claims, hidle]
        omega
      · simp [ends, ReaderPc.ends, hidle]
    · exact .quiet (Nat.le_refl _) rfl rfl
  all_goals exact .quiet (Nat.le_refl _) rfl rfl

theorem Outside.proceeds (h : v.Outside v') : v.Proceeds v' [] x := by
  have hb := h.beside
  have hclaims := hb.replaces.total_eq (w := fun y => y.pc.claims x) fun _ _ h => h.claims.1
  have hends := hb.replaces.total_eq (w := fun y => y.pc.ends x) fun _ _ h => h.claims.2
  have hrel := v.reader.claims_rel (x := x) (hb.tasks.mono fun _ _ h => h.1.sameStream)
  have hinf : v'.inflight.total (fun _ c => c.claims x) ≤
      v.inflight.total fun _ c => c.claims x := by
    cases h with
    | drainedInflight => exact Nat.zero_le _
    | _ => exact Nat.le_refl _
  refine .quiet ?_ ?_ rfl
  · unfold Serve.claims
    rw [h.reader_eq, hrel, hclaims]
    omega
  · unfold Serve.ends
    rw [h.reader_eq, hends]

/-! ### Calls and their tasks -/

namespace OwnCalls

theorem mono (h : v.OwnCalls) (htasks : ∀ c : InflightCall, c.Of v.tasks → c.Of v'.tasks)
    (hinf : ∀ id c, v'.inflight.get id = some c → v.inflight.get id = some c)
    (hrep : ∀ r y', v'.replaces.get r = some y' → y'.pc.waiting = [] ∨
      ∃ y, v.replaces.get r = some y ∧ y'.pc.waiting ⊆ y.pc.waiting) : v'.OwnCalls := by
  refine ⟨fun id c hc => htasks c (h.inflight id c (hinf id c hc)), fun r y' hy' w hw => ?_⟩
  rcases hrep r y' hy' with hnil | ⟨y, hy, hsub⟩
  · rw [hnil] at hw
    cases hw
  · exact htasks w.2 (h.replaces r y hy w (hsub hw))

theorem serveStep {closed : Bool} {a : ServeAct} (h : v.OwnCalls)
    (hstep : v.step cfg env closed a = some (v', e)) : v'.OwnCalls := by
  have same : ∀ r y', v.replaces.get r = some y' → y'.pc.waiting = [] ∨
      ∃ y, v.replaces.get r = some y ∧ y'.pc.waiting ⊆ y.pc.waiting :=
    fun r y hy => .inr ⟨y, hy, List.Subset.refl _⟩
  rcases step_cases hstep with ⟨t, task, ht, -, hs⟩ | ⟨k, z, -, hs⟩ | ⟨-, hs⟩ |
    ⟨caller, capabilities, built, -, -, -, rfl⟩ | ⟨r, y, -, hy, hs⟩
  · obtain ⟨-, hrep, hinf, -⟩ := hs.reply
    refine h.mono (fun c hc => hc.rel (hs.sameStream ht)) (fun id c hc => ?_) (hrep ▸ same)
    rcases hinf with hinf | ⟨j, hinf⟩ <;> rw [hinf] at hc
    · exact hc
    · exact (Table.get_of_get_remove hc).2
  · obtain ⟨htasks, -, hrep, hinf, -⟩ := hs.reply
    exact h.mono (fun c hc => htasks ▸ hc) (fun id c hc => hinf ▸ hc) (hrep ▸ same)
  · rcases hs.tasks with ⟨r, -, -, rfl⟩ | ⟨hflag, -⟩
    · exact h.mono (fun c hc => hc.alloc _) (fun id c hc => hc) same
    have hof (c : InflightCall) (hc : c.Of v.tasks) : c.Of v'.tasks :=
      hc.rel (hflag.mono fun _ _ h => h.sameStream)
    cases hs with
    | inserted t task _ ht _ =>
      exact ⟨Table.forall_insert h.inflight ⟨task, ht, rfl⟩, h.replaces⟩
    | _ => exact h.mono hof (fun id c hc => hc) same
  · exact h.mono (fun c hc => hc) (fun id c hc => hc) (Arena.forall_alloc same (.inl rfl))
  · have hof (c : InflightCall) (hc : c.Of v.tasks) : c.Of v'.tasks :=
      hc.rel (hs.tasks.1.mono fun _ _ h => h.sameStream)
    rcases hs.waiting with ⟨name, names, order, hperm, rfl⟩ | ⟨f, hrep, hinf, -, hsub⟩
    · -- the victims come from `inflight`
      refine ⟨fun id c hc => ?_, Arena.forall_update h.replaces fun z _ w hw => ?_⟩
      · rw [Table.get_retain] at hc
        exact h.inflight id c (Option.filter_eq_some_iff.mp hc).1
      · have hmem : w ∈ v.inflight.entries := (List.mem_filter.mp (hperm.subset hw)).1
        exact h.inflight w.1 w.2 ((Table.mem_entries_iff _ _ _).mp hmem)
    · refine h.mono hof (fun id c hc => hinf ▸ hc) ?_
      rw [hrep]
      exact Arena.forall_update_known same hy (.inr ⟨y, hy, hsub⟩)

theorem beside (h : v.OwnCalls) (hb : v.Beside v') : v'.OwnCalls := by
  refine h.mono (fun c hc => hc.rel (hb.tasks.mono fun _ _ h => h.1.sameStream)) hb.inflight
    fun r y' hy' => ?_
  obtain ⟨y, hy, rfl | ⟨-, hpc, -⟩⟩ := hb.replaces.get hy'
  · exact .inr ⟨y', hy, List.Subset.refl _⟩
  · rcases hpc with hpc | ⟨i, hpc⟩ <;> rw [hpc] <;> exact .inl rfl

end OwnCalls

/-! ### Where the stream stands -/

/-- What was sent on a task's stream: while it may go on nobody else ends its stream, nor has it;
once it is halted, one terminator at most is out or to come. -/
structure Course (v : Serve) (x : Nat) (log : List StreamEvent) (t : Nat) (task : Task) :
    Prop where
  endsOnce : EndsOnce log
  running : v.isHalted t task = false →
    v.ends x = 0 ∧ (task.pc.isThrough = false → terminators log = 0)
  halted : v.isHalted t task = true → v.claims x + v.ends x + terminators log ≤ 1

/-- The invariant of one stream's terminators. -/
structure Ending (v : Serve) (x : Nat) (log : List StreamEvent) : Prop where
  calls : v.OwnCalls
  claims : v.claims x + v.ends x ≤ v.serving x + v.reader.serves x
  unserved : v.serving x = 0 → log = [] ∧ v.ends x = 0
  course : ∀ t task, v.tasks.get t = some task → task.stream = some x → v.Course x log t task

variable {t : Nat} {task : Task} {log log' : List StreamEvent} {fs : List Frame}

theorem isThrough_of_isHalted (h : v.isHalted t task = true) : task.pc.isThrough = false := by
  rw [isHalted, Bool.or_eq_true, Bool.and_eq_true] at h
  rcases h with h | ⟨h, -⟩
  · exact TaskPc.not_isThrough_of_isGone h
  · exact TaskPc.not_isThrough_of_isParked h

theorem Course.clear (hlog : terminators log = 0) (hends : v.ends x = 0)
    (hclaims : v.claims x ≤ 1) :
    v.Course x log t task where
  endsOnce := (allData_iff.mpr hlog).endsOnce
  running _ := ⟨hends, fun _ => hlog⟩
  halted _ := by omega

/-- Nobody has ended the stream of a task that is neither through nor halted, or halted with a call
to come to. -/
theorem Course.terminators_eq_zero (h : v.Course x log t task) (hpc : task.pc.isThrough = false)
    (hclaim : v.isHalted t task = true → 0 < v.claims x) : terminators log = 0 ∧ v.ends x = 0 := by
  cases hh : v.isHalted t task with
  | false => exact ⟨(h.running hh).2 hpc, (h.running hh).1⟩
  | true =>
    have hle := h.halted hh
    have hpos := hclaim hh
    omega

theorem Course.proceeds {z : Task} (h : v.Course x log t z) (hz : v.tasks.get t = some z)
    (hy : v'.tasks.get t = some y) (he : v.Eases v') (hp : v.Proceeds v' fs x)
    (hone : v.claims x + v.ends x ≤ 1) (hs : y.stream = some x) :
    v'.Course x (log ++ (flow x fs).map Prod.snd) t y := by
  obtain ⟨z', hz', hflag⟩ := he.tasks.get hy
  obtain rfl := Option.mem_unique hz hz'
  have hstays (hh : v.isHalted t z = true) : v'.isHalted t y = true := by
    rw [isHalted, Bool.or_eq_true, Bool.and_eq_true, hflag.pc]
    rw [isHalted, Bool.or_eq_true, Bool.and_eq_true] at hh
    exact hh.imp_right fun hh => ⟨hh.1, he.held t z y hz hy hh.2⟩
  have hthrough (hh : v'.isHalted t y = true) : z.pc.isThrough = false := by
    rw [← hflag.pc]
    exact isThrough_of_isHalted hh
  cases hp with
  | quiet hclaims hends hflow =>
    rw [hflow, List.map_nil, List.append_nil]
    refine ⟨h.endsOnce, fun hh => ?_, fun hh => ?_⟩
    · have hz : v.isHalted t z = false := by
        by_contra hne
        rw [hstays (by simpa using hne)] at hh
        cases hh
      rw [hends, hflag.pc]
      exact h.running hz
    · cases hz : v.isHalted t z with
      | true =>
        have hle := h.halted hz
        omega
      | false =>
        have hrun := h.running hz
        have hlog := hrun.2 (hthrough hh)
        omega
  | decided _ hclaims hends hflow hhalted =>
    rw [hflow, List.map_nil, List.append_nil]
    have hh := hhalted t y hy hs
    obtain ⟨hlog, hzero⟩ := h.terminators_eq_zero (hthrough hh) fun _ => by omega
    refine ⟨h.endsOnce, fun hne => ?_, fun _ => by omega⟩
    rw [hh] at hne
    cases hne
  | pushed p hdata hclaims hends hflow =>
    have hz : v.isHalted t z = true := by
      by_contra hne
      have hrun := h.running (by simpa using hne)
      omega
    have hle := h.halted hz
    have hlog : terminators log = 0 := by omega
    have hy := hstays hz
    rcases hflow with hflow | hflow
    · rw [hflow, List.map_nil, List.append_nil]
      refine ⟨h.endsOnce, fun hne => ?_, fun _ => by omega⟩
      rw [hy] at hne
      cases hne
    rw [hflow, List.map_singleton]
    refine ⟨(allData_iff.mpr hlog).snoc_endsOnce _, fun hne => ?_, fun _ => ?_⟩
    · rw [hy] at hne
      cases hne
    · have hp : terminators [p.2] = 1 := by simp [terminators, hdata]
      rw [terminators_append]
      omega

theorem not_isHalted_of_isThrough (h : task.pc.isThrough = true) : v.isHalted t task = false := by
  by_contra hne
  rw [isThrough_of_isHalted (by simpa using hne)] at h
  cases h

theorem Course.onward (h : v.Course x log t task) (ho : task.Onward y fs)
    (hs : task.stream = some x)
    (hgo : (task.pc.isParked && v.isHeld t task) = false ∨ task.pc.awaits = true ∧ y.pc = .stopped)
    (hclaims : v'.claims x ≤ v.claims x) (hends : v'.ends x = v.ends x)
    (hone : v.claims x + v.ends x ≤ 1) (hfs : fs' = [] ∨ fs' = fs) :
    v'.Course x (log ++ (flow x fs').map Prod.snd) t y := by
  have silent (hfs : ∀ x, flow x fs = []) {fs' : List Frame} (hor : fs' = [] ∨ fs' = fs) :
      log ++ (flow x fs').map Prod.snd = log := by
    rcases hor with rfl | rfl
    · exact List.append_nil _
    · rw [hfs, List.map_nil, List.append_nil]
  -- a task that is neither gone nor held has nobody else to end its stream
  have active (hgone : task.pc.isGone = false)
      (hgo : (task.pc.isParked && v.isHeld t task) = false) (hpc : task.pc.isThrough = false) :
      terminators log = 0 ∧ v.ends x = 0 := by
    have hh : v.isHalted t task = false := by rw [isHalted, hgone, hgo, Bool.false_or]
    exact ⟨(h.running hh).2 hpc, (h.running hh).1⟩
  have stopped (hpc : task.pc.awaits = true) (hy : y.pc = .stopped) : v'.Course x log t y := by
    have hh : v'.isHalted t y = true := by rw [isHalted, hy]; rfl
    refine ⟨h.endsOnce, fun hne => ?_, fun _ => ?_⟩
    · rw [hh] at hne
      cases hne
    cases hz : v.isHalted t task with
    | true =>
      have hle := h.halted hz
      omega
    | false =>
      have hthrough : task.pc.isThrough = false := by
        cases hp : task.pc <;> first | rfl | (rw [hp] at hpc; cases hpc)
      have hlog := (h.running hz).2 hthrough
      omega
  cases ho with
  | through hz hy hflow =>
    rw [silent hflow hfs]
    have hrun := h.running (not_isHalted_of_isThrough hz)
    refine ⟨h.endsOnce, fun _ => ⟨by rw [hends, hrun.1], fun hne => ?_⟩, fun hh => ?_⟩
    · rw [hy] at hne
      cases hne
    · rw [not_isHalted_of_isThrough hy] at hh
      cases hh
  | stopped hpc hy hflow =>
    rw [silent hflow hfs]
    exact stopped hpc hy
  | silent hthrough hgone hflow =>
    rw [silent hflow hfs]
    rcases hgo with hgo | ⟨hpc, hy⟩
    · obtain ⟨hlog, hzero⟩ := active hgone hgo hthrough
      exact .clear hlog (by omega) (by omega)
    · exact stopped hpc hy
  | data gate seq stream bytes hpc hs' hflow =>
    obtain ⟨hlog, hzero⟩ := active (by rw [hpc]; rfl) (by rw [hpc]; rfl) (by rw [hpc]; rfl)
    refine .clear ?_ (by omega) (by omega)
    rw [terminators_append, hlog, Nat.zero_add]
    rcases hfs with rfl | rfl
    · rfl
    · obtain rfl := Option.mem_unique hs hs'
      rw [hflow, flow_singleton, Frame.part, if_pos rfl]
      rfl
  | ended error stream cfg hpc hs' hy hflow =>
    obtain ⟨hlog, hzero⟩ := active (by rw [hpc]; rfl) (by rw [hpc]; rfl) (by rw [hpc]; rfl)
    obtain rfl := Option.mem_unique hs hs'
    have hthrough : y.pc.isThrough = true := by rw [hy]; rfl
    refine ⟨?_, fun _ => ⟨by omega, fun hne => ?_⟩, fun hh => ?_⟩
    · rcases hfs with rfl | rfl
      · rw [flow_nil, List.map_nil, List.append_nil]
        exact h.endsOnce
      obtain ⟨p, hp⟩ : ∃ p, (Frame.control (Serve.endEnvelope x error)).part x = some p := by
        cases error <;> exact ⟨_, if_pos rfl⟩
      rcases flow_encode_cases cfg hp with hf | hf
      · rw [hflow, hf, List.map_nil, List.append_nil]
        exact h.endsOnce
      · rw [hflow, hf]
        exact (allData_iff.mpr hlog).snoc_endsOnce _
    · rw [hthrough] at hne
      cases hne
    · rw [not_isHalted_of_isThrough hthrough] at hh
      cases hh

/-! ### One step -/

theorem Course.congr (h : v.Course x log t task) (hclaims : v'.claims x ≤ v.claims x)
    (hends : v'.ends x = v.ends x) (hh : v'.isHalted t task = v.isHalted t task) :
    v'.Course x log t task := by
  refine ⟨h.endsOnce, fun hr => ?_, fun hr => ?_⟩
  · rw [hends]
    exact h.running (hh ▸ hr)
  · have hle := h.halted (hh ▸ hr)
    omega

namespace Ending

variable (h : v.Ending x log) (hone : v.serving x + v.reader.serves x ≤ 1)

include h hone

theorem proceeds (hcalls : v'.OwnCalls) (he : v.Eases v') (hp : v.Proceeds v' fs x)
    (hserves : v'.reader.serves x = v.reader.serves x) :
    v'.Ending x (log ++ (flow x fs).map Prod.snd) := by
  have hserving : v'.serving x = v.serving x :=
    serving_rel (he.tasks.mono fun _ _ h => h.sameStream)
  have hclaims := h.claims
  refine ⟨hcalls, ?_, fun hzero => ?_, fun t y hy hs => ?_⟩
  · cases hp <;> omega
  · obtain ⟨rfl, hends⟩ := h.unserved (hserving ▸ hzero)
    cases hp with
    | quiet _ hsame hflow =>
      rw [hflow]
      exact ⟨rfl, hsame.trans hends⟩
    | decided hpos => omega
    | pushed p _ _ hless => omega
  · obtain ⟨z, hz, hflag⟩ := he.tasks.get hy
    exact (h.course t z hz (hflag.stream.symm.trans hs)).proceeds hz hy he hp (by omega) hs

theorem spawned (r : Accepted) (hr : v.reader = .accepted r) :
    ({ v with tasks := v.tasks.alloc r.task, reader := .spawned v.tasks.size } : Serve).Ending x
      log := by
  have hclaims := h.claims
  have hstream : r.task.stream = r.stream := rfl
  have hserves : v.reader.serves x = r.task.serves x := by
    rw [hr]
    rfl
  have hsame : ({ v with
      tasks := v.tasks.alloc r.task
      reader := .spawned v.tasks.size } : Serve).claims x = v.claims x := by
    simp [Serve.claims, hr, ReaderPc.claims, hstream]
  have hends : ({ v with
      tasks := v.tasks.alloc r.task
      reader := .spawned v.tasks.size } : Serve).ends x = v.ends x := by
    simp [Serve.ends, hr, ReaderPc.ends]
  have hserving : ({ v with
      tasks := v.tasks.alloc r.task
      reader := .spawned v.tasks.size } : Serve).serving x = v.serving x + r.task.serves x :=
    Arena.total_alloc _ _ _
  refine ⟨?_, ?_, fun hzero => ?_, fun t y hy hs => ?_⟩
  · exact h.calls.mono (fun c hc => hc.alloc _) (fun id c hc => hc)
      fun k y hy => .inr ⟨y, hy, List.Subset.refl _⟩
  · rw [hsame, hends, hserving]
    show _ ≤ _ + 0
    omega
  · rw [hends]
    exact h.unserved (by omega)
  · rcases Arena.get_alloc_cases hy with ⟨-, rfl⟩ | hy
    · -- nothing was sent before there was a task
      have hnew : r.task.serves x = 1 := if_pos hs
      obtain ⟨rfl, hzero⟩ := h.unserved (by omega)
      exact .clear rfl (by omega) (by omega)
    · exact (h.course t y hy hs).congr (Nat.le_of_eq hsame) hends rfl

theorem taskStep {f : Task → Task} {fs' : List Frame} (hstep : TaskStep cfg env v t task v' e)
    (ht : v.tasks.get t = some task) (hcalls : v'.OwnCalls) (htasks : v'.tasks = v.tasks.update t f)
    (ho : task.Onward (f task) (frames e.cmds)) (hstream : (f task).stream = task.stream)
    (hgo : (task.pc.isParked && v.isHeld t task) = false ∨
      task.pc.awaits = true ∧ (f task).pc = .stopped)
    (hfs : fs' = [] ∨ fs' = frames e.cmds) :
    v'.Ending x (log ++ (flow x fs').map Prod.snd) := by
  obtain ⟨hreader, hrep, hinf, -⟩ := hstep.reply
  have hclaims := h.claims
  have hle : v'.claims x ≤ v.claims x := by
    have hrel := v.reader.claims_rel (x := x) (hstep.sameStream ht)
    have hremoved : v'.inflight.total (fun _ c => c.claims x) ≤
        v.inflight.total fun _ c => c.claims x := by
      rcases hinf with hinf | ⟨id, hinf⟩
      · rw [hinf]
      · rw [hinf]
        exact v.inflight.total_remove_le id _
    unfold Serve.claims
    rw [hreader, hrep, hrel]
    omega
  have hends : v'.ends x = v.ends x := by rw [Serve.ends, hreader, hrep, Serve.ends]
  have hserving : v'.serving x = v.serving x := serving_rel (hstep.sameStream ht)
  have hsilent (hne : task.stream ≠ some x) : log ++ (flow x fs').map Prod.snd = log := by
    rcases hfs with rfl | rfl
    · exact List.append_nil _
    · rw [ho.flow_eq_nil hne, List.map_nil, List.append_nil]
  refine ⟨hcalls, by rw [hreader]; omega, fun hzero => ?_, fun u y hy hs => ?_⟩
  · have hne : task.stream ≠ some x := by
      intro hs
      have hpos := Arena.le_total_of_get ht (Task.serves x)
      rw [show task.serves x = 1 from if_pos hs] at hpos
      have hz : v.tasks.total (Task.serves x) = 0 := hserving.symm.trans hzero
      omega
    rw [hsilent hne, hends]
    exact h.unserved (hserving.symm.trans hzero)
  · rw [htasks] at hy
    rcases Arena.get_update_known ht hy with ⟨rfl, rfl⟩ | ⟨hne, hy⟩
    · rw [hstream] at hs
      exact (h.course u task ht hs).onward ho hs hgo hle hends (by omega) hfs
    · have hother : task.stream ≠ some x := fun hst =>
        hne (eq_of_serving_le_one (by omega) ht hst hy hs)
      rw [hsilent hother]
      refine (h.course u y hy hs).congr hle hends ?_
      rw [isHalted, isHalted, isHeld, isHeld, hrep]

end Ending

theorem Proceeds.of_cases (h : v.Proceeds v' fs x) (hfs : fs' = [] ∨ fs' = fs) :
    v.Proceeds v' fs' x := by
  rcases hfs with rfl | rfl
  · cases h with
    | quiet hclaims hends => exact .quiet hclaims hends rfl
    | decided hpos hclaims hends _ hhalted => exact .decided hpos hclaims hends rfl hhalted
    | pushed p hdata hclaims hends => exact .pushed p hdata hclaims hends (.inl rfl)
  · exact h

theorem SenderStep.flow_eq_nil {k : Nat} {z : Sender} (h : SenderStep cfg env v k z v' e)
    (hne : z.item.stream ≠ x) : flow x (frames e.cmds) = [] := by
  cases h with
  | pushedData gate seq chunk rest pc =>
    show flow x [.streamData z.item.stream seq chunk] = []
    rw [flow_singleton, Frame.part, if_neg hne]
    rfl
  | pushedEnd => exact flow_encode cfg (e := .sEnd z.item.stream _) (if_neg hne)
  | _ => rfl

theorem not_held_of_mayGoOn (h : v.mayGoOn t = true) (ht : v.tasks.get t = some task) :
    (task.pc.isParked && v.isHeld t task) = false := by
  rw [mayGoOn, ht, Option.all_some, Bool.not_eq_true'] at h
  exact h

theorem handle_of_serves {f : Frame} (hidle : v.reader = .idle)
    (h : (v.handle cfg f).reader.serves x ≠ 0) :
    ∃ r, v.handle cfg f = { v with reader := .accepted r } := by
  have hzero : v.reader.serves x = 0 := by
    rw [hidle]
    rfl
  unfold handle at h ⊢
  split at h
  · rename_i id method params stream metadata
    rcases v.handleRequest_cases cfg id method params stream metadata with ⟨r, -, hr⟩ | ⟨a, -, hr⟩
    · exact ⟨r, by rw [hr]⟩
    · rw [hr] at h
      exact absurd rfl h
  · unfold handleCancel at h
    split at h
    · exact absurd rfl h
    · exact absurd hzero h
  all_goals exact absurd hzero h

/-- **One step of the serving half.** -/
theorem Ending.serveStep {a : ServeAct} (h : v.Ending x log)
    (hone : v.serving x + v.reader.serves x ≤ 1) (hforeign : v.Foreign x)
    (hok : v.abortsInTime a = true) (hstep : v.step cfg env closed a = some (v', e))
    (hfs : fs' = [] ∨ fs' = frames e.cmds) : v'.Ending x (log ++ (flow x fs').map Prod.snd) := by
  have hcalls := h.calls.serveStep hstep
  have keep : v.tasks.Rel Task.Flagged v.tasks := Arena.rel_refl Task.flagged_refl _
  cases a with
  | dispatched t o =>
    simp only [step] at hstep
    split at hstep
    · rename_i task ht
      have hs : TaskStep cfg env v t task v' e := taskStep_of_dispatched hstep
      obtain ⟨f, htasks, hstream, ho⟩ := hs.onward
      refine h.taskStep hone hs ht hcalls htasks ho hstream (.inl ?_) hfs
      unfold Serve.dispatched at hstep
      split at hstep
      · rename_i hpc
        rw [hpc]
        rfl
      · cases hstep
    · cases hstep
  | yielded t i =>
    simp only [step] at hstep
    split at hstep
    · rename_i task ht
      have hs : TaskStep cfg env v t task v' e := taskStep_of_yielded hstep
      obtain ⟨f, htasks, hstream, ho⟩ := hs.onward
      exact h.taskStep hone hs ht hcalls htasks ho hstream (.inl (not_held_of_mayGoOn hok ht)) hfs
    · cases hstep
  | run t =>
    simp only [step] at hstep
    split at hstep
    · rename_i task ht
      have hs := taskStep_of_taskRun hstep
      obtain ⟨f, htasks, hstream, ho⟩ := hs.onward
      exact h.taskStep hone hs ht hcalls htasks ho hstream (.inl (not_held_of_mayGoOn hok ht)) hfs
    · cases hstep
  | stop t =>
    simp only [step] at hstep
    split at hstep
    · rename_i task ht
      unfold taskStop at hstep
      split_ifs at hstep with hs
      cases hstep
      rw [Bool.and_eq_true] at hs
      have hstopped : TaskStep cfg env v t task (v.taskPc t .stopped) .none := .stopped hs.1 hs.2
      exact h.taskStep hone hstopped ht hcalls rfl (.stopped hs.2 rfl fun _ => rfl) rfl
        (.inr ⟨hs.2, rfl⟩) hfs
    · cases hstep
  | senderRun k =>
    simp only [step] at hstep
    split at hstep
    · rename_i z hz
      have hs := senderStep_of_senderRun hstep
      obtain ⟨htasks, hreader, hrep, hinf, -⟩ := hs.reply
      refine h.proceeds hone hcalls (.of_replaces (htasks ▸ keep) hrep) ?_ (by rw [hreader])
      have hflow := hs.flow_eq_nil (hforeign.senders k z hz)
      refine Proceeds.of_cases (.quiet (Nat.le_of_eq ?_) ?_ hflow) hfs
      · rw [Serve.claims, htasks, hreader, hinf, hrep, Serve.claims]
      · rw [ends, hreader, hrep, ends]
    · cases hstep
  | readerRun =>
    have hs := readerStep_of_readerRun hstep
    rcases hs.tasks with ⟨r, hr, rfl, rfl⟩ | ⟨hflag, hrep, -, hnot⟩
    · obtain rfl : fs' = [] := by rcases hfs with rfl | rfl <;> rfl
      rw [flow_nil, List.map_nil, List.append_nil]
      exact h.spawned hone r hr
    have hp : v.Proceeds v' (frames e.cmds) x := by
      refine hs.proceeds h.claims (fun hr hg t task ht hst => ?_) fun r => (hnot r).1
      simp only [abortsInTime, hr, Bool.or_eq_true, List.all_eq_true] at hok
      rcases hok with hnone | hall
      · rw [Option.isNone_iff_eq_none.mp hnone] at hg
        cases hg
      · simpa [hst] using hall task (Arena.mem_objects_of_get ht)
    refine h.proceeds hone hcalls (.of_replaces hflag hrep) (hp.of_cases hfs) ?_
    rw [ReaderPc.serves_eq_zero fun r => (hnot r).2, ReaderPc.serves_eq_zero fun r => (hnot r).1]
  | replace caller capabilities =>
    simp only [step, Serve.replace] at hstep
    repeat' split at hstep
    all_goals cases hstep
    obtain rfl : fs' = [] := by rcases hfs with rfl | rfl <;> rfl
    refine h.proceeds hone hcalls ⟨keep, fun t z y hz hy hheld => ?_⟩ (.quiet ?_ ?_ rfl) rfl
    · obtain rfl := Option.mem_unique hz hy
      rw [isHeld_iff] at hheld ⊢
      refine hheld.imp_right ?_
      rintro ⟨r, y, hy, hf⟩
      exact ⟨r, y, Arena.get_alloc_of_get hy _, hf⟩
    · simp [Serve.claims, ReplacePc.claims, ReplacePc.waiting]
    · simp [ends, ReplacePc.ends]
  | collect r order =>
    simp only [step] at hstep
    split at hstep
    · rename_i y hy
      have hs : ReplaceStep cfg closed v r y v' e := replaceStep_of_collect hstep
      have hp : v.Proceeds v' (frames e.cmds) x := by
        refine hs.proceeds hy h.calls (by omega) fun name w rest task hpc => ?_
        simp [Serve.collect, hpc] at hstep
      exact h.proceeds hone hcalls (hs.eases hy) (hp.of_cases hfs) (by rw [hs.tasks.2.1])
    · cases hstep
  | replaceRun r =>
    simp only [step] at hstep
    split at hstep
    · rename_i y hy
      have hs := replaceStep_of_replaceRun hstep
      have hp : v.Proceeds v' (frames e.cmds) x := by
        refine hs.proceeds hy h.calls (by omega) fun name w rest task hpc hst ht hrep => ?_
        obtain ⟨p, hp⟩ := Option.isSome_iff_exists.mp hrep
        simpa [abortsInTime, hy, hpc, hst, ht, hp] using hok
      exact h.proceeds hone hcalls (hs.eases hy) (hp.of_cases hfs) (by rw [hs.tasks.2.1])
    · cases hstep

end Serve

/-! ### One end -/

/-- What was handed to the writer on the stream. -/
def Shared.streamed (s : Shared) (x : Nat) : List StreamEvent := (flow x s.sent).map Prod.snd

theorem NoReply.flow_eq_nil {cmds : List WriterCmd} (h : NoReply cmds) (x : Nat) :
    flow x (frames cmds) = [] := by
  refine List.filterMap_eq_nil_iff.mpr fun f hf => ?_
  have hno := h _ (mem_frames.mp hf)
  cases f with
  | streamData stream seq bytes => exact absurd (.chunk stream seq bytes) hno
  | control e =>
    cases e with
    | sEnd stream p => exact absurd (.done stream p) hno
    | sErr stream error => exact absurd (.failed stream error) hno
    | _ => rfl

namespace Shared

variable {cfg : Config} {s s' : Shared} {a : Act} {x : Nat} {cmds : List WriterCmd}

theorem streamed_of_handed
    (h : s'.out.handed = s.out.handed ∨ s'.out.handed = s.out.handed ++ cmds) :
    ∃ fs, (fs = [] ∨ fs = frames cmds) ∧
      s'.streamed x = s.streamed x ++ (flow x fs).map Prod.snd := by
  rcases h with h | h
  · exact ⟨[], .inl rfl, by simp [streamed, sent, h]⟩
  · exact ⟨frames cmds, .inr rfl, by simp [streamed, sent, h]⟩

theorem streamed_of_noReply (hno : NoReply cmds)
    (h : s'.out.handed = s.out.handed ∨ s'.out.handed = s.out.handed ++ cmds) :
    s'.streamed x = s.streamed x := by
  obtain ⟨fs, hfs, hlog⟩ := streamed_of_handed (x := x) h
  have hnil : flow x fs = [] := by
    rcases hfs with rfl | rfl
    · rfl
    · exact hno.flow_eq_nil x
  rw [hlog, hnil, List.map_nil, List.append_nil]

/-- A request for the stream that is accepted is the first. -/
theorem ending_of_accepted {f : Frame} (hidle : s.serve.reader = .idle)
    (h : s.serve.Ending x (s.streamed x))
    (hone : (s.serve.handle cfg f).serving x + (s.serve.handle cfg f).reader.serves x ≤ 1)
    (hserves : (s.serve.handle cfg f).reader.serves x ≠ 0) :
    (s.serve.handle cfg f).Ending x (s.streamed x) := by
  obtain ⟨r, hr⟩ := Serve.handle_of_serves hidle hserves
  rw [hr] at hone hserves ⊢
  have hnew : ReaderPc.claims s.serve.tasks x (.accepted r) = ReaderPc.serves x (.accepted r) := rfl
  have hclaims := h.claims
  simp only [Serve.claims, Serve.ends, hidle, ReaderPc.claims, ReaderPc.ends, ReaderPc.serves]
    at hclaims
  refine ⟨⟨h.calls.inflight, h.calls.replaces⟩, ?_, fun hzero => ?_, fun t task ht hs => ?_⟩
  · simp only [Serve.claims, Serve.ends, hnew, ReaderPc.ends]
    show _ ≤ s.serve.serving x + _
    omega
  · obtain ⟨hlog, hends⟩ := h.unserved hzero
    refine ⟨hlog, ?_⟩
    simpa [Serve.ends, hidle, ReaderPc.ends] using hends
  · -- there is no task with the stream yet
    have hpos : task.serves x ≤ s.serve.serving x := Arena.le_total_of_get ht (Task.serves x)
    rw [show task.serves x = 1 from if_pos hs] at hpos
    have hle : s.serve.serving x + ReaderPc.serves x (.accepted r) ≤ 1 := hone
    have hne : ReaderPc.serves x (.accepted r) ≠ 0 := hserves
    omega

/-- An end and a stream that its peer declares. -/
structure Ends (s : Shared) (x : Nat) : Prop where
  serving : s.serve.serving x + s.serve.reader.serves x ≤ declared x s.received
  foreign : s.serve.Foreign x
  ending : declared x s.received ≤ 1 → s.serve.Ending x (s.streamed x)

theorem Ends.step (h : s.Ends x) (hstep : s.step cfg a = some s') (hok : s.abortsInTime a = true)
    (hown : ∀ n, cfg.streamId n ≠ x) : s'.Ends x := by
  have hserving := h.serving
  cases ha : a.serves with
  | false =>
    obtain ⟨hout, hrec, cmds, hno, hlog⟩ := step_outside ha hstep
    have hb := hout.beside
    have hsame := Serve.serving_rel (x := x) (hb.tasks.mono fun _ _ h => h.1.sameStream)
    refine ⟨by rw [hsame, hout.reader_eq, hrec]; exact hserving,
      h.foreign.flagged (hb.tasks.mono fun _ _ h => h.1) hb.senders, fun hdecl => ?_⟩
    rw [hrec] at hdecl
    have hending := (h.ending hdecl).proceeds (hserving.trans hdecl)
      ((h.ending hdecl).calls.beside hb) hb.eases hout.proceeds (by rw [hout.reader_eq])
    rwa [flow_nil, List.map_nil, List.append_nil, ← streamed_of_noReply hno (.inr hlog)] at hending
  | true =>
    cases acts_of_step hstep with
    | @serve b v e hserve =>
      refine ⟨(Serve.step_serving hserve).trans hserving, h.foreign.serveStep (hown _) hserve,
        fun hdecl => ?_⟩
      obtain ⟨fs, hfs, hlog⟩ := streamed_of_handed (x := x) (s.hand_cases e.cmds)
      have hending := (h.ending hdecl).serveStep (hserving.trans hdecl) h.foreign hok hserve hfs
      rwa [← hlog] at hending
    | @receive f hidle =>
      have hb := s.serve.handle_beside cfg f
      have hsame := Serve.serving_rel (x := x) (hb.tasks.mono fun _ _ h => h.1.sameStream)
      have hdeclares := Serve.handle_serves (x := x) cfg f hidle
      have hadd : declared x (s.received ++ [f]) = declared x s.received + f.declares x := by
        rw [declared_append, declared_singleton]
      have hserving' : (s.serve.handle cfg f).serving x + (s.serve.handle cfg f).reader.serves x ≤
          declared x (s.received ++ [f]) := by omega
      refine ⟨hserving', h.foreign.flagged (hb.tasks.mono fun _ _ h => h.1) hb.senders,
        fun hdecl => ?_⟩
      have hlog : (s.receive cfg f).streamed x = s.streamed x :=
        streamed_of_noReply (s.client.reaction_noReply cfg f) (s.hand_cases _)
      have hdecl' : declared x (s.received ++ [f]) ≤ 1 := hdecl
      have hending := h.ending (by omega)
      rw [hlog]
      show (s.serve.handle cfg f).Ending x (s.streamed x)
      by_cases hserves : (s.serve.handle cfg f).reader.serves x = 0
      · have hnext := hending.proceeds (by omega) (hending.calls.beside hb) hb.eases
          (Serve.handle_proceeds f hidle hserves) (by rw [hserves, hidle]; rfl)
        rwa [flow_nil, List.map_nil, List.append_nil] at hnext
      · exact ending_of_accepted hidle hending (hserving'.trans hdecl') hserves
    | _ => cases ha

theorem ending_established (served : Served) (x : Nat) :
    (Shared.established served).serve.Ending x ((Shared.established served).streamed x) := by
  have hzero {w : Replace → Nat} (hw : w ⟨none, [], .announcing⟩ = 0) :
      (Shared.established served).serve.replaces.total w = 0 := by
    by_contra hne
    obtain ⟨r, y, hy, hpos⟩ := Arena.exists_of_total_ne_zero hne
    rw [replaces_established hy] at hpos
    exact hpos hw
  have hclaims : (Shared.established served).serve.claims x = 0 :=
    Nat.add_eq_zero_iff.mpr ⟨rfl, hzero rfl⟩
  have hends : (Shared.established served).serve.ends x = 0 :=
    Nat.add_eq_zero_iff.mpr ⟨rfl, hzero rfl⟩
  refine ⟨⟨nofun, fun r y hy w hw => ?_⟩, ?_, fun _ => ⟨rfl, hends⟩,
    fun t task ht => by cases ht⟩
  · rw [replaces_established hy] at hw
    cases hw
  · rw [hclaims, hends]
    exact Nat.zero_le _

end Shared

/-- **A stream ends once, if the task is aborted in time.**  Whatever the item task, cancels,
`s_cancel`s and revocations do, at most one of `s_end` and `s_err` is handed to the writer for a
stream that the peer has declared once, with an id of its own, and no chunk after it. -/
theorem stream_terminated_once {cfg : Config} {served : Served} {as : List Act} {s : Shared}
    {x : Nat}
    (h : Run (Guarded (Steps (Shared.step cfg)) fun s a => s.abortsInTime a = true)
      (.established served) as s)
    (hown : ∀ n, cfg.streamId n ≠ x) (hdecl : declared x s.received ≤ 1) :
    EndsOnce (s.streamed x) := by
  have hinv : s.Ends x := by
    refine h.state_invariant (I := fun s => s.Ends x)
      ⟨Nat.zero_le _, ⟨fun t task ht => (by cases ht), fun k z hz => (by cases hz)⟩,
        fun _ => Shared.ending_established served x⟩ ?_
    rintro s a s' hs ⟨hstep, hok⟩
    exact hs.step hstep hok hown
  have hending := hinv.ending hdecl
  by_cases hserving : s.serve.serving x = 0
  · rw [(hending.unserved hserving).1]
    exact allData_nil.endsOnce
  · obtain ⟨t, task, ht, hserves⟩ := Arena.exists_of_total_ne_zero hserving
    have hs : task.stream = some x := by
      by_contra hne
      exact hserves (if_neg hne)
    exact (hending.course t task ht hs).endsOnce

/-- The peer declares stream 1 for its call, and the head of the call is out. -/
def tailStarted : List Act :=
  [.receive (.control (.req 9 "fs.tail" .nil (some 1) .nil)), .serve .readerRun, .serve .readerRun,
    .serve (.dispatched 0 (.stream .nil))] ++ List.replicate 6 (.serve (.run 0))

/-- The peer cancels the call while the task awaits an item. -/
def canceledAtAwait : List Act :=
  tailStarted ++ .receive (.control (.cancel 9)) :: List.replicate 3 (.serve .readerRun)

theorem stream_terminated_once_canceledAtAwait :
    ∃ s, Run (Guarded (Steps (Shared.step (.bare .acceptor .msgpack)))
          fun s a => s.abortsInTime a = true) (.established (.one (.bare 0 "fs")))
        canceledAtAwait s ∧
      (s.streamed 1).map StreamEvent.isData = [false] ∧ EndsOnce (s.streamed 1) := by
  obtain ⟨s, hrun, hlog, hdecl⟩ := exists_run_of_execOk
    (Shared.step (.bare .acceptor .msgpack)) Shared.abortsInTime
    (.established (.one (.bare 0 "fs"))) canceledAtAwait
    (fun s => (s.streamed 1).map StreamEvent.isData = [false] ∧ declared 1 s.received ≤ 1) rfl
  have hown (n : Nat) : (Config.bare .acceptor .msgpack).streamId n ≠ 1 := by
    show (2 + 2 * n) % 2 ^ 32 ≠ 1
    omega
  exact ⟨s, hrun, hlog, stream_terminated_once hrun hown hdecl⟩

/-- A `replace` sends `s_err`, and the task a chunk and `s_end` before it is aborted. -/
theorem terminated_twice :
    ∃ s, Run (Steps (Shared.step (.bare .acceptor .msgpack)))
        (.established (.one (.bare 0 "fs")))
        (tailStarted ++ [.serve (.replace none []), .serve (.replaceRun 1),
          .serve (.collect 1 [(9, ⟨"fs", 0, some 1⟩)]), .serve (.replaceRun 1),
          .serve (.replaceRun 1), .serve (.yielded 0 (.bytes [7])), .serve (.run 0),
          .serve (.run 0), .serve (.yielded 0 .done), .serve (.run 0)]) s ∧
      declared 1 s.received = 1 ∧ (s.streamed 1).map StreamEvent.isData = [false, true, false] ∧
      ¬ EndsOnce (s.streamed 1) := by
  refine ⟨_, run_of_exec rfl, rfl, rfl, fun h => ?_⟩
  exact absurd h.isData_head Bool.false_ne_true

end Zyris.Core
