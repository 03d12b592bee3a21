import Zyris.Core.Inflight
import Zyris.Core.Equiv.Revoke

/-!
# Nothing stays behind in `inflight`

An entry that is gone stays gone (`Serve.Gone`), as the reader inserts a call once; a call whose
task is through already has its `done` flag set, and is not inserted (`Tidy`).  With the load and
the insert apart the flag may be set in between, but the task still has to lock `inflight` before it
is through, and finds the entry (`Serve.Loaded`).
-/

namespace Zyris.Core

open Proto

/-! ### Calls that are through -/

namespace Serve

variable {cfg : Config} {env : Env} {closed : Bool} {v v' : Serve} {e : Emit} {t : Nat}

/-- The call of the task `t` is not registered, and will not be. -/
def Gone (v : Serve) (t : Nat) : Prop :=
  t < v.tasks.size ∧ ¬ v.IsInflight t ∧ v.reader ≠ .spawned t

/-- A step registers at most the reader's own call, of a task whose flag is not set; the task it
turns to is new. -/
structure Registers (v v' : Serve) : Prop where
  size : v.tasks.size ≤ v'.tasks.size
  inflight : ∀ t, v'.IsInflight t → v.IsInflight t ∨
    v.reader = .spawned t ∧ ∃ task, v.tasks.get t = some task ∧ task.done = false
  spawned : ∀ t, v'.reader = .spawned t → v.reader = .spawned t ∨ v.tasks.size ≤ t

theorem Registers.gone (h : v.Registers v') (hg : v.Gone t) : v'.Gone t := by
  obtain ⟨hlt, hnot, hreader⟩ := hg
  refine ⟨hlt.trans_le h.size, fun hi => ?_, fun hr => ?_⟩
  · obtain hi | ⟨hr, -⟩ := h.inflight t hi
    · exact hnot hi
    · exact hreader hr
  · obtain hr | hle := h.spawned t hr
    · exact hreader hr
    · omega

theorem Registers.not_isInflight (h : v.Registers v') {task : Task}
    (ht : v.tasks.get t = some task) (hdone : task.done = true) (hnot : ¬ v.IsInflight t) :
    ¬ v'.IsInflight t := by
  intro hi
  obtain hi | ⟨-, task', ht', hdone'⟩ := h.inflight t hi
  · exact hnot hi
  · obtain rfl := Option.mem_unique ht ht'
    rw [hdone] at hdone'
    cases hdone'

theorem registers_of_le (hsize : v.tasks.size ≤ v'.tasks.size)
    (hinf : ∀ id call, v'.inflight.get id = some call → v.inflight.get id = some call)
    (hreader : ∀ t, v'.reader = .spawned t → v.reader = .spawned t) : v.Registers v' where
  size := hsize
  inflight _ hi := .inl (hi.of_get hinf)
  spawned t ht := .inl (hreader t ht)

/-! #### The steps -/

theorem TaskStep.registers {task : Task} (h : TaskStep cfg env v t task v' e) :
    v.Registers v' := by
  obtain ⟨hreader, -, hinf, f, htasks, -⟩ := h.reply
  refine registers_of_le ?_ (fun id call hc => ?_) fun u hu => hreader ▸ hu
  · rw [htasks, Arena.size_update]
  · obtain hinf | ⟨id', hinf⟩ := hinf
    · rwa [hinf] at hc
    · rw [hinf] at hc
      exact (Table.get_of_get_remove hc).2

theorem ReaderStep.registers (h : ReaderStep cfg v v' e) : v.Registers v' := by
  cases h with
  | spawned r hr =>
    refine ⟨by simp, fun t hi => .inl hi, fun t ht => .inr ?_⟩
    cases ht
    exact Nat.le_refl _
  | inserted t task hr ht hdone =>
    refine ⟨Nat.le_refl _, fun u hi => ?_, nofun⟩
    obtain ⟨id, call, hc, rfl⟩ := hi
    obtain ⟨-, rfl⟩ | ⟨-, hc⟩ := Table.get_insert_cases hc
    · exact .inr ⟨hr, task, ht, hdone⟩
    · exact .inl ⟨id, call, hc, rfl⟩
  | cancelTaken id call task hr ht hnone =>
    exact registers_of_le (by simp [updateTask]) (fun _ _ hc => hc) nofun
  | cancelLate id call task pc hr ht hsome hpc =>
    refine registers_of_le (by simp [updateTask]) (fun _ _ hc => hc) fun u hu => ?_
    obtain ⟨stream, -, rfl⟩ | ⟨-, rfl⟩ := hpc <;> cases hu
  | pushed | skipped | closedGate | gateGone =>
    exact registers_of_le (Nat.le_refl _) (fun _ _ hc => hc) nofun

theorem ReplaceStep.registers {r : Nat} {x : Replace} (h : ReplaceStep cfg closed v r x v' e) :
    v.Registers v' := by
  cases h with
  | collected name names order hpc hrev hperm =>
    refine registers_of_le (Nat.le_refl _) (fun id call hc => ?_) fun u hu => hu
    rw [Table.get_retain, Option.filter_eq_some_iff] at hc
    exact hc.1
  | taken | late | aborted =>
    exact registers_of_le (by simp [updateTask, replacePc]) (fun _ _ hc => hc) fun u hu => hu
  | _ => exact registers_of_le (Nat.le_refl _) (fun _ _ hc => hc) fun u hu => hu

theorem step_registers {a : ServeAct} (h : v.step cfg env closed a = some (v', e)) :
    v.Registers v' := by
  rcases step_cases h with ⟨t, task, -, -, hs⟩ | ⟨k, x, -, hs⟩ | ⟨-, hs⟩ |
    ⟨caller, capabilities, built, -, -, -, rfl⟩ | ⟨r, x, -, -, hs⟩
  · exact hs.registers
  · obtain ⟨htasks, hreader, -, hinf, -⟩ := hs.reply
    exact registers_of_le (by rw [htasks]) (fun id call hc => hinf ▸ hc) fun u hu => hreader ▸ hu
  · exact hs.registers
  · exact registers_of_le (Nat.le_refl _) (fun _ _ hc => hc) fun u hu => hu
  · exact hs.registers

theorem Beside.registers (h : v.Beside v') : v.Registers v' :=
  registers_of_le h.tasks.size_eq.ge h.inflight h.spawned

end Serve

/-- An aborted task is gone; one that is through is not registered, as its flag tells before it
takes out its entry. -/
structure TidyTask (v : Serve) (t : Nat) (task : Task) : Prop where
  aborted : task.aborted = true → v.Gone t
  leaving : task.pc = .leaving → task.done = true
  ended : task.pc = .ended → task.done = true ∧ ¬ v.IsInflight t

/-- Tasks are tidy, and the victims of a `replace` are gone before it aborts them. -/
structure Tidy (v : Serve) : Prop where
  tasks : ∀ t task, v.tasks.get t = some task → TidyTask v t task
  victims : ∀ r x, v.replaces.get r = some x → x.pc.AllVictims fun _ w => v.Gone w.2.task

/-- The task is not aborted and comes to neither of its last two steps. -/
structure Task.Goes (x y : Task) : Prop where
  aborted : y.aborted = x.aborted
  done : x.done = true → y.done = true
  pc : y.pc = x.pc ∨ y.pc ≠ .leaving ∧ y.pc ≠ .ended

theorem Task.goes_refl (x : Task) : x.Goes x := ⟨rfl, fun h => h, .inl rfl⟩

namespace Tidy

variable {cfg : Config} {env : Env} {closed : Bool} {v v' : Serve} {e : Emit} {t : Nat}
  {log : List WriterCmd} {ids : List Nat}

theorem start (served : Served) : Tidy (Shared.start served).serve where
  tasks t task ht := by simp [Shared.start] at ht
  victims r x hx := by simp [Shared.start] at hx

theorem task_goes (h : Tidy v) (hreg : v.Registers v') {x y : Task} (hx : v.tasks.get t = some x)
    (hxy : x.Goes y) : TidyTask v' t y := by
  have htidy := h.tasks t x hx
  refine ⟨fun ha => ?_, fun hpc => ?_, fun hpc => ?_⟩
  · rw [hxy.aborted] at ha
    exact hreg.gone (htidy.aborted ha)
  · obtain hsame | ⟨hne, -⟩ := hxy.pc
    · rw [hsame] at hpc
      exact hxy.done (htidy.leaving hpc)
    · exact absurd hpc hne
  · obtain hsame | ⟨-, hne⟩ := hxy.pc
    · rw [hsame] at hpc
      obtain ⟨hdone, hnot⟩ := htidy.ended hpc
      exact ⟨hxy.done hdone, hreg.not_isInflight hx hdone hnot⟩
    · exact absurd hpc hne

theorem victims_gone (h : Tidy v) (hreg : v.Registers v') {r : Nat} {x : Replace}
    (hx : v.replaces.get r = some x) : x.pc.AllVictims fun _ w => v'.Gone w.2.task :=
  (h.victims r x hx).mono fun _ _ hg => hreg.gone hg

theorem keep (h : Tidy v) (hreg : v.Registers v')
    (htasks : ∀ t y, v'.tasks.get t = some y → ∃ x, v.tasks.get t = some x ∧ x.Goes y)
    (hrep : v'.replaces = v.replaces) : Tidy v' := by
  refine ⟨fun t y hy => ?_, fun r x hx => ?_⟩
  · obtain ⟨x, hx, hxy⟩ := htasks t y hy
    exact h.task_goes hreg hx hxy
  · rw [hrep] at hx
    exact h.victims_gone hreg hx

theorem update (h : Tidy v) (hreg : v.Registers v') {f : Task → Task} {u : Nat} {x : Task}
    (hx : v.tasks.get u = some x) (htasks : v'.tasks = v.tasks.update u f)
    (hu : TidyTask v' u (f x)) {y : Task} (hy : v'.tasks.get t = some y) : TidyTask v' t y := by
  rw [htasks] at hy
  obtain ⟨rfl, rfl⟩ | ⟨-, hy⟩ := Arena.get_update_known hx hy
  · exact hu
  · exact h.task_goes hreg hy y.goes_refl

end Tidy

variable {v v' : Serve} {log : List WriterCmd} {ids : List Nat} {task : Task} {t : Nat}
  {cfg : Config} {served : Served} {s : Shared}

/-- The id of an entry is its task's. -/
theorem Answers.id_of_inflight (h : Answers v log ids) {id : Nat} {call : InflightCall}
    (hc : v.inflight.get id = some call) (ht : v.tasks.get call.task = some task) :
    task.id = id := by
  obtain ⟨task', ht', hid, -⟩ := h.inflight id call hc
  obtain rfl := Option.mem_unique ht ht'
  exact hid

theorem Answers.not_isInflight_of_remove (h : Answers v log ids) (ht : v.tasks.get t = some task)
    (hinf : v'.inflight = v.inflight.remove task.id) : ¬ v'.IsInflight t := by
  rintro ⟨id, call, hc, rfl⟩
  rw [hinf] at hc
  obtain ⟨hne, hc⟩ := Table.get_of_get_remove hc
  exact hne (h.id_of_inflight hc ht).symm

/-- A step of a handler task goes on, sets its flag, or takes out the entry. -/
theorem Serve.TaskStep.last {env : Env} {e : Emit} (h : TaskStep cfg env v t task v' e) :
    v'.replaces = v.replaces ∧ v'.reader = v.reader ∧ ∃ f, v'.tasks = v.tasks.update t f ∧
      (task.Goes (f task) ∨
      ((f task).aborted = task.aborted ∧ (f task).pc = .leaving ∧ (f task).done = true) ∨
      (task.pc = .leaving ∧ (f task).aborted = task.aborted ∧ (f task).pc = .ended ∧
        (f task).done = task.done ∧ v'.inflight = v.inflight.remove task.id)) := by
  cases h with
  | finished => exact ⟨rfl, rfl, _, rfl, .inr (.inl ⟨rfl, rfl, rfl⟩)⟩
  | left hpc => exact ⟨rfl, rfl, _, rfl, .inr (.inr ⟨hpc, rfl, rfl, rfl, rfl⟩)⟩
  | dispatched o hpc =>
    refine ⟨rfl, rfl, _, rfl, .inl ⟨rfl, id, .inr ?_⟩⟩
    cases o with
    | stream head => cases hs : task.stream <;> simp [Outcome.pc]
    | _ => simp [Outcome.pc]
  | replyLate result next | spawned all next =>
    refine ⟨rfl, rfl, _, rfl, .inl ⟨rfl, id, .inr ?_⟩⟩
    cases next <;> simp [After.pc]
  | replyTaken result next pc hpc hr hnext | pushedData gate seq stream bytes pc hpc hs hnext =>
    refine ⟨rfl, rfl, _, rfl, .inl ⟨rfl, id, .inr ?_⟩⟩
    obtain ⟨rfl, -⟩ | ⟨rfl, -⟩ := hnext <;> simp
  | _ => exact ⟨rfl, rfl, _, rfl, .inl ⟨rfl, id, .inr (by simp)⟩⟩

namespace Tidy

variable {env : Env} {closed : Bool} {e : Emit}

theorem taskStep (h : Tidy v) (ha : Answers v log ids) {task : Task}
    (ht : v.tasks.get t = some task) (hstep : Serve.TaskStep cfg env v t task v' e) :
    Tidy v' := by
  have hreg := hstep.registers
  obtain ⟨hrep, -, f, htasks, hlast⟩ := hstep.last
  have htidy := h.tasks t task ht
  refine ⟨fun u y hy => h.update hreg ht htasks ?_ hy, fun r x hx => ?_⟩
  · obtain hgoes | ⟨haborted, hpc, hdone⟩ | ⟨hleaving, haborted, hpc, hdone, hinf⟩ := hlast
    · exact h.task_goes hreg ht hgoes
    · refine ⟨fun hab => hreg.gone (htidy.aborted (haborted ▸ hab)), fun _ => hdone, fun hend => ?_⟩
      rw [hpc] at hend
      cases hend
    · -- the task takes its own entry out
      refine ⟨fun hab => hreg.gone (htidy.aborted (haborted ▸ hab)), fun hlv => ?_, fun _ => ?_⟩
      · rw [hpc] at hlv
        cases hlv
      · exact ⟨hdone.trans (htidy.leaving hleaving), ha.not_isInflight_of_remove ht hinf⟩
  · rw [hrep] at hx
    exact h.victims_gone hreg hx

/-- A task whose flag is taken goes on. -/
theorem goes_takeReply (v : Serve) (u : Nat) (p : Party) :
    ∀ t y, (v.tasks.update u (·.takeReply p)).get t = some y →
      ∃ z, v.tasks.get t = some z ∧ z.Goes y :=
  Arena.forall_update (fun _ y hy => ⟨y, hy, y.goes_refl⟩)
    fun z hz => ⟨z, hz, rfl, fun hd => hd, .inl rfl⟩

theorem readerStep (h : Tidy v) (hstep : Serve.ReaderStep cfg v v' e) : Tidy v' := by
  have hreg := hstep.registers
  cases hstep with
  | spawned r hr =>
    refine ⟨Arena.forall_alloc (fun t y hy => h.task_goes hreg hy y.goes_refl) ?_,
      fun k x hx => h.victims_gone hreg hx⟩
    -- a new task: neither aborted nor through
    exact ⟨nofun, nofun, nofun⟩
  | cancelTaken id call task hr ht hnone | cancelLate id call task pc hr ht hsome hpc =>
    exact h.keep hreg (goes_takeReply v _ _) rfl
  | _ => exact h.keep hreg (fun t y hy => ⟨y, hy, y.goes_refl⟩) rfl

theorem replaces_update (h : Tidy v) (hreg : v.Registers v') {r : Nat} {f : Replace → Replace}
    (hrep : v'.replaces = v.replaces.update r f)
    (hf : ∀ x, v.replaces.get r = some x → (f x).pc.AllVictims fun _ w => v'.Gone w.2.task)
    (k : Nat) (y : Replace) (hy : v'.replaces.get k = some y) :
    y.pc.AllVictims fun _ w => v'.Gone w.2.task := by
  rw [hrep] at hy
  exact Arena.forall_update (fun k y hy => h.victims_gone hreg hy) hf k y hy

/-- The calls a pass takes out are gone. -/
theorem gone_of_collected (ha : Answers v log ids) (hh : Holders v) {r : Nat} {x : Replace}
    {name : String} {names : List String} {order : List (Nat × InflightCall)}
    (hperm : order.Perm (v.victims x.caller name)) {w : Nat × InflightCall} (hw : w ∈ order) :
    Serve.Gone { v with
      inflight := v.inflight.retain fun id call => (id, call) ∉ order
      replaces := v.replaces.update r ({ · with revoked := names, pc := .failing name order }) }
      w.2.task := by
  have hget : v.inflight.get w.1 = some w.2 :=
    (Table.mem_entries_iff _ _ _).1 (List.mem_filter.1 (hperm.mem_iff.1 hw)).1
  have hin : v.IsInflight w.2.task := ⟨w.1, w.2, hget, rfl⟩
  refine ⟨ha.lt_of_isInflight hin, ?_, fun hr => (hh.spawned _ hr).1 hin⟩
  rintro ⟨id, call, hc, htask⟩
  rw [Table.get_retain, Option.filter_eq_some_iff] at hc
  obtain ⟨hc, hnot⟩ := hc
  -- another entry of the same task would be the same entry
  obtain ⟨task, ht, hid, -⟩ := ha.inflight w.1 w.2 hget
  have hid' : task.id = id := ha.id_of_inflight hc (htask ▸ ht)
  have heq : id = w.1 := hid'.symm.trans hid
  rw [heq, hget] at hc
  rw [heq, ← Option.some.inj hc] at hnot
  exact of_decide_eq_true hnot hw

theorem replaceStep (h : Tidy v) (ha : Answers v log ids) (hh : Holders v) {r : Nat} {x : Replace}
    (hx : v.replaces.get r = some x) (hstep : Serve.ReplaceStep cfg closed v r x v' e) :
    Tidy v' := by
  have hreg := hstep.registers
  have hvs := h.victims_gone hreg hx
  have hsame (t : Nat) (y : Task) (hy : v.tasks.get t = some y) : TidyTask v' t y :=
    h.task_goes hreg hy y.goes_refl
  cases hstep with
  | checked pc hpc hnext =>
    refine ⟨hsame, h.replaces_update hreg rfl fun z _ => ?_⟩
    obtain ⟨rfl, -⟩ | ⟨rfl, -⟩ := hnext <;> trivial
  | collected name names order hpc hrev hperm =>
    exact ⟨hsame, h.replaces_update hreg rfl fun z _ w hw => gone_of_collected ha hh hperm hw⟩
  | revokedAll | passDone => exact ⟨hsame, h.replaces_update hreg rfl fun z _ => trivial⟩
  | taken name w rest task hpc ht hnone =>
    rw [hpc] at hvs
    refine ⟨fun t y hy => ?_, h.replaces_update hreg rfl fun z _ => hvs⟩
    obtain ⟨z, hz, hzy⟩ := goes_takeReply v _ _ t y hy
    exact h.task_goes hreg hz hzy
  | late name w rest task pc hpc ht hsome hnext =>
    rw [hpc] at hvs
    refine ⟨fun t y hy => ?_, h.replaces_update hreg rfl fun z _ => ?_⟩
    · obtain ⟨z, hz, hzy⟩ := goes_takeReply v _ _ t y hy
      exact h.task_goes hreg hz hzy
    · obtain ⟨stream, -, rfl⟩ | ⟨-, rfl⟩ := hnext <;> exact hvs
  | answered name w rest hpc | pushedErr name stream w rest hpc
  | closedGate name stream w rest hpc =>
    rw [hpc] at hvs
    exact ⟨hsame, h.replaces_update hreg rfl fun z _ => hvs⟩
  | aborted name w rest hpc =>
    rw [hpc] at hvs
    refine ⟨Arena.forall_update hsame fun z hz => ?_, h.replaces_update hreg rfl fun z _ u hu =>
      hvs u (List.mem_cons_of_mem _ hu)⟩
    -- the victim is gone, and otherwise goes on
    have hz' := hsame _ z hz
    exact ⟨fun _ => hvs w List.mem_cons_self, hz'.leaving, hz'.ended⟩

theorem serveStep (h : Tidy v) (ha : Answers v log ids) (hh : Holders v) {a : ServeAct}
    (hstep : v.step cfg env closed a = some (v', e)) : Tidy v' := by
  have hreg := Serve.step_registers hstep
  rcases Serve.step_cases hstep with ⟨t, task, ht, -, hs⟩ | ⟨k, x, -, hs⟩ | ⟨-, hs⟩ |
    ⟨caller, capabilities, built, -, -, -, rfl⟩ | ⟨r, x, -, hx, hs⟩
  · exact h.taskStep ha ht hs
  · obtain ⟨htasks, -, hrep, -⟩ := hs.reply
    exact h.keep hreg (fun t y hy => ⟨y, htasks ▸ hy, y.goes_refl⟩) hrep
  · exact h.readerStep hs
  · exact ⟨fun t y hy => h.task_goes hreg hy y.goes_refl,
      Arena.forall_alloc (fun k y hy => h.victims_gone hreg hy) trivial⟩
  · exact h.replaceStep ha hh hx hs

theorem outside (h : Tidy v) (ha : Answers v log ids) (hh : Holders v) (hstep : v.Outside v') :
    Tidy v' := by
  have hreg := hstep.beside.registers
  cases hstep with
  | unchanged => exact h
  | drainedCredits => exact h.keep hreg (fun t y hy => ⟨y, hy, y.goes_refl⟩) rfl
  | drainedInflight =>
    refine ⟨fun t y hy => ?_, fun r x hx => h.victims_gone hreg hx⟩
    have hnone : ¬ v.drainInflight.IsInflight t := by
      rintro ⟨id, call, hc, -⟩
      simp [Serve.drainInflight] at hc
    simp only [Serve.drainInflight, Arena.get_updateAll, Option.map_eq_some_iff] at hy
    obtain ⟨z, hz, rfl⟩ := hy
    have hz' := h.task_goes hreg hz z.goes_refl
    split_ifs with hmem
    · -- it was registered, so the reader is not about to register it
      obtain ⟨w, hw, htask⟩ := List.mem_map.1 hmem
      have hin : v.IsInflight t := ⟨w.1, w.2, (Table.mem_entries_iff _ _ _).1 hw, htask⟩
      have hlt : t < v.drainInflight.tasks.size := (ha.lt_of_isInflight hin).trans_le hreg.size
      exact ⟨fun _ => ⟨hlt, hnone, fun hr => (hh.spawned t hr).1 hin⟩, hz'.leaving, hz'.ended⟩
    · exact hz'
  | announced r x pc hx hpc hnext =>
    refine ⟨fun t y hy => h.task_goes hreg hy y.goes_refl,
      h.replaces_update hreg rfl fun z _ => ?_⟩
    obtain rfl | ⟨i, rfl⟩ := hnext <;> trivial

theorem handle (h : Tidy v) (ha : Answers v log ids) (f : Frame) : Tidy (v.handle cfg f) := by
  have hreg := (v.handle_beside cfg f).registers
  have hkeep {v' : Serve} (hreg : v.Registers v') (htasks : v'.tasks = v.tasks)
      (hrep : v'.replaces = v.replaces) : Tidy v' :=
    h.keep hreg (fun t y hy => ⟨y, htasks ▸ hy, y.goes_refl⟩) hrep
  revert hreg
  unfold Serve.handle
  split
  · exact fun hreg => hkeep hreg rfl rfl
  · rename_i id
    unfold Serve.handleCancel
    split
    · rename_i call hc
      intro hreg
      refine ⟨fun t y hy => ?_, fun r x hx => h.victims_gone hreg hx⟩
      obtain ⟨rfl, z, hz, rfl⟩ | ⟨-, hy⟩ := Arena.get_update_cases hy
      · -- the call was taken out before its task was aborted
        have hid := ha.id_of_inflight hc hz
        have hnot : ¬ Serve.IsInflight { v with inflight := v.inflight.remove id } call.task :=
          ha.not_isInflight_of_remove hz (by rw [hid])
        have hlt := (Arena.lt_size_of_get hz).trans_le hreg.size
        refine ⟨fun _ => ⟨hlt, hnot, nofun⟩, fun _ => rfl, fun _ => ⟨rfl, hnot⟩⟩
      · exact h.task_goes hreg hy y.goes_refl
    · exact fun _ => h
  · exact fun hreg => hkeep hreg rfl rfl
  · exact fun hreg => hkeep hreg rfl rfl
  · exact fun _ => h

end Tidy

theorem Shared.tidy_step {s' : Shared} {a : Act} (hrev : s.Revocable) (h : Tidy s.serve)
    (hstep : s.step cfg a = some s') : Tidy s'.serve := by
  obtain ⟨b, v, e, -, hserve, rfl⟩ | ⟨f, -, rfl⟩ | ⟨hout, -⟩ := Shared.step_sides hstep
  · exact h.serveStep hrev.answers hrev.holders hserve
  · exact h.handle hrev.answers f
  · exact h.outside hrev.answers hrev.holders hout

theorem Answers.inflight_eq_none (h : Answers v log ids) (ht : v.tasks.get t = some task)
    (hnot : ¬ v.IsInflight t) : v.inflight.get task.id = none := by
  match hc : v.inflight.get task.id with
  | none => rfl
  | some call =>
    obtain ⟨task', ht', hid, -⟩ := h.inflight _ call hc
    have htask := h.tasks.task_inj _ _ _ _ ht' ht hid
    exact absurd ⟨task.id, call, hc, htask⟩ hnot

/-! ### The steps the lock lets through -/

/-- Only the reader turns to another call. -/
theorem Shared.reader_of_step {s' : Shared} {a : Act} (h : s.step cfg a = some s')
    (ha : a.ofReader = false) : s'.serve.reader = s.serve.reader := by
  obtain ⟨b, v, e, rfl, hserve, rfl⟩ | ⟨f, rfl, rfl⟩ | ⟨hout, -⟩ := Shared.step_sides h
  · obtain ⟨t, task, -, -, hs⟩ | ⟨k, x, -, hs⟩ | ⟨rfl, -⟩ | ⟨_, _, _, -, -, -, rfl⟩ |
      ⟨r, x, -, -, hs⟩ := Serve.step_cases hserve
    · exact hs.reply.1
    · exact hs.reply.2.1
    · cases ha
    · rfl
    · cases hs <;> rfl
  · cases ha
  · exact hout.reader_eq

theorem Shared.ended_of_step {s' : Shared} {a : Act} {x y : Task} (h : s.step cfg a = some s')
    (ha : s.locksInflight a = false) (hx : s.serve.tasks.get t = some x)
    (hy : s'.serve.tasks.get t = some y) (hend : y.pc = .ended) : x.pc = .ended := by
  -- whoever else works on the task does not move it
  have haside (hz : ∃ z, s.serve.tasks.get t = some z ∧ z.pc = y.pc) : x.pc = .ended := by
    obtain ⟨z, hz, hpc⟩ := hz
    obtain rfl := Option.mem_unique hx hz
    rw [hpc, hend]
  obtain ⟨b, v, e, rfl, hserve, rfl⟩ | ⟨hb, -⟩ := Shared.step_beside h
  · obtain ⟨z, hz, hrun, hs⟩ | ⟨r, -, rfl⟩ | ⟨z, hz, hzy⟩ := Serve.step_tasks hserve hy
    · obtain rfl := Option.mem_unique hx hz
      obtain ⟨-, -, f, htasks, hlast⟩ := hs.last
      obtain rfl : f x = y := Option.some.inj <| by
        rw [← hy, ← Arena.get_update_self hx f, ← htasks]
        rfl
      obtain hgoes | ⟨-, hpc, -⟩ | ⟨hleaving, -⟩ := hlast
      · obtain hsame | ⟨-, hne⟩ := hgoes.pc
        · rw [← hsame, hend]
        · exact absurd hend hne
      · rw [hpc] at hend
        cases hend
      · rw [hrun hleaving] at ha
        simp [locksInflight, hx, hleaving, TaskPc.isLeaving] at ha
    · cases hend
    · exact haside ⟨z, hz, hzy.pc.symm⟩
  · obtain ⟨z, hz, hzy, -⟩ := hb.tasks.get hy
    exact haside ⟨z, hz, hzy.pc.symm⟩

/-! ### The insert on its own -/

/-- The reader has loaded nothing for the task it has spawned, or the call of one not through. -/
def Serve.Loaded (v : Serve) (entry : Option (Nat × InflightCall)) : Prop :=
  ∃ t task, v.reader = .spawned t ∧ v.tasks.get t = some task ∧ ∀ p ∈ entry,
    p.1 = task.id ∧ p.2.task = t ∧ p.2.capability = task.capability ∧ task.pc ≠ .ended

section Register

variable {entry : Option (Nat × InflightCall)}

theorem TidyTask.loaded (h : TidyTask v t task) (hr : v.reader = .spawned t)
    (ht : v.tasks.get t = some task) : v.Loaded (task.entry t) := by
  refine ⟨t, task, hr, ht, fun p hp => ?_⟩
  unfold Task.entry at hp
  split_ifs at hp with hdone
  · cases hp
  · cases hp
    exact ⟨rfl, rfl, rfl, fun hend => hdone (h.ended hend).1⟩

/-- The lock keeps what was loaded from growing old. -/
theorem Serve.Loaded.step {s' : Shared} {a : Act} (h : s.serve.Loaded entry)
    (hstep : s.step cfg a = some s') (hreader : a.ofReader = false)
    (hlock : s.locksInflight a = false) : s'.serve.Loaded entry := by
  obtain ⟨t, x, hr, hx, hentry⟩ := h
  obtain ⟨y, hy, hk⟩ := Shared.step_forward hstep hx
  refine ⟨t, y, (Shared.reader_of_step hstep hreader).trans hr, hy, fun p hp => ?_⟩
  obtain ⟨hid, htask, hcap, hpc⟩ := hentry p hp
  rw [hk.id, hk.capability]
  exact ⟨hid, htask, hcap, fun hend => hpc (Shared.ended_of_step hstep hlock hx hy hend)⟩

/-- At most the call of the spawned task comes in. -/
theorem Serve.Loaded.of_isInflight (h : v.Loaded entry) (hi : (v.register entry).IsInflight t) :
    v.IsInflight t ∨
      v.reader = .spawned t ∧ ∀ task, v.tasks.get t = some task → task.pc ≠ .ended := by
  obtain ⟨u, task, hr, ht, hentry⟩ := h
  obtain ⟨id, call, hc, rfl⟩ := hi
  rcases entry with _ | ⟨id', call'⟩
  · exact .inl ⟨id, call, hc, rfl⟩
  obtain ⟨rfl, rfl⟩ | ⟨-, hc⟩ := Table.get_insert_cases hc
  · obtain ⟨-, rfl, -, hpc⟩ := hentry _ rfl
    refine .inr ⟨hr, fun task' ht' => ?_⟩
    obtain rfl := Option.mem_unique ht ht'
    exact hpc
  · exact .inl ⟨id, call, hc, rfl⟩

theorem Answers.register (h : Answers v log ids) (hl : v.Loaded entry) :
    Answers (v.register entry) log ids := by
  obtain ⟨t, task, -, ht, hentry⟩ := hl
  refine ⟨h.tasks, trivial, h.replaces, fun id call hc => ?_⟩
  rcases entry with _ | ⟨id', call'⟩
  · exact h.inflight id call hc
  · obtain ⟨rfl, rfl⟩ | ⟨-, hc⟩ := Table.get_insert_cases hc
    · obtain ⟨hid, rfl, hcap, -⟩ := hentry _ rfl
      exact ⟨task, ht, hid.symm, hcap.symm⟩
    · exact h.inflight id call hc

theorem Holders.register (h : Holders v) (hl : v.Loaded entry) : Holders (v.register entry) := by
  refine ⟨h.unique, fun r u hw hi => ?_, nofun⟩
  obtain hi | ⟨hr, -⟩ := hl.of_isInflight hi
  · exact h.apart r u hw hi
  · exact (h.spawned u hr).2 r hw

theorem Serve.Gone.register (h : v.Gone t) (hl : v.Loaded entry) : (v.register entry).Gone t := by
  obtain ⟨hlt, hnot, hreader⟩ := h
  refine ⟨hlt, fun hi => ?_, nofun⟩
  obtain hi | ⟨hr, -⟩ := hl.of_isInflight hi
  · exact hnot hi
  · exact hreader hr

theorem Tidy.register (h : Tidy v) (hl : v.Loaded entry) : Tidy (v.register entry) := by
  refine ⟨fun t task ht => ?_, fun r x hx => (h.victims r x hx).mono fun _ _ hg => hg.register hl⟩
  have htidy := h.tasks t task ht
  refine ⟨fun ha => (htidy.aborted ha).register hl, htidy.leaving, fun hend => ?_⟩
  obtain ⟨hdone, hnot⟩ := htidy.ended hend
  refine ⟨hdone, fun hi => ?_⟩
  obtain hi | ⟨-, hne⟩ := hl.of_isInflight hi
  · exact hnot hi
  · exact hne task ht hend

end Register

/-- What an end keeps under the finer steps, as long as requests are distinct. -/
structure FineShared.Tidied (s : FineShared) : Prop where
  revocable : s.shared.Revocable
  tidy : Tidy s.shared.serve
  loaded : ∀ entry, s.lock = .loaded entry → s.shared.serve.Loaded entry

theorem FineShared.tidied_step {s s' : FineShared} {a : FineAct}
    (hs : s.shared.reqIds.Nodup → s.Tidied) (h : s.step cfg a = some s')
    (hn : s'.shared.reqIds.Nodup) : s'.Tidied := by
  cases a with
  | lock =>
    simp only [step] at h
    split at h <;> cases h
    obtain ⟨hrev, htidy, -⟩ := hs hn
    exact ⟨hrev, htidy, nofun⟩
  | load =>
    simp only [step] at h
    split at h
    · rename_i t hlock hr
      obtain ⟨task, ht, rfl⟩ := Option.map_eq_some_iff.1 h
      obtain ⟨hrev, htidy, -⟩ := hs hn
      refine ⟨hrev, htidy, fun entry he => ?_⟩
      cases he
      exact (htidy.tasks t task ht).loaded hr ht
    · cases h
  | insert =>
    simp only [step] at h
    split at h <;> cases h
    obtain ⟨⟨hans, hhold, hattr⟩, htidy, hloaded⟩ := hs hn
    have hl := hloaded _ ‹_›
    exact ⟨⟨hans.register hl, hhold.register hl, hattr.res, hattr.err⟩, htidy.register hl, nofun⟩
  | other b =>
    simp only [step] at h
    split_ifs at h with hb
    obtain ⟨shared, hstep, rfl⟩ := Option.map_eq_some_iff.1 h
    obtain ⟨hrev, htidy, hloaded⟩ := hs (Shared.nodup_of_step hstep hn)
    refine ⟨Shared.revocable_step hrev hstep hn, Shared.tidy_step hrev htidy hstep,
      fun entry he => ?_⟩
    have hfree : (b.ofReader || s.shared.locksInflight b) = false := by
      have hlock : s.lock = .loaded entry := he
      simpa [blocks, hlock] using hb
    obtain ⟨hreader, hlock⟩ := Bool.or_eq_false_iff.1 hfree
    exact (hloaded entry he).step hstep hreader hlock

/-- **Nothing leaks.**  With the lock, the load of the flag and the insert as steps of their own,
and whatever cancels, revocations and `shutdown`s do in between: once a handler task has run to its
end or was aborted, `inflight` has no entry for its request. -/
theorem inflight_released {cfg : Config} {served : Served} {as : List FineAct} {s : FineShared}
    (h : Run (Steps (FineShared.step cfg)) (.start served) as s) (hfresh : s.shared.reqIds.Nodup)
    {t : Nat} {task : Task} (ht : s.shared.serve.tasks.get t = some task)
    (hover : task.pc = .ended ∨ task.aborted = true) :
    s.shared.serve.inflight.get task.id = none := by
  have hstart : Run (Steps (Shared.step cfg)) (.start served) [] (.start served) := .nil
  have hinv := h.state_invariant (I := fun s => s.shared.reqIds.Nodup → s.Tidied)
    (fun hn => ⟨Shared.revocable_of_run hstart hn, Tidy.start served, nofun⟩)
    fun s a s' hs hstep => FineShared.tidied_step hs hstep
  obtain ⟨hrev, htidy, -⟩ := hinv hfresh
  have hnot : ¬ s.shared.serve.IsInflight t := by
    obtain hended | haborted := hover
    · exact ((htidy.tasks t task ht).ended hended).2
    · exact ((htidy.tasks t task ht).aborted haborted).2.1
  exact hrev.answers.inflight_eq_none ht hnot

/-- The task sets its flag after the reader has loaded it and before the insert. -/
def doneAfterLoad : List FineAct :=
  [.other (.serve (.replace none [.bare 0 "fs"])),
    .other (.receive (.control (.req 7 "fs.read" .nil none .nil))), .other (.serve .readerRun),
    .other (.serve (.dispatched 0 (.error .canceled))), .other (.serve (.run 0)),
    .other (.serve (.run 0)), .lock, .load, .other (.serve (.run 0)), .insert,
    .other (.serve (.run 0))]

theorem inflight_released_doneAfterLoad :
    ∃ s task, Run (Steps (FineShared.step (.bare .acceptor .msgpack))) (.start .default)
        doneAfterLoad s ∧ s.shared.reqIds.Nodup ∧ s.shared.serve.tasks.get 0 = some task ∧
      task.id = 7 ∧ task.pc = .ended ∧ s.shared.serve.inflight.get task.id = none := by
  obtain ⟨s, task, hrun, hfresh, ht, hid, hpc⟩ : ∃ s task,
      Run (Steps (FineShared.step (.bare .acceptor .msgpack))) (.start .default) doneAfterLoad s ∧
      s.shared.reqIds.Nodup ∧ s.shared.serve.tasks.get 0 = some task ∧ task.id = 7 ∧
      task.pc = .ended := ⟨_, _, run_of_exec rfl, by decide, rfl, rfl, rfl⟩
  exact ⟨s, task, hrun, hfresh, ht, hid, hpc, inflight_released hrun hfresh ht (.inl hpc)⟩

end Zyris.Core
