import Zyris.Core.Equiv.Step

/-!
# What a step of the serving half can do

One relation for each kind of task of the serving half, with one constructor for each thing the task
can do, and the proof that `Serve.step` does nothing else (`Serve.step_cases`).  The invariants of
the serving half are proved over these.
-/

namespace Zyris.Core

open Proto

def ServeAct.replaceHandle : ServeAct → Option Nat
  | .collect r _ => some r
  | .replaceRun r => some r
  | _ => none

namespace Serve

/-- Everything a step of a handler task can do. -/
inductive TaskStep (cfg : Config) (env : Env) (v : Serve) (t : Nat) (task : Task) :
    Serve → Emit → Prop
  | dispatched (o : Outcome) : task.pc = .dispatching →
    TaskStep cfg env v t task
      (v.updateTask t ({ · with outcome := some o, pc := o.pc task.stream })) .none
  | itemYielded (gate seq : Nat) (b : List UInt8) : task.pc = .streaming gate seq →
    TaskStep cfg env v t task (v.updateTask t fun task =>
      { task with yielded := task.yielded ++ [.bytes b], pc := .acquiring gate seq b }) .none
  | itemsEnded (gate seq : Nat) (e : Option WireError) : task.pc = .streaming gate seq →
    TaskStep cfg env v t task (v.updateTask t fun task =>
      { task with yielded := task.yielded ++ [.last e], pc := .pushingEnd e }) .none
  | itemsPanicked (gate seq : Nat) : task.pc = .streaming gate seq →
    TaskStep cfg env v t task (v.updateTask t fun task =>
      { task with yielded := task.yielded ++ [.panicked], pc := .panicked }) .none
  | stopped : task.aborted = true → task.pc.awaits = true →
    TaskStep cfg env v t task (v.taskPc t .stopped) .none
  | opened (head : Payload) (stream : Nat) : task.pc = .opening head → task.stream = some stream →
    TaskStep cfg env v t task
      { v.taskPc t (.replying head (.stream v.credits.gates.size)) with
        credits := v.credits.openGate stream cfg.limits.initialStreamCredit } .none
  | replyLate (result : Payload) (next : After) : task.pc = .replying result next →
    task.replied.isSome = true → TaskStep cfg env v t task (v.taskPc t next.pc) .none
  | replyTaken (result : Payload) (next : After) (pc : TaskPc) :
    task.pc = .replying result next → task.replied = none →
    (pc = .detaching result [] next ∧ cfg.attachmentsEnabled = true ∨
      pc = .pushingRes result [] next ∧ cfg.attachmentsEnabled = false) →
    TaskStep cfg env v t task (v.updateTask t ({ ·.takeReply .task with pc := pc })) .none
  | allocated (result : Payload) (ids : List Nat) (next : After) :
    task.pc = .detaching result ids next →
    ids.length < (blobs INLINE_BLOB_MAX result.value).length →
    TaskStep cfg env v t task (v.taskPc t (.detaching result (ids ++ [env.streamId]) next)) ⟨[], 1⟩
  | detached (result : Payload) (ids : List Nat) (next : After) (d : Value × List Detached) :
    task.pc = .detaching result ids next →
    (blobs INLINE_BLOB_MAX result.value).length ≤ ids.length →
    d = detach cfg.digest INLINE_BLOB_MAX result.value ids →
    TaskStep cfg env v t task (v.taskPc t (.registering ⟨d.1⟩ d.2 d.2 next)) .none
  | registered (result : Payload) (item : Detached) (todo all : List Detached) (next : After) :
    task.pc = .registering result (item :: todo) all next →
    TaskStep cfg env v t task { v.taskPc t (.registering result todo all next) with
      credits := v.credits.openGate item.stream cfg.limits.initialStreamCredit } .none
  | registeredAll (result : Payload) (all : List Detached) (next : After) :
    task.pc = .registering result [] all next →
    TaskStep cfg env v t task (v.taskPc t (.pushingRes result all next)) .none
  | pushedRes (result : Payload) (all : List Detached) (next : After) :
    task.pc = .pushingRes result all next →
    TaskStep cfg env v t task
      (v.updateTask t ({ · with answered := some result, pc := .spawning all next }))
      (.send (cfg.encode (.res task.id result)))
  | spawned (all : List Detached) (next : After) : task.pc = .spawning all next →
    TaskStep cfg env v t task { v.taskPc t next.pc with
      senders := all.foldl (fun senders item => senders.alloc ⟨item, .starting⟩) v.senders } .none
  | refuseLate (e : WireError) : task.pc = .refusing e → task.replied.isSome = true →
    TaskStep cfg env v t task (v.taskPc t .finishing) .none
  | refuseTaken (e : WireError) : task.pc = .refusing e → task.replied = none →
    TaskStep cfg env v t task
      (v.updateTask t ({ ·.takeReply .task with pc := .pushingErr e })) .none
  | pushedErr (e : WireError) : task.pc = .pushingErr e →
    TaskStep cfg env v t task (v.taskPc t .finishing) (.send (cfg.encode (.err task.id e)))
  | acquired (gate seq : Nat) (bytes : List UInt8) (g : CreditGate) :
    task.pc = .acquiring gate seq bytes → v.credits.gates.get gate = some g →
    g.canceled = false → bytes.length ≤ g.available →
    TaskStep cfg env v t task { v.taskPc t (.pushingData gate seq bytes) with
      credits := v.credits.take gate bytes.length } .none
  | acquireCanceled (gate seq : Nat) (bytes : List UInt8) (g : CreditGate) :
    task.pc = .acquiring gate seq bytes → v.credits.gates.get gate = some g → g.canceled = true →
    TaskStep cfg env v t task (v.taskPc t .closingGate) .none
  | pushedData (gate seq stream : Nat) (bytes : List UInt8) (pc : TaskPc) :
    task.pc = .pushingData gate seq bytes → task.stream = some stream →
    (pc = .streaming gate ((seq + 1) % 2 ^ 32) ∧ env.live = true ∨
      pc = .closingGate ∧ env.live = false) →
    TaskStep cfg env v t task (v.taskPc t pc) (.send [.send (.streamData stream seq bytes)])
  | pushedEnd (error : Option WireError) (stream : Nat) :
    task.pc = .pushingEnd error → task.stream = some stream →
    TaskStep cfg env v t task (v.taskPc t .closingGate)
      (.send (cfg.encode (endEnvelope stream error)))
  | closedGate (stream : Nat) : task.pc = .closingGate → task.stream = some stream →
    TaskStep cfg env v t task
      { v.taskPc t .finishing with credits := v.credits.close stream } .none
  | finished : task.pc = .finishing →
    TaskStep cfg env v t task (v.updateTask t ({ · with done := true, pc := .leaving })) .none
  | left : task.pc = .leaving →
    TaskStep cfg env v t task
      { v.taskPc t .ended with inflight := v.inflight.remove task.id } .none

variable {cfg : Config} {env : Env} {v v' : Serve} {e : Emit} {g : CreditGate} {n t r : Nat}
  {task : Task} {closed : Bool} {x : Replace}

theorem acquire_eq_ok {u : Unit} (h : g.acquire n = some (.ok u)) :
    g.canceled = false ∧ n ≤ g.available := by
  unfold CreditGate.acquire at h
  split_ifs at h with hc hn
  · simp at h
  · exact ⟨by simpa using hc, hn⟩

theorem acquire_eq_error {e : WireError} (h : g.acquire n = some (.error e)) :
    g.canceled = true := by
  unfold CreditGate.acquire at h
  split_ifs at h with hc
  · exact hc
  · simp at h

theorem taskStep_of_taskRun (h : v.taskRun cfg env t task = some (v', e)) :
    TaskStep cfg env v t task v' e := by
  unfold taskRun at h
  split at h
  · split at h <;> cases h
    exact .opened _ _ ‹_› ‹_›
  · split at h
    · cases h
      exact .replyLate _ _ ‹_› ‹_›
    · rename_i hr
      cases h
      refine .replyTaken _ _ _ ‹_› (by simpa using hr) ?_
      cases cfg.attachmentsEnabled <;> simp
  · split_ifs at h with hlt
    · cases h
      exact .allocated _ _ _ ‹_› hlt
    · cases h
      exact .detached _ _ _ _ ‹_› (by omega) rfl
  · cases h
    exact .registered _ _ _ _ _ ‹_›
  · cases h
    exact .registeredAll _ _ _ ‹_›
  · cases h
    exact .pushedRes _ _ _ ‹_›
  · cases h
    exact .spawned _ _ ‹_›
  · split_ifs at h with hr
    · cases h
      exact .refuseLate _ ‹_› hr
    · cases h
      exact .refuseTaken _ ‹_› (by simpa using hr)
  · cases h
    exact .pushedErr _ ‹_›
  · split at h <;> cases h
    · rename_i ha
      obtain ⟨g, hg, ha⟩ := Option.bind_eq_some_iff.mp ha
      exact .acquired _ _ _ g ‹_› hg (acquire_eq_ok ha).1 (acquire_eq_ok ha).2
    · rename_i ha
      obtain ⟨g, hg, ha⟩ := Option.bind_eq_some_iff.mp ha
      exact .acquireCanceled _ _ _ g ‹_› hg (acquire_eq_error ha)
  · split at h <;> cases h
    refine .pushedData _ _ _ _ _ ‹_› ‹_› ?_
    cases env.live <;> simp
  · split at h <;> cases h
    exact .pushedEnd _ _ ‹_› ‹_›
  · split at h <;> cases h
    exact .closedGate _ ‹_› ‹_›
  · cases h
    exact .finished ‹_›
  · cases h
    exact .left ‹_›
  all_goals cases h

theorem taskStep_of_dispatched {o : Outcome} (h : v.dispatched t task o = some (v', e)) :
    TaskStep cfg env v t task v' e := by
  unfold dispatched at h
  split at h <;> cases h
  exact .dispatched o ‹_›

theorem taskStep_of_yielded {i : Item} (h : v.yielded t task i = some (v', e)) :
    TaskStep cfg env v t task v' e := by
  unfold yielded at h
  split at h <;> cases h
  cases i with
  | bytes b => exact .itemYielded _ _ b ‹_›
  | error err => exact .itemsEnded _ _ (some err) ‹_›
  | done => exact .itemsEnded _ _ none ‹_›
  | panicked => exact .itemsPanicked _ _ ‹_›

theorem taskStep_of_taskStop (h : v.taskStop t task = some (v', e)) :
    TaskStep cfg env v t task v' e := by
  unfold taskStop at h
  split_ifs at h with hs
  cases h
  rw [Bool.and_eq_true] at hs
  exact .stopped hs.1 hs.2

/-- Everything a step of a sender can do. -/
inductive SenderStep (cfg : Config) (env : Env) (v : Serve) (k : Nat) (x : Sender) :
    Serve → Emit → Prop
  | found (gate : Nat) : x.pc = .starting → v.credits.table.get x.item.stream = some gate →
    SenderStep cfg env v k x (v.senderPc k (.acquiring gate 0 x.item.bytes)) .none
  | gone : x.pc = .starting → v.credits.table.get x.item.stream = none →
    SenderStep cfg env v k x (v.senderPc k .ended) .none
  | sentAll (gate seq : Nat) : x.pc = .acquiring gate seq [] →
    SenderStep cfg env v k x (v.senderPc k .pushingEnd) .none
  | acquired (gate seq : Nat) (rest : List UInt8) (g : CreditGate) (n : Nat) :
    x.pc = .acquiring gate seq rest → rest ≠ [] → n = max cfg.limits.maxChunk 1 →
    v.credits.gates.get gate = some g → g.canceled = false → (rest.take n).length ≤ g.available →
    SenderStep cfg env v k x { v.senderPc k (.pushing gate seq (rest.take n) (rest.drop n)) with
      credits := v.credits.take gate (rest.take n).length } .none
  | acquireCanceled (gate seq : Nat) (rest : List UInt8) (g : CreditGate) :
    x.pc = .acquiring gate seq rest → v.credits.gates.get gate = some g → g.canceled = true →
    SenderStep cfg env v k x (v.senderPc k .closingGate) .none
  | pushedData (gate seq : Nat) (chunk rest : List UInt8) (pc : SenderPc) :
    x.pc = .pushing gate seq chunk rest →
    (pc = .acquiring gate ((seq + 1) % 2 ^ 32) rest ∧ env.live = true ∨
      pc = .closingGate ∧ env.live = false) →
    SenderStep cfg env v k x (v.senderPc k pc) (.send [.send (.streamData x.item.stream seq chunk)])
  | pushedEnd : x.pc = .pushingEnd →
    SenderStep cfg env v k x (v.senderPc k .closingGate)
      (.send (cfg.encode (.sEnd x.item.stream (trailer x.item.sha256))))
  | closedGate : x.pc = .closingGate →
    SenderStep cfg env v k x
      { v.senderPc k .ended with credits := v.credits.close x.item.stream } .none

theorem senderStep_of_senderRun {k : Nat} {x : Sender}
    (h : v.senderRun cfg env k x = some (v', e)) : SenderStep cfg env v k x v' e := by
  simp only [senderRun] at h
  split at h
  · split at h <;> cases h
    · exact .found _ ‹_› ‹_›
    · exact .gone ‹_› ‹_›
  · rename_i rest hpc
    split at h
    · rename_i he
      cases h
      rw [List.isEmpty_iff.mp he] at hpc
      exact .sentAll _ _ hpc
    rename_i he
    split at h <;> cases h
    · rename_i ha
      obtain ⟨g, hg, ha⟩ := Option.bind_eq_some_iff.mp ha
      exact .acquired _ _ _ g _ ‹_› (by simpa using he) rfl hg (acquire_eq_ok ha).1
        (acquire_eq_ok ha).2
    · rename_i ha
      obtain ⟨g, hg, ha⟩ := Option.bind_eq_some_iff.mp ha
      exact .acquireCanceled _ _ _ g ‹_› hg (acquire_eq_error ha)
  · cases h
    refine .pushedData _ _ _ _ _ ‹_› ?_
    cases env.live <;> simp
  · cases h
    exact .pushedEnd ‹_›
  · cases h
    exact .closedGate ‹_›
  · cases h

/-- What the reader can do with the frame it is busy with. -/
inductive ReaderStep (cfg : Config) (v : Serve) : Serve → Emit → Prop
  | pushed (a : Envelope) : v.reader = .pushing a →
    ReaderStep cfg v { v with reader := .idle } (.send (cfg.encode a))
  | spawned (r : Accepted) : v.reader = .accepted r →
    ReaderStep cfg v
      { v with tasks := v.tasks.alloc r.task, reader := .spawned v.tasks.size } .none
  | inserted (t : Nat) (task : Task) : v.reader = .spawned t → v.tasks.get t = some task →
    task.done = false →
    ReaderStep cfg v { v with
      inflight := v.inflight.insert task.id ⟨task.capability, t, task.stream⟩
      reader := .idle } .none
  | skipped (t : Nat) (task : Task) : v.reader = .spawned t → v.tasks.get t = some task →
    task.done = true → ReaderStep cfg v { v with reader := .idle } .none
  | cancelTaken (id : Nat) (call : InflightCall) (task : Task) :
    v.reader = .canceling id call → v.tasks.get call.task = some task → task.replied = none →
    ReaderStep cfg v { v.updateTask call.task (·.takeReply .reader) with
      reader := .pushing (.err id .canceled) } .none
  | cancelLate (id : Nat) (call : InflightCall) (task : Task) (pc : ReaderPc) :
    v.reader = .canceling id call → v.tasks.get call.task = some task →
    task.replied.isSome = true →
    ((∃ stream, call.stream = some stream ∧ pc = .cancelGate stream) ∨
      call.stream = none ∧ pc = .idle) →
    ReaderStep cfg v { v.updateTask call.task (·.takeReply .reader) with reader := pc } .none
  | closedGate (stream gate : Nat) : v.reader = .cancelGate stream →
    v.credits.table.get stream = some gate →
    ReaderStep cfg v { v with
      credits := v.credits.close stream
      reader := .pushing (.sErr stream .canceled) } .none
  | gateGone (stream : Nat) : v.reader = .cancelGate stream →
    v.credits.table.get stream = none →
    ReaderStep cfg v { v with credits := v.credits.close stream, reader := .idle } .none

theorem readerStep_of_readerRun (h : v.readerRun cfg = some (v', e)) : ReaderStep cfg v v' e := by
  unfold readerRun at h
  split at h
  · cases h
  · cases h
    exact .pushed _ ‹_›
  · cases h
    exact .spawned _ ‹_›
  · split at h
    · rename_i task ht
      cases hd : task.done <;> simp only [hd, if_true, if_false, Bool.false_eq_true] at h <;>
        cases h
      · exact .inserted _ task ‹_› ht hd
      · exact .skipped _ task ‹_› ht hd
    · cases h
  · rename_i id call hr
    split at h
    · rename_i task ht
      cases h
      unfold cancelPc
      cases hrep : task.replied with
      | none => exact .cancelTaken id call task hr ht hrep
      | some p =>
        refine .cancelLate id call task _ hr ht (by simp [hrep]) ?_
        cases call.stream <;> simp
    · cases h
  · rename_i stream hr
    cases h
    cases hg : v.credits.table.get stream with
    | none => exact .gateGone stream hr hg
    | some gate => exact .closedGate stream gate hr hg

/-- What a capability change can do on this connection. -/
inductive ReplaceStep (cfg : Config) (closed : Bool) (v : Serve) (r : Nat) (x : Replace) :
    Serve → Emit → Prop
  | checked (pc : ReplacePc) : x.pc = .checking →
    (pc = .finished ∧ closed = true ∨ pc = .revoking ∧ closed = false) →
    ReplaceStep cfg closed v r x (v.replacePc r pc) .none
  | collected (name : String) (names : List String) (order : List (Nat × InflightCall)) :
    x.pc = .revoking → x.revoked = name :: names → order.Perm (v.victims x.caller name) →
    ReplaceStep cfg closed v r x { v with
      inflight := v.inflight.retain fun id call => (id, call) ∉ order
      replaces := v.replaces.update r
        ({ · with revoked := names, pc := .failing name order }) } .none
  | revokedAll : x.pc = .revoking → x.revoked = [] →
    ReplaceStep cfg closed v r x (v.replacePc r .announcing) .none
  | passDone (name : String) : x.pc = .failing name [] →
    ReplaceStep cfg closed v r x (v.replacePc r .revoking) .none
  | taken (name : String) (w : Nat × InflightCall) (rest : List (Nat × InflightCall))
    (task : Task) : x.pc = .failing name (w :: rest) → v.tasks.get w.2.task = some task →
    task.replied = none →
    ReplaceStep cfg closed v r x ((v.replacePc r (.answering name w rest)).updateTask w.2.task
      (·.takeReply (.replace r))) .none
  | late (name : String) (w : Nat × InflightCall) (rest : List (Nat × InflightCall))
    (task : Task) (pc : ReplacePc) : x.pc = .failing name (w :: rest) →
    v.tasks.get w.2.task = some task → task.replied.isSome = true →
    ((∃ stream, w.2.stream = some stream ∧ pc = .pushingErr name stream w rest) ∨
      w.2.stream = none ∧ pc = .aborting name w rest) →
    ReplaceStep cfg closed v r x ((v.replacePc r pc).updateTask w.2.task
      (·.takeReply (.replace r))) .none
  | answered (name : String) (w : Nat × InflightCall) (rest : List (Nat × InflightCall)) :
    x.pc = .answering name w rest →
    ReplaceStep cfg closed v r x (v.replacePc r (.aborting name w rest))
      (.send (cfg.encode (.err w.1 (revokedError name))))
  | pushedErr (name : String) (stream : Nat) (w : Nat × InflightCall)
    (rest : List (Nat × InflightCall)) : x.pc = .pushingErr name stream w rest →
    ReplaceStep cfg closed v r x (v.replacePc r (.closingGate name stream w rest))
      (.send (cfg.encode (.sErr stream (revokedError name))))
  | closedGate (name : String) (stream : Nat) (w : Nat × InflightCall)
    (rest : List (Nat × InflightCall)) : x.pc = .closingGate name stream w rest →
    ReplaceStep cfg closed v r x { v.replacePc r (.aborting name w rest) with
      credits := v.credits.close stream } .none
  | aborted (name : String) (w : Nat × InflightCall) (rest : List (Nat × InflightCall)) :
    x.pc = .aborting name w rest →
    ReplaceStep cfg closed v r x ((v.replacePc r (.failing name rest)).updateTask w.2.task
      ({ · with aborted := true })) .none

theorem replaceStep_of_collect {order : List (Nat × InflightCall)}
    (h : v.collect r x order = some (v', e)) : ReplaceStep cfg closed v r x v' e := by
  unfold collect at h
  split at h
  · split_ifs at h with hp
    cases h
    exact .collected _ _ _ ‹_› ‹_› (List.isPerm_iff.mp hp)
  · cases h

theorem replaceStep_of_replaceRun (h : v.replaceRun cfg closed r x = some (v', e)) :
    ReplaceStep cfg closed v r x v' e := by
  unfold replaceRun at h
  split at h
  · cases h
    refine .checked _ ‹_› ?_
    cases closed <;> simp
  · split_ifs at h with he
    cases h
    exact .revokedAll ‹_› (List.isEmpty_iff.mp he)
  · cases h
    exact .passDone _ ‹_›
  · rename_i name w rest hpc
    split at h
    · rename_i task ht
      cases h
      unfold revokePc
      cases hrep : task.replied with
      | none => exact .taken name w rest task hpc ht hrep
      | some p =>
        refine .late name w rest task _ hpc ht (by simp [hrep]) ?_
        cases w.2.stream <;> simp
    · cases h
  · cases h
    exact .answered _ _ _ ‹_›
  · cases h
    exact .pushedErr _ _ _ _ ‹_›
  · cases h
    exact .closedGate _ _ _ _ ‹_›
  · cases h
    exact .aborted _ _ _ ‹_›
  all_goals cases h

theorem step_cases {a : ServeAct} (h : v.step cfg env closed a = some (v', e)) :
    (∃ t task, v.tasks.get t = some task ∧ (task.pc = .leaving → a = .run t) ∧
      TaskStep cfg env v t task v' e) ∨
    (∃ k x, v.senders.get k = some x ∧ SenderStep cfg env v k x v' e) ∨
    (a = .readerRun ∧ ReaderStep cfg v v' e) ∨
    (∃ caller capabilities built, a = .replace caller capabilities ∧
      Served.build capabilities = .ok built ∧ e = .none ∧
      v' = { v with
        served := built
        replaces := v.replaces.alloc ⟨caller, v.served.revokedBy built, .checking⟩ }) ∨
    ∃ r x, a.replaceHandle = some r ∧ v.replaces.get r = some x ∧
      ReplaceStep cfg closed v r x v' e := by
  cases a with
  | dispatched t o =>
    simp only [step] at h
    split at h
    · refine .inl ⟨t, _, ‹_›, fun hpc => ?_, taskStep_of_dispatched h⟩
      simp [dispatched, hpc] at h
    · cases h
  | yielded t i =>
    simp only [step] at h
    split at h
    · refine .inl ⟨t, _, ‹_›, fun hpc => ?_, taskStep_of_yielded h⟩
      simp [yielded, hpc] at h
    · cases h
  | run t =>
    simp only [step] at h
    split at h
    · exact .inl ⟨t, _, ‹_›, fun _ => rfl, taskStep_of_taskRun h⟩
    · cases h
  | stop t =>
    simp only [step] at h
    split at h
    · refine .inl ⟨t, _, ‹_›, fun hpc => ?_, taskStep_of_taskStop h⟩
      simp [taskStop, hpc, TaskPc.awaits] at h
    · cases h
  | senderRun k =>
    simp only [step] at h
    split at h
    · exact .inr (.inl ⟨k, _, ‹_›, senderStep_of_senderRun h⟩)
    · cases h
  | readerRun => exact .inr (.inr (.inl ⟨rfl, readerStep_of_readerRun h⟩))
  | replace caller capabilities =>
    simp only [step, replace] at h
    repeat' split at h
    all_goals cases h
    exact .inr (.inr (.inr (.inl ⟨caller, capabilities, _, rfl, ‹_›, rfl, rfl⟩)))
  | collect r order =>
    simp only [step] at h
    split at h
    · exact .inr (.inr (.inr (.inr ⟨r, _, rfl, ‹_›, replaceStep_of_collect h⟩)))
    · cases h
  | replaceRun r =>
    simp only [step] at h
    split at h
    · exact .inr (.inr (.inr (.inr ⟨r, _, rfl, ‹_›, replaceStep_of_replaceRun h⟩)))
    · cases h

end Serve

/-! ### What the serving half hands over -/

/-- A part of a stream, or the answer to a request. -/
inductive WriterCmd.Replies : WriterCmd → Prop
  | chunk (x seq : Nat) (bytes : List UInt8) : Replies (.send (.streamData x seq bytes))
  | done (x : Nat) (p : Payload) : Replies (.send (.control (.sEnd x p)))
  | failed (x : Nat) (error : WireError) : Replies (.send (.control (.sErr x error)))
  | res (id : Nat) (p : Payload) : Replies (.send (.control (.res id p)))
  | err (id : Nat) (error : WireError) : Replies (.send (.control (.err id error)))

namespace Serve

variable {cfg : Config} {env : Env} {closed : Bool} {v v' : Serve} {e : Emit}

theorem TaskStep.replies {t : Nat} {task : Task} (h : TaskStep cfg env v t task v' e) :
    ∀ c ∈ e.cmds, c.Replies := by
  intro c hc
  cases h with
  | pushedRes => exact mem_encode hc ▸ .res _ _
  | pushedErr => exact mem_encode hc ▸ .err _ _
  | pushedData => exact List.mem_singleton.mp hc ▸ .chunk _ _ _
  | pushedEnd error =>
    cases error with
    | none => exact mem_encode hc ▸ .done _ _
    | some error => exact mem_encode hc ▸ .failed _ error
  | _ => cases hc

theorem replies_of_step {a : ServeAct} (h : v.step cfg env closed a = some (v', e)) :
    ∀ c ∈ e.cmds, c.Replies ∨ ∃ b, v.reader = .pushing b ∧ c = .send (.control b) := by
  intro c hc
  rcases step_cases h with ⟨t, task, -, -, hs⟩ | ⟨k, x, -, hs⟩ | ⟨-, hs⟩ |
    ⟨caller, capabilities, built, -, -, rfl, -⟩ | ⟨r, x, -, -, hs⟩
  · exact .inl (hs.replies c hc)
  · cases hs with
    | pushedData => exact .inl (List.mem_singleton.mp hc ▸ .chunk _ _ _)
    | pushedEnd => exact .inl (mem_encode hc ▸ .done _ _)
    | _ => cases hc
  · cases hs with
    | pushed b hr => exact .inr ⟨b, hr, mem_encode hc⟩
    | _ => cases hc
  · cases hc
  · cases hs with
    | answered =>
      rw [Emit.cmds_send] at hc
      exact .inl (mem_encode hc ▸ .err _ _)
    | pushedErr =>
      rw [Emit.cmds_send] at hc
      exact .inl (mem_encode hc ▸ .failed _ _)
    | _ => cases hc

end Serve

end Zyris.Core
