import Zyris.Core.Equiv.Replies

/-!
# Revocation

`replace` swaps the served set, takes the calls on a dropped name out of `inflight` and fails them.
A request that was looked up before the swap and is registered only after the pass has collected is
missed (`res_after_revoke_pass`).  A call waits in one place only (`Holders`), a `res` in the log is
its task's own (`Attributed`), and `InPass` is what becomes of a call the pass collected.
-/

namespace Zyris.Core

open Proto

/-! ### Where a call waits -/

/-- The victims of a `replace` whose flags it has not come to. -/
def ReplacePc.waiting : ReplacePc → List (Nat × InflightCall)
  | .failing _ ws => ws
  | .answering _ _ ws => ws
  | .pushingErr _ _ _ ws => ws
  | .closingGate _ _ _ ws => ws
  | .aborting _ _ ws => ws
  | _ => []

theorem ReplacePc.AllVictims.waiting {P : String → Nat × InflightCall → Prop} {pc : ReplacePc}
    (h : pc.AllVictims P) {w : Nat × InflightCall} (hw : w ∈ pc.waiting) : ∃ name, P name w := by
  cases pc with
  | checking | revoking | announcing | awaiting | finished => cases hw
  | failing name ws => exact ⟨name, h w hw⟩
  | answering name u ws | pushingErr name stream u ws | closingGate name stream u ws
  | aborting name u ws => exact ⟨name, h w (List.mem_cons_of_mem _ hw)⟩

/-- The `replace` `r` is through with a pass, or has not begun one. -/
def Serve.betweenPasses (v : Serve) (r : Nat) : Bool :=
  (v.replaces.get r).any fun x => match x.pc with
    | .revoking => true
    | _ => false

variable {v v' : Serve} {r t : Nat} {log : List WriterCmd} {ids : List Nat} {cfg : Config}
  {e : Emit} {env : Env} {s s' : Shared}

theorem Serve.exists_of_betweenPasses (h : v.betweenPasses r = true) :
    ∃ x, v.replaces.get r = some x ∧ x.pc = .revoking := by
  obtain ⟨x, hx, hpc⟩ := (Option.any_eq_true _ _).mp h
  refine ⟨x, hx, ?_⟩
  split at hpc
  · assumption
  · cases hpc

/-- The call of the task `t` waits with the `replace` `r`. -/
def Serve.WaitsWith (v : Serve) (r t : Nat) : Prop :=
  ∃ x w, v.replaces.get r = some x ∧ w ∈ x.pc.waiting ∧ w.2.task = t

/-- The call of the task `t` is registered. -/
def Serve.IsInflight (v : Serve) (t : Nat) : Prop :=
  ∃ id call, v.inflight.get id = some call ∧ call.task = t

/-- A call waits with one `replace` at most, and not while it is or will be registered. -/
structure Holders (v : Serve) : Prop where
  unique : ∀ r r' t, v.WaitsWith r t → v.WaitsWith r' t → r = r'
  apart : ∀ r t, v.WaitsWith r t → ¬ v.IsInflight t
  spawned : ∀ t, v.reader = .spawned t → ¬ v.IsInflight t ∧ ∀ r, ¬ v.WaitsWith r t

/-- A call that is waited on, or registered, has its task. -/
theorem Answers.lt_of_waitsWith (h : Answers v log ids) (hw : v.WaitsWith r t) :
    t < v.tasks.size := by
  obtain ⟨x, w, hx, hmem, rfl⟩ := hw
  obtain ⟨name, -, task, ht, -⟩ := (h.replaces r x hx).victims.waiting hmem
  exact Arena.lt_size_of_get ht

theorem Answers.lt_of_isInflight (h : Answers v log ids) (hi : v.IsInflight t) :
    t < v.tasks.size := by
  obtain ⟨id, call, hc, rfl⟩ := hi
  obtain ⟨task, ht, -⟩ := h.inflight id call hc
  exact Arena.lt_size_of_get ht

namespace Holders

theorem start (served : Served) : Holders (Shared.start served).serve where
  unique r r' t h := by
    obtain ⟨x, w, hx, -⟩ := h
    simp [Shared.start] at hx
  apart r t h := by
    obtain ⟨x, w, hx, -⟩ := h
    simp [Shared.start] at hx
  spawned t h := by simp [Shared.start] at h

theorem mono (h : Holders v) (hw : ∀ r t, v'.WaitsWith r t → v.WaitsWith r t)
    (hi : ∀ t, v'.IsInflight t → v.IsInflight t)
    (hr : ∀ t, v'.reader = .spawned t → v.reader = .spawned t) : Holders v' where
  unique r r' t h₁ h₂ := h.unique r r' t (hw r t h₁) (hw r' t h₂)
  apart r t h₁ h₂ := h.apart r t (hw r t h₁) (hi t h₂)
  spawned t ht :=
    ⟨fun h₁ => (h.spawned t (hr t ht)).1 (hi t h₁),
      fun r h₁ => (h.spawned t (hr t ht)).2 r (hw r t h₁)⟩

end Holders

variable {closed : Bool} {x : Replace} {id : Nat} {c : WriterCmd} {f : Frame} {a : ServeAct}
  {y task : Task} {name : String} {caller : Option Nat}

theorem Serve.ReplaceStep.waiting (h : ReplaceStep cfg closed v r x v' e) :
    (∃ name names order, order.Perm (v.victims x.caller name) ∧ v' = { v with
      inflight := v.inflight.retain fun id call => (id, call) ∉ order
      replaces := v.replaces.update r
        ({ · with revoked := names, pc := .failing name order }) }) ∨
    ∃ f, v'.replaces = v.replaces.update r f ∧ v'.inflight = v.inflight ∧
      v'.reader = v.reader ∧ (f x).pc.waiting ⊆ x.pc.waiting := by
  cases h with
  | collected name names order hpc hrev hperm => exact .inl ⟨name, names, order, hperm, rfl⟩
  | checked pc hpc hnext =>
    refine .inr ⟨_, rfl, rfl, rfl, ?_⟩
    rcases hnext with ⟨rfl, -⟩ | ⟨rfl, -⟩ <;> exact List.nil_subset _
  | revokedAll | passDone => exact .inr ⟨_, rfl, rfl, rfl, List.nil_subset _⟩
  | taken name w rest task hpc =>
    refine .inr ⟨_, rfl, rfl, rfl, ?_⟩
    rw [hpc]
    exact List.subset_cons_self w rest
  | late name w rest task pc hpc ht hsome hnext =>
    refine .inr ⟨_, rfl, rfl, rfl, ?_⟩
    rw [hpc]
    rcases hnext with ⟨stream, -, rfl⟩ | ⟨-, rfl⟩ <;> exact List.subset_cons_self w rest
  | answered name w rest hpc | pushedErr name stream w rest hpc
  | closedGate name stream w rest hpc | aborted name w rest hpc =>
    refine .inr ⟨_, rfl, rfl, rfl, ?_⟩
    rw [hpc]
    exact List.Subset.refl rest

theorem Serve.WaitsWith.of_update {f : Replace → Replace}
    (hv : v'.replaces = v.replaces.update r f)
    (hf : ∀ x, v.replaces.get r = some x → (f x).pc.waiting ⊆ x.pc.waiting) {k : Nat}
    (h : v'.WaitsWith k t) : v.WaitsWith k t := by
  obtain ⟨y, w, hy, hw, rfl⟩ := h
  rw [hv] at hy
  rcases Arena.get_update_cases hy with ⟨rfl, x, hx, rfl⟩ | ⟨-, hy⟩
  · exact ⟨x, w, hx, hf x hx hw, rfl⟩
  · exact ⟨y, w, hy, hw, rfl⟩

theorem Serve.IsInflight.of_get
    (hv : ∀ id call, v'.inflight.get id = some call → v.inflight.get id = some call)
    (h : v'.IsInflight t) : v.IsInflight t := by
  obtain ⟨id, call, hc, rfl⟩ := h
  exact ⟨id, call, hv id call hc, rfl⟩

namespace Holders

theorem insert (h : Holders v) {t : Nat} {task : Task} (hr : v.reader = .spawned t) :
    Holders { v with
      inflight := v.inflight.insert task.id ⟨task.capability, t, task.stream⟩
      reader := .idle } := by
  obtain ⟨-, hnot⟩ := h.spawned t hr
  refine ⟨h.unique, fun r u hw hi => ?_, nofun⟩
  obtain ⟨id, call, hc, rfl⟩ := hi
  rcases Table.get_insert_cases hc with ⟨-, rfl⟩ | ⟨-, hc⟩
  · exact hnot r hw
  · exact h.apart r _ hw ⟨id, call, hc, rfl⟩

theorem collect (h : Holders v) (ha : Answers v log ids) {r : Nat} {caller : Option Nat}
    {name : String} {names : List String} {order : List (Nat × InflightCall)}
    (hperm : order.Perm (v.victims caller name)) :
    Holders { v with
      inflight := v.inflight.retain fun id call => (id, call) ∉ order
      replaces := v.replaces.update r
        ({ · with revoked := names, pc := .failing name order }) } := by
  have hget : ∀ w ∈ order, v.inflight.get w.1 = some w.2 := fun w hw =>
    (Table.mem_entries_iff _ _ _).mp (List.mem_filter.mp (hperm.mem_iff.mp hw)).1
  -- whoever waits was registered and waits with `r`, or waited before
  have hcases : ∀ k t, Serve.WaitsWith { v with
      inflight := v.inflight.retain fun id call => (id, call) ∉ order
      replaces := v.replaces.update r
        ({ · with revoked := names, pc := .failing name order }) } k t →
      (k = r ∧ ∃ w ∈ order, w.2.task = t) ∨ (k ≠ r ∧ v.WaitsWith k t) := by
    rintro k t ⟨y, w, hy, hw, rfl⟩
    rcases Arena.get_update_cases hy with ⟨rfl, z, -, rfl⟩ | ⟨hne, hy⟩
    · exact .inl ⟨rfl, w, hw, rfl⟩
    · exact .inr ⟨hne, y, w, hy, hw, rfl⟩
  have hin : ∀ id call, (v.inflight.retain fun id call => (id, call) ∉ order).get id = some call →
      v.inflight.get id = some call ∧ (id, call) ∉ order := by
    intro id call hc
    rw [Table.get_retain, Option.filter_eq_some_iff] at hc
    exact ⟨hc.1, of_decide_eq_true hc.2⟩
  refine ⟨fun k k' t hk hk' => ?_, fun k t hk hi => ?_, fun t ht => ⟨fun hi => ?_, fun k hk => ?_⟩⟩
  · rcases hcases k t hk with ⟨hr, w, hw, he⟩ | ⟨-, hold⟩ <;>
      rcases hcases k' t hk' with ⟨hr', w', hw', he'⟩ | ⟨-, hold'⟩
    · rw [hr, hr']
    · exact absurd ⟨w.1, w.2, hget w hw, he⟩ (h.apart k' t hold')
    · exact absurd ⟨w'.1, w'.2, hget w' hw', he'⟩ (h.apart k t hold)
    · exact h.unique k k' t hold hold'
  · obtain ⟨id, call, hret, rfl⟩ := hi
    obtain ⟨hc, hnot⟩ := hin id call hret
    rcases hcases k _ hk with ⟨-, w, hw, he⟩ | ⟨-, hold⟩
    · -- two entries of the same task are the same entry
      obtain ⟨task, ht, hid, -⟩ := ha.inflight id call hc
      obtain ⟨task', ht', hid', -⟩ := ha.inflight w.1 w.2 (hget w hw)
      rw [he] at ht'
      obtain rfl := Option.mem_unique ht ht'
      have hw1 : w.1 = id := by rw [← hid', hid]
      have hw2 := hget w hw
      rw [hw1, hc] at hw2
      exact hnot (by rw [Option.some.inj hw2, ← hw1]; exact hw)
    · exact h.apart k _ hold ⟨id, call, hc, rfl⟩
  · obtain ⟨id, call, hc, rfl⟩ := hi
    exact (h.spawned _ ht).1 ⟨id, call, (hin id call hc).1, rfl⟩
  · rcases hcases k t hk with ⟨-, w, hw, he⟩ | ⟨-, hold⟩
    · exact (h.spawned _ ht).1 ⟨w.1, w.2, hget w hw, he⟩
    · exact (h.spawned t ht).2 k hold

theorem replaceStep {closed : Bool} {r : Nat} {x : Replace} (h : Holders v)
    (ha : Answers v log ids) (hx : v.replaces.get r = some x)
    (hstep : Serve.ReplaceStep cfg closed v r x v' e) : Holders v' := by
  rcases hstep.waiting with ⟨name, names, order, hperm, rfl⟩ | ⟨f, hv, hi, hr, hf⟩
  · exact h.collect ha hperm
  · refine h.mono (fun k t => Serve.WaitsWith.of_update hv fun z hz => ?_)
      (fun t => Serve.IsInflight.of_get fun id call hc => hi ▸ hc) fun t ht => hr ▸ ht
    obtain rfl := Option.mem_unique hx hz
    exact hf

theorem serveStep {closed : Bool} {a : ServeAct} (h : Holders v) (ha : Answers v log ids)
    (hstep : v.step cfg env closed a = some (v', e)) : Holders v' := by
  rcases Serve.step_cases hstep with ⟨t, task, ht, -, hs⟩ | ⟨k, x, -, hs⟩ | ⟨-, hs⟩ |
    ⟨caller, capabilities, built, -, -, -, rfl⟩ | ⟨r, x, -, hx, hs⟩
  · obtain ⟨hreader, hrep, hinf, -⟩ := hs.reply
    refine h.mono (fun r t hw => ?_) (fun t => Serve.IsInflight.of_get fun id call hc => ?_)
      fun t ht => hreader ▸ ht
    · rwa [Serve.WaitsWith, hrep] at hw
    · rcases hinf with hinf | ⟨j, hinf⟩ <;> rw [hinf] at hc
      · exact hc
      · exact (Table.get_of_get_remove hc).2
  · obtain ⟨-, hreader, hrep, hinf, -⟩ := hs.reply
    refine h.mono (fun r t hw => ?_) (fun t hi => ?_) fun t ht => hreader ▸ ht
    · rwa [Serve.WaitsWith, hrep] at hw
    · rwa [Serve.IsInflight, hinf] at hi
  · cases hs with
    | spawned r hr =>
      refine ⟨h.unique, h.apart, fun t ht => ?_⟩
      cases ht
      exact ⟨fun hi => absurd (ha.lt_of_isInflight hi) (Nat.lt_irrefl _),
        fun k hw => absurd (ha.lt_of_waitsWith hw) (Nat.lt_irrefl _)⟩
    | inserted t task hr ht hd => exact h.insert hr
    | cancelLate id call task pc hr ht hsome hpc =>
      refine h.mono (fun _ _ hw => hw) (fun _ hi => hi) fun t ht => ?_
      rcases hpc with ⟨stream, -, rfl⟩ | ⟨-, rfl⟩ <;> cases ht
    | _ => exact h.mono (fun _ _ hw => hw) (fun _ hi => hi) nofun
  · refine h.mono (fun r t hw => ?_) (fun _ hi => hi) fun _ ht => ht
    obtain ⟨y, w, hy, hmem, rfl⟩ := hw
    rcases Arena.get_alloc_cases hy with ⟨-, rfl⟩ | hy
    · cases hmem
    · exact ⟨y, w, hy, hmem, rfl⟩
  · exact h.replaceStep ha hx hs

theorem beside (h : Holders v) (hb : v.Beside v') : Holders v' := by
  refine h.mono (fun r t hw => ?_) (fun t => Serve.IsInflight.of_get hb.inflight) hb.spawned
  obtain ⟨y, w, hy, hmem, rfl⟩ := hw
  obtain ⟨x, hx, rfl | ⟨-, hpc, -⟩⟩ := hb.replaces.get hy
  · exact ⟨y, w, hx, hmem, rfl⟩
  · rcases hpc with hpc | ⟨i, hpc⟩ <;> rw [hpc] at hmem <;> cases hmem

end Holders

/-! ### Whose answer it is -/

def resCmd (id : Nat) (p : Payload) : WriterCmd := .send (.control (.res id p))

def revokedCmd (id : Nat) (name : String) : WriterCmd :=
  .send (.control (.err id (Serve.revokedError name)))

def WriterCmd.isRes (id : Nat) : WriterCmd → Bool
  | .send (.control (.res id' _)) => id' = id
  | _ => false

theorem WriterCmd.eq_resCmd_of_isRes (h : c.isRes id = true) : ∃ p, c = resCmd id p := by
  unfold WriterCmd.isRes at h
  split at h
  · exact ⟨_, by rw [← of_decide_eq_true h]; rfl⟩
  · cases h

theorem control_of_mem_encode {e : Envelope} (h : WriterCmd.send f ∈ cfg.encode e) :
    f = .control e := WriterCmd.send.inj (mem_encode h)

/-- The error of a revoked call can always be written. -/
theorem encode_revoked (cfg : Config) (id : Nat) (name : String) :
    cfg.encode (.err id (Serve.revokedError name)) = [revokedCmd id name] := by
  unfold Config.encode
  rw [if_pos]
  · rfl
  · simp [Envelope.encodes, Serve.revokedError]

/-- The `replace` `r` has the flag of the task `t` and is about to answer. -/
def Serve.AnswersFor (v : Serve) (r t : Nat) : Prop :=
  ∃ x name w ws, v.replaces.get r = some x ∧ x.pc = .answering name w ws ∧ w.2.task = t

/-- A `res` is the task's own; a call flagged by a `replace` is failed by it, unless the writer is
`gone`. -/
structure Attributed (v : Serve) (log : List WriterCmd) (gone : Prop) : Prop where
  res : ∀ t task p, v.tasks.get t = some task → resCmd task.id p ∈ log →
    task.replied = some .task
  err : ∀ t task r, v.tasks.get t = some task → task.replied = some (.replace r) →
    v.AnswersFor r t ∨ revokedCmd task.id task.capability ∈ log ∨ gone

theorem Serve.step_res (h : v.step cfg env closed a = some (v', e)) {p : Payload}
    (hres : resCmd id p ∈ e.cmds) :
    (∃ t task, v.tasks.get t = some task ∧ task.id = id ∧ task.pc.holdsReply = true) ∨
    v.reader = .pushing (.res id p) := by
  have hfinal {cmds : List WriterCmd} (hno : NoFinal cmds) (hmem : resCmd id p ∈ cmds) : False := by
    have := hno _ hmem
    cases this
  rcases step_cases h with ⟨t, task, ht, -, hs⟩ | ⟨k, z, -, hs⟩ | ⟨-, hs⟩ |
    ⟨caller, capabilities, built, -, -, rfl, rfl⟩ | ⟨r, z, -, hz, hs⟩
  · obtain ⟨-, -, -, f, -, ⟨-, hno⟩ | ⟨-, -, -, -, hcmds⟩ |
        ⟨hholds, -, -, -, -, env', hfin, hcmds⟩⟩ := hs.reply
    · exact absurd hres (hfinal hno)
    · rw [hcmds] at hres
      cases hres
    · rw [hcmds] at hres
      rw [← control_of_mem_encode hres] at hfin
      exact .inl ⟨t, task, ht, (Option.some.inj hfin).symm, hholds⟩
  · exact absurd hres (hfinal hs.reply.2.2.2.2)
  · cases hs with
    | pushed b hr =>
      have hb := control_of_mem_encode hres
      rw [Frame.control.injEq] at hb
      exact .inr (hb ▸ hr)
    | _ => cases hres
  · cases hres
  · cases hs with
    | answered name w rest hpc | pushedErr name stream w rest =>
      rw [Emit.cmds_send] at hres
      cases control_of_mem_encode hres
    | _ => cases hres

/-- No task is lost, and it keeps its request and its flag. -/
theorem Serve.step_forward (h : v.step cfg env closed a = some (v', e)) {x : Task}
    (hx : v.tasks.get t = some x) : ∃ y, v'.tasks.get t = some y ∧ x.Keeps y := by
  rcases step_cases h with ⟨u, task, hu, -, hs⟩ | ⟨k, z, -, hs⟩ | ⟨-, hs⟩ |
    ⟨caller, capabilities, built, -, -, -, rfl⟩ | ⟨r, z, -, -, hs⟩
  · obtain ⟨-, -, -, f, hv, hf⟩ := hs.reply
    rw [hv]
    refine (Arena.rel_update Task.keeps_refl fun z hz => ?_).get_right hx
    obtain rfl := Option.mem_unique hu hz
    rcases hf with ⟨hq, -⟩ | ⟨hnone, hid, hcap, -, -⟩ | ⟨-, hid, hcap, hsame, -⟩
    · exact hq.keeps
    · exact ⟨hid, hcap, fun p hp => absurd hp (by simp [hnone])⟩
    · exact ⟨hid, hcap, fun p hp => hsame.trans hp⟩
  · exact ⟨x, by rw [hs.reply.1, hx], x.keeps_refl⟩
  · rcases hs.tasks with ⟨r, -, -, rfl⟩ | ⟨hflag, -⟩
    · exact ⟨x, Arena.get_alloc_of_get hx _, x.keeps_refl⟩
    · exact (hflag.mono fun _ _ h => h.keeps).get_right hx
  · exact ⟨x, hx, x.keeps_refl⟩
  · exact (hs.tasks.1.mono fun _ _ h => h.keeps).get_right hx

/-- A `replace` takes its own steps only. -/
theorem Serve.step_replace (h : v.step cfg env closed a = some (v', e))
    (hx : v.replaces.get r = some x) :
    v'.replaces.get r = some x ∨ ReplaceStep cfg closed v r x v' e := by
  rcases step_cases h with ⟨u, task, hu, -, hs⟩ | ⟨k, z, -, hs⟩ | ⟨-, hs⟩ |
    ⟨caller, capabilities, built, -, -, -, rfl⟩ | ⟨k, z, -, hz, hs⟩
  · exact .inl (by rw [hs.reply.2.1, hx])
  · exact .inl (by rw [hs.reply.2.2.1, hx])
  · left
    cases hs <;> exact hx
  · exact .inl (Arena.get_alloc_of_get hx _)
  · by_cases hk : r = k
    · subst hk
      obtain rfl := Option.mem_unique hx hz
      exact .inr hs
    · left
      cases hs <;> exact (Arena.get_update ..).trans ((if_neg hk).trans hx)

theorem Serve.step_answersFor (h : v.step cfg env closed a = some (v', e)) (hf : v.AnswersFor r t) :
    v'.AnswersFor r t ∨ ∃ x name w ws, v.replaces.get r = some x ∧ x.pc = .answering name w ws ∧
      w.2.task = t ∧ e.cmds = cfg.encode (.err w.1 (revokedError name)) := by
  obtain ⟨x, name, w, ws, hx, hpc, hw⟩ := hf
  rcases step_replace h hx with hx' | hs
  · exact .inl ⟨x, name, w, ws, hx', hpc, hw⟩
  cases hs with
  | answered name' w' rest' hpc' =>
    rw [hpc] at hpc'
    cases hpc'
    exact .inr ⟨x, name, w, ws, hx, hpc, hw, rfl⟩
  | checked pc hpc' | collected _ _ _ hpc' | revokedAll hpc' | passDone _ hpc'
  | taken _ _ _ _ hpc' | late _ _ _ _ _ hpc' | pushedErr _ _ _ _ hpc'
  | closedGate _ _ _ _ hpc' | aborted _ _ _ hpc' =>
    rw [hpc] at hpc'
    cases hpc'

theorem Serve.step_takenBy (h : v.step cfg env closed a = some (v', e)) {x : Task}
    (hx : v.tasks.get t = some x) (hy : v'.tasks.get t = some y)
    (hr : y.replied = some (.replace r)) :
    x.replied = some (.replace r) ∨ v.WaitsWith r t ∧ v'.AnswersFor r t := by
  have same {v' : Serve} (hv : v'.tasks = v.tasks) (hy : v'.tasks.get t = some y) :
      x.replied = some (.replace r) := by
    rw [hv, hx] at hy
    obtain rfl := Option.some.inj hy
    exact hr
  -- a swap by `p`: the flag was set by `p` just now, or it is as before
  have swap {v' : Serve} {u : Nat} {p : Party} (hv : v'.tasks = v.tasks.update u (·.takeReply p))
      (hy : v'.tasks.get t = some y) :
      x.replied = some (.replace r) ∨ (u = t ∧ x.replied = none ∧ p = .replace r) := by
    rw [hv] at hy
    rcases Arena.get_update_cases hy with ⟨rfl, z, hz, rfl⟩ | ⟨-, hy⟩
    · obtain rfl := Option.mem_unique hx hz
      cases hrep : x.replied with
      | none => exact .inr ⟨rfl, rfl, by simpa [Task.takeReply, hrep] using hr⟩
      | some q => exact .inl (by simpa [Task.takeReply, hrep] using hr)
    · obtain rfl := Option.mem_unique hx hy
      exact .inl hr
  rcases step_cases h with ⟨u, task, hu, -, hs⟩ | ⟨k, z, -, hs⟩ | ⟨-, hs⟩ |
    ⟨caller, capabilities, built, -, -, -, rfl⟩ | ⟨k, z, -, hz, hs⟩
  · left
    obtain ⟨-, -, -, f, hv, hf⟩ := hs.reply
    rw [hv] at hy
    rcases Arena.get_update_cases hy with ⟨rfl, z, hz, rfl⟩ | ⟨-, hy⟩
    · obtain rfl := Option.mem_unique hx hz
      obtain rfl := Option.mem_unique hx hu
      rcases hf with ⟨hq, -⟩ | ⟨-, -, -, htaken, -⟩ | ⟨-, -, -, hsame, -⟩
      · exact hq.replied ▸ hr
      · rw [htaken] at hr
        cases hr
      · exact hsame ▸ hr
    · obtain rfl := Option.mem_unique hx hy
      exact hr
  · exact .inl (same hs.reply.1 hy)
  · left
    cases hs with
    | spawned r' hr' =>
      obtain rfl := Option.some.inj ((Arena.get_alloc_of_get hx _).symm.trans hy)
      exact hr
    | cancelTaken | cancelLate =>
      rcases swap rfl hy with h' | ⟨-, -, h'⟩
      · exact h'
      · cases h'
    | _ => exact same rfl hy
  · exact .inl (same rfl hy)
  · cases hs with
    | taken name w rest task hpc ht hnone =>
      rcases swap rfl hy with h' | ⟨hw, -, h'⟩
      · exact .inl h'
      · cases h'
        refine .inr ⟨⟨z, w, hz, ?_, hw⟩, _, name, w, rest, Arena.get_update_self hz _, rfl, hw⟩
        rw [hpc]
        exact List.mem_cons_self
    | late name w rest task pc hpc ht hsome hnext =>
      rcases swap rfl hy with h' | ⟨rfl, hnone, -⟩
      · exact .inl h'
      · obtain rfl := Option.mem_unique hx ht
        exact absurd hsome (by simp [hnone])
    | aborted name w rest hpc =>
      left
      rcases Arena.get_update_cases hy with ⟨rfl, z', hz', rfl⟩ | ⟨-, hy⟩
      · obtain rfl := Option.mem_unique hx hz'
        exact hr
      · obtain rfl := Option.mem_unique hx hy
        exact hr
    | _ => exact .inl (same rfl hy)

theorem Serve.Beside.get_replace (h : v.Beside v') (hx : v.replaces.get r = some x) :
    v'.replaces.get r = some x ∨ x.pc = .announcing ∨ ∃ i, x.pc = .awaiting i := by
  obtain ⟨y, hy, rfl | ⟨hpc, -⟩⟩ := h.replaces.get_right hx
  · exact .inl hy
  · exact .inr hpc

theorem Serve.Beside.waitsWith (h : v.Beside v') (hw : v.WaitsWith r t) : v'.WaitsWith r t := by
  obtain ⟨x, w, hx, hmem, rfl⟩ := hw
  rcases h.get_replace hx with hx' | hpc | ⟨i, hpc⟩
  · exact ⟨x, w, hx', hmem, rfl⟩
  all_goals rw [hpc] at hmem; cases hmem

theorem Serve.Beside.answersFor (h : v.Beside v') (hf : v.AnswersFor r t) :
    v'.AnswersFor r t := by
  obtain ⟨x, name, w, ws, hx, hpc, hw⟩ := hf
  rcases h.get_replace hx with hx' | hpc' | ⟨i, hpc'⟩
  · exact ⟨x, name, w, ws, hx', hpc, hw⟩
  all_goals rw [hpc] at hpc'; cases hpc'

namespace Attributed

variable {log' : List WriterCmd} {gone gone' : Prop}

theorem start (served : Served) : Attributed (Shared.start served).serve [] gone where
  res t task p h := by simp [Shared.start] at h
  err t task r h := by simp [Shared.start] at h

theorem aside (h : Attributed v log gone) {cmds : List WriterCmd} (hno : NoFinal cmds)
    (hl : log' = log ∨ log' = log ++ cmds) (hgone : gone → gone')
    (hb : v.Beside v') : Attributed v' log' gone' where
  res t y p hy hmem := by
    obtain ⟨x, hx, hxy, hrep⟩ := hb.tasks.get hy
    rw [hxy.id] at hmem
    rw [hrep]
    refine h.res t x p hx ?_
    rcases hl with rfl | rfl
    · exact hmem
    · rcases List.mem_append.mp hmem with hmem | hmem
      · exact hmem
      · cases hno _ hmem
  err t y r hy hyr := by
    obtain ⟨x, hx, hxy, hrep⟩ := hb.tasks.get hy
    rw [hxy.id, hxy.capability]
    rcases h.err t x r hx (hrep.symm.trans hyr) with h' | h' | h'
    · exact .inl (hb.answersFor h')
    · rcases hl with rfl | rfl
      · exact .inr (.inl h')
      · exact .inr (.inl (List.mem_append_left _ h'))
    · exact .inr (.inr (hgone h'))

theorem serveStep {closed : Bool} {a : ServeAct} (h : Attributed v log gone)
    (ha : Answers v log ids) (hstep : v.step cfg env closed a = some (v', e))
    (hl : log' = log ∧ gone' ∨ log' = log ++ e.cmds) (hgone : gone → gone') :
    Attributed v' log' gone' where
  res t y p hy hmem := by
    replace hmem : resCmd y.id p ∈ log ∨ resCmd y.id p ∈ e.cmds := by
      rcases hl with ⟨rfl, -⟩ | rfl
      · exact .inl hmem
      · exact List.mem_append.mp hmem
    have old {x : Task} (hx : v.tasks.get t = some x) : y.replied = some .task := by
      obtain ⟨y', hy', hk⟩ := Serve.step_forward hstep hx
      obtain rfl := Option.mem_unique hy hy'
      refine hk.replied _ ?_
      rw [hk.id] at hmem
      rcases hmem with hmem | hmem
      · exact h.res t x p hx hmem
      rcases Serve.step_res hstep hmem with ⟨u, task, hu, hid, hholds⟩ | hr
      · obtain rfl := ha.tasks.task_inj u t task x hu hx hid
        obtain rfl := Option.mem_unique hu hx
        exact (ha.tasks.held _ _ hu hholds).1
      · have hreader : ReaderOk v.tasks log ids (.pushing (.res x.id p)) := hr ▸ ha.reader
        cases ((hreader x.id rfl).2.2 t x hx rfl).2
    rcases Serve.step_tasks hstep hy with ⟨x, hx, -⟩ | ⟨r, hr, rfl⟩ | ⟨x, hx, -⟩
    · exact old hx
    · -- a new task has no answer yet
      obtain ⟨-, h0, hnew⟩ : ReaderOk v.tasks log ids (.accepted r) := hr ▸ ha.reader
      rcases hmem with hmem | hmem
      · have hpos : 0 < answers log r.id := List.countP_pos_iff.mpr ⟨_, hmem, decide_eq_true rfl⟩
        omega
      · rcases Serve.step_res hstep hmem with ⟨u, task, hu, hid, -⟩ | hr'
        · exact absurd hid (hnew u task hu)
        · rw [hr] at hr'
          cases hr'
    · exact old hx
  err t y r hy hyr := by
    have old {x : Task} (hx : v.tasks.get t = some x) :
        v'.AnswersFor r t ∨ revokedCmd y.id y.capability ∈ log' ∨ gone' := by
      obtain ⟨y', hy', hk⟩ := Serve.step_forward hstep hx
      obtain rfl := Option.mem_unique hy hy'
      rcases Serve.step_takenBy hstep hx hy hyr with hxr | ⟨-, hnew⟩
      · rw [hk.id, hk.capability]
        rcases h.err t x r hx hxr with hf | hmem | hg
        · rcases Serve.step_answersFor hstep hf with hf' | ⟨z, name, w, ws, hz, hpc, rfl, hcmds⟩
          · exact .inl hf'
          -- the answer goes out just now
          have hvs := (ha.replaces r z hz).victims
          rw [hpc] at hvs
          obtain ⟨hname, task, ht, hid, hcap⟩ := hvs w List.mem_cons_self
          obtain rfl := Option.mem_unique hx ht
          rcases hl with ⟨-, hg⟩ | rfl
          · exact .inr (.inr hg)
          · rw [hcmds, ← hid, encode_revoked, ← hname, ← hcap]
            exact .inr (.inl (List.mem_append_right _ (List.mem_singleton_self _)))
        · rcases hl with ⟨rfl, -⟩ | rfl
          · exact .inr (.inl hmem)
          · exact .inr (.inl (List.mem_append_left _ hmem))
        · exact .inr (.inr (hgone hg))
      · exact .inl hnew
    rcases Serve.step_tasks hstep hy with ⟨x, hx, -⟩ | ⟨r', -, rfl⟩ | ⟨x, hx, -⟩
    · exact old hx
    · cases hyr
    · exact old hx

end Attributed

/-! ### The pass over a call -/

/-- A call waits with its `replace` until its flag is set. -/
theorem Serve.step_waitsWith (h : v.step cfg env closed a = some (v', e)) (hw : v.WaitsWith r t) :
    v'.WaitsWith r t ∨ ∃ y, v'.tasks.get t = some y ∧ y.replied.isSome = true := by
  obtain ⟨x, w, hx, hmem, rfl⟩ := hw
  -- a flag that is swapped is set
  have taken {u : Nat} {task : Task} {p : Party} (ht : v.tasks.get u = some task) :
      ∃ y, (v.tasks.update u (·.takeReply p)).get u = some y ∧ y.replied.isSome = true := by
    refine ⟨_, Arena.get_update_self ht _, ?_⟩
    cases hr : task.replied <;> simp [Task.takeReply, hr]
  rcases step_replace h hx with hx' | hs
  · exact .inl ⟨x, w, hx', hmem, rfl⟩
  cases hs with
  | checked pc hpc | collected _ _ _ hpc | revokedAll hpc | passDone _ hpc =>
    rw [hpc] at hmem
    cases hmem
  | taken name u rest task hpc ht hnone =>
    rw [hpc] at hmem
    rcases List.mem_cons.mp hmem with rfl | hmem
    · exact .inr (taken ht)
    · exact .inl ⟨_, w, Arena.get_update_self hx _, hmem, rfl⟩
  | late name u rest task pc hpc ht hsome hnext =>
    rw [hpc] at hmem
    rcases List.mem_cons.mp hmem with rfl | hmem
    · exact .inr (taken ht)
    · refine .inl ⟨_, w, Arena.get_update_self hx _, ?_, rfl⟩
      rcases hnext with ⟨stream, -, rfl⟩ | ⟨-, rfl⟩ <;> exact hmem
  | answered _ _ _ hpc | pushedErr _ _ _ _ hpc | closedGate _ _ _ _ hpc | aborted _ _ _ hpc =>
    rw [hpc] at hmem
    exact .inl ⟨_, w, Arena.get_update_self hx _, hmem, rfl⟩

/-- The pass of the `replace` `r` sees to the call of the task `t`: its flag is set, or it waits. -/
def Serve.InPass (v : Serve) (r t : Nat) : Prop :=
  ∃ task, v.tasks.get t = some task ∧
    ((task.replied = some .task ∨ task.replied = some .reader ∨
      task.replied = some (.replace r)) ∨
    task.replied = none ∧ v.WaitsWith r t)

namespace Serve.InPass

theorem serveStep {closed : Bool} {a : ServeAct} (h : v.InPass r t) (hh : Holders v)
    (hstep : v.step cfg env closed a = some (v', e)) : v'.InPass r t := by
  obtain ⟨x, hx, hcase⟩ := h
  obtain ⟨y, hy, hk⟩ := Serve.step_forward hstep hx
  refine ⟨y, hy, ?_⟩
  rcases hcase with hset | ⟨hnone, hw⟩
  · exact .inl (hset.imp (hk.replied _) (Or.imp (hk.replied _) (hk.replied _)))
  cases hyr : y.replied with
  | none =>
    rcases Serve.step_waitsWith hstep hw with hw' | ⟨y', hy', hsome⟩
    · exact .inr ⟨rfl, hw'⟩
    · obtain rfl := Option.mem_unique hy hy'
      rw [hyr] at hsome
      cases hsome
  | some p =>
    left
    cases p with
    | task => exact .inl rfl
    | reader => exact .inr (.inl rfl)
    | replace r' =>
      rcases Serve.step_takenBy hstep hx hy hyr with hold | ⟨hw', -⟩
      · rw [hnone] at hold
        cases hold
      · rw [hh.unique r r' t hw hw']
        exact .inr (.inr rfl)

theorem beside (h : v.InPass r t) (hb : v.Beside v') : v'.InPass r t := by
  obtain ⟨x, hx, hcase⟩ := h
  obtain ⟨y, hy, -, hrep⟩ := hb.tasks.get_right hx
  refine ⟨y, hy, ?_⟩
  rw [hrep]
  exact hcase.imp id (And.imp id hb.waitsWith)

theorem of_collected {x : Replace} {task : Task} {name : String} {names : List String}
    {order : List (Nat × InflightCall)} (hx : v.replaces.get r = some x)
    (ht : v.tasks.get t = some task) (hnone : task.replied = none)
    (hreg : v.inflight.get task.id = some ⟨name, t, task.stream⟩) (hcaller : x.caller ≠ some t)
    (hperm : order.Perm (v.victims x.caller name)) :
    Serve.InPass { v with
      inflight := v.inflight.retain fun id call => (id, call) ∉ order
      replaces := v.replaces.update r
        ({ · with revoked := names, pc := .failing name order }) } r t := by
  refine ⟨task, ht, .inr ⟨hnone, _, (task.id, ⟨name, t, task.stream⟩),
    Arena.get_update_self hx _, ?_, rfl⟩⟩
  refine hperm.mem_iff.mpr (List.mem_filter.mpr ⟨(Table.mem_entries_iff _ _ _).mpr hreg, ?_⟩)
  exact decide_eq_true ⟨rfl, hcaller⟩

theorem replied_of_done (h : v.InPass r t) (hdone : v.betweenPasses r = true) {task : Task}
    (ht : v.tasks.get t = some task) :
    task.replied = some .task ∨ task.replied = some .reader ∨ task.replied = some (.replace r) := by
  obtain ⟨task', ht', hset | ⟨-, x, w, hx, hw, -⟩⟩ := h
  · obtain rfl := Option.mem_unique ht ht'
    exact hset
  · obtain ⟨y, hy, hpc⟩ := Serve.exists_of_betweenPasses hdone
    obtain rfl := Option.mem_unique hx hy
    rw [hpc] at hw
    cases hw

end Serve.InPass

/-- When a pass is through, the calls it took the flags of have their error. -/
theorem Attributed.err_of_done {gone : Prop} (h : Attributed v log gone)
    (hdone : v.betweenPasses r = true) (ht : v.tasks.get t = some task)
    (hmine : task.replied = some (.replace r)) :
    revokedCmd task.id task.capability ∈ log ∨ gone := by
  rcases h.err t task r ht hmine with ⟨x, name, w, ws, hx, hpc, -⟩ | h
  · obtain ⟨y, hy, hpc'⟩ := Serve.exists_of_betweenPasses hdone
    obtain rfl := Option.mem_unique hx hy
    rw [hpc] at hpc'
    cases hpc'
  · exact h

theorem Serve.step_settled (ha : Answers v log ids) (h : v.step cfg env closed a = some (v', e))
    {x : Task} (hx : v.tasks.get t = some x) (hy : v'.tasks.get t = some y)
    (hrep : x.replied = some .task) (hdone : x.pc.holdsReply = false) :
    y.pc.holdsReply = false ∧ ∀ p, resCmd x.id p ∉ e.cmds := by
  constructor
  · rcases Serve.step_tasks h hy with ⟨x', hx', -, hs⟩ | ⟨r, hr, rfl⟩ | ⟨x', hx', hxy⟩
    · obtain rfl := Option.mem_unique hx hx'
      obtain ⟨-, -, -, f, hv, hf⟩ := hs.reply
      rw [hv] at hy
      obtain rfl := Option.some.inj ((Arena.get_update_self hx f).symm.trans hy)
      rcases hf with ⟨hq, -⟩ | ⟨hnone, -⟩ | ⟨hholds, -⟩
      · rw [← Bool.not_eq_true] at hdone ⊢
        exact fun hh => hdone (hq.holds hh)
      · rw [hrep] at hnone
        cases hnone
      · rw [hdone] at hholds
        cases hholds
    · rfl
    · obtain rfl := Option.mem_unique hx hx'
      rw [hxy.pc, hdone]
  · intro p hmem
    rcases Serve.step_res h hmem with ⟨u, task, hu, hid, hholds⟩ | hr
    · obtain rfl := ha.tasks.task_inj u t task x hu hx hid
      obtain rfl := Option.mem_unique hu hx
      rw [hdone] at hholds
      cases hholds
    · have hreader : ReaderOk v.tasks log ids (.pushing (.res x.id p)) := hr ▸ ha.reader
      cases ((hreader x.id rfl).2.2 t x hx rfl).2

/-! ### Along a run -/

/-- What the serving half of an end keeps as long as requests are distinct. -/
structure Shared.Revocable (s : Shared) : Prop where
  answers : Answers s.serve s.out.handed s.reqIds
  holders : Holders s.serve
  attributed : Attributed s.serve s.out.handed (s.out.writer.live = false)

section Run

variable {as : List Act} {a : Act} {x : Task}

theorem Shared.nodup_of_run (h : Run (Steps (Shared.step cfg)) s as s') (hnodup : s'.reqIds.Nodup) :
    s.reqIds.Nodup :=
  h.state_invariant (I := fun s' => s'.reqIds.Nodup → s.reqIds.Nodup) id
    (fun _ _ _ ih hstep hn => ih (Shared.nodup_of_step hstep hn)) hnodup

/-- The invariant rule under distinct request ids. -/
theorem Shared.nodup_invariant {I : Shared → Prop} (init : s.reqIds.Nodup → I s)
    (step : ∀ s a s', I s → s.step cfg a = some s' → s'.reqIds.Nodup → I s')
    (h : Run (Steps (Shared.step cfg)) s as s') (hnodup : s'.reqIds.Nodup) : I s' :=
  h.state_invariant (I := fun s' => s'.reqIds.Nodup → I s') init
    (fun s a s' ih hstep hn => step s a s' (ih (Shared.nodup_of_step hstep hn)) hstep hn) hnodup

theorem Shared.hand_gone (s : Shared) (cmds : List WriterCmd) :
    (s.hand cmds).out.handed = s.out.handed ∧ s.out.writer.live = false ∨
      (s.hand cmds).out.handed = s.out.handed ++ cmds := by
  cases h : s.out.writer.live with
  | false => simp [Shared.hand, h]
  | true => exact .inr (Shared.handed_of_live h cmds)

theorem Shared.gone_of_step (h : s.step cfg a = some s') (hg : s.out.writer.live = false) :
    s'.out.writer.live = false := by
  cases hl : s'.out.writer.live with
  | false => rfl
  | true =>
    rw [Shared.live_of_step h hl] at hg
    cases hg

theorem Shared.revocable_step (h : s.Revocable) (hstep : s.step cfg a = some s')
    (hnodup : s'.reqIds.Nodup) : s'.Revocable := by
  have ha' := Shared.answers_step (fun _ => h.answers) hstep hnodup
  have hgone := Shared.gone_of_step hstep
  rcases Shared.step_beside hstep with ⟨b, v, e, -, hserve, rfl⟩ | ⟨hb, cmds, hno, hlog⟩
  · exact ⟨ha', h.holders.serveStep h.answers hserve,
      h.attributed.serveStep h.answers hserve (s.hand_gone e.cmds) hgone⟩
  · exact ⟨ha', h.holders.beside hb, h.attributed.aside hno.noFinal hlog hgone hb⟩

theorem Shared.revocable_of_run {served : Served}
    (h : Run (Steps (Shared.step cfg)) (.start served) as s) (hnodup : s.reqIds.Nodup) :
    s.Revocable :=
  Shared.nodup_invariant
    (fun _ => ⟨Answers.start served, Holders.start served, Attributed.start served⟩)
    (fun _ _ _ => Shared.revocable_step) h hnodup

theorem Shared.step_forward (h : s.step cfg a = some s') {t : Nat}
    (hx : s.serve.tasks.get t = some x) : ∃ y, s'.serve.tasks.get t = some y ∧ x.Keeps y := by
  rcases Shared.step_beside h with ⟨b, v, e, -, hserve, rfl⟩ | ⟨hb, -⟩
  · exact Serve.step_forward hserve hx
  · exact (hb.tasks.mono fun _ _ h => h.1.keeps).get_right hx

theorem Shared.run_forward (h : Run (Steps (Shared.step cfg)) s as s') {t : Nat}
    (hx : s.serve.tasks.get t = some x) : ∃ y, s'.serve.tasks.get t = some y ∧ x.Keeps y := by
  refine h.state_invariant (I := fun s' => ∃ y, s'.serve.tasks.get t = some y ∧ x.Keeps y)
    ⟨x, hx, x.keeps_refl⟩ ?_
  rintro s a s' ⟨y, hy, hxy⟩ hstep
  obtain ⟨z, hz, hyz⟩ := Shared.step_forward hstep hy
  exact ⟨z, hz, hxy.trans hyz⟩

theorem Shared.inPass_of_run {r t : Nat} (hs : s.reqIds.Nodup → s.Revocable)
    (hp : s.serve.InPass r t) (h : Run (Steps (Shared.step cfg)) s as s')
    (hnodup : s'.reqIds.Nodup) : s'.serve.InPass r t := by
  refine (Shared.nodup_invariant (I := fun s => s.Revocable ∧ s.serve.InPass r t)
    (fun hn => ⟨hs hn, hp⟩) (fun s a s' hi hstep hn => ⟨Shared.revocable_step hi.1 hstep hn, ?_⟩)
    h hnodup).2
  obtain ⟨hrev, hp⟩ := hi
  rcases Shared.step_beside hstep with ⟨b, v, e, -, hserve, rfl⟩ | ⟨hb, -⟩
  · exact hp.serveStep hrev.holders hserve
  · exact hp.beside hb

theorem Shared.step_settled (hrev : s.Revocable) (h : s.step cfg a = some s') {t : Nat} {y : Task}
    (hx : s.serve.tasks.get t = some x) (hy : s'.serve.tasks.get t = some y)
    (hrep : x.replied = some .task) (hdone : x.pc.holdsReply = false) :
    y.pc.holdsReply = false ∧
      ∀ p, resCmd x.id p ∈ s'.out.handed → resCmd x.id p ∈ s.out.handed := by
  have hno {log : List WriterCmd} {cmds : List WriterCmd} (hno : ∀ p, resCmd x.id p ∉ cmds)
      (hl : log = s.out.handed ∨ log = s.out.handed ++ cmds) (p : Payload)
      (hmem : resCmd x.id p ∈ log) : resCmd x.id p ∈ s.out.handed := by
    rcases hl with rfl | rfl
    · exact hmem
    · exact (List.mem_append.mp hmem).resolve_right (hno p)
  rcases Shared.step_beside h with ⟨b, v, e, -, hserve, rfl⟩ | ⟨hb, cmds, hnof, hlog⟩
  · obtain ⟨hd, hcmds⟩ := Serve.step_settled hrev.answers hserve hx hy hrep hdone
    exact ⟨hd, hno hcmds (s.hand_cases e.cmds)⟩
  · obtain ⟨x', hx', hxy, -⟩ := hb.tasks.get hy
    obtain rfl := Option.mem_unique hx hx'
    exact ⟨by rw [hxy.pc, hdone], hno (fun p hmem => hnof _ hmem (.res _ _)) hlog⟩

/-- Of a task that has handed over its answer no further `res` follows. -/
theorem Shared.no_new_res {t : Nat} (hs : s.reqIds.Nodup → s.Revocable)
    (hx : s.serve.tasks.get t = some x) (hrep : x.replied = some .task)
    (hdone : x.pc.holdsReply = false) (h : Run (Steps (Shared.step cfg)) s as s')
    (hnodup : s'.reqIds.Nodup) {p : Payload} (hmem : resCmd x.id p ∈ s'.out.handed) :
    resCmd x.id p ∈ s.out.handed := by
  refine (Shared.nodup_invariant (I := fun s' => s'.Revocable ∧
      (∃ y, s'.serve.tasks.get t = some y ∧ x.Keeps y ∧ y.pc.holdsReply = false) ∧
      (resCmd x.id p ∈ s'.out.handed → resCmd x.id p ∈ s.out.handed))
    (fun hn => ⟨hs hn, ⟨x, hx, x.keeps_refl, hdone⟩, id⟩) ?_ h hnodup).2.2 hmem
  rintro u a u' ⟨hrev, ⟨y, hy, hxy, hd⟩, hlog⟩ hstep hn
  obtain ⟨z, hz, hyz⟩ := Shared.step_forward hstep hy
  obtain ⟨hd', hlog'⟩ := Shared.step_settled hrev hstep hy hz (hxy.replied _ hrep) hd
  rw [hxy.id] at hlog'
  exact ⟨Shared.revocable_step hrev hstep hn, ⟨z, hz, hxy.trans hyz, hd'⟩,
    fun hmem => hlog (hlog' p hmem)⟩

end Run

/-! ### Calls accepted later -/

/-- The reader has looked up the capability `name` and not spawned the task. -/
def ReaderPc.looksUp (pc : ReaderPc) (name : String) : Bool :=
  match pc with
  | .accepted r => r.capability = name
  | _ => false

theorem Serve.step_looksUp (h : v.step cfg env closed a = some (v', e))
    (hl : v'.reader.looksUp name = true) : v.reader.looksUp name = true := by
  rcases step_cases h with ⟨u, task, hu, -, hs⟩ | ⟨k, z, -, hs⟩ | ⟨-, hs⟩ |
    ⟨caller, capabilities, built, -, -, -, rfl⟩ | ⟨k, z, -, hz, hs⟩
  · rwa [hs.reply.1] at hl
  · rwa [hs.reply.2.1] at hl
  · cases hs with
    | cancelLate id call task pc hr ht hsome hnext =>
      rcases hnext with ⟨stream, -, rfl⟩ | ⟨-, rfl⟩ <;> cases hl
    | _ => cases hl
  · exact hl
  · cases hs <;> exact hl

theorem Serve.handle_looksUp (hl : (v.handle cfg f).reader.looksUp name = true) :
    v.reader.looksUp name = true ∨ (v.served.byName.get name).isSome = true := by
  unfold Serve.handle at hl
  split at hl
  · right
    unfold Serve.handleRequest at hl
    split_ifs at hl
    · cases hl
    split at hl
    · cases hl
    split at hl
    · cases hl
    · rename_i n tool _ _ target hget
      obtain rfl : n = name := of_decide_eq_true hl
      rw [hget]
      rfl
  · unfold Serve.handleCancel at hl
    split at hl
    · cases hl
    · exact .inl hl
  all_goals exact .inl hl

/-- If no request for `name` is looked up at first, a new task for it came in while `name` was
served. -/
theorem Shared.served_of_newTask {as : List Act} (hl : s.serve.reader.looksUp name = false)
    (h : Run (Steps (Shared.step cfg)) s as s') (ht : s'.serve.tasks.get t = some task)
    (hcap : task.capability = name) (hnew : s.serve.tasks.get t = none) :
    ∃ bs u, bs <+: as ∧ Run (Steps (Shared.step cfg)) s bs u ∧
      (u.serve.served.byName.get name).isSome = true := by
  have hinv := h.invariant (I := fun as s' =>
    (s'.serve.reader.looksUp name = false ∧ ∀ t task, s'.serve.tasks.get t = some task →
      task.capability = name → ∃ x, s.serve.tasks.get t = some x) ∨
    ∃ bs u, bs <+: as ∧ Run (Steps (Shared.step cfg)) s bs u ∧
      (u.serve.served.byName.get name).isSome = true)
    (.inl ⟨hl, fun t task ht _ => ⟨task, ht⟩⟩) ?_
  · rcases hinv with ⟨-, hold⟩ | hserved
    · obtain ⟨x, hx⟩ := hold t task ht hcap
      rw [hnew] at hx
      cases hx
    · exact hserved
  · rintro as u a u' hrun (⟨hl, hold⟩ | ⟨bs, w, hpre, hw⟩) hstep
    · -- a task that was there keeps its capability
      have keep {t : Nat} {x y : Task} (hx : u.serve.tasks.get t = some x)
          (hid : y.capability = x.capability) (hy : y.capability = name) :
          ∃ x, s.serve.tasks.get t = some x := hold t x hx (hid ▸ hy)
      rcases Shared.step_sides hstep with ⟨b, v, e, -, hserve, rfl⟩ | ⟨f, -, rfl⟩ | ⟨hout, -⟩
      · refine .inl ⟨?_, fun t y hy hcap => ?_⟩
        · rw [← Bool.not_eq_true] at hl ⊢
          exact fun h => hl (Serve.step_looksUp hserve h)
        rcases Serve.step_tasks hserve hy with ⟨x, hx, -⟩ | ⟨r, hr, rfl⟩ | ⟨x, hx, hxy⟩
        · obtain ⟨y', hy', hk⟩ := Serve.step_forward hserve hx
          obtain rfl := Option.mem_unique hy hy'
          exact keep hx hk.capability hcap
        · rw [hr, ReaderPc.looksUp] at hl
          exact absurd hcap (of_decide_eq_false hl)
        · exact keep hx hxy.capability hcap
      · rcases hl' : (u.receive cfg f).serve.reader.looksUp name with _ | _
        · refine .inl ⟨rfl, fun t y hy hcap => ?_⟩
          obtain ⟨x, hx, hxy, -⟩ := (u.serve.handle_beside cfg f).tasks.get hy
          exact keep hx hxy.capability hcap
        have hl₂ : (u.serve.handle cfg f).reader.looksUp name = true := hl'
        rcases Serve.handle_looksUp hl₂ with h | h
        · rw [h] at hl
          cases hl
        · exact .inr ⟨as, u, List.prefix_append .., hrun, h⟩
      · refine .inl ⟨by rwa [hout.reader_eq], fun t y hy hcap => ?_⟩
        obtain ⟨x, hx, hxy, -⟩ := hout.beside.tasks.get hy
        exact keep hx hxy.capability hcap
    · exact .inr ⟨bs, w, hpre.trans (List.prefix_append ..), hw⟩

/-! ### Revocation -/

/-- Where a pass over `name` misses no call: the reader is not about to spawn one, and every call on
`name` not replied to is registered, but for the caller's own. -/
def Serve.registered (v : Serve) (caller : Option Nat) (name : String) : Bool :=
  !v.reader.looksUp name && (List.range v.tasks.size).all fun t => (v.tasks.get t).all fun task =>
    task.capability ≠ name || caller = some t || task.replied.isSome ||
      v.inflight.get task.id = some ⟨name, t, task.stream⟩

theorem Serve.inflight_of_registered (h : v.registered caller name = true)
    (ht : v.tasks.get t = some task) (hcap : task.capability = name) (hcaller : caller ≠ some t)
    (hnone : task.replied = none) : v.inflight.get task.id = some ⟨name, t, task.stream⟩ := by
  have hall := List.all_eq_true.mp (Bool.and_eq_true_iff.mp h).2 t
    (List.mem_range.mpr (Arena.lt_size_of_get ht))
  simpa [ht, hcap, hcaller, hnone] using hall

theorem Shared.step_collect {names : List String} {order : List (Nat × InflightCall)}
    (hx : s.serve.replaces.get r = some x) (hname : x.revoked = name :: names)
    (h : s.step cfg (.serve (.collect r order)) = some s') :
    order.Perm (s.serve.victims x.caller name) ∧
      s'.serve = { s.serve with
        inflight := s.serve.inflight.retain fun id call => (id, call) ∉ order
        replaces := s.serve.replaces.update r
          ({ · with revoked := names, pc := .failing name order }) } := by
  simp only [Shared.step, Serve.step, hx, Serve.collect, hname] at h
  split at h <;> cases h
  rename_i heq
  split at heq
  · rename_i hpc hrev
    cases hrev
    split_ifs at heq with hp
    cases heq
    exact ⟨List.isPerm_iff.mp hp, rfl⟩
  · cases heq

/-- **Revocation is effective where every call is registered in time.**  A pass of the `replace` `r`
over `name` collects in `s₀`, where every call on `name` that has not been replied to is registered,
and is through in `s₂`.  Then every call on `name` that was accepted, but for the caller's own, has
been replied to; a `res` of it handed over later is the handler's, who had set the flag; and if it
had not been replied to, it was since by its handler or by a cancel, or the error of the revocation
was handed over, unless the writer is gone.  A call accepted later was looked up in a set that
serves `name` again. -/
theorem revocation_effective {cfg : Config} {served : Served} {as bs cs : List Act}
    {s₀ s₁ s₂ s₃ : Shared} {r : Nat} {x : Replace} {name : String} {names : List String}
    {order : List (Nat × InflightCall)}
    (h₀ : Run (Steps (Shared.step cfg)) (.start served) as s₀)
    (hx : s₀.serve.replaces.get r = some x) (hname : x.revoked = name :: names)
    (hreg : s₀.serve.registered x.caller name = true)
    (hcollect : s₀.step cfg (.serve (.collect r order)) = some s₁)
    (h₁ : Run (Steps (Shared.step cfg)) s₁ bs s₂)
    (hdone : s₂.serve.betweenPasses r = true)
    (h₂ : Run (Steps (Shared.step cfg)) s₂ cs s₃) (hfresh : s₃.reqIds.Nodup) :
    (∀ t task₀, s₀.serve.tasks.get t = some task₀ → task₀.capability = name →
      x.caller ≠ some t → ∃ task, s₂.serve.tasks.get t = some task ∧ task₀.Keeps task ∧
        task.replied ≠ none ∧
        (∀ p, resCmd task.id p ∈ s₃.out.handed → task.replied = some .task ∧
          (resCmd task.id p ∈ s₂.out.handed ∨ task.pc.holdsReply = true)) ∧
        (task₀.replied = none → task.replied = some .task ∨ task.replied = some .reader ∨
          revokedCmd task.id name ∈ s₂.out.handed ∨ s₂.out.writer.live = false)) ∧
    ∀ t task, s₃.serve.tasks.get t = some task → task.capability = name →
      s₀.serve.tasks.get t = none → ∃ ds u, ds <+: bs ++ cs ∧
        Run (Steps (Shared.step cfg)) s₁ ds u ∧
        (u.serve.served.byName.get name).isSome = true := by
  have hn₂ : s₂.reqIds.Nodup := Shared.nodup_of_run h₂ hfresh
  have hrun₁ := h₀.snoc hcollect
  have hrev₁ : s₁.reqIds.Nodup → s₁.Revocable := Shared.revocable_of_run hrun₁
  have hrev₂ : s₂.Revocable := Shared.revocable_of_run (hrun₁.append h₁) hn₂
  have hrev₃ : s₃.Revocable := Shared.revocable_of_run ((hrun₁.append h₁).append h₂) hfresh
  obtain ⟨hperm, hs₁⟩ := Shared.step_collect hx hname hcollect
  refine ⟨fun t task₀ ht₀ hcap hcaller => ?_, fun t task ht hcap hnew => ?_⟩
  · obtain ⟨task, ht, hk⟩ := Shared.run_forward (Run.cons hcollect h₁) ht₀
    obtain ⟨task₃, ht₃, hk₃⟩ := Shared.run_forward h₂ ht
    -- the pass has seen to a call that had not been replied to
    have hflag (hnone : task₀.replied = none) : task.replied = some .task ∨
        task.replied = some .reader ∨ task.replied = some (.replace r) := by
      have hin := Serve.inflight_of_registered hreg ht₀ hcap hcaller hnone
      have hpass : s₁.serve.InPass r t := by
        rw [hs₁]
        exact Serve.InPass.of_collected hx ht₀ hnone hin hcaller hperm
      exact (Shared.inPass_of_run hrev₁ hpass h₁ hn₂).replied_of_done hdone ht
    have hsome : task.replied ≠ none := by
      cases hr : task₀.replied with
      | some q => simp [hk.replied q hr]
      | none => rcases hflag hr with h | h | h <;> simp [h]
    -- a `res` in the end is the task's own
    have hres (p : Payload) (hmem : resCmd task.id p ∈ s₃.out.handed) :
        task.replied = some .task := by
      obtain ⟨q, hq⟩ := Option.ne_none_iff_exists'.mp hsome
      have htask := hrev₃.attributed.res t task₃ p ht₃ (by rwa [hk₃.id])
      rw [hk₃.replied q hq] at htask
      rw [hq, htask]
    refine ⟨task, ht, hk, hsome, fun p hmem => ⟨hres p hmem, ?_⟩, fun hnone => ?_⟩
    · cases hd : task.pc.holdsReply with
      | true => exact .inr rfl
      | false =>
        left
        exact Shared.no_new_res (fun _ => hrev₂) ht (hres p hmem) hd h₂ hfresh hmem
    · refine (hflag hnone).imp id (Or.imp id fun hmine => ?_)
      have herr := hrev₂.attributed.err_of_done hdone ht hmine
      rwa [hk.capability, hcap] at herr
  · have hl₁ : s₁.serve.reader.looksUp name = false := by
      rw [hs₁]
      simpa using (Bool.and_eq_true_iff.mp hreg).1
    refine Shared.served_of_newTask hl₁ (h₁.append h₂) ht hcap ?_
    rw [hs₁]
    exact hnew

/-- A call on `fs` is registered and then a `replace` drops the name. -/
def dropRegistered : List Act :=
  [.serve (.replace none [.bare 0 "fs"]),
    .receive (.control (.req 7 "fs.read" .nil none .nil)), .serve .readerRun, .serve .readerRun,
    .serve (.replace none []), .serve (.replaceRun 1)]

/-- The pass over the one call, until it is through. -/
def failOne : List Act := List.replicate 4 (.serve (.replaceRun 1))

theorem revocation_effective_dropRegistered :
    ∃ s₀ s₁ s₂ task, Run (Steps (Shared.step (.bare .acceptor .msgpack))) (.start .default)
        dropRegistered s₀ ∧
      s₀.step (.bare .acceptor .msgpack) (.serve (.collect 1 [(7, ⟨"fs", 0, none⟩)])) = some s₁ ∧
      Run (Steps (Shared.step (.bare .acceptor .msgpack))) s₁ failOne s₂ ∧
      s₂.serve.tasks.get 0 = some task ∧ task.replied ≠ none ∧
      ∀ p, resCmd task.id p ∈ s₂.out.handed → task.replied = some .task := by
  let step := Shared.step (.bare .acceptor .msgpack)
  obtain ⟨s₀, h₀, hx, ht, hreg, hrest⟩ := exists_run_of_exec step (.start .default) dropRegistered
    (fun s₀ => ((s₀.serve.replaces.get 1).any fun x => x.revoked = ["fs"] ∧ x.caller = none) ∧
      ((s₀.serve.tasks.get 0).any fun task => task.capability = "fs") ∧
      s₀.serve.registered none "fs" ∧
      (exec step s₀ (.serve (.collect 1 [(7, ⟨"fs", 0, none⟩)]) :: failOne)).any fun s₂ =>
        s₂.serve.betweenPasses 1 ∧ s₂.reqIds.Nodup) rfl
  obtain ⟨x, hx, hx'⟩ := (Option.any_eq_true _ _).mp hx
  obtain ⟨hname, hcaller⟩ := of_decide_eq_true hx'
  obtain ⟨task₀, ht, hcap⟩ := (Option.any_eq_true _ _).mp ht
  obtain ⟨s₂, hexec, hs₂⟩ := (Option.any_eq_true _ _).mp hrest
  obtain ⟨hdone, hfresh⟩ := of_decide_eq_true hs₂
  obtain ⟨s₁, hcollect, h₁⟩ := Option.bind_eq_some_iff.mp hexec
  obtain ⟨task, ht₂, -, hsome, hres, -⟩ := (revocation_effective h₀ hx hname (by rwa [hcaller])
    hcollect (run_of_exec h₁) hdone .nil hfresh).1 0 task₀ ht (of_decide_eq_true hcap)
    (by simp [hcaller])
  exact ⟨s₀, s₁, s₂, task, h₀, hcollect, run_of_exec h₁, ht₂, hsome, fun p hp => (hres p hp).1⟩

/-- A call is looked up before the swap and registered after the pass: the pass finds nothing to
collect, and once it is through the handler answers. -/
def lookedUpBeforeSwap : List Act :=
  [.serve (.replace none [.bare 0 "fs"]), .receive (.control (.req 7 "fs.read" .nil none .nil)),
    .serve (.replace none []), .serve (.replaceRun 1), .serve (.collect 1 []),
    .serve (.replaceRun 1)]

/-- The handler's task from its spawn to its answer, with the registration in between. -/
def spawnAndAnswer : List Act :=
  [.serve .readerRun, .serve .readerRun, .serve (.dispatched 0 (.response .nil)),
    .serve (.run 0), .serve (.run 0), .serve (.run 0), .serve (.run 0)]

/-- The pass is through, the call accepted and not replied to; then a `res` of it is handed over. -/
theorem res_after_revoke_pass :
    ∃ s₂ s₃, Run (Steps (Shared.step (.bare .acceptor .msgpack))) (.start .default)
        lookedUpBeforeSwap s₂ ∧
      s₂.serve.betweenPasses 1 = true ∧ (s₂.serve.served.byName.get "fs").isNone = true ∧
      s₂.serve.reader.looksUp "fs" = true ∧ answers s₂.out.handed 7 = 0 ∧
      Run (Steps (Shared.step (.bare .acceptor .msgpack))) s₂ spawnAndAnswer s₃ ∧
      ∃ p, resCmd 7 p ∈ s₃.out.handed := by
  let step := Shared.step (.bare .acceptor .msgpack)
  obtain ⟨s₂, h₂, hdone, hdropped, hl, h0, hrest⟩ := exists_run_of_exec step (.start .default)
    lookedUpBeforeSwap
    (fun s₂ => s₂.serve.betweenPasses 1 = true ∧
      (s₂.serve.served.byName.get "fs").isNone = true ∧ s₂.serve.reader.looksUp "fs" = true ∧
      answers s₂.out.handed 7 = 0 ∧
      (exec step s₂ spawnAndAnswer).any fun s₃ => s₃.out.handed.any (·.isRes 7)) rfl
  obtain ⟨s₃, h₃, hmem⟩ := (Option.any_eq_true _ _).mp hrest
  obtain ⟨c, hc, hres⟩ := List.any_eq_true.mp hmem
  obtain ⟨p, rfl⟩ := WriterCmd.eq_resCmd_of_isRes hres
  exact ⟨s₂, s₃, h₂, hdone, hdropped, hl, h0, run_of_exec h₃, p, hc⟩

end Zyris.Core
