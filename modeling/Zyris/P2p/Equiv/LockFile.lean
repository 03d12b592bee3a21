import Zyris.P2p.Equiv.Tofu
import Zyris.P2p.LockFile

/-!
# Pins and the lock file

A call renames its ledger over the file only after it has found its own nonce in the lock file.  As
long as no lock file is removed between the two, the lock file is still its own at the `rename`
(`WriterSound.publishing`), and nobody else has written since it read (`WriterSound.planned`).  A
call that is slow between them may replace a ledger it has never seen (`pin_lost_to_slow_writer`).
-/

namespace Zyris.P2p

variable {keys : Keys} {path : String}

/-- The ledger a call is on its way to publish. -/
def WriterPc.planned : WriterPc → Option (Ledger × Outcome)
  | .creatingTemp ledger outcome => some (ledger, outcome)
  | .verifying ledger outcome => some (ledger, outcome)
  | .publishing ledger outcome => some (ledger, outcome)
  | _ => none

/-- The result of a call that is done with the ledger. -/
def WriterPc.result : WriterPc → Option (Except TofuError Outcome)
  | .dropping result => some result
  | .unlocking result => some result
  | .returned result => some result
  | _ => none

/-- Between the look at the nonce and the `rename`. -/
def WriterPc.isPublishing : WriterPc → Bool
  | .publishing _ _ => true
  | _ => false

/-- Before a `remove_file` of the lock file. -/
def WriterPc.isRemoving : WriterPc → Bool
  | .breaking => true
  | .unlocking _ => true
  | _ => false

namespace Disk

variable {s s' : Disk}

/-- The call that created the lock file. -/
def owner (s : Disk) : Option Nat := s.lock.bind (·.owner)

theorem owner_of_holdsNonce {i : Nat} (h : s.holdsNonce i = true) : s.owner = some i := by
  unfold holdsNonce at h
  cases hlock : s.lock with
  | none =>
    rw [hlock] at h
    cases h
  | some l =>
    simp only [hlock, Option.any_some, Bool.and_eq_true, decide_eq_true_eq] at h
    rw [owner, hlock]
    exact h.1

/-- Everything a file operation of call `i` can do. -/
inductive Effect (keys : Keys) (path : String) (s : Disk) (i : Nat) (w : Writer) :
    WriterAct → Disk → Prop
  -- it waits for the lock, starts to read or gives up
  | moves (a : WriterAct) (pc : WriterPc) : pc.planned = none →
    (∀ outcome, pc.result ≠ some (.ok outcome)) → Effect keys path s i w a (s.goto i pc)
  | locks : s.lock = none →
    Effect keys path s i w .ok { s.goto i .writingNonce with lock := some ⟨some i, false, s.now⟩ }
  | writesNonce : s.owner = some i →
    Effect keys path s i w .ok { s.goto i .reading with lock := some ⟨some i, true, s.now⟩ }
  | breaks : w.pc = .breaking →
    Effect keys path s i w .ok { s.goto i .acquiring with lock := none }
  | plans (order : WalkOrder) (ledger ledger' : Ledger) (outcome : Outcome) :
    keys.read path order s.file = .ok ledger → w.op.plan s.now ledger = .write ledger' outcome →
    Effect keys path s i w (.read order) (s.goto i (.creatingTemp ledger' outcome))
  | settles (order : WalkOrder) (ledger : Ledger) (result : Except TofuError Outcome) :
    keys.read path order s.file = .ok ledger → w.op.plan s.now ledger = .done result →
    Effect keys path s i w (.read order) (s.goto i (.dropping result))
  | writesTemp (ledger : Ledger) (outcome : Outcome) : w.pc = .creatingTemp ledger outcome →
    Effect keys path s i w .ok (s.goto i (.verifying ledger outcome))
  | verifies (ledger : Ledger) (outcome : Outcome) : w.pc = .verifying ledger outcome →
    s.holdsNonce i = true → Effect keys path s i w .ok (s.goto i (.publishing ledger outcome))
  | publishes (ledger : Ledger) (outcome : Outcome) : w.pc = .publishing ledger outcome →
    Effect keys path s i w .ok
      { s.goto i (.dropping (.ok outcome)) with file := some (.ledger ledger) }
  -- the result stays what it is
  | finishes (a : WriterAct) (pc : WriterPc) (result : Except TofuError Outcome) :
    w.pc.result = some result → pc.result = some result → Effect keys path s i w a (s.goto i pc)
  | unlocks (result : Except TofuError Outcome) : w.pc = .unlocking result →
    Effect keys path s i w .ok { s.goto i (.returned result) with lock := none }

variable {i : Nat} {w : Writer} {a : WriterAct} {pc : WriterPc} {op : Op} {ledger' : Ledger}
  {outcome : Outcome} {l : DiskAct} {slug : String} {entry : LedgerEntry}

theorem effect_of_acquire (h : s.acquire path i w.pc a = some s') :
    Effect keys path s i w a s' := by
  unfold acquire at h
  split at h
  · split at h <;> cases h
    · next hlock => exact .locks hlock
    · exact .moves _ _ rfl (by simp [WriterPc.result])
  · split at h <;> cases h
    exact .moves _ _ rfl (by simp [WriterPc.result])
  · cases h
    exact .moves _ _ rfl (by simp [WriterPc.result])
  · split at h
    · next l hlock =>
      split_ifs at h with howner <;> cases h
      · refine .writesNonce ?_
        rw [owner, hlock]
        exact howner
      · exact .moves _ _ rfl (by simp [WriterPc.result])
    · cases h
      exact .moves _ _ rfl (by simp [WriterPc.result])
  · cases h
    exact .moves _ _ rfl (by simp [WriterPc.result])
  · split at h
    · split_ifs at h <;> cases h <;> exact .moves _ _ rfl (by simp [WriterPc.result])
    · cases h
      exact .moves _ _ rfl (by simp [WriterPc.result])
  · cases h
    exact .moves _ _ rfl (by simp [WriterPc.result])
  · next hpc =>
    cases h
    exact .breaks hpc
  · cases h
    exact .moves _ _ rfl (by simp [WriterPc.result])
  · cases h

theorem effect_of_readDone (order : WalkOrder) :
    Effect keys path s i w (.read order) (s.readDone keys path order i w.op) := by
  unfold readDone
  split
  · exact .moves _ _ rfl (by simp [WriterPc.result])
  · next ledger hread =>
    split
    · next result hplan => exact .settles order ledger result hread hplan
    · next ledger' outcome hplan => exact .plans order ledger ledger' outcome hread hplan

theorem act_cases (h : s.act keys path i w a = some s') : Effect keys path s i w a s' := by
  have hfails (e : TofuError) : Effect keys path s i w a (s.goto i (.dropping (.error e))) :=
    .moves a _ rfl (by simp [WriterPc.result])
  obtain ⟨op, pc⟩ := w
  cases pc with
  | ensuringParentDir =>
    cases a <;> cases h <;> exact .moves _ _ rfl (by simp [WriterPc.result])
  | reading =>
    cases a <;> cases h
    · exact effect_of_readDone _
    · exact hfails _
  | creatingTemp ledger outcome =>
    cases a <;> cases h
    · exact .writesTemp ledger outcome rfl
    · exact hfails _
  | verifying ledger outcome =>
    cases a with
    | ok =>
      simp only [act] at h
      split_ifs at h with hnonce <;> cases h
      · exact .verifies ledger outcome rfl hnonce
      · exact hfails _
    | fail e =>
      cases h
      exact hfails _
    | read order | timeout => cases h
  | publishing ledger outcome =>
    cases a <;> cases h
    · exact .publishes ledger outcome rfl
    · exact hfails _
  | dropping result =>
    cases a with
    | ok =>
      simp only [act] at h
      split_ifs at h <;> cases h <;> exact .finishes _ _ result rfl rfl
    | fail e =>
      cases h
      exact .finishes _ _ result rfl rfl
    | read order | timeout => cases h
  | unlocking result =>
    cases a <;> cases h
    · exact .unlocks result rfl
    · exact .finishes _ _ result rfl rfl
  | _ => exact effect_of_acquire (w := ⟨op, _⟩) h

/-- A file operation moves the call that does it, and no other. -/
theorem writers_of_act (h : s.act keys path i w a = some s') :
    ∃ pc, s'.writers = (s.goto i pc).writers := by
  cases act_cases h <;> exact ⟨_, rfl⟩

/-! ### The lock is still one's own -/

/-- What holds of a call in every state. -/
structure WriterSound (keys : Keys) (path : String) (s : Disk) (i : Nat) (w : Writer) : Prop where
  publishing : w.pc.isPublishing = true → s.owner = some i
  planned : ∀ v, w.pc.planned = some v → s.owner = some i → ∃ ledger nowMs,
    keys.read path .stored s.file = .ok ledger ∧ w.op.plan nowMs ledger = .write v.1 v.2
  canonical : ∀ slug key, w.op = .pin slug key →
    keys.canonicalEndpointId key = .ok key ∨ ∃ e, w.pc = .returned (.error e)

def Sound (keys : Keys) (path : String) (s : Disk) : Prop :=
  ∀ i w, s.writers.get i = some w → WriterSound keys path s i w

/-- No lock file is removed while its creator is between its look at the nonce and its `rename`. -/
def SparesPublishing (s : Disk) (l : DiskAct) : Prop :=
  ∀ i w owner v, l = .act i .ok → s.writers.get i = some w → w.pc.isRemoving = true →
    s.owner = some owner → s.writers.get owner = some v → v.pc.isPublishing = false

theorem isPublishing_eq_false (h : pc.planned = none) : pc.isPublishing = false := by
  cases pc <;> first | rfl | cases h

theorem planned_eq_none {result : Except TofuError Outcome} (h : pc.result = some result) :
    pc.planned = none := by
  cases pc <;> first | rfl | cases h

theorem writerSound_of_planned_eq_none (hpc : w.pc.planned = none)
    (hcanonical : ∀ slug key, w.op = .pin slug key → keys.canonicalEndpointId key = .ok key ∨
      ∃ e, w.pc = .returned (.error e)) :
    WriterSound keys path s i w := by
  refine ⟨fun h => ?_, fun v hv => ?_, hcanonical⟩
  · cases (isPublishing_eq_false hpc).symm.trans h
  · cases hpc.symm.trans hv

/-- What another call does: the lock of a publishing call stays, and a call that has the lock
afterwards had it before, over the same ledger. -/
def Leaves (s s' : Disk) (j : Nat) (v : Writer) : Prop :=
  (v.pc.isPublishing = true → s.owner = some j → s'.owner = some j) ∧
    (s'.owner = some j → s.owner = some j ∧ s'.file = s.file)

theorem leaves_of_eq {j : Nat} {v : Writer} (hlock : s'.lock = s.lock) (hfile : s'.file = s.file) :
    Leaves s s' j v := by
  have howner : s'.owner = s.owner := by rw [owner, owner, hlock]
  rw [Leaves, howner]
  exact ⟨fun _ h => h, fun h => ⟨h, hfile⟩⟩

theorem WriterSound.leaves (h : WriterSound keys path s i w) (hleaves : Leaves s s' i w) :
    WriterSound keys path s' i w := by
  refine ⟨fun hpc => hleaves.1 hpc (h.publishing hpc), fun v hv howner => ?_, h.canonical⟩
  obtain ⟨howner, hfile⟩ := hleaves.2 howner
  rw [hfile]
  exact h.planned v hv howner

theorem Sound.goto (hI : Sound keys path s) (hw : s.writers.get i = some w)
    (hwriters : s'.writers = (s.goto i pc).writers)
    (hself : WriterSound keys path s' i { w with pc := pc })
    (hother : ∀ j v, j ≠ i → s.writers.get j = some v → Leaves s s' j v) :
    Sound keys path s' := by
  intro j v hv
  rw [hwriters] at hv
  rcases Arena.get_update_known hw hv with ⟨rfl, rfl⟩ | ⟨hne, hv⟩
  · exact hself
  · exact (hI j v hv).leaves (hother j v hne hv)

/-- A removed lock file was nobody's that is about to publish. -/
theorem leaves_of_removes (hok : s.SparesPublishing (.act i .ok)) (hw : s.writers.get i = some w)
    (hpc : w.pc.isRemoving = true) (hlock : s'.lock = none) {j : Nat} {v : Writer}
    (hv : s.writers.get j = some v) : Leaves s s' j v := by
  have howner : s'.owner = none := by rw [owner, hlock]; rfl
  refine ⟨fun hpub hj => ?_, fun hj => ?_⟩
  · cases (hok i w j v rfl hw hpc hj hv).symm.trans hpub
  · cases howner.symm.trans hj

theorem read_of_plan {file : Option LedgerFile} {ledger : Ledger} {nowMs : Nat} {order : WalkOrder}
    (hread : keys.read path order file = .ok ledger)
    (hplan : op.plan nowMs ledger = .write ledger' outcome)
    (hkey : ∀ slug key, op = .pin slug key → keys.canonicalEndpointId key = .ok key) :
    keys.read path order (some (.ledger ledger')) = .ok ledger' := by
  refine Keys.read_of_isCanonical ?_
  rcases Op.of_plan_write hplan with ⟨slug, key, rfl, _, _, rfl⟩ | ⟨slug, rfl, _, rfl⟩
  · exact Keys.isCanonical_insert (Keys.isCanonical_of_read hread) (hkey slug key rfl)
  · exact Keys.isCanonical_remove (Keys.isCanonical_of_read hread)

theorem not_returned_of_act (h : s.act keys path i w a = some s')
    (result : Except TofuError Outcome) : w.pc ≠ .returned result := by
  intro hpc
  obtain ⟨op, pc⟩ := w
  subst hpc
  cases a <;> cases h

theorem WriterSound.canonical_of_act (hsound : WriterSound keys path s i w)
    (h : s.act keys path i w a = some s') {slug key : String} (hop : w.op = .pin slug key) :
    keys.canonicalEndpointId key = .ok key := by
  rcases hsound.canonical slug key hop with hkey | ⟨e, hpc⟩
  · exact hkey
  · exact absurd hpc (not_returned_of_act h _)

theorem Sound.act (hI : Sound keys path s) (hw : s.writers.get i = some w)
    (h : s.act keys path i w a = some s') (hok : s.SparesPublishing (.act i a)) :
    Sound keys path s' := by
  have hsound := hI i w hw
  have hcanonical (pc : WriterPc) (slug key : String) (hop : w.op = .pin slug key) :
      keys.canonicalEndpointId key = .ok key ∨ ∃ e, pc = .returned (.error e) :=
    .inl (hsound.canonical_of_act h hop)
  have hidle {pc : WriterPc} (hpc : pc.planned = none) :
      WriterSound keys path s' i { w with pc := pc } :=
    writerSound_of_planned_eq_none hpc (hcanonical pc)
  cases act_cases h with
  | moves _ pc hpc => exact hI.goto hw rfl (hidle hpc) fun _ _ _ _ => leaves_of_eq rfl rfl
  | locks hlock =>
    refine hI.goto hw rfl (hidle rfl) fun j v hne hv => ⟨fun _ hj => ?_, fun hj => ?_⟩
    · rw [owner, hlock] at hj
      cases hj
    · exact absurd (Option.some.inj hj).symm hne
  | writesNonce howner =>
    refine hI.goto hw rfl (hidle rfl) fun j v hne hv => ⟨fun _ hj => ?_, fun hj => ?_⟩
    · cases howner.symm.trans hj
      rfl
    · exact absurd (Option.some.inj hj).symm hne
  | breaks hpc =>
    refine hI.goto hw rfl (hidle rfl) fun j v _ hv => ?_
    exact leaves_of_removes hok hw (by rw [hpc]; rfl) rfl hv
  | plans order ledger ledger' outcome hread hplan =>
    refine hI.goto hw rfl ⟨nofun, fun v hv _ => ?_, hcanonical _⟩
      fun _ _ _ _ => leaves_of_eq rfl rfl
    cases hv
    exact ⟨ledger, s.now, Keys.read_of_order hread .stored, hplan⟩
  | settles order ledger result hread hplan =>
    exact hI.goto hw rfl (hidle rfl) fun _ _ _ _ => leaves_of_eq rfl rfl
  | writesTemp ledger outcome hpc =>
    refine hI.goto hw rfl ⟨nofun, fun v hv howner => ?_, hcanonical _⟩
      fun _ _ _ _ => leaves_of_eq rfl rfl
    exact hsound.planned v (by rw [hpc]; exact hv) howner
  | verifies ledger outcome hpc hnonce =>
    -- the nonce is what tells a call that the lock file is its own
    refine hI.goto hw rfl ⟨fun _ => owner_of_holdsNonce hnonce, fun v hv howner => ?_,
      hcanonical _⟩ fun _ _ _ _ => leaves_of_eq rfl rfl
    exact hsound.planned v (by rw [hpc]; exact hv) howner
  | publishes ledger outcome hpc =>
    have howner : s.owner = some i := hsound.publishing (by rw [hpc]; rfl)
    refine hI.goto hw rfl (hidle rfl) fun j v hne _ => ⟨fun _ hj => hj, fun hj => ?_⟩
    exact absurd (Option.some.inj (hj.symm.trans howner)) hne
  | finishes _ pc result _ hpc =>
    exact hI.goto hw rfl (hidle (planned_eq_none hpc)) fun _ _ _ _ => leaves_of_eq rfl rfl
  | unlocks result hpc =>
    refine hI.goto hw rfl (hidle rfl) fun j v _ hv => ?_
    exact leaves_of_removes hok hw (by rw [hpc]; rfl) rfl hv

theorem Sound.call (hI : Sound keys path s) (hpc : pc.planned = none)
    (hcanonical : ∀ slug key, op = .pin slug key → keys.canonicalEndpointId key = .ok key ∨
      ∃ e, pc = .returned (.error e)) :
    Sound keys path (s.call op pc) :=
  Arena.forall_alloc (fun i w hw => (hI i w hw).leaves (leaves_of_eq rfl rfl))
    (writerSound_of_planned_eq_none hpc hcanonical)

theorem Sound.step (hI : Sound keys path s) (h : step keys path s l = some s')
    (hok : s.SparesPublishing l) : Sound keys path s' := by
  cases l with
  | pinPreapproved slug endpointId =>
    simp only [Disk.step] at h
    split at h <;> cases h
    · next key hkey =>
      refine hI.call rfl fun slug' key' hop => .inl ?_
      cases hop
      exact Keys.canonicalEndpointId_of_eq hkey
    · exact hI.call rfl fun _ _ _ => .inr ⟨_, rfl⟩
  | forget slug =>
    cases h
    exact hI.call rfl nofun
  | act i a =>
    obtain ⟨w, hw, h⟩ := Option.bind_eq_some_iff.mp h
    exact hI.act hw h hok
  | crash i =>
    obtain ⟨w, hw, h⟩ := Option.bind_eq_some_iff.mp h
    have hcrash : s' = s.goto i .crashed ∧ ∀ result, w.pc ≠ .returned result := by
      split at h <;> cases h
      next hpc _ => exact ⟨rfl, hpc⟩
    obtain ⟨rfl, hpc⟩ := hcrash
    refine hI.goto hw rfl (writerSound_of_planned_eq_none rfl fun slug key hop => ?_)
      fun _ _ _ _ => leaves_of_eq rfl rfl
    rcases (hI i w hw).canonical slug key hop with hkey | ⟨e, hreturned⟩
    · exact .inl hkey
    · exact absurd hreturned (hpc _)
  | clock now =>
    cases h
    exact fun i w hw => (hI i w hw).leaves (leaves_of_eq rfl rfl)

/-! ### What is in the ledger -/

/-- A `forget` of the name takes effect. -/
def Forgets (slug : String) (s : Disk) (l : DiskAct) : Prop :=
  ∃ i w ledger outcome, l = .act i .ok ∧ s.writers.get i = some w ∧ w.op = .forget slug ∧
    w.pc = .publishing ledger outcome

/-- What is renamed over the ledger was made from it. -/
theorem Sound.read_of_publishing (hI : Sound keys path s) (hw : s.writers.get i = some w)
    (hpc : w.pc = .publishing ledger' outcome) : ∃ ledger nowMs,
      keys.read path .stored s.file = .ok ledger ∧
      w.op.plan nowMs ledger = .write ledger' outcome ∧
      keys.read path .stored (some (.ledger ledger')) = .ok ledger' := by
  have howner := (hI i w hw).publishing (by rw [hpc]; rfl)
  obtain ⟨ledger, nowMs, hread, hplan⟩ :=
    (hI i w hw).planned (ledger', outcome) (by rw [hpc]; rfl) howner
  refine ⟨ledger, nowMs, hread, hplan, read_of_plan hread hplan fun slug key hop => ?_⟩
  rcases (hI i w hw).canonical slug key hop with hkey | ⟨e, hreturned⟩
  · exact hkey
  · cases hpc.symm.trans hreturned

theorem Sound.entry_publish (hI : Sound keys path s) (hw : s.writers.get i = some w)
    (hpc : w.pc = .publishing ledger' outcome) (hop : w.op ≠ .forget slug)
    (hentry : keys.entry path s.file slug = some entry) :
    keys.entry path (some (.ledger ledger')) slug = some entry := by
  obtain ⟨ledger, nowMs, hread, hplan, hread'⟩ := hI.read_of_publishing hw hpc
  rw [Keys.entry_of_read hread] at hentry
  rw [Keys.entry_of_read hread']
  rcases Op.of_plan_write hplan with ⟨slug', key, _, _, hnone, rfl⟩ | ⟨slug', hforget, _, rfl⟩
  · have hne : slug ≠ slug' := by
      rintro rfl
      cases hnone.symm.trans hentry
    exact (Table.get_insert _ _ _ _).trans ((if_neg hne).trans hentry)
  · have hne : slug ≠ slug' := by
      rintro rfl
      exact hop hforget
    exact (Table.get_remove _ _ _).trans ((if_neg hne).trans hentry)

theorem Sound.entry_step (hI : Sound keys path s) (h : Disk.step keys path s l = some s')
    (hno : ¬ Forgets slug s l) (hentry : keys.entry path s.file slug = some entry) :
    keys.entry path s'.file slug = some entry := by
  cases l with
  | pinPreapproved slug' endpointId =>
    simp only [Disk.step] at h
    split at h <;> cases h <;> exact hentry
  | forget slug' | clock now =>
    cases h
    exact hentry
  | act i a =>
    obtain ⟨w, hw, h⟩ := Option.bind_eq_some_iff.mp h
    cases act_cases h with
    | publishes ledger' outcome hpc =>
      refine hI.entry_publish hw hpc (fun hop => hno ?_) hentry
      exact ⟨i, w, ledger', outcome, rfl, hw, hop, hpc⟩
    | _ => exact hentry
  | crash i =>
    obtain ⟨w, hw, h⟩ := Option.bind_eq_some_iff.mp h
    split at h <;> cases h
    exact hentry

/-- The ledger maps the name to the key. -/
def Maps (keys : Keys) (path slug key : String) (s : Disk) : Prop :=
  ∃ entry, keys.entry path s.file slug = some entry ∧ entry.endpointId = key

/-- A call that comes to the result `Ok` of a pin leaves its key in the ledger. -/
theorem Sound.maps_of_result {key : String} {w' : Writer} (hI : Sound keys path s)
    (hw : s.writers.get i = some w) (h : s.act keys path i w a = some s')
    (hw' : s'.writers.get i = some w') (hop : w.op = .pin slug key)
    (hpc : w'.pc.result = some (.ok .pinned)) :
    w.pc.result = some (.ok .pinned) ∨ Maps keys path slug key s' := by
  have hgoto {pc : WriterPc} (hget : (s.goto i pc).writers.get i = some w') : w'.pc = pc := by
    cases hget.symm.trans (Arena.get_update_self hw _)
    rfl
  cases act_cases h with
  | moves _ pc _ hnot =>
    rw [hgoto hw'] at hpc
    exact absurd hpc (hnot _)
  | settles order ledger result hread hplan =>
    rw [hgoto hw'] at hpc
    cases hpc
    rcases Op.of_plan_done hplan with ⟨slug', key', entry, hop', _, hentry, hid⟩ | ⟨_, hop', _⟩
    · cases hop.symm.trans hop'
      exact .inr ⟨entry, (Keys.entry_of_read hread slug).trans hentry, hid⟩
    · cases hop.symm.trans hop'
  | publishes ledger' outcome hbefore =>
    obtain ⟨ledger, nowMs, hread, hplan, hread'⟩ := hI.read_of_publishing hw hbefore
    rcases Op.of_plan_write hplan with ⟨slug', key', hop', _, _, rfl⟩ | ⟨_, hop', _⟩
    · cases hop.symm.trans hop'
      refine .inr ⟨⟨key, nowMs⟩, ?_, rfl⟩
      exact (Keys.entry_of_read hread' slug).trans ((Table.get_insert _ _ _ _).trans (if_pos rfl))
    · cases hop.symm.trans hop'
  | finishes _ pc result hbefore hafter =>
    rw [hgoto hw'] at hpc
    exact .inl (hbefore.trans (hafter.symm.trans hpc))
  | unlocks result hbefore =>
    rw [hgoto hw'] at hpc
    exact .inl (by rw [hbefore]; exact hpc)
  | _ =>
    rw [hgoto hw'] at hpc
    cases hpc

/-- No `forget` of the name takes effect once call `i` has stored its pin. -/
def SparesPin (i : Nat) (slug : String) (s : Disk) (l : DiskAct) : Prop :=
  ∀ w, s.writers.get i = some w → w.pc.result = some (.ok .pinned) → ¬ Forgets slug s l

/-- Call `i`, if it is a pin of the name and has its result, has left its key in the ledger. -/
def Stored (keys : Keys) (path : String) (i : Nat) (slug key : String) (s : Disk) : Prop :=
  ∀ w, s.writers.get i = some w → w.op = .pin slug key → w.pc.result = some (.ok .pinned) →
    Maps keys path slug key s

theorem Stored.of_kept {key : String} (hI : Sound keys path s) (hS : Stored keys path i slug key s)
    (h : Disk.step keys path s l = some s') (hok : SparesPin i slug s l)
    (hw : s.writers.get i = some w) (hop : w.op = .pin slug key)
    (hpc : w.pc.result = some (.ok .pinned)) : Maps keys path slug key s' := by
  obtain ⟨entry, hentry, hid⟩ := hS w hw hop hpc
  exact ⟨entry, hI.entry_step h (hok w hw hpc) hentry, hid⟩

theorem Stored.step {key : String} (hI : Sound keys path s) (hS : Stored keys path i slug key s)
    (h : Disk.step keys path s l = some s') (hok : SparesPin i slug s l) :
    Stored keys path i slug key s' := by
  intro w' hw' hop hpc
  -- where the call was at its result already, its entry was there
  have hsame (hw : s.writers.get i = some w') : Maps keys path slug key s' :=
    hS.of_kept hI h hok hw hop hpc
  cases l with
  | pinPreapproved slug' endpointId =>
    have hstep := h
    simp only [Disk.step] at hstep
    split at hstep <;> cases hstep <;> rcases Arena.get_alloc_cases hw' with ⟨_, rfl⟩ | hw
    · cases hpc
    · exact hsame hw
    · cases hpc
    · exact hsame hw
  | forget slug' =>
    cases h
    rcases Arena.get_alloc_cases hw' with ⟨_, rfl⟩ | hw
    · cases hop
    · exact hsame hw
  | clock now =>
    cases h
    exact hsame hw'
  | crash j =>
    obtain ⟨v, hv, hcrash⟩ := Option.bind_eq_some_iff.mp h
    split at hcrash <;> cases hcrash
    rcases Arena.get_update_cases hw' with ⟨rfl, d, hd, rfl⟩ | ⟨-, hw⟩
    · cases hpc
    · exact hsame hw
  | act j a =>
    obtain ⟨v, hv, hact⟩ := Option.bind_eq_some_iff.mp h
    obtain ⟨pc, hwriters⟩ := writers_of_act hact
    have hget := hw'
    rw [hwriters] at hget
    rcases Arena.get_update_known hv hget with ⟨rfl, rfl⟩ | ⟨-, hw⟩
    · rcases hI.maps_of_result hv hact hw' hop hpc with hbefore | hmaps
      · exact hS.of_kept hI h hok hv hop hbefore
      · exact hmaps
    · exact hsame hw

/-- **A pin reported as stored is kept until it is forgotten**, as long as no lock file is removed
while its creator is between its look at the nonce and its `rename`: in every state after the call
has returned `Ok`, unless a `forget` of the name has taken effect since the pin was stored. -/
theorem pin_kept (keys : Keys) (path : String) (file : Option LedgerFile) (lock : Option LockFile)
    (now : Nat) (ls : List DiskAct) (s : Disk) (i : Nat) (w : Writer) (slug key : String)
    (h : Run (Guarded (Guarded (Steps (Disk.step keys path)) SparesPublishing) (SparesPin i slug))
      ⟨file, lock, now, .empty⟩ ls s)
    (hw : s.writers.get i = some w) (hop : w.op = .pin slug key)
    (hpc : w.pc = .returned (.ok .pinned)) :
    ∃ entry, keys.entry path s.file slug = some entry ∧ entry.endpointId = key := by
  have hI := h.state_invariant
    (I := fun s => Sound keys path s ∧ Stored keys path i slug key s)
    ⟨fun _ _ hw => (by cases hw), fun _ hw => (by cases hw)⟩
    fun _ _ _ hI hstep => ⟨hI.1.step hstep.1.1 hstep.1.2, hI.2.step hI.1 hstep.1.1 hstep.2⟩
  exact hI.2 w hw hop (by rw [hpc]; rfl)

/-- A file operation that spares the lock of a call that is publishing, and forgets nothing. -/
def harmless (s : Disk) : DiskAct → Bool
  | .act i _ => (s.writers.get i).all fun w =>
    (match w.op with
      | .pin _ _ => true
      | .forget _ => false) &&
    (!w.pc.isRemoving || (s.owner.bind s.writers.get).all fun v => !v.pc.isPublishing)
  | _ => true

theorem sparesPublishing_of_harmless (h : s.harmless l = true) : s.SparesPublishing l := by
  intro i w owner v hl hw hpc howner hv
  subst hl
  simp only [harmless, hw, Option.all_some, hpc, howner, Option.bind_some, hv, Bool.not_true,
    Bool.false_or, Bool.and_eq_true] at h
  simpa using h.2

theorem not_forgets_of_harmless (h : s.harmless l = true) (slug : String) : ¬ Forgets slug s l := by
  rintro ⟨i, w, ledger, outcome, rfl, hw, hop, hpc⟩
  simp [harmless, hw, hop] at h

theorem guarded_of_harmless {ls : List DiskAct}
    (h : execOk (Disk.step keys path) harmless s ls = some s') (i : Nat) (slug : String) :
    Run (Guarded (Guarded (Steps (Disk.step keys path)) SparesPublishing) (SparesPin i slug))
      s ls s' :=
  (run_of_execOk h).mono fun _ _ _ hs =>
    ⟨⟨hs.1, sparesPublishing_of_harmless hs.2⟩, fun _ _ _ => not_forgets_of_harmless hs.2 slug⟩

/-- Call `i` does this many file operations, and all succeed. -/
def acts (i n : Nat) : List DiskAct := List.replicate n (.act i .ok)

/-- Call `i` takes the lock and writes its temp file. -/
def untilVerifying (i : Nat) : List DiskAct := acts i 3 ++ .act i (.read .stored) :: acts i 1

def emptyDir : Disk := ⟨none, none, 0, .empty⟩

/-- A call stands before its look at the nonce for a minute; another one breaks its lock and
renames, and the first one finds the other's nonce. -/
def slowThenPin : List DiskAct :=
  .pinPreapproved "a" Keys.idZero :: untilVerifying 0 ++
    [.clock 60000, .pinPreapproved "b" Keys.idOne] ++ acts 1 3 ++ untilVerifying 1 ++
    acts 1 2 ++ acts 0 2 ++ acts 1 2

theorem pin_kept_slowThenPin : ∃ s,
    Run (Steps (Disk.step Keys.sampled "peers.json")) emptyDir slowThenPin s ∧
    (s.writers.get 0).map (·.pc) = some (.returned (.error (nonceGone "peers.json"))) ∧
    ∃ entry, Keys.sampled.entry "peers.json" s.file "b" = some entry ∧
      entry.endpointId = Keys.idOne := by
  have hexec : execOk (Disk.step Keys.sampled "peers.json") harmless emptyDir slowThenPin =
    some _ := rfl
  have hrun := guarded_of_harmless hexec 1 "b"
  exact ⟨_, hrun.of_guarded.of_guarded, rfl,
    pin_kept Keys.sampled "peers.json" none none 0 slowThenPin _ 1 _ "b" Keys.idOne hrun rfl rfl
      rfl⟩

/-- The first call stands between its look and its `rename` for a minute; a second one breaks its
lock and pins. -/
def slowWriter : List DiskAct :=
  .pinPreapproved "a" Keys.idZero :: untilVerifying 0 ++ acts 0 1 ++
    [.clock 60000, .pinPreapproved "b" Keys.idOne] ++ acts 1 3 ++ untilVerifying 1 ++ acts 1 4

/-- Then the first call goes on. -/
theorem pin_lost_to_slow_writer : ∃ s s',
    Run (Steps (Disk.step Keys.sampled "peers.json")) emptyDir slowWriter s ∧
    (s.writers.get 1).map (·.pc) = some (.returned (.ok .pinned)) ∧
    Keys.sampled.entry "peers.json" s.file "b" = some ⟨Keys.idOne, 60000⟩ ∧
    Run (Steps (Disk.step Keys.sampled "peers.json")) s [.act 0 .ok] s' ∧
    Keys.sampled.entry "peers.json" s'.file "b" = none := by
  have hexec : exec (Disk.step Keys.sampled "peers.json") emptyDir slowWriter = some _ := rfl
  exact ⟨_, _, run_of_exec hexec, rfl, rfl, run_of_exec rfl, rfl⟩

end Disk

end Zyris.P2p
