import Zyris.P2p.Authorize
import Zyris.P2p.Equiv.Tofu

/-!
# Only a confirmed key is trusted

The lookup of an `authorize` takes no lock, but `pin_preapproved` looks again: an entry, once there,
stays (`Tofu.EntryKept`), and a call that is answered `Ok` leaves its key there (`Tofu.CallSound`).
-/

namespace Zyris.P2p

variable {keys : Keys} {path : String} {order : WalkOrder}

namespace Keys

variable {file : Option LedgerFile} {slug : String} {entry : LedgerEntry}

theorem read_of_lookup {found : Option LedgerEntry}
    (h : keys.lookup path order file slug = .ok found) :
    ∃ ledger, keys.read path order file = .ok ledger ∧ ledger.get slug = found := by
  unfold lookup at h
  split at h <;> cases h
  next ledger hread => exact ⟨ledger, hread, rfl⟩

theorem lookup_of_entry (h : keys.entry path file slug = some entry) :
    keys.lookup path order file slug = .ok (some entry) := by
  unfold Keys.entry at h
  unfold lookup
  split at h
  · next ledger hread =>
    rw [read_of_order hread order]
    exact congrArg Except.ok h
  · cases h

/-- `pin_preapproved` leaves the file, and succeeds only when the key is there; or it adds the key
where there was none. -/
theorem pinPreapproved_cases (order : WalkOrder) (file : Option LedgerFile)
    (slug endpointId : String) (nowMs : Nat) :
    ((keys.pinPreapproved path order file slug endpointId nowMs).1 = file ∧
      ∀ u, (keys.pinPreapproved path order file slug endpointId nowMs).2 = .ok u →
        ∃ key entry, keys.canonicalEndpointId endpointId = .ok key ∧
          keys.entry path file slug = some entry ∧ entry.endpointId = key) ∨
    ((keys.pinPreapproved path order file slug endpointId nowMs).2 = .ok () ∧
      keys.entry path file slug = none ∧ ∃ key, keys.canonicalEndpointId endpointId = .ok key ∧
        ∀ slug',
          keys.entry path (keys.pinPreapproved path order file slug endpointId nowMs).1 slug' =
            if slug' = slug then some ⟨key, nowMs⟩ else keys.entry path file slug') := by
  unfold pinPreapproved
  rcases hkey : keys.canonicalEndpointId endpointId with _ | key
  · exact .inl ⟨rfl, nofun⟩
  rcases hread : keys.read path order file with _ | ledger
  · exact .inl ⟨rfl, nofun⟩
  dsimp only
  cases hplan : Op.plan nowMs ledger (.pin slug key) with
  | done result =>
    rcases result with _ | _
    · exact .inl ⟨rfl, nofun⟩
    refine .inl ⟨rfl, fun u _ => ?_⟩
    rcases Op.of_plan_done hplan with ⟨_, _, entry, heq, _, hentry, hid⟩ | ⟨_, heq, _⟩ <;>
      cases heq
    exact ⟨key, entry, rfl, (entry_of_read hread slug).trans hentry, hid⟩
  | write ledger' outcome =>
    rcases Op.of_plan_write hplan with ⟨_, _, heq, _, hnone, rfl⟩ | ⟨_, heq, _⟩ <;> cases heq
    refine .inr ⟨rfl, (entry_of_read hread slug).trans hnone, key, rfl, fun slug' => ?_⟩
    have hcanonical : keys.IsCanonical (ledger.insert slug ⟨key, nowMs⟩) :=
      isCanonical_insert (isCanonical_of_read hread) (canonicalEndpointId_of_eq hkey)
    have hread' : keys.read path order (some (.ledger _)) = .ok _ :=
      read_of_isCanonical hcanonical
    rw [entry_of_read hread', Table.get_insert, entry_of_read hread]

theorem entry_pinPreapproved (h : keys.entry path file slug = some entry) (order : WalkOrder)
    (slug' endpointId : String) (nowMs : Nat) :
    keys.entry path (keys.pinPreapproved path order file slug' endpointId nowMs).1 slug =
      some entry := by
  rcases keys.pinPreapproved_cases order file slug' endpointId nowMs with
    ⟨hsame, -⟩ | ⟨-, hnone, key, -, hentry⟩
  · rw [hsame]
    exact h
  · rw [hentry, if_neg]
    · exact h
    · rintro rfl
      cases hnone.symm.trans h

end Keys

namespace Tofu

variable {s s' : Tofu} {l : TofuAct}

/-- Everything a step of the store can do. -/
inductive Change (keys : Keys) (path : String) (s : Tofu) : TofuAct → Tofu → Prop
  | called (slug endpointId : String) : Change keys path s (.authorize slug endpointId)
    { s with calls := s.calls.alloc ⟨slug, endpointId, enter keys endpointId⟩ }
  | looked (i : Nat) (c : AuthorizeCall) (key : String) (order : WalkOrder) :
    s.calls.get i = some c → c.pc = .looking key → Change keys path s (.lookup i order)
      (s.goto i (lookedUp keys key (keys.lookup path order s.file c.slug)))
  | accepted (i : Nat) (c : AuthorizeCall) (key fingerprint : String) : s.calls.get i = some c →
    c.pc = .confirming key fingerprint → Change keys path s (.answer i true)
      { s.goto i (.pinning key) with approvals := s.approvals ++ [(c.slug, key)] }
  | refused (i : Nat) (c : AuthorizeCall) (key fingerprint : String) : s.calls.get i = some c →
    c.pc = .confirming key fingerprint → Change keys path s (.answer i false)
      (s.goto i (.returned (.error (.refused c.slug fingerprint))))
  | pinned (i : Nat) (c : AuthorizeCall) (key : String) (nowMs : Nat) (order : WalkOrder) :
    s.calls.get i = some c → c.pc = .pinning key → Change keys path s (.pin i nowMs order)
      { s.goto i (.returned (keys.pinPreapproved path order s.file c.slug key nowMs).2) with
        file := (keys.pinPreapproved path order s.file c.slug key nowMs).1 }
  | failed (i : Nat) (c : AuthorizeCall) (message : String) : s.calls.get i = some c →
    Change keys path s (.fail i message) (s.goto i (.returned (.error (.io message))))
  | preapproved (slug endpointId key : String) (nowMs : Nat) (order : WalkOrder) :
    keys.canonicalEndpointId endpointId = .ok key →
    Change keys path s (.pinPreapproved slug endpointId nowMs order)
      { s with
        file := (keys.pinPreapproved path order s.file slug endpointId nowMs).1
        approvals := s.approvals ++ [(slug, key)] }
  | invalid (slug endpointId : String) (nowMs : Nat) (order : WalkOrder) :
    Change keys path s (.pinPreapproved slug endpointId nowMs order) s

theorem step_cases (h : step keys path s l = some s') : Change keys path s l s' := by
  cases l with
  | authorize slug endpointId =>
    cases h
    exact .called slug endpointId
  | lookup i order =>
    obtain ⟨c, hc, h⟩ := Option.bind_eq_some_iff.mp h
    split at h <;> cases h
    next key hpc => exact .looked i c key order hc hpc
  | answer i accepted =>
    obtain ⟨c, hc, h⟩ := Option.bind_eq_some_iff.mp h
    split at h
    · next key fingerprint hpc =>
      cases accepted <;> cases h
      · exact .refused i c key fingerprint hc hpc
      · exact .accepted i c key fingerprint hc hpc
    · cases h
  | pin i nowMs order =>
    obtain ⟨c, hc, h⟩ := Option.bind_eq_some_iff.mp h
    split at h <;> cases h
    next key hpc => exact .pinned i c key nowMs order hc hpc
  | fail i message =>
    obtain ⟨c, hc, h⟩ := Option.bind_eq_some_iff.mp h
    split at h <;> cases h <;> exact .failed i c message hc
  | pinPreapproved slug endpointId nowMs order =>
    simp only [step] at h
    split at h <;> cases h
    · next key hkey => exact .preapproved slug endpointId key nowMs order hkey
    · exact .invalid slug endpointId nowMs order

/-- What holds of a call in every state. -/
def CallSound (keys : Keys) (path : String) (s : Tofu) (c : AuthorizeCall) : Prop :=
  match c.pc with
  | .looking key => keys.canonicalEndpointId c.endpointId = .ok key
  | .confirming key _ => keys.canonicalEndpointId c.endpointId = .ok key
  | .pinning key => keys.canonicalEndpointId c.endpointId = .ok key ∧ (c.slug, key) ∈ s.approvals
  | .returned (.ok _) => ∃ key entry, keys.canonicalEndpointId c.endpointId = .ok key ∧
    keys.entry path s.file c.slug = some entry ∧ entry.endpointId = key
  | .returned (.error _) => True

def Sound (keys : Keys) (path : String) (s : Tofu) : Prop :=
  ∀ i c, s.calls.get i = some c → CallSound keys path s c

/-- An entry stays as it is, or an approved key is added where there was none. -/
def EntryKept (keys : Keys) (path : String) (s s' : Tofu) : Prop :=
  ∀ slug, keys.entry path s'.file slug = keys.entry path s.file slug ∨
    keys.entry path s.file slug = none ∧ ∃ entry,
      keys.entry path s'.file slug = some entry ∧ (slug, entry.endpointId) ∈ s'.approvals

theorem entryKept_of_eq (h : s'.file = s.file) : EntryKept keys path s s' :=
  fun _ => .inl (by rw [h])

variable {slug key : String} {entry : LedgerEntry} {nowMs i : Nat} {c c' : AuthorizeCall}
  {pc : AuthorizePc}

theorem EntryKept.eq_some (h : EntryKept keys path s s')
    (hentry : keys.entry path s.file slug = some entry) :
    keys.entry path s'.file slug = some entry := by
  rcases h slug with heq | ⟨hnone, _⟩
  · exact heq.trans hentry
  · cases hnone.symm.trans hentry

theorem entryKept_of_pin {endpointId : String}
    (hkey : keys.canonicalEndpointId endpointId = .ok key) (hmem : (slug, key) ∈ s'.approvals)
    (hfile : s'.file = (keys.pinPreapproved path order s.file slug endpointId nowMs).1) :
    EntryKept keys path s s' := by
  intro slug'
  rw [hfile]
  rcases @Keys.pinPreapproved_cases keys path order s.file slug endpointId nowMs with
    ⟨hsame, _⟩ | ⟨_, hnone, key', hkey', hentry⟩
  · exact .inl (by rw [hsame])
  · cases hkey.symm.trans hkey'
    by_cases hslug : slug' = slug
    · subst hslug
      exact .inr ⟨hnone, ⟨key, nowMs⟩, (hentry slug').trans (if_pos rfl), hmem⟩
    · exact .inl ((hentry slug').trans (if_neg hslug))

theorem CallSound.mono (h : CallSound keys path s c) (happrovals : s.approvals ⊆ s'.approvals)
    (hkept : EntryKept keys path s s') : CallSound keys path s' c := by
  obtain ⟨slug, endpointId, pc⟩ := c
  rcases pc with _ | _ | _ | ⟨_ | _⟩
  · exact h
  · exact h
  · exact ⟨h.1, happrovals h.2⟩
  · trivial
  · obtain ⟨key, entry, hkey, hentry, hid⟩ := h
    exact ⟨key, entry, hkey, hkept.eq_some hentry, hid⟩

theorem callSound_enter (slug endpointId : String) :
    CallSound keys path s ⟨slug, endpointId, enter keys endpointId⟩ := by
  cases hkey : keys.canonicalEndpointId endpointId with
  | error e =>
    rw [show enter keys endpointId = .returned (.error e) by rw [enter, hkey]]
    trivial
  | ok key =>
    rw [show enter keys endpointId = .looking key by rw [enter, hkey]]
    exact hkey

theorem callSound_lookedUp (hkey : keys.canonicalEndpointId c.endpointId = .ok key) :
    CallSound keys path s
      { c with pc := lookedUp keys key (keys.lookup path order s.file c.slug) } := by
  rcases hlook : keys.lookup path order s.file c.slug with _ | found
  · trivial
  obtain ⟨ledger, hread, hget⟩ := Keys.read_of_lookup hlook
  rcases found with _ | entry
  · unfold lookedUp CallSound
    cases keys.fingerprint key with
    | error e => trivial
    | ok fingerprint => exact hkey
  unfold lookedUp CallSound
  by_cases hid : entry.endpointId = key
  · simp only [if_pos hid]
    exact ⟨key, entry, hkey, (Keys.entry_of_read hread _).trans hget, hid⟩
  · simp only [if_neg hid]

theorem callSound_pinned (hkey : keys.canonicalEndpointId c.endpointId = .ok key)
    (hfile : s'.file = (keys.pinPreapproved path order s.file c.slug key nowMs).1) :
    CallSound keys path s'
      { c with pc := .returned (keys.pinPreapproved path order s.file c.slug key nowMs).2 } := by
  have hcanonical := Keys.canonicalEndpointId_of_eq hkey
  rcases keys.pinPreapproved_cases order s.file c.slug key nowMs with
    ⟨hsame, hok⟩ | ⟨hresult, _, key', hkey', hentry⟩
  · cases hresult : (keys.pinPreapproved path order s.file c.slug key nowMs).2 with
    | error e => trivial
    | ok u =>
      obtain ⟨key', entry, hkey', hentry, hid⟩ := hok u hresult
      cases hcanonical.symm.trans hkey'
      exact ⟨key, entry, hkey, by rw [hfile, hsame]; exact hentry, hid⟩
  · rw [hresult]
    cases hcanonical.symm.trans hkey'
    refine ⟨key, ⟨key, nowMs⟩, hkey, ?_, rfl⟩
    rw [hfile]
    exact (hentry c.slug).trans (if_pos rfl)

theorem callSound_of_pc (hI : Sound keys path s) (hc : s.calls.get i = some c) (hpc : c.pc = pc) :
    CallSound keys path s { c with pc := pc } := by
  subst hpc
  exact hI i c hc

/-- **The entries over a step.** -/
theorem Change.entryKept (h : Change keys path s l s') (hI : Sound keys path s) :
    EntryKept keys path s s' := by
  cases h with
  | pinned i c key nowMs order hc hpc =>
    obtain ⟨hkey, hmem⟩ := callSound_of_pc hI hc hpc
    exact entryKept_of_pin (Keys.canonicalEndpointId_of_eq hkey) hmem rfl
  | preapproved slug endpointId key nowMs order hkey =>
    exact entryKept_of_pin hkey (List.mem_append_right _ (List.mem_singleton_self _)) rfl
  | _ => exact entryKept_of_eq rfl

theorem Change.approvals_subset (h : Change keys path s l s') : s.approvals ⊆ s'.approvals := by
  cases h with
  | accepted i c key fingerprint hc hpc | preapproved slug endpointId key nowMs order hkey =>
    exact List.subset_append_left _ _
  | _ => exact List.Subset.refl _

theorem Sound.goto (hI : Sound keys path s) (hcalls : s'.calls = (s.goto i pc).calls)
    (happrovals : s.approvals ⊆ s'.approvals) (hkept : EntryKept keys path s s')
    (hc : s.calls.get i = some c) (hpc : CallSound keys path s' { c with pc := pc }) :
    Sound keys path s' := by
  unfold Sound
  rw [hcalls]
  exact Arena.forall_update_known (fun j d hd => (hI j d hd).mono happrovals hkept) hc hpc

theorem Change.sound (h : Change keys path s l s') (hI : Sound keys path s) :
    Sound keys path s' := by
  have hkept := h.entryKept hI
  have hsub := h.approvals_subset
  cases h with
  | called slug endpointId =>
    exact Arena.forall_alloc (fun i c hc => (hI i c hc).mono hsub hkept)
      (callSound_enter slug endpointId)
  | looked i c key order hc hpc =>
    exact hI.goto rfl hsub hkept hc (callSound_lookedUp (callSound_of_pc hI hc hpc))
  | accepted i c key fingerprint hc hpc =>
    refine hI.goto rfl hsub hkept hc ⟨callSound_of_pc hI hc hpc, ?_⟩
    exact List.mem_append_right _ (List.mem_singleton_self _)
  | refused i c key fingerprint hc hpc | failed i c message hc =>
    exact hI.goto rfl hsub hkept hc trivial
  | pinned i c key nowMs order hc hpc =>
    have hkey := (callSound_of_pc hI hc hpc).1
    refine hI.goto rfl hsub hkept hc ?_
    exact callSound_pinned hkey rfl
  | preapproved slug endpointId key nowMs order hkey =>
    exact fun i c hc => (hI i c hc).mono hsub hkept
  | invalid slug endpointId nowMs order => exact hI

/-- A confirmer is asked only by a call that found no entry. -/
theorem Change.unknown_of_confirming (h : Change keys path s l s') (hc : s.calls.get i = some c)
    (hc' : s'.calls.get i = some c') (hbefore : c.pc.isConfirming = false)
    (hafter : c'.pc.isConfirming = true) :
    ∃ ledger, (∀ order, keys.read path order s.file = .ok ledger) ∧
      ledger.get c.slug = none := by
  have hsame {d : AuthorizeCall} (hd : s.calls.get i = some d) (heq : c' = d) : False := by
    cases hc.symm.trans hd
    rw [heq, hbefore] at hafter
    cases hafter
  have hother {j : Nat} {pc : AuthorizePc} (hget : (s.goto j pc).calls.get i = some c') :
      c'.pc = pc ∧ j = i := by
    rcases Arena.get_update_cases hget with ⟨rfl, d, hd, rfl⟩ | ⟨_, hd⟩
    · exact ⟨rfl, rfl⟩
    · exact (hsame hd rfl).elim
  cases h with
  | called slug endpointId =>
    exact (hsame hc (Option.some.inj (hc'.symm.trans (Arena.get_alloc_of_get hc _)))).elim
  | looked j d key order hd hpc =>
    obtain ⟨hpc', rfl⟩ := hother hc'
    cases hc.symm.trans hd
    rw [hpc'] at hafter
    rcases hlook : keys.lookup path order s.file c.slug with _ | found
    · rw [hlook] at hafter
      cases hafter
    obtain ⟨ledger, hread, hget⟩ := Keys.read_of_lookup hlook
    rw [hlook] at hafter
    cases found with
    | none => exact ⟨ledger, Keys.read_of_order hread, hget⟩
    | some entry =>
      simp only [lookedUp] at hafter
      split_ifs at hafter <;> cases hafter
  | accepted j d key fingerprint hd hpc | refused j d key fingerprint hd hpc
  | pinned j d key nowMs order hd hpc | failed j d message hd =>
    rw [(hother hc').1] at hafter
    cases hafter
  | preapproved slug endpointId key nowMs order hkey | invalid slug endpointId nowMs order =>
    exact (hsame hc' rfl).elim

/-- A step that changes the file is a pin that succeeds. -/
theorem Change.pin_of_file_ne (h : Change keys path s l s') (hne : s'.file ≠ s.file) :
    (∃ slug endpointId nowMs order, l = .pinPreapproved slug endpointId nowMs order) ∨
      ∃ i nowMs order c, l = .pin i nowMs order ∧ s'.calls.get i = some c ∧
        c.pc = .returned (.ok ()) := by
  cases h with
  | pinned i c key nowMs order hc hpc =>
    rcases keys.pinPreapproved_cases order s.file c.slug key nowMs with ⟨hsame, _⟩ | ⟨hok, _⟩
    · exact absurd hsame hne
    · refine .inr ⟨i, nowMs, order, _, rfl, Arena.get_update_self hc _, ?_⟩
      exact congrArg AuthorizePc.returned hok
  | preapproved slug endpointId key nowMs order hkey =>
    exact .inl ⟨slug, endpointId, nowMs, order, rfl⟩
  | _ => exact absurd rfl hne

theorem sound_of_run {file : Option LedgerFile} {ls : List TofuAct}
    (h : Run (Steps (step keys path)) ⟨file, .empty, []⟩ ls s) : Sound keys path s := by
  refine h.state_invariant (I := Sound keys path) ?_
    fun _ _ _ hI hstep => (step_cases hstep).sound hI
  intro i c hc
  cases hc

/-- **Only a confirmed key is ever trusted.**  In every reachable state the next step keeps the
entries or adds an approved key under a name that had none; calls answered `Ok` under one name were
offered one key; a confirmer is asked only when the name is not pinned at the lookup; and the file
changes only in a pin that succeeds. -/
theorem only_approved_keys_trusted (keys : Keys) (path : String) (file : Option LedgerFile)
    (ls : List TofuAct) (s : Tofu)
    (h : Run (Steps (step keys path)) ⟨file, .empty, []⟩ ls s) :
    (∀ l s', step keys path s l = some s' → ∀ slug,
      keys.entry path s'.file slug = keys.entry path s.file slug ∨
        keys.entry path s.file slug = none ∧ ∃ entry,
          keys.entry path s'.file slug = some entry ∧
            (slug, entry.endpointId) ∈ s'.approvals) ∧
    (∀ i j c d, s.calls.get i = some c → s.calls.get j = some d → c.slug = d.slug →
      c.pc = .returned (.ok ()) → d.pc = .returned (.ok ()) →
      ∃ key, keys.canonicalEndpointId c.endpointId = .ok key ∧
        keys.canonicalEndpointId d.endpointId = .ok key) ∧
    (∀ l s' i c c', step keys path s l = some s' → s.calls.get i = some c →
      s'.calls.get i = some c' → c.pc.isConfirming = false → c'.pc.isConfirming = true →
      ∃ ledger, (∀ order, keys.read path order s.file = .ok ledger) ∧
        ledger.get c.slug = none) ∧
    (∀ l s', step keys path s l = some s' → s'.file ≠ s.file →
      (∃ slug endpointId nowMs order, l = .pinPreapproved slug endpointId nowMs order) ∨
        ∃ i nowMs order c, l = .pin i nowMs order ∧ s'.calls.get i = some c ∧
          c.pc = .returned (.ok ())) ∧
    ∀ order slug endpointId nowMs e,
      (keys.pinPreapproved path order s.file slug endpointId nowMs).2 = .error e →
        (keys.pinPreapproved path order s.file slug endpointId nowMs).1 = s.file := by
  have hI := sound_of_run h
  refine ⟨?_, ?_, ?_, ?_, ?_⟩
  · intro l s' hstep
    exact (step_cases hstep).entryKept hI
  · intro i j c d hc hd hslug hcok hdok
    obtain ⟨key, entry, hkey, hentry, hid⟩ := callSound_of_pc hI hc hcok
    obtain ⟨key', entry', hkey', hentry', hid'⟩ := callSound_of_pc hI hd hdok
    -- both keys are the one in the ledger
    rw [hslug, hentry'] at hentry
    cases hentry
    exact ⟨key, hkey, by rw [← hid, hid']; exact hkey'⟩
  · intro l s' i c c' hstep hc hc' hbefore hafter
    exact (step_cases hstep).unknown_of_confirming hc hc' hbefore hafter
  · intro l s' hstep hne
    exact (step_cases hstep).pin_of_file_ne hne
  · intro order slug endpointId nowMs e herr
    rcases keys.pinPreapproved_cases order s.file slug endpointId nowMs with ⟨hsame, _⟩ | ⟨hok, _⟩
    · exact hsame
    · cases hok.symm.trans herr

/-- Two connections offer different keys under one name; both are confirmed before a pin. -/
def twoConfirmed : List TofuAct :=
  [.authorize "laptop" Keys.idZero, .authorize "laptop" Keys.idOne, .lookup 0 .stored,
    .lookup 1 .stored, .answer 0 true, .answer 1 true, .pin 1 5 .stored, .pin 0 6 .stored]

theorem only_approved_keys_trusted_twoConfirmed : ∃ s,
    Run (Steps (step Keys.sampled "peers.json")) ⟨none, .empty, []⟩ twoConfirmed s ∧
    (s.calls.get 0).map (·.pc) = some (.returned (.error (.changed Keys.idOne Keys.idZero))) ∧
    (s.calls.get 1).map (·.pc) = some (.returned (.ok ())) ∧
    ∀ l s', step Keys.sampled "peers.json" s l = some s' → ∀ slug,
      Keys.sampled.entry "peers.json" s'.file slug = Keys.sampled.entry "peers.json" s.file slug ∨
        Keys.sampled.entry "peers.json" s.file slug = none ∧ ∃ entry,
          Keys.sampled.entry "peers.json" s'.file slug = some entry ∧
            (slug, entry.endpointId) ∈ s'.approvals := by
  have hexec : exec (step Keys.sampled "peers.json") ⟨none, .empty, []⟩ twoConfirmed = some _ := rfl
  have hrun := run_of_exec hexec
  exact ⟨_, hrun, rfl, rfl, (only_approved_keys_trusted _ _ _ _ _ hrun).1⟩

/-! ### When the ledger may be edited

A call that was answered `Ok` and whose name was forgotten since says nothing about the ledger.
What is left is about calls under way, and about the step in which one returns. -/

/-- A call under way works with the key it was offered. -/
def CallCanonical (keys : Keys) (c : AuthorizeCall) : Prop :=
  match c.pc with
  | .looking key | .confirming key _ | .pinning key =>
    keys.canonicalEndpointId c.endpointId = .ok key
  | .returned _ => True

/-- Where a step can take a call. -/
inductive CallChange (keys : Keys) (path : String) (s s' : Tofu) (c : AuthorizeCall) :
    AuthorizePc → Prop
  | looked (key : String) (order : WalkOrder) (hpc : c.pc = .looking key)
      (hfile : s'.file = s.file) :
    CallChange keys path s s' c (lookedUp keys key (keys.lookup path order s.file c.slug))
  | accepted (key fingerprint : String) (hpc : c.pc = .confirming key fingerprint) :
    CallChange keys path s s' c (.pinning key)
  | pinned (key : String) (nowMs : Nat) (order : WalkOrder) (hpc : c.pc = .pinning key)
      (hfile : s'.file = (keys.pinPreapproved path order s.file c.slug key nowMs).1) :
    CallChange keys path s s' c
      (.returned (keys.pinPreapproved path order s.file c.slug key nowMs).2)
  | failed (e : TofuError) : CallChange keys path s s' c (.returned (.error e))

theorem Change.call_cases (h : Change keys path s l s') (hc' : s'.calls.get i = some c') :
    s.calls.get i = some c' ∨
    (s.calls.get i = none ∧ c'.pc = enter keys c'.endpointId) ∨
    ∃ c pc, s.calls.get i = some c ∧ c' = { c with pc := pc } ∧
      CallChange keys path s s' c pc := by
  have hgoto {j : Nat} {c : AuthorizeCall} {pc : AuthorizePc} (hc : s.calls.get j = some c)
      (hchange : CallChange keys path s s' c pc) (hget : (s.goto j pc).calls.get i = some c') :
      s.calls.get i = some c' ∨ (s.calls.get i = none ∧ c'.pc = enter keys c'.endpointId) ∨
      ∃ c pc, s.calls.get i = some c ∧ c' = { c with pc := pc } ∧
        CallChange keys path s s' c pc := by
    rcases Arena.get_update_cases hget with ⟨rfl, d, hd, rfl⟩ | ⟨-, hsame⟩
    · cases hc.symm.trans hd
      exact .inr (.inr ⟨c, pc, hc, rfl, hchange⟩)
    · exact .inl hsame
  cases h with
  | called slug endpointId =>
    rcases Arena.get_alloc_cases hc' with ⟨hi, rfl⟩ | hold
    · refine .inr (.inl ⟨?_, rfl⟩)
      rw [hi]
      exact Arena.get_size _
    · exact .inl hold
  | looked j c key order hc hpc => exact hgoto hc (.looked key order hpc rfl) hc'
  | accepted j c key fingerprint hc hpc => exact hgoto hc (.accepted key fingerprint hpc) hc'
  | refused j c key fingerprint hc hpc | failed j c message hc => exact hgoto hc (.failed _) hc'
  | pinned j c key nowMs order hc hpc =>
    exact hgoto hc (.pinned key nowMs order hpc rfl) hc'
  | preapproved | invalid => exact .inl hc'

theorem lookedUp_cases (keys : Keys) (key : String)
    (found : Except TofuError (Option LedgerEntry)) :
    (∃ result, lookedUp keys key found = .returned result) ∨
      ∃ fingerprint, lookedUp keys key found = .confirming key fingerprint := by
  unfold lookedUp
  split
  · exact .inl ⟨_, rfl⟩
  · split_ifs
    · exact .inl ⟨_, rfl⟩
    · exact .inl ⟨_, rfl⟩
  · split
    · exact .inl ⟨_, rfl⟩
    · exact .inr ⟨_, rfl⟩

theorem callCanonical_enter (h : c.pc = enter keys c.endpointId) : CallCanonical keys c := by
  unfold CallCanonical
  rw [h, enter]
  cases hkey : keys.canonicalEndpointId c.endpointId with
  | error e => trivial
  | ok key => rfl

theorem CallCanonical.step (hc : CallCanonical keys c) (h : CallChange keys path s s' c pc) :
    CallCanonical keys { c with pc := pc } := by
  unfold CallCanonical at hc
  cases h with
  | looked key order hpc =>
    rw [hpc] at hc
    rcases lookedUp_cases keys key (keys.lookup path order s.file c.slug) with ⟨r, hr⟩ | ⟨fp, hfp⟩
    · rw [hr]
      trivial
    · rw [hfp]
      exact hc
  | accepted key fingerprint hpc =>
    rw [hpc] at hc
    exact hc
  | pinned => trivial
  | failed => trivial

/-- A call that returns `Ok` leaves its key in the ledger. -/
theorem CallCanonical.returned_ok (hc : CallCanonical keys c) (h : CallChange keys path s s' c pc)
    (hok : pc = .returned (.ok ())) : ∃ key entry,
      keys.canonicalEndpointId c.endpointId = .ok key ∧
      keys.entry path s'.file c.slug = some entry ∧ entry.endpointId = key := by
  have hsound : CallSound keys path s' { c with pc := pc } := by
    unfold CallCanonical at hc
    cases h with
    | looked key order hpc hfile =>
      rw [hpc] at hc
      rw [← hfile]
      exact callSound_lookedUp hc
    | accepted key fingerprint hpc => cases hok
    | pinned key nowMs order hpc hfile =>
      rw [hpc] at hc
      exact callSound_pinned hc hfile
    | failed e => trivial
  rw [hok] at hsound
  exact hsound

theorem Change.entry_of_some (h : Change keys path s l s')
    (hentry : keys.entry path s.file slug = some entry) :
    keys.entry path s'.file slug = some entry := by
  cases h with
  | pinned i c key nowMs | preapproved slug' endpointId key nowMs =>
    exact Keys.entry_pinPreapproved hentry _ _ _ _
  | _ => exact hentry

end Tofu

end Zyris.P2p
