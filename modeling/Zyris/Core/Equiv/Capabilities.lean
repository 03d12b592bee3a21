import Zyris.Core.Capabilities

/-!
# Concurrent changes of the served set

Two calls may both copy the same list, and the later swap then drops the earlier one's change
(`add_lost_between_copy_and_swap`).  Nothing is lost when no call swaps while another one stands
between its copy and its swap (`swapsAlone`): what it copied is then still what it would copy when
it swaps (`CapabilitySet.Current`).
-/

namespace Zyris.Core

open Proto

/-! ### Calls that run alone -/

/-- The call with nobody else around: what it leaves served, if it succeeds. -/
def Change.alone (c : Change) (served : Served) : Option Served :=
  (c.copy served).bind fun next => (Served.build next).toOption

/-- Calls one after another, all of them successful. -/
def sequential : List Change → Served → Option Served
  | [], served => some served
  | c :: cs, served => (c.alone served).bind (sequential cs)

theorem sequential_append (cs cs' : List Change) (served : Served) :
    sequential (cs ++ cs') served = (sequential cs served).bind (sequential cs') := by
  induction cs generalizing served with
  | nil => rfl
  | cons c cs ih =>
    cases h : c.alone served with
    | none => simp [sequential, h]
    | some served' => simp [sequential, h, ih]

variable {caps : List Capability} {served served' init : Served} {c : Change} {cap : Capability}
  {cs : List Change} {s s' : CapabilitySet} {a : ChangeAct}

theorem Served.buildLoop_descriptors {ds ds' : List CapabilityDescriptor}
    {byName byName' : Table String Capability}
    (h : Served.buildLoop caps ds byName = .ok (ds', byName')) :
    ds' = ds ++ caps.map Capability.descriptor := by
  induction caps generalizing ds byName with
  | nil =>
    obtain ⟨rfl, -⟩ : ds = ds' ∧ byName = byName' := by simpa [Served.buildLoop] using h
    simp
  | cons c caps ih =>
    unfold Served.buildLoop at h
    simp only at h
    split_ifs at h
    rw [ih h]
    simp

theorem Served.build_ok (h : Served.build caps = .ok served) :
    served.capabilities = caps ∧ served.descriptors = caps.map Capability.descriptor := by
  unfold Served.build at h
  split at h
  · rename_i ds byName hl
    obtain rfl := Except.ok.inj h
    exact ⟨rfl, by simpa using Served.buildLoop_descriptors hl⟩
  · exact absurd h (by simp)

theorem filter_zip_descriptors (caps : List Capability) (name : String) :
    ((caps.zip (caps.map Capability.descriptor)).filter fun p => p.2.name ≠ name).map Prod.fst =
      caps.filter fun c => c.descriptor.name ≠ name := by
  induction caps with
  | nil => rfl
  | cons c caps ih =>
    rw [List.map_cons, List.zip_cons_cons, List.filter_cons, List.filter_cons]
    split_ifs with h
    · rw [List.map_cons, ih]
    · exact ih

theorem Change.alone_eq_some (h : c.alone served = some served') :
    ∃ next, c.copy served = some next ∧ Served.build next = .ok served' := by
  obtain ⟨next, hn, hb⟩ := Option.bind_eq_some_iff.mp h
  refine ⟨next, hn, ?_⟩
  cases hk : Served.build next with
  | ok sv => rw [hk] at hb; rw [Option.some.inj hb]
  | error e => rw [hk] at hb; exact absurd hb (by simp [Except.toOption])

/-- A call that is not the removal of a served capability's name leaves it served. -/
theorem Change.mem_of_alone (h : c.alone served = some served')
    (hd : served.descriptors = served.capabilities.map Capability.descriptor)
    (hm : cap ∈ served.capabilities) (hc : c ≠ .remove cap.descriptor.name) :
    cap ∈ served'.capabilities := by
  obtain ⟨next, hn, hb⟩ := Change.alone_eq_some h
  rw [(Served.build_ok hb).1]
  cases c with
  | add new =>
    obtain rfl : served.capabilities ++ [new] = next := by simpa [Change.copy] using hn
    exact List.mem_append_left _ hm
  | remove name =>
    simp only [Change.copy] at hn
    split_ifs at hn
    obtain rfl := Option.some.inj hn
    rw [hd, filter_zip_descriptors, List.mem_filter]
    refine ⟨hm, ?_⟩
    rw [decide_eq_true_eq]
    exact fun he => hc (by rw [he])

theorem mem_of_sequential (h : sequential cs served = some served')
    (hd : served.descriptors = served.capabilities.map Capability.descriptor)
    (hm : cap ∈ served.capabilities) (hc : .remove cap.descriptor.name ∉ cs) :
    cap ∈ served'.capabilities := by
  induction cs generalizing served with
  | nil =>
    obtain rfl := Option.some.inj h
    exact hm
  | cons c cs ih =>
    obtain ⟨mid, hmid, hrest⟩ := Option.bind_eq_some_iff.mp h
    rw [List.mem_cons, not_or] at hc
    obtain ⟨next, -, hb⟩ := Change.alone_eq_some hmid
    have hd' : mid.descriptors = mid.capabilities.map Capability.descriptor := by
      rw [(Served.build_ok hb).2, (Served.build_ok hb).1]
    exact ih hrest hd' (Change.mem_of_alone hmid hd hm (Ne.symm hc.1)) hc.2

/-- In a sequence of calls, what one of them added and none removed is served at the end. -/
theorem mem_of_add_mem (h : sequential cs served = some served') (hadd : .add cap ∈ cs)
    (hc : .remove cap.descriptor.name ∉ cs) : cap ∈ served'.capabilities := by
  obtain ⟨before, after, rfl⟩ := List.append_of_mem hadd
  rw [sequential_append] at h
  obtain ⟨mid, -, hrest⟩ := Option.bind_eq_some_iff.mp h
  obtain ⟨added, ha, hafter⟩ := Option.bind_eq_some_iff.mp hrest
  obtain ⟨next, hn, hb⟩ := Change.alone_eq_some ha
  obtain rfl : mid.capabilities ++ [cap] = next := by simpa [Change.copy] using hn
  obtain ⟨hcaps, hds⟩ := Served.build_ok hb
  refine mem_of_sequential hafter (by rw [hds, hcaps]) (by simp [hcaps]) fun hr => hc ?_
  exact List.mem_append_right _ (List.mem_cons_of_mem _ hr)

/-! ### What a step can do -/

/-- The call's set has been swapped in. -/
def ChangePc.Swapped : ChangePc → Prop
  | .propagating _ => True
  | .returned (.ok b) => b = true
  | _ => False

/-- A call starts, or moves on with the set as it is, or swaps its set in. -/
theorem CapabilitySet.step_cases (h : s.step a = some s') :
    (∃ change, a = .call change ∧ s' = { s with calls := s.calls.alloc ⟨change, .started⟩ }) ∨
    (∃ i c pc, a = .run i ∧ s.calls.get i = some c ∧ s' = s.move i pc ∧
      (pc.Swapped ↔ c.pc.Swapped) ∧
      (∀ next, pc = .copied next → c.change.copy s.served = some next) ∧
      ∀ built, pc = .built built →
        ∃ next, c.pc = .copied next ∧ Served.build next = .ok built) ∨
    ∃ i c built, a = .run i ∧ s.calls.get i = some c ∧ c.pc = .built built ∧
      s' = { s.move i (.propagating (s.served.revokedBy built)) with served := built } := by
  cases a with
  | call change => exact .inl ⟨change, rfl, (Option.some.inj h).symm⟩
  | run i =>
    obtain ⟨c, hc, h⟩ := Option.bind_eq_some_iff.mp h
    right
    cases hpc : c.pc with
    | started =>
      simp only [hpc] at h
      left
      split at h <;> obtain rfl := Option.some.inj h
      · next hnext _ =>
        refine ⟨i, c, _, rfl, hc, rfl, by simp [hpc, ChangePc.Swapped], fun next heq => ?_, by simp⟩
        rw [hnext, ChangePc.copied.inj heq]
      · exact ⟨i, c, _, rfl, hc, rfl, by simp [hpc, ChangePc.Swapped], by simp, by simp⟩
    | copied next =>
      simp only [hpc] at h
      left
      rcases hb : Served.build next with _ | built <;> rw [hb] at h
      · obtain rfl := Option.some.inj h
        refine ⟨i, c, _, rfl, hc, rfl, ?_, by simp, by simp⟩
        cases hch : c.change <;> simp [hpc, Change.refused, ChangePc.Swapped]
      obtain rfl := Option.some.inj h
      refine ⟨i, c, _, rfl, hc, rfl, by simp [hpc, ChangePc.Swapped], by simp, fun sv hsv => ?_⟩
      exact ⟨next, hpc, by rw [hb, ChangePc.built.inj hsv]⟩
    | built built =>
      simp only [hpc] at h
      exact .inr ⟨i, c, built, rfl, hc, hpc, (Option.some.inj h).symm⟩
    | propagating revoked =>
      simp only [hpc] at h
      obtain rfl := Option.some.inj h
      exact .inl ⟨i, c, _, rfl, hc, rfl, by simp [hpc, ChangePc.Swapped], by simp, by simp⟩
    | returned r =>
      simp only [hpc] at h
      exact absurd h (by simp)

/-! ### The order of the swaps -/

/-- The call has copied the list and not swapped yet. -/
def ChangePc.isMidway : ChangePc → Bool
  | .copied _ => true
  | .built _ => true
  | _ => false

/-- No call swaps while another one stands between its copy and its swap. -/
def swapsAlone (s : CapabilitySet) : ChangeAct → Bool
  | .run i => match s.calls.get i with
    | some ⟨_, .built _⟩ => (List.range s.calls.size).all fun j =>
        j = i || (s.calls.get j).all fun d => !d.pc.isMidway
    | _ => true
  | _ => true

theorem not_midway_of_swapsAlone {i j : Nat} {c d : Changing} {built : Served}
    (h : swapsAlone s (.run i) = true) (hi : s.calls.get i = some c) (hpc : c.pc = .built built)
    (hne : j ≠ i) (hj : s.calls.get j = some d) : d.pc.isMidway = false := by
  obtain ⟨change, pc⟩ := c
  obtain rfl : pc = .built built := hpc
  simp only [swapsAlone, hi, List.all_eq_true, List.mem_range] at h
  simpa [hne, hj] using h j (Arena.lt_size_of_get hj)

/-- What the calls with these handles are. -/
def CapabilitySet.changes (s : CapabilitySet) (order : List Nat) : List Change :=
  order.filterMap fun i => (s.calls.get i).map Changing.change

/-- `order` lists the calls that have swapped; run alone in this order they give the served set. -/
structure CapabilitySet.Linearized (init : Served) (s : CapabilitySet) (order : List Nat) :
    Prop where
  nodup : order.Nodup
  mem_iff : ∀ i, i ∈ order ↔ ∃ c, s.calls.get i = some c ∧ c.pc.Swapped
  served : sequential (s.changes order) init = some s.served

/-- What a call has copied is what it would copy now, and what it has built is made of that. -/
structure CapabilitySet.Current (s : CapabilitySet) : Prop where
  copied : ∀ i c next, s.calls.get i = some c → c.pc = .copied next →
    c.change.copy s.served = some next
  built : ∀ i c built, s.calls.get i = some c → c.pc = .built built →
    c.change.copy s.served = some built.capabilities ∧
      Served.build built.capabilities = .ok built

/-- A swap leaves the others nothing to be wrong about: none of them has copied. -/
theorem CapabilitySet.Current.step (hs : s.Current) (h : s.step a = some s')
    (hok : swapsAlone s a = true) : s'.Current := by
  rcases CapabilitySet.step_cases h with ⟨change, -, rfl⟩ |
    ⟨i, c, pc, -, hi, rfl, -, hcopied, hbuilt⟩ | ⟨i, c, new, rfl, hi, hpc, rfl⟩
  · refine ⟨fun j d next hj hd => ?_, fun j d built hj hd => ?_⟩ <;>
      rcases Arena.get_alloc_cases hj with ⟨-, rfl⟩ | hj
    · cases hd
    · exact hs.copied j d next hj hd
    · cases hd
    · exact hs.built j d built hj hd
  · refine ⟨fun j d next hj hd => ?_, fun j d built hj hd => ?_⟩ <;>
      rcases Arena.get_update_known hi hj with ⟨-, rfl⟩ | ⟨-, hj⟩
    · exact hcopied next hd
    · exact hs.copied j d next hj hd
    · obtain ⟨next, hnext, hb⟩ := hbuilt built hd
      rw [(Served.build_ok hb).1]
      exact ⟨hs.copied i c next hi hnext, hb⟩
    · exact hs.built j d built hj hd
  · have hmidway {j : Nat} {d : Changing} (hd : d.pc.isMidway = true) :
        (s.move i (.propagating (s.served.revokedBy new))).calls.get j ≠ some d := by
      intro hj
      rcases Arena.get_update_known hi hj with ⟨-, rfl⟩ | ⟨hne, hj⟩
      · cases hd
      · rw [not_midway_of_swapsAlone hok hi hpc hne hj] at hd
        cases hd
    exact ⟨fun j d next hj hd => absurd hj (hmidway (by rw [hd]; rfl)),
      fun j d built hj hd => absurd hj (hmidway (by rw [hd]; rfl))⟩

theorem CapabilitySet.changes_move (s : CapabilitySet) (i : Nat) (pc : ChangePc)
    (order : List Nat) : (s.move i pc).changes order = s.changes order := by
  refine List.filterMap_congr fun j _ => ?_
  simp only [CapabilitySet.move, Arena.get_update]
  split_ifs with h
  · rw [h, Option.map_map]
    rfl
  · rfl

/-- A step extends the order by at most the call that swaps in it. -/
theorem CapabilitySet.linearized_step {order : List Nat} (h : s.step a = some s')
    (hcur : s.Current) (hs : s.Linearized init order) :
    ∃ order', s'.Linearized init order' := by
  rcases CapabilitySet.step_cases h with ⟨change, -, rfl⟩ | ⟨i, c, pc, -, hi, rfl, hsw, -, -⟩ |
    ⟨i, c, built, rfl, hi, hpc, rfl⟩
  · refine ⟨order, hs.nodup, fun j => ?_, ?_⟩
    · rw [hs.mem_iff]
      simp only [Arena.get_alloc]
      split_ifs with hj
      · subst hj
        simp [Arena.get_size, ChangePc.Swapped]
      · rfl
    · rw [← hs.served]
      congr 1
      refine List.filterMap_congr fun j hj => ?_
      obtain ⟨c, hc, -⟩ := (hs.mem_iff j).mp hj
      simp [Nat.ne_of_lt (Arena.lt_size_of_get hc)]
  · refine ⟨order, hs.nodup, fun j => ?_, by rw [changes_move]; exact hs.served⟩
    rw [hs.mem_iff]
    simp only [CapabilitySet.move, Arena.get_update, hi]
    split_ifs with hj
    · subst hj
      simp [hi, hsw]
    · rfl
  · -- the swapping call goes to the end of the order
    have hnot : i ∉ order := by
      rw [hs.mem_iff]
      rintro ⟨d, hd, hsw⟩
      obtain rfl := Option.mem_unique hi hd
      rw [hpc] at hsw
      exact hsw
    refine ⟨order ++ [i], ?_, fun j => ?_, ?_⟩
    · rw [List.nodup_append]
      exact ⟨hs.nodup, List.nodup_singleton i, by simp only [List.mem_singleton]; grind⟩
    · rw [List.mem_append, List.mem_singleton, hs.mem_iff]
      simp only [CapabilitySet.move, Arena.get_update, hi]
      split_ifs with hj
      · subst hj
        simp [ChangePc.Swapped]
      · simp [hj]
    · show sequential ((s.move i _).changes (order ++ [i])) init = some built
      have halone : c.change.alone s.served = some built := by
        obtain ⟨hcopy, hb⟩ := hcur.built i c built hi hpc
        rw [Change.alone, hcopy, Option.bind_some, hb]
        rfl
      rw [changes_move, CapabilitySet.changes, List.filterMap_append, sequential_append]
      show (sequential (s.changes order) init).bind _ = _
      rw [hs.served]
      simp [hi, sequential, halone]

/-- **Run lemma**: along a run that meets the condition the served set is a sequential one. -/
theorem CapabilitySet.linearized {as : List ChangeAct}
    (h : Run (Guarded (Steps CapabilitySet.step) (swapsAlone · ·)) (.start init) as s) :
    s.Current ∧ ∃ order, s.Linearized init order := by
  refine h.state_invariant (I := fun s => s.Current ∧ ∃ order, s.Linearized init order) ?_ ?_
  · have hnone (i : Nat) (c : Changing) : (CapabilitySet.start init).calls.get i ≠ some c := by
      simp [CapabilitySet.start]
    exact ⟨⟨fun i c _ hi => absurd hi (hnone i c), fun i c _ hi => absurd hi (hnone i c)⟩, [],
      List.nodup_nil, fun i => by simp [hnone], rfl⟩
  · rintro s a s' ⟨hcur, order, hl⟩ ⟨hs, hok⟩
    exact ⟨hcur.step hs hok, linearized_step hs hcur hl⟩

/-! ### Once every call has returned -/

def Changing.hasReturned (c : Changing) : Bool :=
  match c.pc with
  | .returned _ => true
  | _ => false

/-- The call returned `Ok`, or `true`. -/
def Changing.succeeded (c : Changing) : Bool :=
  match c.pc with
  | .returned (.ok b) => b
  | _ => false

theorem Changing.swapped_iff {c : Changing} (h : c.hasReturned) :
    c.pc.Swapped ↔ c.succeeded = true := by
  unfold Changing.hasReturned at h
  split at h
  · rename_i r hr
    cases r <;> simp [Changing.succeeded, hr, ChangePc.Swapped]
  · exact absurd h (by simp)

/-- **Concurrent changes are not lost as long as no swap comes between a call's copy and its swap.**
When all calls have returned, the served set is the one the successful calls give one after another
in some order, and every capability added and not removed by a successful call is served. -/
theorem changes_linearize_of_swapsAlone {init : Served} {as : List ChangeAct} {s : CapabilitySet}
    (h : Run (Guarded (Steps CapabilitySet.step) (swapsAlone · ·)) (.start init) as s)
    (hret : ∀ c ∈ s.calls.objects, c.hasReturned) :
    (∃ order : List Nat, order.Nodup ∧
      (∀ i, i ∈ order ↔ ∃ c, s.calls.get i = some c ∧ c.succeeded) ∧
      sequential (s.changes order) init = some s.served) ∧
    ∀ c ∈ s.calls.objects, ∀ cap, c.change = .add cap → c.succeeded →
      (∀ d ∈ s.calls.objects, d.change = .remove cap.descriptor.name → ¬ d.succeeded) →
      cap ∈ s.served.capabilities := by
  obtain ⟨-, order, hl⟩ := CapabilitySet.linearized h
  have hmem (i : Nat) : i ∈ order ↔ ∃ c, s.calls.get i = some c ∧ c.succeeded := by
    rw [hl.mem_iff]
    exact exists_congr fun c => and_congr_right fun hc =>
      Changing.swapped_iff (hret c (Arena.mem_objects_of_get hc))
  refine ⟨⟨order, hl.nodup, hmem, hl.served⟩, fun c hc cap hadd hsucc hrem => ?_⟩
  obtain ⟨i, hi⟩ := Arena.mem_objects_iff.mp hc
  refine mem_of_add_mem hl.served ?_ fun hr => ?_
  · exact List.mem_filterMap.mpr ⟨i, (hmem i).mpr ⟨c, hi, hsucc⟩, by rw [hi, Option.map_some, hadd]⟩
  · obtain ⟨j, hj, hd⟩ := List.mem_filterMap.mp hr
    obtain ⟨d, hjd, hds⟩ := (hmem j).mp hj
    rw [hjd, Option.map_some] at hd
    exact hrem d (Arena.mem_objects_of_get hjd) (Option.some.inj hd) hds

/-- Two `add`s, the second of which copies after the first has swapped. -/
theorem changes_linearize_sequential_adds :
    ∃ s, Run (Guarded (Steps CapabilitySet.step) (swapsAlone · ·)) (.start .default)
        [.call (.add (.bare 0 "terminal")), .call (.add (.bare 1 "file_io")),
          .run 0, .run 0, .run 0, .run 1, .run 1, .run 1, .run 0, .run 1] s ∧
      (∀ c ∈ s.calls.objects, c.hasReturned) ∧
      Capability.bare 0 "terminal" ∈ s.served.capabilities := by
  obtain ⟨s, hrun, hret, hsucc, hrem, c, hc, hadd⟩ := exists_run_of_execOk
    CapabilitySet.step swapsAlone (.start .default)
    [.call (.add (.bare 0 "terminal")), .call (.add (.bare 1 "file_io")),
      .run 0, .run 0, .run 0, .run 1, .run 1, .run 1, .run 0, .run 1]
    (fun s => (∀ c ∈ s.calls.objects, c.hasReturned) ∧ (∀ c ∈ s.calls.objects, c.succeeded) ∧
      (∀ c ∈ s.calls.objects, c.change ≠ .remove "terminal") ∧
      ∃ c ∈ s.calls.objects, c.change = .add (.bare 0 "terminal")) rfl
  refine ⟨s, hrun, hret, ?_⟩
  exact (changes_linearize_of_swapsAlone hrun hret).2 c hc _ hadd (hsucc c hc)
    fun d hd hdr => absurd hdr (hrem d hd)

/-- Two `add`s copy before either swaps: both return `Ok`, and the first capability is gone. -/
theorem add_lost_between_copy_and_swap :
    ∃ s, Run (Steps CapabilitySet.step) (.start .default)
        [.call (.add (.bare 0 "terminal")), .call (.add (.bare 1 "file_io")),
          .run 0, .run 1, .run 0, .run 1, .run 0, .run 1, .run 0, .run 1] s ∧
      (∀ c ∈ s.calls.objects, c.succeeded) ∧ s.served.keys = [("file_io", 1)] :=
  exists_run_of_exec _ _ _ _ rfl

end Zyris.Core
