import Zyris.Core.Equiv.Capabilities
import Mathlib.Data.List.Nodup

/-!
# The served set is well-formed

`Served` keeps what it serves three times: the capabilities, their descriptors, and the capabilities
by name.  `Served::build` makes the three agree and refuses two capabilities of the same name and
version, and nothing else.
-/

namespace Zyris.Core

open Proto

/-- What `build` takes a capability by. -/
def Capability.key (c : Capability) : String × Nat := (c.descriptor.name, c.descriptor.version)

/-- The three parts of a served set agree, and nothing is served twice. -/
structure Served.WellFormed (s : Served) : Prop where
  length : s.capabilities.length = s.descriptors.length
  descriptors : ∀ i : Nat, s.descriptors[i]? = (s.capabilities[i]?).map Capability.descriptor
  nodup : s.keys.Nodup
  byName : ∀ name, (s.byName.get name).isSome = true ↔ ∃ d ∈ s.descriptors, d.name = name
  named : ∀ name c, s.byName.get name = some c →
    c ∈ s.capabilities ∧ c.descriptor.name = name

/-! ### `Served::build` -/

/-- The loop of `build` after the capabilities in `done`. -/
structure Served.Built (done : List Capability) (ds : List CapabilityDescriptor)
    (table : Table String Capability) : Prop where
  descriptors : ds = done.map Capability.descriptor
  nodup : (done.map Capability.key).Nodup
  byName : ∀ name, (table.get name).isSome = true ↔ ∃ c ∈ done, c.descriptor.name = name
  named : ∀ name c, table.get name = some c → c ∈ done ∧ c.descriptor.name = name

variable {done caps : List Capability} {ds : List CapabilityDescriptor}
  {byName : Table String Capability}

theorem Served.Built.seen_iff (h : Built done ds byName) (c : Capability) :
    (ds.any fun seen =>
      seen.name = c.descriptor.name ∧ seen.version = c.descriptor.version) = true ↔
      c.key ∈ done.map Capability.key := by
  rw [h.descriptors, List.any_map, List.any_eq_true, List.mem_map]
  refine exists_congr fun x => and_congr_right fun _ => ?_
  simp [Capability.key]

theorem Served.Built.snoc (h : Built done ds byName) {c : Capability}
    (hc : c.key ∉ done.map Capability.key) :
    Built (done ++ [c]) (ds ++ [c.descriptor]) (byName.insert c.descriptor.name c) where
  descriptors := by rw [h.descriptors, List.map_append, List.map_singleton]
  nodup := by
    rw [List.map_append, List.map_singleton]
    refine List.Nodup.append h.nodup (List.nodup_singleton _) ?_
    intro k hk hk'
    rw [List.mem_singleton.mp hk'] at hk
    exact hc hk
  byName := by
    intro name
    rw [Table.get_insert]
    split
    · next heq =>
      refine iff_of_true rfl ⟨c, by simp, ?_⟩
      exact heq.symm
    next hne =>
    rw [h.byName]
    constructor
    · rintro ⟨x, hx, hname⟩
      exact ⟨x, List.mem_append_left _ hx, hname⟩
    · rintro ⟨x, hx, hname⟩
      rcases List.mem_append.mp hx with hx | hx
      · exact ⟨x, hx, hname⟩
      · rw [List.mem_singleton.mp hx] at hname
        exact absurd hname.symm hne
  named := by
    intro name x hx
    rcases Table.get_insert_cases hx with ⟨rfl, rfl⟩ | ⟨-, hx⟩
    · exact ⟨by simp, rfl⟩
    · obtain ⟨hmem, hname⟩ := h.named name x hx
      exact ⟨List.mem_append_left _ hmem, hname⟩

/-- The loop goes through exactly when no key comes twice. -/
theorem Served.buildLoop_spec (h : Built done ds byName) (rest : List Capability) :
    (∃ ds' byName', buildLoop rest ds byName = .ok (ds', byName') ∧
      Built (done ++ rest) ds' byName') ∨
    (∃ e, buildLoop rest ds byName = .error e) ∧ ¬ ((done ++ rest).map Capability.key).Nodup := by
  induction rest generalizing done ds byName with
  | nil => exact .inl ⟨ds, byName, rfl, by rwa [List.append_nil]⟩
  | cons c rest ih =>
    rw [buildLoop]
    by_cases hc : c.key ∈ done.map Capability.key
    · right
      rw [if_pos ((h.seen_iff c).mpr hc)]
      refine ⟨⟨_, rfl⟩, fun hnodup => ?_⟩
      rw [List.map_append, List.map_cons] at hnodup
      exact List.disjoint_of_nodup_append hnodup hc (by simp)
    · rw [if_neg (mt (h.seen_iff c).mp hc), List.append_cons done c rest]
      exact ih (h.snoc hc)

theorem Served.built_empty : Built [] [] Table.empty where
  descriptors := rfl
  nodup := List.nodup_nil
  byName := by simp
  named := by simp

theorem Served.wellFormed_of_build {s : Served} (h : Served.build caps = .ok s) :
    s.WellFormed ∧ s.capabilities = caps := by
  unfold Served.build at h
  rcases buildLoop_spec built_empty caps with ⟨ds, byName, hloop, hbuilt⟩ | ⟨⟨e, hloop⟩, -⟩
  · rw [hloop] at h
    obtain rfl := Except.ok.inj h
    rw [List.nil_append] at hbuilt
    refine ⟨⟨?_, ?_, ?_, ?_, hbuilt.named⟩, rfl⟩
    · rw [hbuilt.descriptors, List.length_map]
    · intro i
      rw [hbuilt.descriptors, List.getElem?_map]
    · have hkeys : Served.keys ⟨caps, ds, byName⟩ = caps.map Capability.key := by
        rw [Served.keys, hbuilt.descriptors, List.map_map]
        rfl
      rw [hkeys]
      exact hbuilt.nodup
    · intro name
      rw [hbuilt.byName, hbuilt.descriptors]
      simp only [List.mem_map, exists_exists_and_eq_and]
  · rw [hloop] at h
    cases h

theorem Served.exists_build (h : (caps.map Capability.key).Nodup) :
    ∃ s, Served.build caps = .ok s := by
  unfold Served.build
  rcases buildLoop_spec built_empty caps with ⟨ds, byName, hloop, -⟩ | ⟨-, hnot⟩
  · rw [hloop]
    exact ⟨_, rfl⟩
  · exact absurd h hnot

/-! ### One call -/

namespace Served

variable {s : Served}

theorem WellFormed.descriptors_eq (h : s.WellFormed) :
    s.descriptors = s.capabilities.map Capability.descriptor := by
  refine List.ext_getElem? fun i => ?_
  rw [h.descriptors, List.getElem?_map]

theorem WellFormed.nodup_keys (h : s.WellFormed) : (s.capabilities.map Capability.key).Nodup := by
  have hkeys : s.keys = s.capabilities.map Capability.key := by
    rw [keys, h.descriptors_eq, List.map_map]
    rfl
  exact hkeys ▸ h.nodup

theorem WellFormed.default : Served.default.WellFormed where
  length := rfl
  descriptors := fun _ => rfl
  nodup := List.nodup_nil
  byName := by simp [Served.default]
  named := by simp [Served.default]

theorem replace_cases (s : Served) (caps : List Capability) :
    ((s.replace caps).served.WellFormed ∧ (s.replace caps).served.capabilities = caps ∧
      (s.replace caps).result = .ok true) ∨
    ∃ e, s.replace caps = ⟨s, .error e, none⟩ ∧ ¬ (caps.map Capability.key).Nodup := by
  rcases hb : Served.build caps with e | _
  · refine .inr ⟨e, by unfold replace; rw [hb], fun hnodup => ?_⟩
    obtain ⟨built, hbuilt⟩ := exists_build hnodup
    rw [hb] at hbuilt
    cases hbuilt
  left
  obtain ⟨hwf, hcaps⟩ := wellFormed_of_build hb
  unfold replace
  rw [hb]
  exact ⟨hwf, hcaps, rfl⟩

theorem push_cases (s : Served) (c : Capability) :
    ((s.push c).served.WellFormed ∧ (s.push c).result = .ok true) ∨
    ∃ e, s.push c = ⟨s, .error e, none⟩ := by
  rcases hb : Served.build (s.capabilities ++ [c]) with e | _
  · exact .inr ⟨e, by unfold push; rw [hb]⟩
  left
  unfold push
  rw [hb]
  exact ⟨(wellFormed_of_build hb).1, rfl⟩

theorem remove_cases (h : s.WellFormed) (name : String) :
    (s.remove name = ⟨s, .ok false, none⟩ ∧ ∀ d ∈ s.descriptors, d.name ≠ name) ∨
    (s.remove name).served.WellFormed ∧ (s.remove name).result = .ok true ∧
      (∃ d ∈ s.descriptors, d.name = name) ∧
      (s.remove name).served.capabilities =
        s.capabilities.filter fun c => c.descriptor.name ≠ name := by
  cases hget : s.byName.get name with
  | none =>
    left
    have hcopy : (Change.remove name).copy s = none := by simp [Change.copy, hget]
    refine ⟨by unfold remove; rw [hcopy], fun d hd hname => ?_⟩
    have hsome := (h.byName name).mpr ⟨d, hd, hname⟩
    rw [hget] at hsome
    cases hsome
  | some c =>
    right
    have hthere := (h.byName name).mp (by rw [hget]; rfl)
    have hcopy : (Change.remove name).copy s =
        some (s.capabilities.filter fun c => c.descriptor.name ≠ name) := by
      rw [← filter_zip_descriptors, ← h.descriptors_eq]
      simp [Change.copy, hget]
    unfold remove
    rw [hcopy]
    rcases s.replace_cases (s.capabilities.filter fun c => c.descriptor.name ≠ name) with
      ⟨hwf, hcaps, hresult⟩ | ⟨e, -, hnot⟩
    · exact ⟨hwf, by simp only [hresult]; rfl, hthere, hcaps⟩
    · -- what is left of a set without duplicates has none
      exact absurd (h.nodup_keys.sublist (List.filter_sublist.map _)) hnot

/-- A change that nobody interrupts between its copy and its swap is such a call. -/
theorem served_call_of_change (s : Served) (c : Change) :
    (s.call (match c with
      | .add capability => .addArc capability
      | .remove name => .remove name)).served = (c.alone s).getD s := by
  have hreplace (caps : List Capability) :
      (s.replace caps).served = ((Served.build caps).toOption).getD s := by
    unfold replace
    cases Served.build caps <;> rfl
  cases c with
  | add capability => exact hreplace _
  | remove name =>
    simp only [call, remove, Change.alone]
    cases (Change.remove name).copy s with
    | none => rfl
    | some next => exact hreplace next

theorem WellFormed.call (h : s.WellFormed) (c : SetCall) : (s.call c).served.WellFormed := by
  have hreplace (caps : List Capability) : (s.replace caps).served.WellFormed := by
    rcases s.replace_cases caps with ⟨hwf, -, -⟩ | ⟨e, hcall, -⟩
    · exact hwf
    · rw [hcall]
      exact h
  cases c with
  | push c =>
    show (s.push c).served.WellFormed
    rcases s.push_cases c with ⟨hwf, -⟩ | ⟨e, hcall⟩
    · exact hwf
    · rw [hcall]
      exact h
  | addArc c => exact hreplace _
  | remove name =>
    show (s.remove name).served.WellFormed
    rcases remove_cases h name with ⟨hcall, -⟩ | ⟨hwf, -⟩
    · rw [hcall]
      exact h
    · exact hwf
  | replace caps => exact hreplace caps

theorem WellFormed.calls (h : s.WellFormed) (cs : List SetCall) : (s.calls cs).WellFormed := by
  induction cs generalizing s with
  | nil => exact h
  | cons c cs ih => exact ih (h.call c)

/-- A call that returns an error, or `false`, has done nothing. -/
theorem WellFormed.call_failed (h : s.WellFormed) {c : SetCall}
    (hfailed : (s.call c).result ≠ .ok true) :
    (s.call c).served = s ∧ (s.call c).propagated = none := by
  have hreplace (caps : List Capability) (hr : (s.replace caps).result ≠ .ok true) :
      (s.replace caps).served = s ∧ (s.replace caps).propagated = none := by
    rcases s.replace_cases caps with ⟨-, -, hok⟩ | ⟨e, hcall, -⟩
    · exact absurd hok hr
    · rw [hcall]
      exact ⟨rfl, rfl⟩
  cases c with
  | push c =>
    rcases s.push_cases c with ⟨-, hok⟩ | ⟨e, hcall⟩
    · exact absurd hok hfailed
    · show (s.push c).served = s ∧ (s.push c).propagated = none
      rw [hcall]
      exact ⟨rfl, rfl⟩
  | addArc c => exact hreplace _ hfailed
  | remove name =>
    rcases remove_cases h name with ⟨hcall, -⟩ | ⟨-, hok, -⟩
    · show (s.remove name).served = s ∧ (s.remove name).propagated = none
      rw [hcall]
      exact ⟨rfl, rfl⟩
    · exact absurd hok hfailed
  | replace caps => exact hreplace caps hfailed

end Served

/-- **The served set stays well-formed** after any calls of `push`, `add_arc`, `remove` and
`replace`, one after another.  The next `remove` leaves exactly the descriptors of another name, in
their order, and tells whether there was one of this name; and a call that returns an error, or
`false`, changes nothing, revokes nothing and announces nothing. -/
theorem calls_wellFormed (cs : List SetCall) :
    (Served.default.calls cs).WellFormed ∧
    (∀ name, ((Served.default.calls cs).remove name).served.descriptors =
        (Served.default.calls cs).descriptors.filter (fun d => d.name ≠ name) ∧
      (((Served.default.calls cs).remove name).result = .ok true ↔
        ∃ d ∈ (Served.default.calls cs).descriptors, d.name = name)) ∧
    ∀ c live, ((Served.default.calls cs).call c).result ≠ .ok true →
      ((Served.default.calls cs).call c).served = Served.default.calls cs ∧
      ((Served.default.calls cs).call c).tells live = [] := by
  have h := Served.WellFormed.default.calls cs
  generalize Served.default.calls cs = s at h
  refine ⟨h, fun name => ?_, fun c live hfailed => ?_⟩
  · rcases Served.remove_cases h name with ⟨hcall, hnone⟩ | ⟨hwf, hok, hthere, hcaps⟩
    · rw [hcall]
      constructor
      · refine (List.filter_eq_self.mpr fun d hd => ?_).symm
        exact decide_eq_true (hnone d hd)
      · refine iff_of_false nofun ?_
        rintro ⟨d, hd, hname⟩
        exact hnone d hd hname
    · refine ⟨?_, iff_of_true hok hthere⟩
      rw [hwf.descriptors_eq, hcaps, h.descriptors_eq, List.filter_map]
      rfl
  · obtain ⟨hserved, hpropagated⟩ := h.call_failed hfailed
    refine ⟨hserved, ?_⟩
    unfold Called.tells
    rw [hpropagated]

end Zyris.Core
