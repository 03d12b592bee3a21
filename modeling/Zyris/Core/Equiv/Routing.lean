import Zyris.Core.Connection.Reader
import Zyris.Core.Equiv.Capabilities

/-!
# Where a request for an announced tool goes

`handle_request` takes the method apart and looks its first part up in the map by name.  The split
gives a capability's name back exactly when that name has no dot, and of the capabilities of one
name the map holds the one built last; `announce` of a capability `zyris` is taken for the
protocol's own method.
-/

namespace Zyris.Proto

/-! ### Joining and splitting a method -/

theorem toList_methodName (capability tool : String) :
    (methodName capability tool).toList = capability.toList ++ '.' :: tool.toList := by
  simp [methodName]

theorem splitMethod_of_toList {method : String} {name tool : List Char}
    (hm : method.toList = name ++ '.' :: tool) (hname : '.' ∉ name) :
    splitMethod method = some (String.ofList name, String.ofList tool) := by
  have hall : ∀ c ∈ name, decide (c ≠ '.') = true := by
    intro c hc
    rw [decide_eq_true_eq]
    rintro rfl
    exact hname hc
  have hfirst : (name ++ '.' :: tool).takeWhile (fun c => decide (c ≠ '.')) = name := by
    rw [List.takeWhile_append_of_pos hall]
    simp
  unfold splitMethod
  rw [hm]
  simp only [hfirst, List.drop_left]

theorem splitMethod_methodName {capability : String} (h : '.' ∉ capability.toList) (tool : String) :
    splitMethod (methodName capability tool) = some (capability, tool) := by
  rw [splitMethod_of_toList (toList_methodName capability tool) h, String.ofList_toList,
    String.ofList_toList]

/-- A dot in the capability's name ends it early: what is left over goes to the tool. -/
theorem splitMethod_methodName_of_dot {capability : String} (h : '.' ∈ capability.toList)
    (tool : String) : ∃ name rest, splitMethod (methodName capability tool) = some (name, rest) ∧
      rest ≠ tool := by
  obtain ⟨name, rest, hsplit, hname⟩ := List.eq_append_cons_of_mem h
  have hm : (methodName capability tool).toList = name ++ '.' :: (rest ++ '.' :: tool.toList) := by
    rw [toList_methodName, hsplit, List.append_assoc, List.cons_append]
  refine ⟨_, _, splitMethod_of_toList hm hname, ?_⟩
  intro heq
  have hlen := congrArg (fun s => s.toList.length) heq
  simp only [String.toList_ofList, List.length_append, List.length_cons] at hlen
  omega

end Zyris.Proto

namespace Zyris.Core

open Proto

/-! ### The map by name -/

/-- A later capability takes the place of an earlier one of its name. -/
theorem Served.buildLoop_byName {caps : List Capability} {ds ds' : List CapabilityDescriptor}
    {byName byName' : Table String Capability}
    (h : Served.buildLoop caps ds byName = .ok (ds', byName')) (name : String) :
    byName'.get name =
      (caps.reverse.find? fun c => c.descriptor.name = name).or (byName.get name) := by
  induction caps generalizing ds byName with
  | nil =>
    obtain ⟨-, rfl⟩ : ds = ds' ∧ byName = byName' := by simpa [Served.buildLoop] using h
    rfl
  | cons c caps ih =>
    unfold Served.buildLoop at h
    simp only at h
    split_ifs at h
    rw [ih h, List.reverse_cons, List.find?_append, Option.or_assoc, Table.get_insert]
    -- both sides look among the later ones first, and then at `c`
    congr 1
    by_cases hc : name = c.descriptor.name
    · simp [hc]
    · simp [hc, Ne.symm hc]

theorem Served.get_byName {caps : List Capability} {served : Served}
    (h : Served.build caps = .ok served) (name : String) :
    served.byName.get name = caps.reverse.find? fun c => c.descriptor.name = name := by
  unfold Served.build at h
  split at h
  · rename_i ds byName hl
    obtain rfl := Except.ok.inj h
    simpa using Served.buildLoop_byName hl name
  · exact absurd h (by simp)

/-- The descriptor has a place in the list after which its name does not come again. -/
def LastOfName (d : CapabilityDescriptor) (ds : List CapabilityDescriptor) : Prop :=
  ∃ before after, ds = before ++ d :: after ∧ ∀ e ∈ after, e.name ≠ d.name

/-- The map has a capability with the descriptor under its name exactly when it is the last of its
name. -/
theorem Served.get_byName_iff {caps : List Capability} {served : Served}
    (h : Served.build caps = .ok served) (d : CapabilityDescriptor) :
    (∃ c ∈ caps, c.descriptor = d ∧ served.byName.get d.name = some c) ↔
      LastOfName d served.descriptors := by
  rw [(Served.build_ok h).2, Served.get_byName h]
  constructor
  · rintro ⟨c, -, hcd, hfind⟩
    obtain ⟨-, after, before, hrev, hafter⟩ := List.find?_eq_some_iff_append.mp hfind
    have hcaps : caps = before.reverse ++ c :: after.reverse := by
      rw [← List.reverse_inj, hrev]
      simp
    refine ⟨before.reverse.map Capability.descriptor, after.reverse.map Capability.descriptor,
      ?_, ?_⟩
    · rw [hcaps, List.map_append, List.map_cons, hcd]
    · intro e he
      obtain ⟨c', hc', rfl⟩ := List.mem_map.mp he
      simpa using hafter c' (List.mem_reverse.mp hc')
  · rintro ⟨before, after, hds, hafter⟩
    obtain ⟨capsBefore, rest, rfl, -, hrest⟩ := List.map_eq_append_iff.mp hds
    obtain ⟨c, capsAfter, rfl, hcd, hmap⟩ := List.map_eq_cons_iff.mp hrest
    refine ⟨c, by simp, hcd, List.find?_eq_some_iff_append.mpr ⟨by simp [hcd], ?_⟩⟩
    refine ⟨capsAfter.reverse, capsBefore.reverse, by simp, ?_⟩
    intro c' hc'
    have hne := hafter c'.descriptor (hmap ▸ List.mem_map_of_mem (List.mem_reverse.mp hc'))
    simpa using hne

/-! ### From the request to the capability -/

/-- The capability and the tool that the task of a request calls, if there is one. -/
def Serve.routes (cfg : Config) (v : Serve) (id : Nat) (method : String) (params : Payload)
    (stream : Option Nat) (metadata : Payload) : Option (Capability × String) :=
  match v.handleRequest cfg id method params stream metadata with
  | .accepted r => some (r.task.target, r.task.tool)
  | _ => none

theorem Serve.routes_eq (cfg : Config) (v : Serve) (id : Nat) (method : String) (params : Payload)
    (stream : Option Nat) (metadata : Payload) :
    v.routes cfg id method params stream metadata =
      if method = METHOD_ANNOUNCE then none
      else (splitMethod method).bind fun p => (v.served.byName.get p.1).map fun c => (c, p.2) := by
  unfold Serve.routes Serve.handleRequest
  by_cases hann : method = METHOD_ANNOUNCE
  · simp only [if_pos hann]
  simp only [if_neg hann]
  cases hsplit : splitMethod method with
  | none => rfl
  | some p =>
    cases hget : v.served.byName.get p.1 with
    | none => simp [hget]
    | some c => simp [hget, Accepted.task]

/-- A request for a tool of an announced descriptor reaches a capability with it, under the tool's
name, exactly when the method is not the announcement's own, the name has no dot and no capability
built later has it. -/
theorem routes_announced_iff {cfg : Config} {caps : List Capability} {v : Serve}
    (hbuild : Served.build caps = .ok v.served) (d : CapabilityDescriptor) (t : ToolDescriptor)
    (id : Nat) (params : Payload) (stream : Option Nat) (metadata : Payload) :
    (∃ capability ∈ caps, capability.descriptor = d ∧
      v.routes cfg id (methodName d.name t.name) params stream metadata =
        some (capability, t.name)) ↔
      methodName d.name t.name ≠ METHOD_ANNOUNCE ∧ '.' ∉ d.name.toList ∧
        LastOfName d v.served.descriptors := by
  rw [Serve.routes_eq, ← Served.get_byName_iff hbuild]
  by_cases hann : methodName d.name t.name = METHOD_ANNOUNCE
  · simp [hann]
  by_cases hdot : '.' ∈ d.name.toList
  · -- the tool the request is dispatched with is longer than the one announced
    obtain ⟨name, rest, hsplit, hrest⟩ := splitMethod_methodName_of_dot hdot t.name
    simp [hann, hdot, hsplit, hrest]
  · simp [hann, hdot, splitMethod_methodName hdot]

/-- `fs` v1 with a tool `read`. -/
def fsOne : Capability := ⟨0, ⟨"fs", 1, [⟨"read"⟩]⟩⟩

/-- `fs` v2 with a tool `read`. -/
def fsTwo : Capability := ⟨1, ⟨"fs", 2, [⟨"read"⟩]⟩⟩

/-- What serving both versions comes to. -/
def bothServed : Served :=
  ⟨[fsOne, fsTwo], [fsOne.descriptor, fsTwo.descriptor], Table.empty.insert "fs" fsTwo⟩

theorem build_both : Served.build [fsOne, fsTwo] = .ok bothServed := rfl

theorem routes_announced_iff_secondVersion :
    ∃ capability ∈ [fsOne, fsTwo], capability.descriptor = fsTwo.descriptor ∧
      (Shared.start bothServed).serve.routes (.bare .acceptor .msgpack) 1
        (methodName "fs" "read") .nil none .nil = some (capability, "read") := by
  refine (routes_announced_iff build_both fsTwo.descriptor ⟨"read"⟩ 1 .nil none .nil).mpr ?_
  exact ⟨by decide, by decide, [fsOne.descriptor], [], rfl, by simp⟩

/-- The first version is announced with its tool, and the request for it goes to the second. -/
theorem firstVersion_unreachable :
    Served.build [fsOne, fsTwo] = .ok bothServed ∧ fsOne.descriptor ∈ bothServed.descriptors ∧
      (⟨"read"⟩ : ToolDescriptor) ∈ fsOne.descriptor.tools ∧
      (Shared.start bothServed).serve.routes (.bare .acceptor .msgpack) 1
        (methodName "fs" "read") .nil none .nil = some (fsTwo, "read") ∧
      fsTwo.descriptor ≠ fsOne.descriptor :=
  ⟨build_both, by decide, by decide, by decide, by decide⟩

end Zyris.Core
