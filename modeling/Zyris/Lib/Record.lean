import Mathlib.Tactic.Common

/-!
# Records read by the names of their fields

A reader asks for one name at a time: a `required` field has to be there, a `defaulted` one may be
left out, and neither may be there twice.  All it sees of a record is therefore `values name`.
-/

namespace Zyris.Record

variable {α β γ : Type*} {name other : String} {fields : List (String × α)}

/-- What stands under a name, in order. -/
def values (name : String) (fields : List (String × α)) : List α :=
  fields.filterMap fun f => if f.1 = name then some f.2 else none

@[simp] theorem values_nil : values name ([] : List (String × α)) = [] := rfl

@[simp] theorem values_cons (v : α) :
    values name ((other, v) :: fields) =
      if other = name then v :: values name fields else values name fields := by
  unfold values
  split_ifs with h
  · rw [List.filterMap_cons_some (b := v)]
    exact if_pos h
  · rw [List.filterMap_cons_none]
    exact if_neg h

@[simp] theorem values_append (more : List (String × α)) :
    values name (fields ++ more) = values name fields ++ values name more :=
  List.filterMap_append

/-- A field that is written only if there is something to write. -/
@[simp] theorem values_toList (x : Option β) (write : β → α) :
    values name (x.map fun b => (other, write b)).toList =
      if other = name then (x.map write).toList else [] := by
  cases x with
  | none => split_ifs <;> rfl
  | some b =>
    show values name [(other, write b)] = _
    rw [values_cons, values_nil]
    rfl

theorem values_map (f : α → γ) :
    values name (fields.map fun e => (e.1, f e.2)) = (values name fields).map f := by
  induction fields with
  | nil => rfl
  | cons e fields ih =>
    rw [List.map_cons, values_cons, ih]
    obtain ⟨other, v⟩ := e
    rw [values_cons]
    split_ifs <;> rfl

/-! ### Readers -/

/-- A field that has to be there. -/
def required (name : String) (read : α → Option β) (fields : List (String × α)) : Option β :=
  match values name fields with
  | [v] => read v
  | _ => none

/-- A field that may be left out. -/
def defaulted (name : String) (dflt : β) (read : α → Option β) (fields : List (String × α)) :
    Option β :=
  match values name fields with
  | [] => some dflt
  | [v] => read v
  | _ => none

theorem required_eq {v : α} (h : values name fields = [v]) (read : α → Option β) :
    required name read fields = read v := by
  rw [required, h]

theorem defaulted_eq_read {v : α} (h : values name fields = [v]) (dflt : β)
    (read : α → Option β) : defaulted name dflt read fields = read v := by
  rw [defaulted, h]

theorem defaulted_eq_dflt (h : values name fields = []) (dflt : β) (read : α → Option β) :
    defaulted name dflt read fields = some dflt := by
  rw [defaulted, h]

end Zyris.Record
