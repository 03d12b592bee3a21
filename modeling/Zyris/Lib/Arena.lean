import Mathlib.Algebra.Order.Ring.Int
import Mathlib.Data.List.Basic
import Mathlib.Data.List.Forall2

/-!
# Arenas

Shared objects behind handles.  An object stays at the handle it was allocated at, and is changed
in place; `get_alloc`, `get_update` and `get_updateAll` say what a reader sees afterwards.  `total`
sums a measure over the objects and `total_update` says how a change moves it.
-/

namespace Zyris

/-- Objects in the order they were allocated; the handle of an object is its position. -/
structure Arena (α : Type*) where
  objects : List α

namespace Arena

variable {α : Type*} {a : Arena α} {i j : Nat} {x y : α} {f : α → α} {w : α → Nat}

def empty : Arena α := ⟨[]⟩

/-- The handle the next object gets. -/
def size (a : Arena α) : Nat := a.objects.length

def get (a : Arena α) (i : Nat) : Option α := a.objects[i]?

def alloc (a : Arena α) (x : α) : Arena α := ⟨a.objects ++ [x]⟩

/-- Change the object at `i`, if there is one. -/
def update (a : Arena α) (i : Nat) (f : α → α) : Arena α := ⟨a.objects.modify i f⟩

/-- Change the objects at the handles `is`. -/
def updateAll (a : Arena α) (is : List Nat) (f : α → α) : Arena α :=
  ⟨a.objects.mapIdx fun i x => if i ∈ is then f x else x⟩

@[simp] theorem get_empty (i : Nat) : (empty : Arena α).get i = none := rfl

@[simp] theorem size_alloc (a : Arena α) (x : α) : (a.alloc x).size = a.size + 1 := by
  simp [size, alloc]

@[simp] theorem size_update (a : Arena α) (i : Nat) (f : α → α) : (a.update i f).size = a.size := by
  simp [size, update]

@[simp] theorem size_updateAll (a : Arena α) (is : List Nat) (f : α → α) :
    (a.updateAll is f).size = a.size := by
  simp [size, updateAll]

theorem lt_size_of_get (h : a.get i = some x) : i < a.size :=
  (List.getElem?_eq_some_iff.mp h).1

theorem mem_objects_iff : x ∈ a.objects ↔ ∃ i, a.get i = some x :=
  List.mem_iff_getElem?

theorem mem_objects_of_get (h : a.get i = some x) : x ∈ a.objects := mem_objects_iff.mpr ⟨i, h⟩

theorem get_size (a : Arena α) : a.get a.size = none := by simp [get, size]

@[simp] theorem get_alloc (a : Arena α) (x : α) (i : Nat) :
    (a.alloc x).get i = if i = a.size then some x else a.get i := by
  unfold get alloc size
  rw [List.getElem?_append]
  split_ifs with h₁ h₂ h₂
  · omega
  · rfl
  · simp [h₂]
  · rw [List.getElem?_eq_none (by simp; omega), List.getElem?_eq_none (by omega)]

@[simp] theorem get_update (a : Arena α) (i : Nat) (f : α → α) (j : Nat) :
    (a.update i f).get j = if j = i then (a.get i).map f else a.get j := by
  unfold get update
  by_cases h : j = i
  · subst h
    simp
  · simp [h, Ne.symm h]

@[simp] theorem get_updateAll (a : Arena α) (is : List Nat) (f : α → α) (j : Nat) :
    (a.updateAll is f).get j = (a.get j).map fun x => if j ∈ is then f x else x := by
  simp [get, updateAll]

theorem get_alloc_of_get (h : a.get i = some x) (y : α) : (a.alloc y).get i = some x := by
  rw [get_alloc, if_neg (Nat.ne_of_lt (lt_size_of_get h)), h]

theorem get_alloc_cases (h : (a.alloc y).get i = some x) :
    (i = a.size ∧ x = y) ∨ a.get i = some x := by
  rw [get_alloc] at h
  split_ifs at h with hi
  · exact .inl ⟨hi, (Option.some.inj h).symm⟩
  · exact .inr h

theorem get_update_cases (h : (a.update i f).get j = some y) :
    (j = i ∧ ∃ x, a.get i = some x ∧ y = f x) ∨ (j ≠ i ∧ a.get j = some y) := by
  rw [get_update] at h
  split_ifs at h with hj
  · obtain ⟨x, hx, rfl⟩ := Option.map_eq_some_iff.mp h
    exact .inl ⟨hj, x, hx, rfl⟩
  · exact .inr ⟨hj, h⟩

/-- As `get_update_cases`, for an object that is known. -/
theorem get_update_known (hx : a.get i = some x) (h : (a.update i f).get j = some y) :
    (j = i ∧ y = f x) ∨ (j ≠ i ∧ a.get j = some y) := by
  rcases get_update_cases h with ⟨hj, x', hx', rfl⟩ | h
  · obtain rfl := Option.mem_unique hx hx'
    exact .inl ⟨hj, rfl⟩
  · exact .inr h

theorem get_update_self (h : a.get i = some x) (f : α → α) :
    (a.update i f).get i = some (f x) := by simp [h]

theorem eq_of_get_update (hx : a.get i = some x) (hy : (a.update i f).get i = some y) : y = f x :=
  Option.some.inj (hy.symm.trans (get_update_self hx f))

theorem get_update_of_ne (hne : j ≠ i) (h : a.get j = some x) (f : α → α) :
    (a.update i f).get j = some x := by simp [hne, h]

section Forall

variable {P : Nat → α → Prop} (h : ∀ i x, a.get i = some x → P i x)

include h

/-- What holds of every object, and of a new one, holds after its allocation. -/
theorem forall_alloc (hy : P a.size y) : ∀ i x, (a.alloc y).get i = some x → P i x := by
  intro i x hx
  rcases get_alloc_cases hx with ⟨rfl, rfl⟩ | hx
  · exact hy
  · exact h i x hx

/-- What holds of every object, and of the changed one, holds after the change. -/
theorem forall_update (hf : ∀ x, a.get i = some x → P i (f x)) :
    ∀ j y, (a.update i f).get j = some y → P j y := by
  intro j y hy
  rcases get_update_cases hy with ⟨rfl, x, hx, rfl⟩ | ⟨-, hy⟩
  · exact hf x hx
  · exact h j y hy

theorem forall_update_known (hx : a.get i = some x) (hf : P i (f x)) :
    ∀ j y, (a.update i f).get j = some y → P j y := by
  refine forall_update h fun x' hx' => ?_
  obtain rfl := Option.mem_unique hx hx'
  exact hf

end Forall

/-- The sum of a measure over the objects. -/
def total (a : Arena α) (w : α → Nat) : Nat := (a.objects.map w).sum

@[simp] theorem total_alloc (a : Arena α) (x : α) (w : α → Nat) :
    (a.alloc x).total w = a.total w + w x := by
  simp [total, alloc]

theorem total_update (h : a.get i = some x) (f : α → α) (w : α → Nat) :
    (a.update i f).total w + w x = a.total w + w (f x) := by
  obtain ⟨xs⟩ := a
  unfold total update get at *
  induction xs generalizing i with
  | nil => simp at h
  | cons y ys ih =>
    cases i with
    | zero =>
      obtain rfl : y = x := by simpa using h
      simp only [List.modify_zero_cons, List.map_cons, List.sum_cons]
      omega
    | succ i =>
      have := ih (i := i) (by simpa using h)
      simp only [List.modify_succ_cons, List.map_cons, List.sum_cons] at this ⊢
      omega

theorem total_le_of_get {b : Arena α}
    (h : ∀ i y, b.get i = some y → w y = 0 ∨ ∃ x, a.get i = some x ∧ w y ≤ w x) :
    b.total w ≤ a.total w := by
  obtain ⟨xs⟩ := a
  obtain ⟨ys⟩ := b
  unfold total get at *
  induction ys generalizing xs with
  | nil => exact Nat.zero_le _
  | cons y ys ih =>
    cases xs with
    | nil =>
      have := ih [] fun i z hz => h (i + 1) z hz
      rcases h 0 y rfl with hy | ⟨x, hx, -⟩
      · simp only [List.map_cons, List.sum_cons, List.map_nil, List.sum_nil] at this ⊢
        omega
      · cases hx
    | cons x xs =>
      have := ih xs fun i z hz => h (i + 1) z hz
      simp only [List.map_cons, List.sum_cons] at this ⊢
      rcases h 0 y rfl with hy | ⟨x', hx, hle⟩
      · omega
      · obtain rfl := Option.some.inj hx
        omega

theorem le_total_of_get (h : a.get i = some x) (w : α → Nat) : w x ≤ a.total w := by
  obtain ⟨xs⟩ := a
  unfold total get at *
  induction xs generalizing i with
  | nil => cases h
  | cons y ys ih =>
    cases i with
    | zero =>
      obtain rfl := Option.some.inj h
      exact Nat.le_add_right _ _
    | succ i => exact Nat.le_trans (ih (i := i) h) (Nat.le_add_left _ _)

theorem exists_of_total_ne_zero (h : a.total w ≠ 0) :
    ∃ i x, a.get i = some x ∧ w x ≠ 0 := by
  by_contra hnone
  refine h (List.sum_eq_zero_iff_forall_eq_nat.mpr fun n hn => ?_)
  obtain ⟨x, hx, rfl⟩ := List.mem_map.mp hn
  obtain ⟨i, hi⟩ := mem_objects_iff.mp hx
  by_contra hne
  exact hnone ⟨i, x, hi, hne⟩

theorem total_le_size (a : Arena α) (h : ∀ x, w x ≤ 1) : a.total w ≤ a.size := by
  obtain ⟨xs⟩ := a
  unfold total size
  induction xs with
  | nil => exact Nat.le_refl 0
  | cons x xs ih =>
    have hx := h x
    dsimp only at ih ⊢
    rw [List.map_cons, List.sum_cons, List.length_cons]
    omega

/-- Two objects are counted both. -/
theorem add_le_total (hi : a.get i = some x) (hj : a.get j = some y) (hne : i ≠ j) (w : α → Nat) :
    w x + w y ≤ a.total w := by
  obtain ⟨xs⟩ := a
  induction xs generalizing i j with
  | nil => cases hi
  | cons z zs ih =>
    show w x + w y ≤ w z + total ⟨zs⟩ w
    cases i with
    | zero =>
      cases j with
      | zero => exact absurd rfl hne
      | succ j =>
        obtain rfl := Option.some.inj hi
        exact Nat.add_le_add_left (le_total_of_get (a := ⟨zs⟩) (i := j) hj w) _
    | succ i =>
      cases j with
      | zero =>
        obtain rfl := Option.some.inj hj
        rw [Nat.add_comm]
        exact Nat.add_le_add_left (le_total_of_get (a := ⟨zs⟩) (i := i) hi w) _
      | succ j => exact Nat.le_trans (ih (i := i) (j := j) (by omega) hi hj) (Nat.le_add_left _ _)

/-! ### Objects that change together -/

/-- The objects of the one arena are related to those of the other, handle by handle. -/
def Rel (R : α → α → Prop) (a b : Arena α) : Prop := List.Forall₂ R a.objects b.objects

variable {R : α → α → Prop} {b : Arena α}

theorem rel_refl (hR : ∀ x, R x x) (a : Arena α) : a.Rel R a :=
  List.forall₂_same.mpr fun x _ => hR x

theorem rel_update (hR : ∀ x, R x x) (h : ∀ x, a.get i = some x → R x (f x)) :
    a.Rel R (a.update i f) := by
  obtain ⟨xs⟩ := a
  unfold Rel update get at *
  induction xs generalizing i with
  | nil => simp
  | cons x xs ih =>
    cases i with
    | zero => exact .cons (h x rfl) (List.forall₂_same.mpr fun y _ => hR y)
    | succ i => exact .cons (hR x) (ih h)

theorem Rel.size_eq (h : a.Rel R b) : b.size = a.size := (List.Forall₂.length_eq h).symm

theorem Rel.mono {R' : α → α → Prop} (hR : ∀ x y, R x y → R' x y) (h : a.Rel R b) : a.Rel R' b :=
  List.Forall₂.imp hR h

theorem Rel.trans {c : Arena α} (hR : ∀ x y z, R x y → R y z → R x z) (h : a.Rel R b)
    (h' : b.Rel R c) : a.Rel R c := by
  obtain ⟨xs⟩ := a
  obtain ⟨ys⟩ := b
  obtain ⟨zs⟩ := c
  unfold Rel at *
  dsimp only at *
  induction h generalizing zs with
  | nil => exact h'
  | cons hxy _ ih =>
    cases h' with
    | cons hyz htail => exact .cons (hR _ _ _ hxy hyz) (ih _ htail)

theorem Rel.get (h : a.Rel R b) (hy : b.get i = some y) :
    ∃ x, a.get i = some x ∧ R x y := by
  obtain ⟨xs⟩ := a
  obtain ⟨ys⟩ := b
  unfold Rel Arena.get at *
  dsimp only at *
  induction h generalizing i with
  | nil => cases hy
  | @cons x y' xs ys hxy _ ih =>
    cases i with
    | zero =>
      obtain rfl := Option.some.inj hy
      exact ⟨x, rfl, hxy⟩
    | succ i => exact ih hy

theorem Rel.get_right (h : a.Rel R b) (hx : a.get i = some x) :
    ∃ y, b.get i = some y ∧ R x y := by
  obtain ⟨y, hy, hyx⟩ := Rel.get (R := flip R) (List.Forall₂.flip h) hx
  exact ⟨y, hy, hyx⟩

theorem rel_updateAll_of_get (hR : ∀ x, R x x) {is : List Nat}
    (h : ∀ i ∈ is, ∀ x, a.get i = some x → R x (f x)) : a.Rel R (a.updateAll is f) := by
  unfold Rel updateAll
  refine List.forall₂_iff_get.mpr ⟨by simp, fun i h₁ h₂ => ?_⟩
  simp only [List.get_eq_getElem, List.getElem_mapIdx]
  split_ifs with hi
  · exact h i hi _ (List.getElem?_eq_getElem h₁)
  · exact hR _

theorem rel_updateAll (hR : ∀ x, R x x) {is : List Nat} (h : ∀ x, R x (f x)) :
    a.Rel R (a.updateAll is f) :=
  rel_updateAll_of_get hR fun _ _ x _ => h x

theorem Rel.total_eq (h : a.Rel R b) (hw : ∀ x y, R x y → w y = w x) :
    b.total w = a.total w := by
  obtain ⟨xs⟩ := a
  obtain ⟨ys⟩ := b
  unfold Rel total at *
  dsimp only at *
  induction h with
  | nil => rfl
  | cons hxy _ ih => rw [List.map_cons, List.map_cons, List.sum_cons, List.sum_cons, hw _ _ hxy, ih]

end Arena

end Zyris
