import Mathlib.Algebra.Order.Ring.Int
import Mathlib.Data.List.Nodup

/-!
# Tables

A `HashMap`: a list of entries whose keys are pairwise different.  The order of the list stands for
the iteration order, which callers must not depend on; everything else goes through `get`.  `total`
sums a measure over the entries.
-/

namespace Zyris

structure Table (κ ν : Type*) where
  entries : List (κ × ν)
  nodup : (entries.map Prod.fst).Nodup

namespace Table

variable {κ ν : Type*} [DecidableEq κ] {t : Table κ ν} {k k' : κ} {v w : ν}

def empty : Table κ ν := ⟨[], List.nodup_nil⟩

def get (t : Table κ ν) (k : κ) : Option ν := t.entries.lookup k

/-- The entries under other keys. -/
def others (t : Table κ ν) (k : κ) : List (κ × ν) := t.entries.filter fun e => e.1 ≠ k

theorem nodup_others (t : Table κ ν) (k : κ) : ((t.others k).map Prod.fst).Nodup :=
  t.nodup.sublist (List.filter_sublist.map _)

theorem notMem_others (t : Table κ ν) (k : κ) : k ∉ (t.others k).map Prod.fst := by
  intro h
  obtain ⟨e, he, rfl⟩ := List.mem_map.mp h
  simp [others] at he

def insert (t : Table κ ν) (k : κ) (v : ν) : Table κ ν :=
  ⟨(k, v) :: t.others k, List.nodup_cons.mpr ⟨t.notMem_others k, t.nodup_others k⟩⟩

def remove (t : Table κ ν) (k : κ) : Table κ ν := ⟨t.others k, t.nodup_others k⟩

theorem lookup_filter_ne (es : List (κ × ν)) (k k' : κ) :
    (es.filter fun e => e.1 ≠ k).lookup k' = if k' = k then none else es.lookup k' := by
  induction es with
  | nil => simp
  | cons e es ih =>
    obtain ⟨k₁, v⟩ := e
    by_cases h₁ : k₁ = k
    · rw [List.filter_cons_of_neg (by simp [h₁]), ih, h₁]
      by_cases h : k' = k
      · rw [if_pos h, if_pos h]
      · rw [if_neg h, if_neg h, List.lookup_cons, beq_false_of_ne h]
    · rw [List.filter_cons_of_pos (by simp [h₁]), List.lookup_cons, List.lookup_cons, ih]
      by_cases h : k' = k₁
      · simp [h, h₁]
      · rw [beq_false_of_ne h]

@[simp] theorem get_empty (k : κ) : (empty : Table κ ν).get k = none := rfl

@[simp] theorem get_remove (t : Table κ ν) (k k' : κ) :
    (t.remove k).get k' = if k' = k then none else t.get k' :=
  lookup_filter_ne t.entries k k'

@[simp] theorem get_insert (t : Table κ ν) (k k' : κ) (v : ν) :
    (t.insert k v).get k' = if k' = k then some v else t.get k' := by
  show List.lookup k' ((k, v) :: t.others k) = _
  rw [List.lookup_cons]
  by_cases h : k' = k
  · rw [h, beq_self_eq_true, if_pos rfl]
  · rw [beq_false_of_ne h, if_neg h]
    exact (lookup_filter_ne t.entries k k').trans (if_neg h)

theorem get_of_get_remove (h : (t.remove k).get k' = some v) :
    k' ≠ k ∧ t.get k' = some v := by
  rw [get_remove] at h
  split_ifs at h with hk
  exact ⟨hk, h⟩

theorem get_insert_cases (h : (t.insert k v).get k' = some w) :
    (k' = k ∧ w = v) ∨ (k' ≠ k ∧ t.get k' = some w) := by
  rw [get_insert] at h
  split_ifs at h with hk
  · exact .inl ⟨hk, (Option.some.inj h).symm⟩
  · exact .inr ⟨hk, h⟩

/-- What holds of every entry, and of a new one, holds after its insertion. -/
theorem forall_insert {P : κ → ν → Prop} (h : ∀ k v, t.get k = some v → P k v) (hv : P k v) :
    ∀ k' w, (t.insert k v).get k' = some w → P k' w := by
  intro k' w hw
  rcases get_insert_cases hw with ⟨rfl, rfl⟩ | ⟨-, hw⟩
  · exact hv
  · exact h k' w hw

theorem mem_iff_lookup {es : List (κ × ν)} (hn : (es.map Prod.fst).Nodup) (k : κ) (v : ν) :
    (k, v) ∈ es ↔ es.lookup k = some v := by
  induction es with
  | nil => simp
  | cons e es ih =>
    obtain ⟨k₁, v₁⟩ := e
    rw [List.map_cons, List.nodup_cons] at hn
    rw [List.mem_cons, List.lookup_cons, ih hn.2]
    by_cases h : k = k₁
    · subst h
      have : es.lookup k ≠ some v := fun hl =>
        hn.1 (List.mem_map.mpr ⟨(k, v), (ih hn.2).mpr hl, rfl⟩)
      simp [this, eq_comm]
    · rw [beq_false_of_ne h]
      simp [h]

theorem mem_entries_iff (t : Table κ ν) (k : κ) (v : ν) : (k, v) ∈ t.entries ↔ t.get k = some v :=
  mem_iff_lookup t.nodup k v

def retain (t : Table κ ν) (p : κ → ν → Bool) : Table κ ν :=
  ⟨t.entries.filter fun e => p e.1 e.2, t.nodup.sublist (List.filter_sublist.map _)⟩

@[simp] theorem get_retain (t : Table κ ν) (p : κ → ν → Bool) (k : κ) :
    (t.retain p).get k = (t.get k).filter (p k) := by
  refine Option.ext fun v => ?_
  rw [← mem_entries_iff, Option.filter_eq_some_iff, ← mem_entries_iff]
  exact List.mem_filter

def map {μ : Type*} (t : Table κ ν) (f : ν → μ) : Table κ μ :=
  ⟨t.entries.map fun e => (e.1, f e.2), by
    rw [List.map_map]
    exact t.nodup⟩

@[simp] theorem get_map {μ : Type*} (t : Table κ ν) (f : ν → μ) (k : κ) :
    (t.map f).get k = (t.get k).map f := by
  refine Option.ext fun w => ?_
  rw [← mem_entries_iff, Option.map_eq_some_iff]
  simp only [map, List.mem_map, Prod.mk.injEq]
  constructor
  · rintro ⟨⟨k', v⟩, hmem, rfl, rfl⟩
    exact ⟨v, (t.mem_entries_iff k' v).mp hmem, rfl⟩
  · rintro ⟨v, hget, rfl⟩
    exact ⟨(k, v), (t.mem_entries_iff k v).mpr hget, rfl, rfl⟩

/-! ### Sums over a table -/

def total (t : Table κ ν) (w : κ → ν → Nat) : Nat := (t.entries.map fun e => w e.1 e.2).sum

theorem total_remove_of_get (h : t.get k = some v) (w : κ → ν → Nat) :
    (t.remove k).total w + w k v = t.total w := by
  obtain ⟨es, hn⟩ := t
  unfold total remove others get at *
  dsimp only at *
  induction es with
  | nil => cases h
  | cons e es ih =>
    obtain ⟨k₁, v₁⟩ := e
    rw [List.map_cons, List.nodup_cons] at hn
    rw [List.lookup_cons] at h
    by_cases hk : k₁ = k
    · subst hk
      obtain rfl : v₁ = v := by simpa using h
      -- the other entries are under other keys
      have hrest : es.filter (fun e => e.1 ≠ k₁) = es := by
        refine List.filter_eq_self.mpr fun e he => decide_eq_true fun heq => hn.1 ?_
        exact List.mem_map.mpr ⟨e, he, heq⟩
      rw [List.filter_cons_of_neg (by simp), hrest, List.map_cons, List.sum_cons, Nat.add_comm]
    · rw [beq_false_of_ne (Ne.symm hk)] at h
      rw [List.filter_cons_of_pos (by simp [hk]), List.map_cons, List.sum_cons, List.map_cons,
        List.sum_cons, Nat.add_assoc, ih hn.2 h]

theorem remove_of_get_eq_none (h : t.get k = none) :
    (t.remove k).entries = t.entries := by
  refine List.filter_eq_self.mpr fun e he => decide_eq_true fun heq => ?_
  have := (t.mem_entries_iff e.1 e.2).mp he
  rw [heq, h] at this
  cases this

theorem total_remove_le (t : Table κ ν) (k : κ) (w : κ → ν → Nat) :
    (t.remove k).total w ≤ t.total w := by
  cases h : t.get k with
  | none => exact Nat.le_of_eq (by rw [total, remove_of_get_eq_none h, total])
  | some v =>
    have := total_remove_of_get h w
    omega

theorem total_insert (t : Table κ ν) (k : κ) (v : ν) (w : κ → ν → Nat) :
    (t.insert k v).total w = (t.remove k).total w + w k v := by
  show w k v + (t.remove k).total w = _
  exact Nat.add_comm _ _

/-- What is taken out and what is left add up. -/
theorem total_retain_notMem [DecidableEq ν] {p : κ × ν → Bool} {order : List (κ × ν)}
    (h : order.Perm (t.entries.filter p)) (w : κ → ν → Nat) :
    (t.retain fun k v => (k, v) ∉ order).total w + (order.map fun e => w e.1 e.2).sum =
      t.total w := by
  have hrest : (t.retain fun k v => (k, v) ∉ order).entries = t.entries.filter fun e => !p e := by
    refine List.filter_congr fun e he => ?_
    have hmem : e ∈ order ↔ p e = true := by
      rw [h.mem_iff, List.mem_filter]
      exact and_iff_right he
    simp [hmem]
  have hperm := ((List.filter_append_perm p t.entries).map fun e => w e.1 e.2).sum_nat
  rw [List.map_append, List.sum_append] at hperm
  rw [total, hrest, (h.map _).sum_nat, total, ← hperm, Nat.add_comm]

theorem le_total_of_get (h : t.get k = some v) (w : κ → ν → Nat) : w k v ≤ t.total w := by
  have := total_remove_of_get h w
  omega

/-! ### The number of entries -/

def len (t : Table κ ν) : Nat := t.entries.length

omit [DecidableEq κ] in
theorem len_eq_total (t : Table κ ν) : t.len = t.total fun _ _ => 1 := by
  rw [len, total, List.map_const', List.sum_replicate_nat, Nat.mul_one]

theorem len_remove_le (t : Table κ ν) (k : κ) : (t.remove k).len ≤ t.len :=
  List.length_filter_le _ _

omit [DecidableEq κ] in
theorem len_retain_le (t : Table κ ν) (p : κ → ν → Bool) : (t.retain p).len ≤ t.len :=
  List.length_filter_le _ _

theorem len_insert_le (t : Table κ ν) (k : κ) (v : ν) : (t.insert k v).len ≤ t.len + 1 :=
  Nat.add_le_add_right (t.len_remove_le k) 1

theorem len_insert_of_get (h : t.get k = some v) (w : ν) :
    (t.insert k w).len = t.len := by
  rw [len_eq_total, len_eq_total, total_insert, total_remove_of_get h]

end Table

end Zyris
