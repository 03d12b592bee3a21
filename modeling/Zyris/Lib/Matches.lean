import Mathlib.Data.List.Infix

/-!
# Searching and replacing

`matchIndices` is the search of `str::match_indices`: from left to right, going on behind each
match, so that two occurrences may overlap but two matches do not.  `Scan` says what a replacement
of all matches is without an index.
-/

namespace Zyris

variable {α : Type*} {old new text out : List α}

/-- `old` stands in `text` at an index. -/
def OccursAt (old text : List α) (i : Nat) : Prop := old <+: text.drop i

instance [DecidableEq α] (old text : List α) (i : Nat) : Decidable (OccursAt old text i) :=
  inferInstanceAs (Decidable (old <+: text.drop i))

/-- Replacing from left to right: `new` takes the place of the first occurrence of `old`, and the
scan goes on behind it.  The number counts the replacements. -/
inductive Scan (old new : List α) : List α → List α → Nat → Prop
  | done {text : List α} : (∀ i, ¬ OccursAt old text i) → Scan old new text text 0
  | next {text out : List α} {i n : Nat} : OccursAt old text i →
    (∀ j < i, ¬ OccursAt old text j) → Scan old new (text.drop (i + old.length)) out n →
    Scan old new text (text.take i ++ new ++ out) (n + 1)

section Search

variable [DecidableEq α]

/-- The matches from index `i` on; `skip` elements belong to the match before. -/
def matchIndicesFrom (old : List α) : Nat → Nat → List α → List Nat
  | _, _, [] => []
  | skip + 1, i, _ :: text => matchIndicesFrom old skip (i + 1) text
  | 0, i, c :: text =>
    if old <+: c :: text then i :: matchIndicesFrom old (old.length - 1) (i + 1) text
    else matchIndicesFrom old 0 (i + 1) text

/-- `str::match_indices`, for an `old` that is not empty. -/
def matchIndices (old text : List α) : List Nat := matchIndicesFrom old 0 0 text

/-- `str::find`: the index of the first occurrence. -/
def find (old : List α) : List α → Option Nat
  | [] => if old = [] then some 0 else none
  | c :: text => if old <+: c :: text then some 0 else (find old text).map (· + 1)

end Search

/-- The loop of `str::replace`: `last` is `last_end`, and `len` the length of each match. -/
def replaceAt (text new : List α) (len : Nat) : Nat → List Nat → List α
  | last, [] => text.drop last
  | last, start :: rest =>
    (text.drop last).take (start - last) ++ new ++ replaceAt text new len (start + len) rest

section Replace

variable [DecidableEq α]

def replace (text old new : List α) : List α :=
  replaceAt text new old.length 0 (matchIndices old text)

def replacen (text old new : List α) (count : Nat) : List α :=
  replaceAt text new old.length 0 ((matchIndices old text).take count)

end Replace

/-! ### The search is the scan -/

theorem occursAt_drop {k i : Nat} : OccursAt old (text.drop k) i ↔ OccursAt old text (k + i) := by
  rw [OccursAt, OccursAt, List.drop_drop]

theorem OccursAt.lt {i : Nat} (h : OccursAt old text i) (hold : old ≠ []) : i < text.length := by
  have hlen := h.length_le
  have hpos := List.length_pos_iff.mpr hold
  rw [List.length_drop] at hlen
  omega

theorem find_of_first [DecidableEq α] {i : Nat} (h : OccursAt old text i)
    (hfirst : ∀ j < i, ¬ OccursAt old text j) : find old text = some i := by
  induction text generalizing i with
  | nil =>
    have hold : old = [] := List.prefix_nil.mp (by rwa [OccursAt, List.drop_nil] at h)
    have hi : i = 0 := by
      by_contra hi
      exact hfirst 0 (Nat.pos_of_ne_zero hi) (by rw [OccursAt, hold]; exact List.nil_prefix)
    rw [find, if_pos hold, hi]
  | cons c text ih =>
    rcases i with _ | i
    · exact if_pos h
    have hrest : find old text = some i :=
      ih h fun j hj hat => hfirst (j + 1) (Nat.succ_lt_succ hj) hat
    have hhead : ¬ old <+: c :: text := hfirst 0 (Nat.succ_pos i)
    rw [find, if_neg hhead, hrest]
    rfl

theorem find_append_of_notMem [DecidableEq α] {c : α} {front : List α} (h : c ∉ front) :
    find (c :: old) (front ++ text) = (find (c :: old) text).map (· + front.length) := by
  induction front with
  | nil => simp
  | cons d front ih =>
    rw [List.mem_cons, not_or] at h
    rw [List.cons_append, find, if_neg fun hp => h.1 (List.cons_prefix_cons.mp hp).1, ih h.2,
      Option.map_map]
    rfl

/-- From any point of the loop, the matches to come replace all that is left behind `last`, if
nothing was passed over in between. -/
theorem scan_replaceAt_from [DecidableEq α] (hold : old ≠ []) (new : List α) {whole : List α}
    {skip i last : Nat} (htext : whole.drop i = text) (hlast : last ≤ i + skip)
    (hnone : ∀ j, last ≤ j → j < i + skip → ¬ OccursAt old whole j) :
    Scan old new (whole.drop last)
      (replaceAt whole new old.length last (matchIndicesFrom old skip i text))
      (matchIndicesFrom old skip i text).length := by
  have hpos := List.length_pos_iff.mpr hold
  fun_induction matchIndicesFrom old skip i text generalizing last with
  | case1 skip i =>
    refine .done fun j hj => ?_
    rw [occursAt_drop] at hj
    have hlt := hj.lt hold
    have hend := List.drop_eq_nil_iff.mp htext
    exact hnone _ (by omega) (by omega) hj
  | case2 i c text skip ih =>
    refine ih ?_ (by omega) fun j h1 h2 => hnone j h1 (by omega)
    rw [← List.drop_drop, htext, List.drop_one, List.tail_cons]
  | case3 i c text hat ih =>
    have htail : whole.drop (i + 1) = text := by
      rw [← List.drop_drop, htext, List.drop_one, List.tail_cons]
    have hocc : OccursAt old (whole.drop last) (i - last) := by
      rw [occursAt_drop, OccursAt, show last + (i - last) = i by omega, htext]
      exact hat
    have hskip : i + old.length ≤ i + 1 + (old.length - 1) := by omega
    have hrest := ih htail hskip fun j h1 h2 => by omega
    refine .next hocc (fun j hj h => ?_) ?_
    · rw [occursAt_drop] at h
      exact hnone _ (by omega) (by omega) h
    · rw [List.drop_drop, show last + (i - last + old.length) = i + old.length by omega]
      exact hrest
  | case4 i c text hat ih =>
    refine ih ?_ (by omega) fun j h1 h2 h => ?_
    · rw [← List.drop_drop, htext, List.drop_one, List.tail_cons]
    · by_cases hj : j < i
      · exact hnone j h1 hj h
      · obtain rfl : j = i := by omega
        rw [OccursAt, htext] at h
        exact hat h

/-- `str::replace` replaces as many matches as there are. -/
theorem scan_replace [DecidableEq α] (hold : old ≠ []) (new text : List α) :
    Scan old new text (replace text old new) (matchIndices old text).length :=
  scan_replaceAt_from hold new text.drop_zero (Nat.zero_le _) fun j _ h => by omega

/-! ### Counting matches by occurrences -/

namespace Scan

theorem not_occursAt (h : Scan old new text out 0) (i : Nat) : ¬ OccursAt old text i := by
  cases h with
  | done hnone => exact hnone i

theorem apart {n : Nat} (h : Scan old new text out (n + 2)) :
    ∃ i j, OccursAt old text i ∧ OccursAt old text j ∧ i + old.length ≤ j := by
  cases h with
  | next hi _ hrest =>
    cases hrest with
    | @next _ _ j _ hj _ _ => exact ⟨_, _, hi, occursAt_drop.mp hj, Nat.le_add_right _ j⟩

theorem one (h : Scan old new text out 1) :
    ∃ i, OccursAt old text i ∧ out = text.take i ++ new ++ text.drop (i + old.length) ∧
      ∀ j, OccursAt old text j → i ≤ j ∧ j < i + old.length := by
  cases h with
  | @next _ rest i _ hi hfirst hrest =>
    cases hrest with
    | done hnone =>
      refine ⟨i, hi, rfl, fun j hj => ⟨?_, ?_⟩⟩
      · by_contra hlt
        exact hfirst j (by omega) hj
      · by_contra hle
        obtain ⟨k, rfl⟩ := Nat.exists_eq_add_of_le (Nat.le_of_not_lt hle)
        exact hnone k (occursAt_drop.mpr hj)

end Scan

end Zyris
