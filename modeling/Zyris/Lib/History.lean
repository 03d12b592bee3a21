import Mathlib.Algebra.Order.Ring.Int
import Mathlib.Data.List.DropRight
import Mathlib.Data.List.Infix

/-!
# Reading a history through a window

A history only grows at its end, and a window keeps the last of its elements.  A reader goes along
with a cursor; each time it may be made to skip elements that have left the window, and then takes
the next ones (`Delivery`).  `Accounts` says that the deliveries are true to the history.
-/

namespace Zyris.History

variable {α : Type*}

/-! ### Windows -/

def window (cap : Nat) (h : List α) : List α := h.rtake cap

def start (cap : Nat) (h : List α) : Nat := h.length - min cap h.length

theorem window_eq_drop (cap : Nat) (h : List α) : window cap h = h.drop (start cap h) := by
  have hsub : h.length - min cap h.length = h.length - cap := by omega
  rw [window, List.rtake, start, hsub]

theorem length_window (cap : Nat) (h : List α) : (window cap h).length = min cap h.length := by
  rw [window_eq_drop, List.length_drop, start]
  omega

theorem window_of_length_le {cap : Nat} {h : List α} (hle : h.length ≤ cap) :
    window cap h = h := by
  have hstart : start cap h = 0 := by
    rw [start]
    omega
  rw [window_eq_drop, hstart, List.drop_zero]

/-- The window moves along: of what comes, only its own last elements matter. -/
theorem window_append_window (cap : Nat) (h l : List α) :
    window cap (window cap h ++ window cap l) = window cap (h ++ l) := by
  have hlen := length_window cap h
  have hlen' := length_window cap l
  rcases Nat.le_total cap l.length with hle | hle
  · -- nothing of the old window is left
    have hfull : (window cap l).length = cap := by omega
    have hleft : start cap (window cap h ++ window cap l) = (window cap h).length := by
      rw [start, List.length_append]
      omega
    have hright : start cap (h ++ l) = h.length + start cap l := by
      rw [start, start, List.length_append]
      omega
    rw [window_eq_drop, hleft, List.drop_left, window_eq_drop cap (h ++ l), hright,
      List.drop_length_add_append, window_eq_drop]
  · rw [window_of_length_le hle, window_eq_drop cap h]
    have hstart : start cap h ≤ h.length := Nat.sub_le _ _
    rw [← List.drop_append_of_le_length hstart, window_eq_drop, window_eq_drop cap (h ++ l),
      List.drop_drop]
    congr 1
    simp only [start, List.length_drop, List.length_append]
    omega

/-! ### Deliveries -/

/-- What a reader gets at a time: how many elements it had to skip, and those it takes. -/
structure Delivery (α : Type*) where
  skipped : Nat
  items : List α

/-- The deliveries lead from one cursor to the other and are true to the history. -/
def Accounts (h : List α) : Nat → List (Delivery α) → Nat → Prop
  | c, [], c' => c = c'
  | c, d :: ds, c' =>
    d.items <+: h.drop (c + d.skipped) ∧ Accounts h (c + d.skipped + d.items.length) ds c'

variable {h h' : List α} {c c' : Nat} {ds : List (Delivery α)}

theorem Accounts.snoc {d : Delivery α} (ha : Accounts h c ds c')
    (hd : d.items <+: h.drop (c' + d.skipped)) :
    Accounts h c (ds ++ [d]) (c' + d.skipped + d.items.length) := by
  induction ds generalizing c with
  | nil =>
    obtain rfl : c = c' := ha
    exact ⟨hd, rfl⟩
  | cons e ds ih => exact ⟨ha.1, ih ha.2⟩

theorem Accounts.mono (ha : Accounts h c ds c') (hh : h <+: h') : Accounts h' c ds c' := by
  induction ds generalizing c with
  | nil => exact ha
  | cons d ds ih => exact ⟨ha.1.trans (hh.drop _), ih ha.2⟩

end Zyris.History
