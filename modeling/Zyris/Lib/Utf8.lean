import Mathlib.Algebra.Order.Ring.Int
import Mathlib.Data.List.Basic

/-!
# UTF-8 text as a list of characters

A `str` is the list of its characters; `utf8 s` are its bytes and `sliceFrom s i` is the slice
`&s[i..]`, which fails when `i` is not a character boundary.  An ASCII character is one byte, and
every byte of any other is at least `0x80`.
-/

namespace Zyris

/-- The character is one of the first 128. -/
def isAscii (c : Char) : Bool := c.toNat < 0x80

/-- The byte literal `b'c'`. -/
def byte (c : Char) : UInt8 := UInt8.ofNat c.toNat

/-- `str::as_bytes`. -/
def utf8 (s : List Char) : List UInt8 := s.flatMap String.utf8EncodeChar

/-- `&s[i..]`; `none` when `i` is past the end or inside a character. -/
def sliceFrom : List Char → Nat → Option (List Char)
  | s, 0 => some s
  | [], _ + 1 => none
  | c :: s, i + 1 => if c.utf8Size ≤ i + 1 then sliceFrom s (i + 1 - c.utf8Size) else none

/-! ### The bytes of a character -/

variable {c d : Char}

theorem byte_toNat (h : isAscii c = true) : (byte c).toNat = c.toNat := by
  have h' : c.toNat < 0x80 := by simpa [isAscii] using h
  rw [byte, UInt8.toNat_ofNat']
  omega

theorem byte_inj (hc : isAscii c = true) (hd : isAscii d = true) :
    byte c = byte d ↔ c = d := by
  constructor
  · intro h
    have := congrArg UInt8.toNat h
    rw [byte_toNat hc, byte_toNat hd] at this
    exact Char.toNat_inj.mp this
  · rintro rfl; rfl

/-- `Char.ofNat` gives NUL for a number that is no character. -/
theorem toNat_ofNat (n : Nat) : (Char.ofNat n).toNat = 0 ∨ (Char.ofNat n).toNat = n := by
  by_cases h : n.isValidChar
  · right
    rw [Char.ofNat, dif_pos h]
    rfl
  · left
    rw [Char.ofNat, dif_neg h]
    rfl

/-- Every byte below `0x80` is an ASCII character. -/
theorem exists_byte_eq {b : UInt8} (hb : b < 0x80) : ∃ c, isAscii c = true ∧ byte c = b := by
  have hlt : b.toNat < 0x80 := UInt8.lt_iff_toNat_lt.mp hb
  have hvalid : b.toNat.isValidChar := .inl (by omega)
  have hnat : (Char.ofNat b.toNat).toNat = b.toNat := by
    rw [Char.ofNat, dif_pos hvalid]
    rfl
  refine ⟨Char.ofNat b.toNat, ?_, ?_⟩
  · simpa [isAscii, hnat] using hlt
  · rw [byte, hnat, UInt8.ofNat_toNat]

theorem isAscii_iff : isAscii c = true ↔ c.val.toNat ≤ 127 := by
  simp only [isAscii, decide_eq_true_eq, Char.toNat]
  omega

/-- An ASCII character is encoded as its code. -/
theorem utf8EncodeChar_of_isAscii (h : isAscii c = true) :
    String.utf8EncodeChar c = [byte c] := by
  unfold String.utf8EncodeChar
  simp only [isAscii_iff.mp h, ↓reduceIte]
  rfl

theorem le_of_mem_utf8EncodeChar (h : isAscii c = false) {b : UInt8}
    (hb : b ∈ String.utf8EncodeChar c) : 0x80 ≤ b.toNat := by
  have h' : ¬ c.val.toNat ≤ 127 := mt isAscii_iff.mpr (by simp [h])
  unfold String.utf8EncodeChar at hb
  simp only [h', ↓reduceIte] at hb
  split_ifs at hb <;>
  · simp only [List.mem_cons, List.not_mem_nil, or_false] at hb
    rcases hb with rfl | rfl | rfl | rfl <;> rw [UInt8.toNat_ofNat'] <;> omega

theorem two_le_utf8Size (h : isAscii c = false) : 2 ≤ c.utf8Size := by
  have h' : ¬ c.val.toNat ≤ 127 := mt isAscii_iff.mpr (by simp [h])
  rw [← String.length_utf8EncodeChar]
  unfold String.utf8EncodeChar
  simp only [h', ↓reduceIte]
  split_ifs <;> simp

theorem utf8Size_of_isAscii (h : isAscii c = true) : c.utf8Size = 1 := by
  rw [← String.length_utf8EncodeChar, utf8EncodeChar_of_isAscii h, List.length_singleton]

/-- Only a character itself has its ASCII byte literal among its bytes. -/
theorem ne_byte_of_mem_utf8EncodeChar (hd : isAscii d = true) (hne : c ≠ d) {b : UInt8}
    (hb : b ∈ String.utf8EncodeChar c) : b ≠ byte d := by
  cases hc : isAscii c with
  | true =>
    rw [utf8EncodeChar_of_isAscii hc, List.mem_singleton] at hb
    rw [hb, Ne, byte_inj hc hd]
    exact hne
  | false =>
    rintro rfl
    have h1 := le_of_mem_utf8EncodeChar hc hb
    have h2 : d.toNat < 0x80 := by simpa [isAscii] using hd
    rw [byte_toNat hd] at h1
    omega

/-! ### The bytes of a text, and its slices -/

@[simp] theorem utf8_nil : utf8 [] = [] := rfl

@[simp] theorem utf8_cons (c : Char) (s : List Char) :
    utf8 (c :: s) = String.utf8EncodeChar c ++ utf8 s := rfl

@[simp] theorem utf8_append (s t : List Char) : utf8 (s ++ t) = utf8 s ++ utf8 t := by
  simp [utf8]

theorem length_utf8_append (s t : List Char) :
    (utf8 (s ++ t)).length = (utf8 s).length + (utf8 t).length := by
  rw [utf8_append, List.length_append]

theorem utf8_cons_of_isAscii (h : isAscii c = true) (s : List Char) :
    utf8 (c :: s) = byte c :: utf8 s := by
  rw [utf8_cons, utf8EncodeChar_of_isAscii h, List.singleton_append]

theorem length_utf8_replicate (h : isAscii c = true) (n : Nat) :
    (utf8 (List.replicate n c)).length = n := by
  induction n with
  | zero => rfl
  | succ n ih => rw [List.replicate_succ, utf8_cons_of_isAscii h, List.length_cons, ih]

/-- An ASCII byte comes from the ASCII character alone. -/
theorem byte_mem_utf8 (hd : isAscii d = true) {s : List Char} (h : byte d ∈ utf8 s) :
    d ∈ s := by
  obtain ⟨c, hc, hb⟩ := List.mem_flatMap.mp h
  by_contra hnot
  have hne : c ≠ d := fun heq => hnot (heq ▸ hc)
  exact ne_byte_of_mem_utf8EncodeChar hd hne hb rfl

theorem drop_utf8_append (s t : List Char) : (utf8 (s ++ t)).drop (utf8 s).length = utf8 t := by
  rw [utf8_append, List.drop_left]

theorem sliceFrom_add_utf8Size (c : Char) (s : List Char) (i : Nat) :
    sliceFrom (c :: s) (c.utf8Size + i) = sliceFrom s i := by
  obtain ⟨n, hn⟩ : ∃ n, c.utf8Size + i = n + 1 :=
    ⟨c.utf8Size + i - 1, by have := c.utf8Size_pos; omega⟩
  rw [hn, sliceFrom, if_pos (by omega), ← hn, Nat.add_sub_cancel_left]

theorem sliceFrom_append (s t : List Char) (i : Nat) :
    sliceFrom (s ++ t) ((utf8 s).length + i) = sliceFrom t i := by
  induction s with
  | nil => simp
  | cons c s ih =>
    rw [List.cons_append, utf8_cons, List.length_append, String.length_utf8EncodeChar,
      Nat.add_assoc, sliceFrom_add_utf8Size, ih]

/-- An index strictly inside a character is not a boundary. -/
theorem sliceFrom_inside (c : Char) (s : List Char) {i : Nat} (h0 : 0 < i) (h : i < c.utf8Size) :
    sliceFrom (c :: s) i = none := by
  obtain ⟨n, rfl⟩ : ∃ n, i = n + 1 := ⟨i - 1, by omega⟩
  rw [sliceFrom, if_neg (by omega)]

theorem exists_of_sliceFrom {s t : List Char} {i : Nat} (h : sliceFrom s i = some t) :
    ∃ p, s = p ++ t ∧ (utf8 p).length = i := by
  induction s generalizing i with
  | nil =>
    cases i with
    | zero => exact ⟨[], Option.some.inj h, rfl⟩
    | succ i => cases h
  | cons c s ih =>
    rcases i with _ | _
    · exact ⟨[], Option.some.inj h, rfl⟩
    rw [sliceFrom] at h
    split at h
    · next hle =>
      obtain ⟨p, rfl, hp⟩ := ih h
      refine ⟨c :: p, rfl, ?_⟩
      rw [utf8_cons, List.length_append, String.length_utf8EncodeChar]
      omega
    · cases h

/-- A slice can be taken behind every prefix. -/
theorem sliceFrom_of_append (p t : List Char) : sliceFrom (p ++ t) (utf8 p).length = some t := by
  have h := sliceFrom_append p t 0
  rw [Nat.add_zero] at h
  rw [h]
  cases t <;> rfl

/-- No place in a text is more than three bytes behind a boundary. -/
theorem exists_boundary_near (s : List Char) {i : Nat} (h : i ≤ (utf8 s).length) :
    ∃ n, n ≤ i ∧ i ≤ n + 3 ∧ (sliceFrom s n).isSome = true := by
  induction s generalizing i with
  | nil =>
    have hzero : i = 0 := by simpa using h
    exact ⟨0, by omega, by omega, rfl⟩
  | cons c s ih =>
    have hsize := c.utf8Size_le_four
    rw [utf8_cons, List.length_append, String.length_utf8EncodeChar] at h
    by_cases hin : i < c.utf8Size
    · exact ⟨0, by omega, by omega, rfl⟩
    · obtain ⟨n, hle, hnear, hn⟩ := ih (i := i - c.utf8Size) (by omega)
      refine ⟨c.utf8Size + n, by omega, by omega, ?_⟩
      rw [sliceFrom_add_utf8Size]
      exact hn

theorem isPrefix_of_length_utf8_le {s p q : List Char} (hp : p <+: s) (hq : q <+: s)
    (h : (utf8 p).length ≤ (utf8 q).length) : p <+: q := by
  rcases List.prefix_or_prefix_of_prefix hp hq with hpq | ⟨r, rfl⟩
  · exact hpq
  rw [length_utf8_append] at h
  cases r with
  | nil => simp
  | cons c r =>
    have hpos := c.utf8Size_pos
    rw [utf8_cons, List.length_append, String.length_utf8EncodeChar] at h
    omega

end Zyris
