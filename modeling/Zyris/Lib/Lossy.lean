import Mathlib.Algebra.Order.Ring.Int
import Mathlib.Data.List.Basic
import Mathlib.Data.List.Induction
import Mathlib.Tactic.SplitIfs

/-!
# Lossy UTF-8 decoding

`fromUtf8Lossy` puts U+FFFD for every maximal part that is not UTF-8, one byte at a time.  Inside a
character the decoder knows how many bytes are still owed and in which range the next of them has to
be.  Decoding in pieces is decoding the whole as long as no piece ends inside a character
(`fromUtf8Lossy_append`).
-/

namespace Zyris

/-- U+FFFD, the replacement character. -/
def REPLACEMENT : Char := '�'

/-- `0x80..=0xBF`. -/
def isContinuation (b : UInt8) : Bool := 0x80 ≤ b && b ≤ 0xBF

/-- A character of which some bytes were read: the bits so far, the range of the next byte, and how
many are owed after it.  It is outside ASCII. -/
structure Partial where
  code : Nat
  low : UInt8
  high : UInt8
  more : Nat
  range : 0x80 ≤ low ∧ high ≤ 0xBF
  nonascii : 0x80 ≤ (code * 64 + (low.toNat - 0x80)) * 64 ^ more

theorem Partial.isContinuation_of_le (p : Partial) {b : UInt8} (h : p.low ≤ b ∧ b ≤ p.high) :
    isContinuation b = true := by
  have hlow : 0x80 ≤ b := UInt8.le_trans p.range.1 h.1
  have hhigh : b ≤ 0xBF := UInt8.le_trans h.2 p.range.2
  simp [isContinuation, hlow, hhigh]

namespace Lossy

/-- The bits of a byte in a character's continuation, after the bits before it. -/
def push (code : Nat) (b : UInt8) : Nat := code * 64 + (b.toNat - 0x80)

/-- A byte between characters: the state it leaves, and the character it stands for on its own. -/
def first (b : UInt8) : Option Partial × List Char :=
  if b < 0x80 then (none, [Char.ofNat b.toNat])
  else if h : 0xC2 ≤ b ∧ b ≤ 0xDF then
    (some ⟨b.toNat - 0xC0, 0x80, 0xBF, 0, by decide, by
      have := UInt8.le_iff_toNat_le.mp h.1
      simp only [UInt8.reduceToNat] at this ⊢
      omega⟩, [])
  else if b = 0xE0 then (some ⟨0, 0xA0, 0xBF, 1, by decide, by decide⟩, [])
  else if b = 0xED then (some ⟨0xD, 0x80, 0x9F, 1, by decide, by decide⟩, [])
  else if h : 0xE1 ≤ b ∧ b ≤ 0xEF then
    (some ⟨b.toNat - 0xE0, 0x80, 0xBF, 1, by decide, by
      have := UInt8.le_iff_toNat_le.mp h.1
      simp only [UInt8.reduceToNat] at this ⊢
      omega⟩, [])
  else if b = 0xF0 then (some ⟨0, 0x90, 0xBF, 2, by decide, by decide⟩, [])
  else if b = 0xF4 then (some ⟨4, 0x80, 0x8F, 2, by decide, by decide⟩, [])
  else if h : 0xF1 ≤ b ∧ b ≤ 0xF3 then
    (some ⟨b.toNat - 0xF0, 0x80, 0xBF, 2, by decide, by
      have := UInt8.le_iff_toNat_le.mp h.1
      simp only [UInt8.reduceToNat] at this ⊢
      omega⟩, [])
  else (none, [REPLACEMENT])

theorem nonascii_push {p : Partial} {b : UInt8} (h : p.low ≤ b) :
    0x80 ≤ push p.code b * 64 ^ p.more := by
  have hlow := UInt8.le_iff_toNat_le.mp h
  refine p.nonascii.trans (Nat.mul_le_mul_right _ ?_)
  unfold push
  omega

/-- One byte: the state after it and the characters it completes. -/
def next : Option Partial → UInt8 → Option Partial × List Char
  | none, b => first b
  | some p, b =>
    if h : p.low ≤ b ∧ b ≤ p.high then
      match hm : p.more with
      | 0 => (none, [Char.ofNat (push p.code b)])
      | k + 1 =>
        (some ⟨push p.code b, 0x80, 0xBF, k, by decide, by
          have := nonascii_push h.1
          rw [hm, Nat.pow_succ, Nat.mul_comm (64 ^ k), ← Nat.mul_assoc] at this
          simpa using this⟩, [])
    -- what was read so far is no character, and `b` may begin another
    else ((first b).1, REPLACEMENT :: (first b).2)

/-- The characters completed by the bytes, from a state. -/
def decode : Option Partial → List UInt8 → List Char
  | _, [] => []
  | d, b :: bs => (next d b).2 ++ decode (next d b).1 bs

def after : Option Partial → List UInt8 → Option Partial
  | d, [] => d
  | d, b :: bs => after (next d b).1 bs

/-- What the end of the input adds: a character that is cut off there is replaced. -/
def flush : Option Partial → List Char
  | none => []
  | some _ => [REPLACEMENT]

end Lossy

def fromUtf8Lossy (b : List UInt8) : List Char :=
  Lossy.decode none b ++ Lossy.flush (Lossy.after none b)

/-- A lone continuation byte, a three-byte character cut off, and a surrogate. -/
example : fromUtf8Lossy [0x80, 0xE2, 0x82, 0x41, 0xC3, 0xA9, 0xED, 0xA0, 0x80] =
    [REPLACEMENT, REPLACEMENT, 'A', 'é', REPLACEMENT, REPLACEMENT, REPLACEMENT] := by decide

namespace Lossy

/-! ### Decoding in pieces -/

theorem decode_append (d : Option Partial) (a b : List UInt8) :
    decode d (a ++ b) = decode d a ++ decode (after d a) b := by
  induction a generalizing d with
  | nil => rfl
  | cons c a ih => rw [List.cons_append, decode, decode, after, ih, List.append_assoc]

theorem after_append (d : Option Partial) (a b : List UInt8) :
    after d (a ++ b) = after (after d a) b := by
  induction a generalizing d with
  | nil => rfl
  | cons c a ih => rw [List.cons_append, after, after, ih]

end Lossy

open Lossy

/-- A piece that ends between characters. -/
theorem fromUtf8Lossy_append {a : List UInt8} (h : after none a = none) (b : List UInt8) :
    fromUtf8Lossy (a ++ b) = fromUtf8Lossy a ++ fromUtf8Lossy b := by
  simp only [fromUtf8Lossy, decode_append, after_append, h, flush, List.append_nil,
    List.append_assoc]

theorem fromUtf8Lossy_append_cons (a : List UInt8) {c : UInt8} (hc : isContinuation c = false)
    (b : List UInt8) :
    fromUtf8Lossy (a ++ c :: b) = fromUtf8Lossy a ++ fromUtf8Lossy (c :: b) := by
  rcases h : after none a with _ | p
  · exact fromUtf8Lossy_append h _
  have hout : ¬ (p.low ≤ c ∧ c ≤ p.high) := by
    intro h
    rw [p.isContinuation_of_le h] at hc
    cases hc
  have hnext : next (some p) c = ((first c).1, REPLACEMENT :: (first c).2) := dif_neg hout
  have hdecode : decode (some p) (c :: b) = REPLACEMENT :: decode none (c :: b) := by
    rw [decode, decode, hnext, List.cons_append]
    rfl
  have hafter : after (some p) (c :: b) = after none (c :: b) := by
    rw [after, after, hnext]
    rfl
  have hflush : flush (some p) = [REPLACEMENT] := rfl
  simp only [fromUtf8Lossy, decode_append, after_append, h, hdecode, hafter, hflush,
    List.append_assoc, List.cons_append, List.nil_append]

/-- An ASCII byte between characters is its character. -/
theorem fromUtf8Lossy_cons_of_lt {c : UInt8} (hc : c < 0x80) (b : List UInt8) :
    fromUtf8Lossy (c :: b) = Char.ofNat c.toNat :: fromUtf8Lossy b := by
  have hnext : next none c = (none, [Char.ofNat c.toNat]) := if_pos hc
  simp only [fromUtf8Lossy, decode, after, hnext, List.cons_append, List.nil_append]

/-! ### Inside a character -/

namespace Lossy

/-- How many bytes a character takes by its lead byte. -/
def width (lead : UInt8) : Nat := if 0xF0 ≤ lead then 4 else if 0xE0 ≤ lead then 3 else 2

/-- The width by the range a lead byte is in. -/
theorem width_of_range {b low high : UInt8} (h : low ≤ b ∧ b ≤ high) (hlow : 0xC0 ≤ low)
    (hsame : ¬ (low < 0xE0 ∧ 0xE0 ≤ high) ∧ ¬ (low < 0xF0 ∧ 0xF0 ≤ high)) :
    0xC0 ≤ b ∧ width low = width b := by
  simp only [width, UInt8.le_iff_toNat_le, UInt8.lt_iff_toNat_lt, UInt8.reduceToNat] at *
  refine ⟨by omega, ?_⟩
  split_ifs <;> omega

theorem first_cases (b : UInt8) :
    (b < 0x80 ∧ first b = (none, [Char.ofNat b.toNat])) ∨
    (0x80 ≤ b ∧ first b = (none, [REPLACEMENT])) ∨
    ∃ p, first b = (some p, []) ∧ 0xC0 ≤ b ∧ p.more + 2 = width b := by
  unfold first
  split_ifs with ascii two e0 ed three f0 f4 four
  · exact .inl ⟨ascii, rfl⟩
  · exact .inr (.inr ⟨_, rfl, width_of_range two (by decide) (by decide)⟩)
  · subst e0
    exact .inr (.inr ⟨_, rfl, by decide, rfl⟩)
  · subst ed
    exact .inr (.inr ⟨_, rfl, by decide, rfl⟩)
  · exact .inr (.inr ⟨_, rfl, width_of_range three (by decide) (by decide)⟩)
  · subst f0
    exact .inr (.inr ⟨_, rfl, by decide, rfl⟩)
  · subst f4
    exact .inr (.inr ⟨_, rfl, by decide, rfl⟩)
  · exact .inr (.inr ⟨_, rfl, width_of_range four (by decide) (by decide)⟩)
  · exact .inr (.inl ⟨UInt8.not_lt.mp ascii, rfl⟩)

/-- A byte inside a character ends it, outside ASCII, or is one more byte of it, or breaks it
off. -/
theorem next_cases (q : Partial) (b : UInt8) :
    (∃ n, next (some q) b = (none, [Char.ofNat n]) ∧ isContinuation b = true ∧ 0x80 ≤ n) ∨
    (∃ p, next (some q) b = (some p, []) ∧ isContinuation b = true ∧ p.more + 1 = q.more) ∨
    next (some q) b = ((first b).1, REPLACEMENT :: (first b).2) := by
  by_cases hin : q.low ≤ b ∧ b ≤ q.high
  · have hcont := q.isContinuation_of_le hin
    have hcode := nonascii_push hin.1
    simp only [next, dif_pos hin]
    split
    · rename_i hm
      rw [hm, Nat.pow_zero, Nat.mul_one] at hcode
      exact .inl ⟨_, rfl, hcont, hcode⟩
    · rename_i k hm
      exact .inr (.inl ⟨_, rfl, hcont, hm.symm⟩)
  · exact .inr (.inr (dif_neg hin))

/-- Bytes that end inside a character end in its lead and some continuation bytes. -/
theorem lead_of_after {a : List UInt8} {p : Partial} (h : after none a = some p) :
    ∃ x lead cs, a = x ++ lead :: cs ∧ 0xC0 ≤ lead ∧ (∀ c ∈ cs, isContinuation c = true) ∧
      cs.length + p.more + 2 = width lead := by
  induction a using List.reverseRecOn generalizing p with
  | nil => cases h
  | append_singleton a b ih =>
    rw [after_append] at h
    change (next (after none a) b).1 = some p at h
    -- the character `b` begins
    have hfirst (hb : (first b).1 = some p) : ∃ x lead cs, a ++ [b] = x ++ lead :: cs ∧
        0xC0 ≤ lead ∧ (∀ c ∈ cs, isContinuation c = true) ∧
        cs.length + p.more + 2 = width lead := by
      rcases first_cases b with ⟨_, he⟩ | ⟨_, he⟩ | ⟨p', he, hlead, hwidth⟩
      · cases he ▸ hb
      · cases he ▸ hb
      · rw [he] at hb
        obtain rfl := Option.some.inj hb
        exact ⟨a, b, [], rfl, hlead, by simp, by simpa using hwidth⟩
    rcases ha : after none a with _ | q <;> rw [ha] at h
    · exact hfirst h
    rcases next_cases q b with ⟨n, he, _⟩ | ⟨p', he, hb, hmore⟩ | he
    · cases he ▸ h
    · rw [he] at h
      obtain rfl := Option.some.inj h
      obtain ⟨x, lead, cs, rfl, hlead, hcs, hwidth⟩ := ih ha
      refine ⟨x, lead, cs ++ [b], by simp, hlead, ?_, ?_⟩
      · intro c hc
        rcases List.mem_append.mp hc with hc | hc
        · exact hcs c hc
        · exact List.mem_singleton.mp hc ▸ hb
      · simp only [List.length_append, List.length_singleton]
        omega
    · rw [he] at h
      exact hfirst h

end Lossy

end Zyris
