import Zyris.Lib.Utf8
import Zyris.Lib.Lossy
import Mathlib.Tactic.Set

/-!
# Decoding a text chunk by chunk

`chunks n b` cuts bytes into pieces of `n`.  Decoding them one by one gives the text exactly when no
cut is inside a character (`flatMap_chunks_iff`).  That it does not otherwise is a count: every cut
inside a character adds characters (`length_fromUtf8Lossy_take`).
-/

namespace Zyris

open Lossy

/-! ### The decoder reads what the encoder wrote -/

namespace Lossy

variable {p : Partial} {b : UInt8}

theorem next_eq_char (hin : p.low ≤ b ∧ b ≤ p.high) (hm : p.more = 0) :
    next (some p) b = (none, [Char.ofNat (push p.code b)]) := by
  simp only [next, dif_pos hin]
  split
  · rfl
  · rename_i k hk
    omega

theorem next_eq_partial {k : Nat} (hin : p.low ≤ b ∧ b ≤ p.high) (hm : p.more = k + 1) :
    ∃ q, next (some p) b = (some q, []) ∧ q.code = push p.code b ∧ q.low = 0x80 ∧
      q.high = 0xBF ∧ q.more = k := by
  simp only [next, dif_pos hin]
  split
  · rename_i hz
    omega
  · rename_i j hj
    exact ⟨_, rfl, rfl, rfl, rfl, by show j = k; omega⟩

/-- From the middle of a character, the bytes complete it. -/
inductive Completes : Partial → List UInt8 → Char → Prop
  | last {p : Partial} {b : UInt8} {c : Char} : isContinuation b = true →
    next (some p) b = (none, [c]) → Completes p [b] c
  | more {p q : Partial} {b : UInt8} {bs : List UInt8} {c : Char} : isContinuation b = true →
    next (some p) b = (some q, []) → Completes q bs c → Completes p (b :: bs) c

variable {p : Partial} {bs : List UInt8} {c : Char}

theorem Completes.decode (h : Completes p bs c) :
    decode (some p) bs = [c] ∧ after (some p) bs = none := by
  induction h with
  | last _ hn => simp [Lossy.decode, after, hn]
  | more _ hn _ ih => simpa [Lossy.decode, after, hn] using ih

theorem Completes.isContinuation (h : Completes p bs c) : ∀ b ∈ bs, isContinuation b = true := by
  induction h with
  | last hb _ => simpa using hb
  | more hb _ _ ih => simpa using ⟨hb, ih⟩

/-- Fewer bytes leave the decoder in the middle. -/
theorem Completes.decode_take (h : Completes p bs c) {m : Nat} (hm : m < bs.length) :
    Lossy.decode (some p) (bs.take m) = [] ∧ ∃ q, after (some p) (bs.take m) = some q := by
  induction h generalizing m with
  | last _ hn =>
    obtain rfl : m = 0 := by simpa using hm
    exact ⟨rfl, _, rfl⟩
  | more _ hn _ ih =>
    cases m with
    | zero => exact ⟨rfl, _, rfl⟩
    | succ m =>
      have := ih (m := m) (by simpa using hm)
      simpa [Lossy.decode, after, hn] using this

/-- The continuation byte with these six bits. -/
def contByte (v : Nat) : UInt8 := UInt8.ofNat (v % 0x40 + 0x80)

theorem toNat_contByte (v : Nat) : (contByte v).toNat = v % 0x40 + 0x80 := by
  rw [contByte, UInt8.toNat_ofNat']
  omega

theorem isContinuation_contByte (v : Nat) : isContinuation (contByte v) = true := by
  simp only [isContinuation, Bool.and_eq_true, decide_eq_true_eq, UInt8.le_iff_toNat_le,
    UInt8.reduceToNat, toNat_contByte]
  omega

/-- The last `k + 1` continuation bytes of a code. -/
def contBytes : Nat → Nat → List UInt8
  | 0, v => [contByte v]
  | k + 1, v => contByte (v / 64 ^ (k + 1)) :: contBytes k v

theorem push_contByte (code v : Nat) : push code (contByte v) = code * 64 + v % 64 := by
  unfold push
  have hbits := toNat_contByte v
  omega

theorem completes_contBytes {k v : Nat} (hm : p.more = k) (hcode : p.code = v / 64 ^ (k + 1))
    (hin : p.low ≤ contByte (v / 64 ^ k) ∧ contByte (v / 64 ^ k) ≤ p.high) :
    Completes p (contBytes k v) (Char.ofNat v) := by
  induction k generalizing p with
  | zero =>
    rw [Nat.pow_zero, Nat.div_one] at hin
    have hv : push p.code (contByte v) = v := by
      rw [push_contByte, hcode, Nat.zero_add, Nat.pow_one]
      omega
    have hn := next_eq_char hin hm
    rw [hv] at hn
    exact .last (isContinuation_contByte _) hn
  | succ k ih =>
    obtain ⟨q, hn, hq, hlow, hhigh, hmore⟩ := next_eq_partial hin hm
    refine .more (isContinuation_contByte _) hn (ih hmore ?_ ?_)
    · rw [hq, push_contByte, hcode, Nat.pow_succ 64 (k + 1), ← Nat.div_div_eq_div_mul]
      omega
    · have hcont := isContinuation_contByte (v / 64 ^ k)
      rw [hlow, hhigh]
      simpa [isContinuation] using hcont

/-- The lead byte of a character of `k + 2` bytes, by its bits.  The second byte is further bounded
where the encoding could be shorter, a surrogate or past the last character. -/
theorem exists_first (lead : UInt8) (code : Nat) {k : Nat} (hb : isContinuation b = true)
    (h : k = 0 ∧ 2 ≤ code ∧ code < 32 ∧ lead.toNat = code + 0xC0 ∨
      k = 1 ∧ code < 16 ∧ lead.toNat = code + 0xE0 ∧ (code = 0 → 0xA0 ≤ b.toNat) ∧
        (code = 0xD → b.toNat ≤ 0x9F) ∨
      k = 2 ∧ code < 5 ∧ lead.toNat = code + 0xF0 ∧ (code = 0 → 0x90 ≤ b.toNat) ∧
        (code = 4 → b.toNat ≤ 0x8F)) :
    ∃ p, first lead = (some p, []) ∧ p.more = k ∧ p.code = code ∧ p.low ≤ b ∧ b ≤ p.high := by
  have hrange : 0x80 ≤ b ∧ b ≤ 0xBF := by simpa [isContinuation] using hb
  unfold first
  split_ifs <;> first | refine ⟨_, rfl, ?_, ?_, ?_⟩ <;> dsimp only | exfalso
  all_goals
    simp only [UInt8.le_iff_toNat_le, UInt8.lt_iff_toNat_lt, ← UInt8.toNat_inj,
      UInt8.reduceToNat] at *
    omega

/-- How the encoding of a character reads: ASCII, or a lead byte and what completes it. -/
theorem utf8EncodeChar_cases (c : Char) :
    (isAscii c = true ∧ String.utf8EncodeChar c = [byte c]) ∨
    ∃ lead bs p, String.utf8EncodeChar c = lead :: bs ∧ first lead = (some p, []) ∧
      Completes p bs c := by
  by_cases hascii : isAscii c = true
  · exact .inl ⟨hascii, utf8EncodeChar_of_isAscii hascii⟩
  right
  have hval : ¬ c.val.toNat ≤ 127 := by
    have : ¬ c.toNat < 0x80 := by simpa [isAscii] using hascii
    rw [Char.toNat] at this
    omega
  have hchar : Char.ofNat c.val.toNat = c := Char.ofNat_toNat c
  have hvalid : c.val.toNat < 0xD800 ∨ 0xDFFF < c.val.toNat ∧ c.val.toNat < 0x110000 := c.valid
  set v := c.val.toNat with hv
  suffices h : ∃ k lead p, String.utf8EncodeChar c = lead :: contBytes k v ∧
      first lead = (some p, []) ∧ p.more = k ∧ p.code = v / 64 ^ (k + 1) ∧
      p.low ≤ contByte (v / 64 ^ k) ∧ contByte (v / 64 ^ k) ≤ p.high by
    obtain ⟨k, lead, p, henc, hp, hmore, hcode, hin⟩ := h
    exact ⟨lead, _, p, henc, hp, hchar ▸ completes_contBytes hmore hcode hin⟩
  have hcont (k : Nat) := isContinuation_contByte (v / 64 ^ k)
  unfold String.utf8EncodeChar
  simp only [← hv, hval, if_false]
  split_ifs with htwo hthree
  · obtain ⟨p, hp⟩ := exists_first (UInt8.ofNat (v / 64 % 0x20 + 0xc0)) (v / 64) (hcont 0)
      (.inl ⟨rfl, by omega, by omega, by rw [UInt8.toNat_ofNat']; omega⟩)
    exact ⟨0, _, p, rfl, hp⟩
  · have hsecond := toNat_contByte (v / 64 ^ 1)
    obtain ⟨p, hp⟩ := exists_first (UInt8.ofNat (v / 4096 % 0x10 + 0xe0)) (v / 4096) (hcont 1)
      (.inr (.inl ⟨rfl, by omega, by rw [UInt8.toNat_ofNat']; omega, by omega, by omega⟩))
    exact ⟨1, _, p, rfl, hp⟩
  · have hsecond := toNat_contByte (v / 64 ^ 2)
    obtain ⟨p, hp⟩ := exists_first (UInt8.ofNat (v / 262144 % 0x08 + 0xf0)) (v / 262144) (hcont 2)
      (.inr (.inr ⟨rfl, by omega, by rw [UInt8.toNat_ofNat']; omega, by omega, by omega⟩))
    exact ⟨2, _, p, rfl, hp⟩

/-- A continuation byte between characters is replaced. -/
theorem first_of_isContinuation (h : isContinuation b = true) :
    first b = (none, [REPLACEMENT]) := by
  have hrange : 0x80 ≤ b ∧ b ≤ 0xBF := by simpa [isContinuation] using h
  obtain ⟨hlt, -⟩ | ⟨-, he⟩ | ⟨p, -, hlead, -⟩ := first_cases b
  · exact absurd hrange.1 (UInt8.not_le.mpr hlt)
  · exact he
  · exact absurd (UInt8.le_trans hlead hrange.2) (by decide)

theorem isContinuation_of_first {lead : UInt8} (h : first lead = (some p, [])) :
    isContinuation lead = false := by
  by_contra hc
  rw [first_of_isContinuation (by simpa using hc)] at h
  cases h

end Lossy

theorem exists_utf8EncodeChar_eq (c : Char) :
    ∃ lead bs, String.utf8EncodeChar c = lead :: bs ∧ isContinuation lead = false ∧
      ∀ b ∈ bs, isContinuation b = true := by
  obtain ⟨hascii, henc⟩ | ⟨lead, bs, p, henc, hp, hdone⟩ := utf8EncodeChar_cases c
  · refine ⟨byte c, [], henc, ?_, by simp⟩
    have hlt : c.toNat < 0x80 := by simpa [isAscii] using hascii
    simp only [isContinuation, Bool.and_eq_false_iff, decide_eq_false_iff_not,
      UInt8.le_iff_toNat_le, UInt8.reduceToNat, byte_toNat hascii]
    omega
  · exact ⟨lead, bs, henc, isContinuation_of_first hp, hdone.isContinuation⟩

theorem decode_utf8EncodeChar (c : Char) : decode none (String.utf8EncodeChar c) = [c] ∧
    after none (String.utf8EncodeChar c) = none := by
  obtain ⟨hascii, henc⟩ | ⟨lead, bs, p, henc, hp, hdone⟩ := utf8EncodeChar_cases c
  · have hlt : byte c < 0x80 := by
      rw [UInt8.lt_iff_toNat_lt, byte_toNat hascii]
      simpa [isAscii] using hascii
    simp only [henc, decode, after, next, first, if_pos hlt, byte_toNat hascii, Char.ofNat_toNat]
    exact ⟨rfl, trivial⟩
  · rw [henc, decode, after, next, hp]
    exact hdone.decode

/-- A character at the front is read first. -/
theorem fromUtf8Lossy_utf8EncodeChar_append (c : Char) (b : List UInt8) :
    fromUtf8Lossy (String.utf8EncodeChar c ++ b) = c :: fromUtf8Lossy b := by
  obtain ⟨hdecode, hafter⟩ := decode_utf8EncodeChar c
  rw [fromUtf8Lossy_append hafter, fromUtf8Lossy, hdecode, hafter]
  rfl

theorem fromUtf8Lossy_utf8 (s : List Char) : fromUtf8Lossy (utf8 s) = s := by
  induction s with
  | nil => rfl
  | cons c s ih => rw [utf8_cons, fromUtf8Lossy_utf8EncodeChar_append, ih]

theorem utf8_injective : Function.Injective utf8 :=
  Function.LeftInverse.injective fromUtf8Lossy_utf8

/-- A character that is cut off at the end is replaced. -/
theorem length_fromUtf8Lossy_take_utf8EncodeChar (c : Char) {m : Nat} (hpos : 0 < m)
    (hm : m < (String.utf8EncodeChar c).length) :
    (fromUtf8Lossy ((String.utf8EncodeChar c).take m)).length = 1 := by
  obtain ⟨m, rfl⟩ : ∃ n, m = n + 1 := ⟨m - 1, by omega⟩
  obtain ⟨-, henc⟩ | ⟨lead, bs, p, henc, hp, hdone⟩ := utf8EncodeChar_cases c
  · simp [henc] at hm
  · rw [henc] at hm ⊢
    obtain ⟨hnone, q, hq⟩ := hdone.decode_take (by simpa using hm)
    rw [List.take_succ_cons, fromUtf8Lossy, decode, after, next, hp, hnone, hq]
    rfl

variable {x : UInt8}

/-- A continuation byte at the front is replaced. -/
theorem fromUtf8Lossy_cons_of_isContinuation (h : isContinuation x = true)
    (b : List UInt8) : fromUtf8Lossy (x :: b) = REPLACEMENT :: fromUtf8Lossy b := by
  have hnext : next none x = (none, [REPLACEMENT]) := first_of_isContinuation h
  simp only [fromUtf8Lossy, decode, after, hnext, List.cons_append, List.nil_append]

/-! ### Counting characters -/

/-- How many bytes begin a character. -/
def leads (b : List UInt8) : Nat := b.countP fun x => !isContinuation x

/-- How many continuation bytes the bytes begin with. -/
def stray (b : List UInt8) : Nat := (b.takeWhile isContinuation).length

theorem leads_append (a b : List UInt8) : leads (a ++ b) = leads a + leads b :=
  List.countP_append

variable {b : List UInt8}

theorem leads_of_isContinuation (h : ∀ x ∈ b, isContinuation x = true) :
    leads b = 0 := by
  rw [leads, List.countP_eq_zero]
  intro x hx
  simp [h x hx]

theorem leads_take_utf8EncodeChar (c : Char) {m : Nat} (hpos : 0 < m) :
    leads ((String.utf8EncodeChar c).take m) = 1 := by
  obtain ⟨m, rfl⟩ : ∃ n, m = n + 1 := ⟨m - 1, by omega⟩
  obtain ⟨lead, bs, henc, hlead, hbs⟩ := exists_utf8EncodeChar_eq c
  have hrest : leads (bs.take m) = 0 :=
    leads_of_isContinuation fun x hx => hbs x (List.mem_of_mem_take hx)
  unfold leads at hrest ⊢
  rw [henc, List.take_succ_cons, List.countP_cons, hrest]
  simp [hlead]

theorem leads_utf8 (s : List Char) : leads (utf8 s) = s.length := by
  induction s with
  | nil => rfl
  | cons c s ih =>
    have hone := leads_take_utf8EncodeChar c (m := (String.utf8EncodeChar c).length)
      (by rw [String.length_utf8EncodeChar]; exact c.utf8Size_pos)
    rw [List.take_length] at hone
    rw [utf8_cons, leads_append, hone, ih, List.length_cons, Nat.add_comm]

/-- A text that is cut off: every byte that begins a character stands for one. -/
theorem length_fromUtf8Lossy_take_utf8 (s : List Char) (m : Nat) :
    (fromUtf8Lossy ((utf8 s).take m)).length = leads ((utf8 s).take m) := by
  induction s generalizing m with
  | nil => simp [fromUtf8Lossy, leads, decode, after, flush]
  | cons c s ih =>
    have hlen := String.length_utf8EncodeChar c
    obtain rfl | hpos := Nat.eq_zero_or_pos m
    · rfl
    by_cases hm : m < (String.utf8EncodeChar c).length
    · -- the cut is inside the first character
      rw [utf8_cons, List.take_append_of_le_length hm.le,
        length_fromUtf8Lossy_take_utf8EncodeChar c hpos hm, leads_take_utf8EncodeChar c hpos]
    · have htake := leads_take_utf8EncodeChar c hpos
      rw [utf8_cons, List.take_append, List.take_of_length_le (by omega)] at *
      rw [fromUtf8Lossy_utf8EncodeChar_append, leads_append, htake, List.length_cons, ih,
        Nat.add_comm]

theorem stray_take_utf8 (s : List Char) (m : Nat) : stray ((utf8 s).take m) = 0 := by
  cases s with
  | nil => simp [stray]
  | cons c s =>
    obtain ⟨lead, bs, henc, hlead, -⟩ := exists_utf8EncodeChar_eq c
    cases m with
    | zero => rfl
    | succ m => simp [stray, henc, hlead]

/-- What is left of a text behind a cut. -/
def Ragged (b : List UInt8) : Prop :=
  ∃ conts s, (∀ x ∈ conts, isContinuation x = true) ∧ b = conts ++ utf8 s

theorem Ragged.utf8 (s : List Char) : Ragged (utf8 s) := ⟨[], s, by simp, rfl⟩

theorem Ragged.tail (h : Ragged b) : Ragged b.tail := by
  obtain ⟨conts, s, hconts, rfl⟩ := h
  cases conts with
  | cons x conts => exact ⟨conts, s, fun y hy => hconts y (List.mem_cons_of_mem x hy), rfl⟩
  | nil =>
    cases s with
    | nil => exact Ragged.utf8 []
    | cons c s =>
      obtain ⟨lead, bs, henc, -, hbs⟩ := exists_utf8EncodeChar_eq c
      exact ⟨bs, s, hbs, by rw [List.nil_append, utf8_cons, henc]; rfl⟩

theorem Ragged.drop (h : Ragged b) (n : Nat) : Ragged (b.drop n) := by
  induction n with
  | zero => exact h
  | succ n ih =>
    rw [← List.tail_drop]
    exact ih.tail

/-- A piece of a text: every byte that begins a character stands for one, and every continuation
byte before them. -/
theorem length_fromUtf8Lossy_take (h : Ragged b) (m : Nat) :
    (fromUtf8Lossy (b.take m)).length = leads (b.take m) + stray (b.take m) := by
  obtain ⟨conts, s, hconts, rfl⟩ := h
  induction conts generalizing m with
  | nil => rw [List.nil_append, stray_take_utf8, length_fromUtf8Lossy_take_utf8, Nat.add_zero]
  | cons x conts ih =>
    rcases m with _ | m
    · rfl
    have hx := hconts x List.mem_cons_self
    have hrest := ih m fun y hy => hconts y (List.mem_cons_of_mem _ hy)
    rw [List.cons_append, List.take_succ_cons, fromUtf8Lossy_cons_of_isContinuation hx,
      List.length_cons, hrest]
    simp [leads, stray, hx, Nat.add_assoc]

/-! ### Chunks -/

/-- The bytes in pieces of `n`, the last one what is left. -/
def chunks (n : Nat) (b : List UInt8) : List (List UInt8) :=
  if 0 < n ∧ n < b.length then b.take n :: chunks n (b.drop n) else [b]
termination_by b.length
decreasing_by rw [List.length_drop]; omega

/-- Every cut adds the continuation bytes behind it. -/
theorem length_flatMap_chunks (n : Nat) (h : Ragged b) :
    ((chunks n b).flatMap fromUtf8Lossy).length = leads b + ((chunks n b).map stray).sum := by
  induction b using chunks.induct n with
  | case1 b hn ih =>
    rw [chunks, if_pos hn, List.flatMap_cons, List.length_append, List.map_cons, List.sum_cons,
      ih (h.drop n), length_fromUtf8Lossy_take h]
    have hleads := leads_append (b.take n) (b.drop n)
    rw [List.take_append_drop] at hleads
    omega
  | case2 b hn =>
    have hall := length_fromUtf8Lossy_take h b.length
    rw [List.take_length] at hall
    simp [chunks, hn, hall]

theorem isContinuation_of_stray (h : stray b = 0)
    (hx : b[0]? = some x) : isContinuation x = false := by
  cases b with
  | nil => cases hx
  | cons y b =>
    obtain rfl : y = x := by simpa using hx
    cases hc : isContinuation y with
    | false => rfl
    | true => simp [stray, hc] at h

/-- No chunk begins inside a character. -/
theorem isContinuation_of_sum_stray {n : Nat} (hn : 0 < n)
    (h : ((chunks n b).map stray).sum = 0) {k : Nat} (hx : b[k * n]? = some x) :
    isContinuation x = false := by
  induction b using chunks.induct n generalizing k with
  | case1 b hlt ih =>
    rw [chunks, if_pos hlt, List.map_cons, List.sum_cons] at h
    cases k with
    | zero =>
      rw [Nat.zero_mul] at hx
      refine isContinuation_of_stray (b := b.take n) (by omega) ?_
      rw [List.getElem?_take_of_lt hn, hx]
    | succ k =>
      refine ih (by omega) (k := k) ?_
      rw [List.getElem?_drop, ← hx, Nat.succ_mul, Nat.add_comm]
  | case2 b hlt =>
    rw [chunks, if_neg hlt] at h
    rcases k with _ | _
    · rw [Nat.zero_mul] at hx
      exact isContinuation_of_stray (by simpa using h) hx
    -- the bytes end before the next cut
    have hlen := (List.getElem?_eq_some_iff.mp hx).1
    rw [Nat.succ_mul] at hlen
    omega

theorem flatMap_chunks {n : Nat} (h : ∀ k x, b[k * n]? = some x → isContinuation x = false) :
    (chunks n b).flatMap fromUtf8Lossy = fromUtf8Lossy b := by
  induction b using chunks.induct n with
  | case1 b hlt ih =>
    have hrest : ∀ k x, (b.drop n)[k * n]? = some x → isContinuation x = false := by
      intro k x hx
      refine h (k + 1) x ?_
      rw [← hx, List.getElem?_drop, Nat.succ_mul, Nat.add_comm]
    rw [chunks, if_pos hlt, List.flatMap_cons, ih hrest]
    obtain ⟨x, r, hxr⟩ : ∃ x r, b.drop n = x :: r := by
      cases hd : b.drop n with
      | nil => exact absurd (List.drop_eq_nil_iff.mp hd) (by omega)
      | cons x r => exact ⟨x, r, rfl⟩
    have hx : isContinuation x = false := hrest 0 x (by simp [hxr])
    rw [hxr, ← fromUtf8Lossy_append_cons _ hx, ← hxr, List.take_append_drop]
  | case2 b hlt => simp [chunks, hlt]

/-! ### Character boundaries -/

theorem isSome_sliceFrom_iff {s : List Char} {i : Nat} (hx : (utf8 s)[i]? = some x) :
    (sliceFrom s i).isSome ↔ isContinuation x = false := by
  induction s generalizing i with
  | nil => simp at hx
  | cons c s ih =>
    obtain ⟨lead, bs, henc, hlead, hbs⟩ := exists_utf8EncodeChar_eq c
    have hsize : c.utf8Size = bs.length + 1 := by
      rw [← String.length_utf8EncodeChar, henc, List.length_cons]
    rw [utf8_cons, henc, List.cons_append] at hx
    rcases i with _ | i
    · obtain rfl : lead = x := by simpa using hx
      simp [sliceFrom, hlead]
    rw [List.getElem?_cons_succ] at hx
    by_cases hin : i < bs.length
    · rw [List.getElem?_append_left hin] at hx
      have hcont := hbs x (List.mem_of_getElem? hx)
      rw [sliceFrom_inside c s (by omega) (by omega)]
      simp [hcont]
    · rw [List.getElem?_append_right (by omega)] at hx
      have hstep := sliceFrom_add_utf8Size c s (i - bs.length)
      rw [hsize, show bs.length + 1 + (i - bs.length) = i + 1 by omega] at hstep
      rw [hstep]
      exact ih hx

theorem exists_utf8_of_lead {text : List Char} {a r : List UInt8}
    (hx : isContinuation x = false) (htext : a ++ x :: r = utf8 text) :
    ∃ before rest, text = before ++ rest ∧ a = utf8 before ∧ x :: r = utf8 rest := by
  have hget : (utf8 text)[a.length]? = some x := by simp [← htext]
  obtain ⟨rest, hrest⟩ := Option.isSome_iff_exists.mp ((isSome_sliceFrom_iff hget).mpr hx)
  obtain ⟨before, rfl, hlength⟩ := exists_of_sliceFrom hrest
  rw [utf8_append] at htext
  obtain ⟨ha, hr⟩ := List.append_inj htext hlength.symm
  exact ⟨before, rest, rfl, ha, hr⟩

/-- A text cut where the decoder is between characters is cut between two of its own. -/
theorem exists_utf8_of_after {text : List Char} {a r : List UInt8} (h : after none a = none)
    (htext : a ++ r = utf8 text) :
    ∃ before rest, text = before ++ rest ∧ a = utf8 before ∧ r = utf8 rest := by
  induction text generalizing a with
  | nil =>
    obtain ⟨rfl, rfl⟩ := List.append_eq_nil_iff.mp htext
    exact ⟨[], [], rfl, rfl, rfl⟩
  | cons c text ih =>
    by_cases hlen : a.length < (String.utf8EncodeChar c).length
    · -- the cut is in the first character, so before it
      have ha : a = (String.utf8EncodeChar c).take a.length := by
        have htake := congrArg (List.take a.length) htext
        rwa [List.take_left, utf8_cons, List.take_append_of_le_length (Nat.le_of_lt hlen)] at htake
      rcases hm : a.length with _ | m
      · obtain rfl := List.length_eq_zero_iff.mp hm
        exact ⟨[], c :: text, rfl, rfl, htext⟩
      obtain ⟨-, henc⟩ | ⟨lead, bs, p, henc, hp, hdone⟩ := utf8EncodeChar_cases c
      · rw [henc, List.length_singleton] at hlen
        omega
      · rw [henc, List.length_cons] at hlen
        rw [ha, hm, henc, List.take_succ_cons, after, next, hp] at h
        obtain ⟨-, q, hq⟩ := hdone.decode_take (m := m) (by omega)
        rw [hq] at h
        cases h
    · obtain ⟨a', rfl⟩ : ∃ a', a = String.utf8EncodeChar c ++ a' := by
        exact (List.prefix_of_prefix_length_le ⟨_, rfl⟩ ⟨r, htext⟩ (Nat.le_of_not_lt hlen)).imp
          fun _ h => h.symm
      rw [after_append, (decode_utf8EncodeChar c).2] at h
      rw [utf8_cons, List.append_assoc] at htext
      obtain ⟨before, rest, rfl, rfl, hr⟩ := ih h (List.append_cancel_left htext)
      exact ⟨c :: before, rest, rfl, rfl, hr⟩

/-- No character is cut between `a` and `r`: the decoder is between two after `a`, or `r` begins
with a byte that begins one. -/
def IsBoundary (a r : List UInt8) : Prop :=
  after none a = none ∨ ∃ x r', r = x :: r' ∧ isContinuation x = false

namespace IsBoundary

variable {a r : List UInt8}

theorem append (h : IsBoundary a r) (later : List UInt8) : IsBoundary a (r ++ later) := by
  rcases h with hafter | ⟨x, r', rfl, hx⟩
  · exact .inl hafter
  · exact .inr ⟨x, r' ++ later, rfl, hx⟩

theorem fromUtf8Lossy_eq (h : IsBoundary a r) :
    fromUtf8Lossy (a ++ r) = fromUtf8Lossy a ++ fromUtf8Lossy r := by
  rcases h with hafter | ⟨x, r', rfl, hx⟩
  · exact fromUtf8Lossy_append hafter r
  · exact fromUtf8Lossy_append_cons a hx r'

/-- There a text is cut between two of its characters. -/
theorem exists_utf8 (h : IsBoundary a r) {text : List Char} (htext : a ++ r = utf8 text) :
    ∃ before rest, text = before ++ rest ∧ a = utf8 before ∧ r = utf8 rest := by
  rcases h with hafter | ⟨x, r', rfl, hx⟩
  · exact exists_utf8_of_after hafter htext
  · exact exists_utf8_of_lead hx htext

end IsBoundary

/-- A text comes back from its chunks exactly when each begins at a character boundary. -/
theorem flatMap_chunks_iff {n : Nat} (hn : 0 < n) (s : List Char) :
    (chunks n (utf8 s)).flatMap fromUtf8Lossy = s ↔
      ∀ k, k * n < (utf8 s).length → (sliceFrom s (k * n)).isSome := by
  constructor
  · intro h k hk
    have hlen := length_flatMap_chunks n (Ragged.utf8 s)
    rw [h, leads_utf8] at hlen
    have hx := List.getElem?_eq_getElem hk
    exact (isSome_sliceFrom_iff hx).mpr (isContinuation_of_sum_stray hn (by omega) hx)
  · intro h
    refine (flatMap_chunks fun k x hx => ?_).trans (fromUtf8Lossy_utf8 s)
    have hk := (List.getElem?_eq_some_iff.mp hx).1
    exact (isSome_sliceFrom_iff hx).mp (h k hk)

end Zyris
