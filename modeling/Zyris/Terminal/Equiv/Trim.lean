import Zyris.Lib.Lossy
import Zyris.Terminal.Session
import Zyris.Terminal.Equiv.Sanitize

/-!
# Where `read` cuts its page

`read` cuts at the smaller of two places.  `Place` follows raw output byte by byte; `escapesTame`
says that no sequence is open for more than the `LOOKBACK` of the trimmer, that an ESC inside one is
that of its terminator, and that an ESC is followed by ASCII.  On such output what comes before the
cut and what comes after it are read as they would be together (`cut_spec`).
-/

namespace Zyris.Terminal

/-! ### Following raw output -/

def Mode.step : Mode → UInt8 → Mode
  | .text, b => if b = ESC then .esc else .text
  | .esc, b => if b = byte '[' then .csi else if opensString b then .str else .text
  | .csi, b => if 0x40 ≤ b ∧ b ≤ 0x7E then .text else .csi
  | .str, b => if b = BEL then .text else if b = ESC then .strEsc else .str
  | .strEsc, _ => .text

/-- The bytes a sequence may go on with: no ESC but the one of ST, and ASCII after an ESC. -/
def Mode.permits : Mode → UInt8 → Bool
  | .text, _ => true
  | .esc, b => b < 0x80 && b ≠ ESC
  | .csi, b => b ≠ ESC
  | .str, _ => true
  | .strEsc, b => b = byte '\\'

/-- Where a reader of raw output stands, and the bytes of its sequence behind it. -/
structure Place where
  mode : Mode
  size : Nat
  deriving DecidableEq

namespace Place

def start : Place := ⟨.text, 0⟩

def next (p : Place) (b : UInt8) : Place :=
  ⟨p.mode.step b, if p.mode.step b = .text then 0 else p.size + 1⟩

def after (p : Place) (bs : List UInt8) : Place := bs.foldl next p

/-- Every sequence goes on as permitted and is open for at most `LOOKBACK` bytes. -/
def tame : Place → List UInt8 → Bool
  | _, [] => true
  | p, b :: bs => p.mode.permits b && decide ((p.next b).size ≤ LOOKBACK) && (p.next b).tame bs

theorem after_append (p : Place) (a b : List UInt8) :
    p.after (a ++ b) = (p.after a).after b :=
  List.foldl_append

theorem tame_append {p : Place} {a b : List UInt8} :
    p.tame (a ++ b) = true ↔ p.tame a = true ∧ (p.after a).tame b = true := by
  induction a generalizing p with
  | nil => simp [tame, after]
  | cons c a ih =>
    have hafter : p.after (c :: a) = (p.next c).after a := rfl
    simp only [List.cons_append, tame, Bool.and_eq_true, ih, hafter, and_assoc]

theorem tame_cons {p : Place} {b : UInt8} {bs : List UInt8} (h : p.tame (b :: bs) = true) :
    p.mode.permits b = true ∧ (p.next b).size ≤ LOOKBACK ∧ (p.next b).tame bs = true := by
  simpa [tame, and_assoc] using h

end Place

/-- No escape sequence is open for more than `LOOKBACK` bytes, or holds an ESC but its terminator's
or a byte outside ASCII right after its ESC. -/
def escapesTame (bs : List UInt8) : Bool := Place.start.tame bs

/-! ### Raw output and its text -/

/-- The modes a byte outside ASCII leaves as they are. -/
def Mode.isQuiet : Mode → Bool
  | .text | .csi | .str => true
  | .esc | .strEsc => false

variable {m : Mode} {b : UInt8} {a cs bs rest : List UInt8} {p : Place} {j : Nat}

theorem Mode.step_of_isQuiet (hm : m.isQuiet = true) (hb : 0x80 ≤ b) : m.step b = m := by
  have hb' := UInt8.le_iff_toNat_le.mp hb
  have hESC : b ≠ ESC := by rintro rfl; exact absurd hb (by decide)
  have hBEL : b ≠ BEL := by rintro rfl; exact absurd hb (by decide)
  have hfinal : ¬ (0x40 ≤ b ∧ b ≤ 0x7E) := by
    simp only [UInt8.le_iff_toNat_le, UInt8.reduceToNat] at hb' ⊢
    omega
  cases m with
  | text => exact if_neg hESC
  | csi => exact if_neg hfinal
  | str => exact (if_neg hBEL).trans (if_neg hESC)
  | esc => cases hm
  | strEsc => cases hm

theorem Mode.isQuiet_of_permits (h : m.permits b = true) (hb : 0x80 ≤ b) : m.isQuiet = true := by
  cases m with
  | text => rfl
  | csi => rfl
  | str => rfl
  | esc =>
    simp only [permits, Bool.and_eq_true, decide_eq_true_eq] at h
    exact absurd h.1 (UInt8.not_lt.mpr hb)
  | strEsc =>
    simp only [permits, decide_eq_true_eq] at h
    subst h
    exact absurd hb (by decide)

theorem Mode.next_of_isQuiet (hm : m.isQuiet = true) {c : Char}
    (hc : c.toNat = 0 ∨ 0x80 ≤ c.toNat) : m.next c = some m := by
  have hne (d : Char) (hd : d.toNat ≠ 0 ∧ d.toNat < 0x80) : c ≠ d := by
    rintro rfl
    omega
  have hfinal : ¬ (0x40 ≤ c.toNat ∧ c.toNat ≤ 0x7E) := by omega
  cases m with
  | text => simp only [next, if_neg (hne '\x1b' (by decide))]
  | csi => simp only [next, if_neg hfinal]
  | str => simp only [next, if_neg (hne '\x07' (by decide)), if_neg (hne '\x1b' (by decide))]
  | esc => cases hm
  | strEsc => cases hm

/-- An ASCII byte takes a mode where its character takes it. -/
theorem Mode.next_of_lt (h : m.permits b = true) (hb : b < 0x80) :
    m.next (Char.ofNat b.toNat) = some (m.step b) := by
  obtain ⟨c, hc, rfl⟩ := exists_byte_eq hb
  rw [byte_toNat hc, Char.ofNat_toNat]
  have hinj (d : Char) (hd : isAscii d = true) : byte c = byte d ↔ c = d := byte_inj hc hd
  cases m with
  | text => simp only [step, next, ESC_eq, hinj '\x1b' (by decide)]
  | esc =>
    simp only [step, next, hinj '[' (by decide), opensString_byte hc, if_pos hc]
    split_ifs <;> rfl
  | csi =>
    have hiff : (0x40 ≤ byte c ∧ byte c ≤ 0x7E) ↔ (0x40 ≤ c.toNat ∧ c.toNat ≤ 0x7E) := by
      simp only [UInt8.le_iff_toNat_le, byte_toNat hc, UInt8.reduceToNat]
    simp only [step, next, hiff]
  | str => simp only [step, next, ESC_eq, BEL_eq, hinj '\x1b' (by decide), hinj '\x07' (by decide)]
  | strEsc =>
    have hst : c = '\\' := (hinj '\\' (by decide)).mp (of_decide_eq_true h)
    subst hst
    rfl

theorem Mode.after_first (h : m.permits b = true) :
    m.after (Lossy.first b).2 = some (m.step b) ∧
      ((Lossy.first b).1.isSome = true → (m.step b).isQuiet = true) := by
  rcases Lossy.first_cases b with ⟨hb, he⟩ | ⟨hb, he⟩ | ⟨p, he, hb, -⟩
  · rw [he]
    exact ⟨after_cons_of_next (next_of_lt h hb) [], by rintro ⟨⟩⟩
  · have hquiet := isQuiet_of_permits h hb
    rw [he, step_of_isQuiet hquiet hb]
    exact ⟨after_cons_of_next (next_of_isQuiet hquiet (by decide)) [], by rintro ⟨⟩⟩
  · have hb' : 0x80 ≤ b := UInt8.le_trans (by decide) hb
    have hquiet := isQuiet_of_permits h hb'
    rw [he, step_of_isQuiet hquiet hb']
    exact ⟨rfl, fun _ => hquiet⟩

theorem Mode.after_next (h : m.permits b = true) (d : Option Partial)
    (hd : d.isSome = true → m.isQuiet = true) :
    m.after (Lossy.next d b).2 = some (m.step b) ∧
      ((Lossy.next d b).1.isSome = true → (m.step b).isQuiet = true) := by
  rcases d with _ | q
  · exact after_first h
  have hquiet : m.isQuiet = true := hd rfl
  have hcont (hb : isContinuation b = true) : m.step b = m := by
    simp only [isContinuation, Bool.and_eq_true, decide_eq_true_eq] at hb
    exact step_of_isQuiet hquiet hb.1
  rcases Lossy.next_cases q b with ⟨n, he, hb, hn⟩ | ⟨p, he, hb, -⟩ | he
  · rw [he, hcont hb]
    have hchar : (Char.ofNat n).toNat = 0 ∨ 0x80 ≤ (Char.ofNat n).toNat := by
      rcases toNat_ofNat n with h0 | hn'
      · exact .inl h0
      · exact .inr (hn'.symm ▸ hn)
    exact ⟨after_cons_of_next (next_of_isQuiet hquiet hchar) [], by rintro ⟨⟩⟩
  · rw [he, hcont hb]
    exact ⟨rfl, fun _ => hquiet⟩
  · rw [he]
    obtain ⟨hfirst, hrest⟩ := after_first h
    refine ⟨?_, hrest⟩
    rw [after_cons_of_next (next_of_isQuiet hquiet (by decide)), hfirst]

open Lossy in
theorem Place.after_decode : ∀ {p : Place} {d : Option Partial},
    p.tame a = true → (d.isSome = true → p.mode.isQuiet = true) →
      p.mode.after (decode d a ++ flush (Lossy.after d a)) = some (p.after a).mode := by
  induction a with
  | nil =>
    intro p d _ hd
    cases d with
    | none => rfl
    | some q => exact Mode.after_cons_of_next (Mode.next_of_isQuiet (hd rfl) (by decide)) []
  | cons b a ih =>
    intro p d h hd
    obtain ⟨hpermits, -, hrest⟩ := tame_cons h
    obtain ⟨hmode, hquiet⟩ := Mode.after_next hpermits d hd
    rw [decode, Lossy.after, List.append_assoc, Mode.after_append, hmode, Option.bind_some]
    exact ih hrest hquiet

/-- **The text of tame output is followed to the same mode as its bytes.** -/
theorem Place.after_fromUtf8Lossy (h : p.tame a = true) :
    p.mode.after (fromUtf8Lossy a) = some (p.after a).mode :=
  after_decode h (by rintro ⟨⟩)

/-! ### The two trimmers -/

/-- One step back of `trim_incomplete_tail`, over the byte `c` before the bytes `z`. -/
theorem trimIncompleteTail_go_succ (y z : List UInt8) (c : UInt8) (n : Nat) :
    trimIncompleteTail.go (y ++ c :: z) (n + 1) (z.length + 1) =
      if c < 0x80 then (y ++ c :: z).length
      else if 0xC0 ≤ c then
        if z.length + 1 < Lossy.width c then y.length else (y ++ c :: z).length
      else trimIncompleteTail.go (y ++ c :: z) n ((c :: z).length + 1) := by
  have hlen : (y ++ c :: z).length - (z.length + 1) = y.length := by simp
  have hget : (y ++ c :: z).getD y.length 0 = c := by simp
  simp only [trimIncompleteTail.go, hlen, hget]
  rfl

/-- `trim_incomplete_tail` keeps everything, or cuts before a lead byte with too few continuation
bytes after it. -/
theorem trimIncompleteTail_go_cases {n : Nat} : ∀ (y z : List UInt8),
    (∀ c ∈ z, isContinuation c = true) → n ≤ y.length →
      trimIncompleteTail.go (y ++ z) n (z.length + 1) = (y ++ z).length ∨
      ∃ x lead cs, y ++ z = x ++ lead :: cs ∧ 0xC0 ≤ lead ∧ (∀ c ∈ cs, isContinuation c = true) ∧
        cs.length + 1 < Lossy.width lead ∧
        trimIncompleteTail.go (y ++ z) n (z.length + 1) = x.length := by
  induction n with
  | zero => exact fun _ _ _ _ => .inl rfl
  | succ n ih =>
    intro y z hz hn
    obtain ⟨y, c, rfl⟩ := List.eq_nil_or_concat y |>.resolve_left (by rintro rfl; simp at hn)
    rw [List.concat_eq_append, List.append_assoc, List.singleton_append,
      trimIncompleteTail_go_succ]
    split_ifs with hascii hlead hwidth
    · exact .inl rfl
    · exact .inr ⟨y, c, z, rfl, hlead, hz, hwidth, rfl⟩
    · exact .inl rfl
    · refine ih y (c :: z) ?_ (by simpa using hn)
      intro b hb
      rcases List.mem_cons.mp hb with rfl | hb
      · simp only [isContinuation, Bool.and_eq_true, decide_eq_true_eq, UInt8.le_iff_toNat_le,
          UInt8.lt_iff_toNat_lt, UInt8.reduceToNat] at hascii hlead ⊢
        omega
      · exact hz b hb

theorem trimIncompleteTail_go_lead (x : List UInt8) (lead : UInt8) :
    ∀ {n : Nat} (z : List UInt8), (∀ c ∈ cs, isContinuation c = true) → cs.length ≤ n →
      trimIncompleteTail.go (x ++ lead :: (cs ++ z)) n (z.length + 1) =
        trimIncompleteTail.go (x ++ lead :: (cs ++ z)) (n - cs.length) ((cs ++ z).length + 1) := by
  induction cs using List.reverseRecOn with
  | nil => intro n z _ _; rfl
  | append_singleton cs c ih =>
    intro n z hcs hn
    obtain ⟨n, rfl⟩ : ∃ k, n = k + 1 := ⟨n - 1, by simp at hn; omega⟩
    have hc : isContinuation c = true := hcs c (by simp)
    simp only [isContinuation, Bool.and_eq_true, decide_eq_true_eq] at hc
    have hlead : ¬ 0xC0 ≤ c := by
      have := UInt8.le_iff_toNat_le.mp hc.2
      simp only [UInt8.le_iff_toNat_le, UInt8.reduceToNat] at this ⊢
      omega
    have hsplit : x ++ lead :: (cs ++ [c] ++ z) = (x ++ lead :: cs) ++ c :: z := by simp
    have hstep := trimIncompleteTail_go_succ (x ++ lead :: cs) z c n
    rw [if_neg (UInt8.not_lt.mpr hc.1), if_neg hlead, ← hsplit] at hstep
    rw [hstep]
    have := ih (n := n) (c :: z) (fun b hb => hcs b (by simp [hb])) (by simp at hn; omega)
    simpa using this

/-- It cuts before a character that is cut off at the end. -/
theorem trimIncompleteTail_lead (x : List UInt8) {lead : UInt8} (hlead : 0xC0 ≤ lead)
    (hcs : ∀ c ∈ cs, isContinuation c = true) (hwidth : cs.length + 1 < Lossy.width lead) :
    trimIncompleteTail (x ++ lead :: cs) = x.length := by
  have hfour : Lossy.width lead ≤ 4 := by
    unfold Lossy.width
    split_ifs <;> omega
  have hlen : (x ++ lead :: cs).length = x.length + cs.length + 1 := by simp; omega
  -- the lead byte is within the three steps back
  obtain ⟨k, hk⟩ : ∃ k, min 3 (x ++ lead :: cs).length - cs.length = k + 1 :=
    ⟨min 3 (x ++ lead :: cs).length - cs.length - 1, by omega⟩
  have hgo := trimIncompleteTail_go_lead x lead (n := min 3 (x ++ lead :: cs).length) []
    hcs (by omega)
  rw [List.append_nil, hk, trimIncompleteTail_go_succ,
    if_neg (UInt8.not_lt.mpr (UInt8.le_trans (by decide) hlead)), if_pos hlead,
    if_pos (by omega)] at hgo
  exact hgo

/-- **`trim_incomplete_tail`** keeps bytes that end between characters, or cuts before a character
cut off at the end. -/
theorem trimIncompleteTail_spec (b : List UInt8) :
    (trimIncompleteTail b = b.length ∧ Lossy.after none b = none) ∨
    ∃ x lead cs, b = x ++ lead :: cs ∧ 0xC0 ≤ lead ∧ (∀ c ∈ cs, isContinuation c = true) ∧
      cs.length + 1 < Lossy.width lead ∧ trimIncompleteTail b = x.length := by
  cases h : Lossy.after none b with
  | none =>
    rcases trimIncompleteTail_go_cases (n := min 3 b.length) b [] (by simp) (Nat.min_le_right _ _)
      with hall | ⟨x, lead, cs, hb, hlead, hcs, hwidth, hcut⟩
    · rw [List.append_nil] at hall
      exact .inl ⟨hall, rfl⟩
    · rw [List.append_nil] at hb hcut
      exact .inr ⟨x, lead, cs, hb, hlead, hcs, hwidth, hcut⟩
  | some p =>
    right
    obtain ⟨x, lead, cs, rfl, hlead, hcs, hwidth⟩ := Lossy.lead_of_after h
    have hopen : cs.length + 1 < Lossy.width lead := by omega
    exact ⟨x, lead, cs, rfl, hlead, hcs, hopen, trimIncompleteTail_lead x hlead hcs hopen⟩

/-- A continuation byte is outside ASCII. -/
theorem le_of_isContinuation {c : UInt8} (h : isContinuation c = true) : 0x80 ≤ c := by
  simp only [isContinuation, Bool.and_eq_true, decide_eq_true_eq] at h
  exact h.1

theorem rposition_snoc (c d : UInt8) (b : List UInt8) :
    rposition c (b ++ [d]) = if d = c then some b.length else rposition c b := by
  unfold rposition
  rw [List.reverse_append, List.reverse_singleton, List.singleton_append, List.findIdx?_cons,
    List.length_append, List.length_singleton]
  by_cases h : d = c
  · simp [h]
  · simp only [h, decide_false, Bool.false_eq_true, if_false, Option.map_map]
    refine Option.map_congr fun k _ => ?_
    simp only [Function.comp]
    omega

/-- `rposition` finds nothing, or the last one. -/
theorem rposition_cases (c : UInt8) (b : List UInt8) :
    (rposition c b = none ∧ c ∉ b) ∨
    ∃ x y, b = x ++ c :: y ∧ c ∉ y ∧ rposition c b = some x.length := by
  induction b using List.reverseRecOn with
  | nil => exact .inl ⟨rfl, by simp⟩
  | append_singleton b d ih =>
    rw [rposition_snoc]
    by_cases hd : d = c
    · subst hd
      exact .inr ⟨b, [], rfl, by simp, if_pos rfl⟩
    · rw [if_neg hd]
      rcases ih with ⟨hnone, hb⟩ | ⟨x, y, rfl, hy, hpos⟩
      · exact .inl ⟨hnone, by simp [hb, Ne.symm hd]⟩
      · exact .inr ⟨x, y ++ [d], by simp, by simp [hy, Ne.symm hd], hpos⟩

/-- **`trim_incomplete_escape`**: without an ESC in reach all is kept, or the last ESC decides. -/
theorem trimIncompleteEscape_spec (b : List UInt8) :
    (trimIncompleteEscape b = b.length ∧ ESC ∉ b.drop (b.length - LOOKBACK)) ∨
    ∃ x y, b = x ++ ESC :: y ∧ ESC ∉ y ∧ b.length ≤ x.length + LOOKBACK ∧
      trimIncompleteEscape b =
        if (scanEscape b x.length).isSome then b.length else x.length := by
  have hsplit := List.take_append_drop (b.length - LOOKBACK) b
  have hlen : (b.take (b.length - LOOKBACK)).length = b.length - LOOKBACK := by simp
  unfold trimIncompleteEscape
  rcases rposition_cases ESC (b.drop (b.length - LOOKBACK)) with
    ⟨hnone, hESC⟩ | ⟨x, y, hb, hy, hpos⟩
  · left
    simp only [hnone, Option.map_none]
    exact ⟨trivial, hESC⟩
  right
  refine ⟨b.take (b.length - LOOKBACK) ++ x, y, ?_, hy, ?_, ?_⟩
  · rw [List.append_assoc, ← hb, hsplit]
  · rw [List.length_append, hlen]
    omega
  · rw [List.length_append, hlen, Nat.add_comm]
    simp only [hpos, Option.map_some]
    cases scanEscape b (x.length + (b.length - LOOKBACK)) <;> rfl

/-! ### The mode at the cut -/

def Mode.steps (m : Mode) (bs : List UInt8) : Mode := bs.foldl Mode.step m

theorem Place.mode_after (p : Place) (bs : List UInt8) : (p.after bs).mode = p.mode.steps bs := by
  induction bs generalizing p with
  | nil => rfl
  | cons b bs ih => exact ih (p.next b)

theorem Mode.steps_text (h : ESC ∉ bs) : Mode.text.steps bs = .text := by
  induction bs with
  | nil => rfl
  | cons b bs ih =>
    simp only [List.mem_cons, not_or] at h
    have hb : Mode.text.step b = .text := if_neg (Ne.symm h.1)
    rw [steps, List.foldl_cons, hb]
    exact ih h.2

theorem Mode.steps_csi (hESC : ESC ∉ bs) (h : (scanCsi bs j).isSome = true) :
    Mode.csi.steps bs = .text := by
  induction bs generalizing j with
  | nil => cases h
  | cons b bs ih =>
    simp only [List.mem_cons, not_or] at hESC
    rw [steps, List.foldl_cons]
    by_cases hb : 0x40 ≤ b ∧ b ≤ 0x7E
    · rw [show Mode.csi.step b = .text from if_pos hb]
      exact steps_text hESC.2
    · rw [scanCsi, if_neg hb] at h
      rw [show Mode.csi.step b = .csi from if_neg hb]
      exact ih hESC.2 h

theorem Mode.steps_str (hESC : ESC ∉ bs) (h : (scanString bs j).isSome = true) :
    Mode.str.steps bs = .text := by
  induction bs generalizing j with
  | nil => cases h
  | cons b bs ih =>
    simp only [List.mem_cons, not_or] at hESC
    have hb : b ≠ ESC := Ne.symm hESC.1
    rw [steps, List.foldl_cons]
    by_cases hbel : b = BEL
    · rw [show Mode.str.step b = .text from if_pos hbel]
      exact steps_text hESC.2
    · rw [scanString, if_neg hbel, if_neg hb] at h
      rw [show Mode.str.step b = .str from (if_neg hbel).trans (if_neg hb)]
      exact ih hESC.2 h

/-- The last ESC of a page opens a sequence that the page finishes. -/
theorem Mode.steps_esc {x y : List UInt8} (hESC : ESC ∉ y)
    (h : (scanEscape (x ++ ESC :: y) x.length).isSome = true) : Mode.esc.steps y = .text := by
  have hget : (x ++ ESC :: y)[x.length + 1]? = y.head? := by
    rw [List.getElem?_append_right (by omega), Nat.add_sub_cancel_left, List.getElem?_cons_succ,
      List.head?_eq_getElem?]
  have hdrop : (x ++ ESC :: y).drop (x.length + 2) = y.tail := by
    rw [← List.drop_drop, List.drop_left, List.drop_succ_cons, List.drop_one]
  unfold scanEscape at h
  rw [hget, hdrop] at h
  rcases y with _ | ⟨kind, _⟩
  · cases h
  simp only [List.mem_cons, not_or] at hESC
  simp only [List.head?_cons, List.tail_cons] at h
  rw [steps, List.foldl_cons]
  by_cases hcsi : kind = byte '['
  · rw [if_pos hcsi] at h
    rw [show Mode.esc.step kind = .csi from if_pos hcsi]
    exact steps_csi hESC.2 h
  rw [if_neg hcsi] at h
  by_cases hstr : opensString kind = true
  · rw [if_pos hstr] at h
    rw [show Mode.esc.step kind = .str from (if_neg hcsi).trans (if_pos hstr)]
    exact steps_str hESC.2 h
  · rw [show Mode.esc.step kind = .text from (if_neg hcsi).trans (if_neg hstr)]
    exact steps_text hESC.2

theorem Place.next_eq_start (h : p.mode.step b = .text) : p.next b = start := by
  rw [next, h, if_pos rfl]
  rfl

/-- In a sequence, its ESC is as far behind as the place says. -/
theorem Place.opened_of_after (a : List UInt8) :
    start.after a = start ∨
    (start.after a).mode ≠ .text ∧
      ∃ x y, a = x ++ ESC :: y ∧ (start.after a).size = y.length + 1 := by
  induction a using List.reverseRecOn with
  | nil => exact .inl rfl
  | append_singleton a b ih =>
    rw [after_append]
    have hnext : (start.after a).after [b] = (start.after a).next b := rfl
    rw [hnext]
    by_cases hmode : (start.after a).mode.step b = .text
    · exact .inl (next_eq_start hmode)
    refine .inr ⟨hmode, ?_⟩
    have hsize : ((start.after a).next b).size = (start.after a).size + 1 := if_neg hmode
    rcases ih with hstart | ⟨-, x, y, hxy, hlen⟩
    · have hb : b = ESC := by
        by_contra hne
        rw [hstart] at hmode
        exact hmode (if_neg hne)
      exact ⟨a, [], by rw [hb], by rw [hsize, hstart]; rfl⟩
    · exact ⟨x, y ++ [b], by rw [hxy]; simp, by rw [hsize, hlen]; simp⟩

theorem Place.size_le_of_tame (h : p.tame a = true) (hp : p.size ≤ LOOKBACK) :
    (p.after a).size ≤ LOOKBACK := by
  induction a generalizing p with
  | nil => exact hp
  | cons b a ih =>
    obtain ⟨-, hsize, hrest⟩ := tame_cons h
    exact ih hrest hsize

theorem Mode.text_or_str_of_permits (h : m.permits ESC = true) : m = .text ∨ m = .str := by
  cases m with
  | text => exact .inl rfl
  | str => exact .inr rfl
  | esc => cases h
  | csi => cases h
  | strEsc => cases h

/-- **Where `trim_incomplete_escape` cuts tame output**: at the end, which is then in plain text, or
before an ESC that opens a sequence or ends a string. -/
theorem trimIncompleteEscape_tame {b : List UInt8} (h : escapesTame (b ++ rest) = true) :
    (trimIncompleteEscape b = b.length ∧ (Place.start.after b).mode = .text) ∨
    ∃ x y, b = x ++ ESC :: y ∧ trimIncompleteEscape b = x.length ∧
      ((Place.start.after x).mode = .text ∨ (Place.start.after x).mode = .str) := by
  obtain ⟨hb, -⟩ := Place.tame_append.mp h
  rcases trimIncompleteEscape_spec b with ⟨hcut, hESC⟩ | ⟨x, y, rfl, hy, -, hcut⟩
  · -- an open sequence would have its ESC in reach
    left
    refine ⟨hcut, ?_⟩
    rcases Place.opened_of_after b with hstart | ⟨-, x, y, hxy, hsize⟩
    · rw [hstart]
      rfl
    exfalso
    have hle := Place.size_le_of_tame hb (Nat.zero_le _)
    apply hESC
    have hlen : b.length = x.length + (y.length + 1) := by rw [hxy]; simp
    have hdrop : b.length - LOOKBACK ≤ x.length := by omega
    rw [hxy] at hdrop ⊢
    rw [List.drop_append_of_le_length hdrop]
    simp
  · obtain ⟨hx, hrest⟩ := Place.tame_append.mp hb
    obtain ⟨hpermits, -, -⟩ := Place.tame_cons hrest
    have hmode := Mode.text_or_str_of_permits hpermits
    by_cases hscan : (scanEscape (x ++ ESC :: y) x.length).isSome = true
    · rw [if_pos hscan] at hcut
      refine .inl ⟨hcut, ?_⟩
      rw [Place.after_append, Place.mode_after]
      change ((Place.start.after x).mode.step ESC).steps y = .text
      rcases hmode with hmode | hmode
      · rw [hmode]
        exact Mode.steps_esc hy hscan
      · -- the ESC of ST: the backslash follows, or the scan would still be open
        rw [hmode]
        cases y with
        | nil => simp [scanEscape] at hscan
        | cons d y => exact Mode.steps_text fun hmem => hy (List.mem_cons_of_mem _ hmem)
    · rw [if_neg hscan] at hcut
      exact .inr ⟨x, y, rfl, hcut, hmode⟩

/-! ### Reading on from the cut -/

/-- How many of the bytes just read `read` keeps while the program runs. -/
def cut (b : List UInt8) : Nat := min (trimIncompleteTail b) (trimIncompleteEscape b)

theorem Mode.steps_of_isQuiet (hm : m.isQuiet = true) (h : ∀ b ∈ bs, 0x80 ≤ b) :
    m.steps bs = m := by
  induction bs with
  | nil => rfl
  | cons b bs ih =>
    rw [steps, List.foldl_cons, step_of_isQuiet hm (h b List.mem_cons_self)]
    exact ih fun b' hb' => h b' (List.mem_cons_of_mem _ hb')

theorem isContinuation_of_lead (h : 0xC0 ≤ b) : isContinuation b = false := by
  have hle : ¬ b ≤ 0xBF := by
    simp only [UInt8.le_iff_toNat_le, UInt8.reduceToNat] at h ⊢
    omega
  simp [isContinuation, hle]

/-- No character is cut apart, and the text before the cut ends in plain text or before the ESC that
ends a string. -/
theorem cut_cases {b : List UInt8} (h : escapesTame (b ++ rest) = true) :
    ∃ a r, b ++ rest = a ++ r ∧ a.length = cut b ∧ a.length ≤ b.length ∧
      fromUtf8Lossy (a ++ r) = fromUtf8Lossy a ++ fromUtf8Lossy r ∧
      ((Place.start.after a).mode = .text ∨
        (Place.start.after a).mode = .str ∧ ∃ r', r = ESC :: r') := by
  unfold cut
  rcases trimIncompleteEscape_tame h with ⟨hesc, hmode⟩ | ⟨x, y, rfl, hesc, hmode⟩
  · rcases trimIncompleteTail_spec b with
      ⟨htail, hafter⟩ | ⟨x, lead, cs, rfl, hlead, hcs, -, htail⟩
    · refine ⟨b, rest, rfl, ?_, Nat.le_refl _, fromUtf8Lossy_append hafter rest, .inl hmode⟩
      rw [htail, hesc, Nat.min_self]
    refine ⟨x, lead :: (cs ++ rest), by simp, ?_, by simp, ?_, .inl ?_⟩
    · rw [htail, hesc, Nat.min_eq_left (by simp)]
    · exact fromUtf8Lossy_append_cons x (isContinuation_of_lead hlead) _
    · -- the bytes cut off are outside ASCII and do not move the mode
      have hascii : 0x80 ≤ lead := UInt8.le_trans (by decide) hlead
      have hout : ∀ c ∈ cs, 0x80 ≤ c := fun c hc => le_of_isContinuation (hcs c hc)
      obtain ⟨-, hrest⟩ := Place.tame_append.mp (Place.tame_append.mp h).1
      have hquiet := Mode.isQuiet_of_permits (Place.tame_cons hrest).1 hascii
      have hsteps := Mode.steps_of_isQuiet hquiet (List.forall_mem_cons.mpr ⟨hascii, hout⟩)
      rwa [Place.after_append, Place.mode_after, hsteps] at hmode
  · have htail : x.length ≤ trimIncompleteTail (x ++ ESC :: y) := by
      rcases trimIncompleteTail_spec (x ++ ESC :: y) with
        ⟨htail, -⟩ | ⟨x', lead, cs, hsplit, hlead, hcs, -, htail⟩
      · rw [htail]
        simp
      -- the ESC is ASCII, so it comes before the character that is cut off
      by_contra hlt
      have hget : (lead :: cs)[x.length - x'.length]? = some ESC := by
        rw [← List.getElem?_append_right (by omega), ← hsplit]
        simp
      have hascii : 0x80 ≤ lead := UInt8.le_trans (by decide) hlead
      have hout : ∀ c ∈ cs, 0x80 ≤ c := fun c hc => le_of_isContinuation (hcs c hc)
      have hESC := List.forall_mem_cons.mpr ⟨hascii, hout⟩ ESC (List.mem_of_getElem? hget)
      exact absurd hESC (by decide)
    refine ⟨x, ESC :: (y ++ rest), by simp, ?_, by simp, ?_, ?_⟩
    · rw [hesc, Nat.min_eq_right htail]
    · exact fromUtf8Lossy_append_cons x (by decide) _
    · exact hmode.imp_right fun hstr => ⟨hstr, _, rfl⟩

/-- The ESC that ends a string, read from the start: ST is stripped as a sequence of its own. -/
theorem Place.tame_of_str (hp : p.mode = .str) {r : List UInt8} (h : p.tame (ESC :: r) = true) :
    start.tame (ESC :: r) = true ∧
      Mode.str.copied (fromUtf8Lossy (ESC :: r)) = Mode.text.copied (fromUtf8Lossy (ESC :: r)) := by
  obtain ⟨-, -, hr⟩ := tame_cons h
  have hESC : Char.ofNat ESC.toNat = '\x1b' := by decide
  rw [fromUtf8Lossy_cons_of_lt (by decide), hESC]
  rcases r with _ | ⟨d, r⟩
  · exact ⟨by decide, rfl⟩
  obtain ⟨hpermits, -, hr⟩ := tame_cons hr
  have hmode : (p.next ESC).mode = .strEsc := by
    change p.mode.step ESC = .strEsc
    rw [hp]
    rfl
  rw [hmode] at hpermits
  obtain rfl : d = byte '\\' := of_decide_eq_true hpermits
  have hstart : (p.next ESC).next (byte '\\') = start := next_eq_start (by rw [hmode]; rfl)
  rw [hstart] at hr
  have hchar : Char.ofNat (byte '\\').toNat = '\\' := by decide
  have htame : start.tame (ESC :: byte '\\' :: r) = start.tame r := rfl
  exact ⟨htame.trans hr, rfl⟩

/-- `strip_controls` returns on tame output. -/
theorem stripControls_of_tame {b : List UInt8} (h : escapesTame b = true) :
    stripControls (fromUtf8Lossy b) = .ok (Mode.text.copied (fromUtf8Lossy b)) := by
  have hafter : Mode.text.after (fromUtf8Lossy b) = some (Place.start.after b).mode :=
    Place.after_fromUtf8Lossy h
  rw [stripControls_eq, stripped, escapesAscii, hafter]
  rfl

/-- **The cut is right**: on tame output the bytes before it and from it on are tame again, and
stripped apart they give what they give together. -/
theorem cut_spec {b : List UInt8} (h : escapesTame (b ++ rest) = true) :
    escapesTame (b.take (cut b)) = true ∧ escapesTame ((b ++ rest).drop (cut b)) = true ∧
    Mode.text.copied (fromUtf8Lossy (b ++ rest)) = Mode.text.copied (fromUtf8Lossy (b.take (cut b)))
      ++ Mode.text.copied (fromUtf8Lossy ((b ++ rest).drop (cut b))) := by
  obtain ⟨a, r, hsplit, hlen, hle, hlossy, hmode⟩ := cut_cases h
  have htake : b.take (cut b) = a := by
    have := congrArg (List.take a.length) hsplit
    rwa [List.take_append_of_le_length hle, List.take_left, hlen] at this
  have hdrop : (b ++ rest).drop (cut b) = r := by rw [hsplit, ← hlen, List.drop_left]
  rw [htake, hdrop, hsplit, hlossy]
  rw [hsplit] at h
  obtain ⟨ha, hr⟩ := Place.tame_append.mp h
  have hafter : Mode.text.after (fromUtf8Lossy a) = some (Place.start.after a).mode :=
    Place.after_fromUtf8Lossy ha
  rw [Mode.copied_append hafter]
  rcases hmode with hmode | ⟨hmode, r', rfl⟩
  · rcases Place.opened_of_after a with hstart | ⟨hne, -⟩
    · rw [hstart] at hr
      rw [hmode]
      exact ⟨ha, hr, rfl⟩
    · exact absurd hmode hne
  · obtain ⟨htame, hcopied⟩ := Place.tame_of_str hmode hr
    rw [hmode, hcopied]
    exact ⟨ha, htame, rfl⟩

end Zyris.Terminal
