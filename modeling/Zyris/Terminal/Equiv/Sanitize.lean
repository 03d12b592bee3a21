import Zyris.Terminal.Sanitize
import Mathlib.Tactic.SplitIfs

/-!
# When `stripControls` returns

The byte scanner, read off the characters: `Mode.next` follows a text and gives up exactly at an ESC
that opens a sequence and is followed by a character outside ASCII; `escapesAscii s` says this never
happens.  The CSI and string arms stop at an ASCII byte, hence at a boundary.  The two-byte arm does
not look at the second byte, so it may stop inside a character, where the copier slices.
-/

namespace Zyris.Terminal

/-! ### Following a text by characters -/

/-- Where a reader stands: in plain text, after an ESC that opens a sequence, inside a CSI or a
string sequence, or after an ESC inside one. -/
inductive Mode
  | text
  | esc
  | csi
  | str
  | strEsc
  deriving DecidableEq, Repr

/-- The mode after one more character; `none` when an ESC is followed by a character outside
ASCII. -/
def Mode.next : Mode → Char → Option Mode
  | .text, c => some (if c = '\x1b' then .esc else .text)
  | .esc, c =>
    if c = '[' then some .csi
    else if c = ']' ∨ c = 'P' ∨ c = 'X' ∨ c = '^' ∨ c = '_' then some .str
    else if isAscii c then some .text
    else none
  | .csi, c => some (if 0x40 ≤ c.toNat ∧ c.toNat ≤ 0x7E then .text else .csi)
  | .str, c => some (if c = '\x07' then .text else if c = '\x1b' then .strEsc else .str)
  -- the ESC of ST, or the end of an abandoned string: what follows is read as text
  | .strEsc, c => some (if c = '\\' then .text else if c = '\x1b' then .esc else .text)

def Mode.after (m : Mode) (s : List Char) : Option Mode := s.foldlM Mode.next m

/-- No ESC that opens a sequence is followed by a character outside ASCII. -/
def escapesAscii (s : List Char) : Bool := (Mode.text.after s).isSome

@[simp] theorem Mode.after_nil (m : Mode) : m.after [] = some m := rfl

theorem Mode.after_cons (m : Mode) (c : Char) (s : List Char) :
    m.after (c :: s) = (m.next c).bind fun m' => m'.after s := rfl

variable {m m' : Mode} {c d : Char} {s : List Char} {l : List UInt8}

theorem Mode.after_cons_of_next (h : m.next c = some m') (s : List Char) :
    m.after (c :: s) = m'.after s := by
  rw [Mode.after_cons, h, Option.bind_some]

theorem Mode.after_append (m : Mode) (s t : List Char) :
    m.after (s ++ t) = (m.after s).bind fun m' => m'.after t :=
  List.foldlM_append

/-- The characters of plain text that are copied: of the controls only `\n` and `\t`. -/
def isCopied (c : Char) : Bool := c = '\n' || c = '\t' || !(c.toNat < 0x20 || c.toNat = 0x7F)

theorem isCopied_iff :
    isCopied c = true ↔ c = '\n' ∨ c = '\t' ∨ ¬ (c.toNat < 0x20 ∨ c.toNat = 0x7F) := by
  simp only [isCopied, Bool.or_eq_true, Bool.not_eq_true', decide_eq_true_eq, Bool.or_eq_false_iff,
    decide_eq_false_iff_not, not_or, or_assoc]

/-- What is copied of one character. -/
def Mode.copies : Mode → Char → List Char
  | .text, c => if isCopied c then [c] else []
  | .strEsc, c => if c = '\\' then [] else if isCopied c then [c] else []
  | _, _ => []

/-- What is copied of a text. -/
def Mode.copied : Mode → List Char → List Char
  | _, [] => []
  | m, c :: s => m.copies c ++ ((m.next c).map fun m' => m'.copied s).getD []

theorem Mode.copied_cons_of_next (h : m.next c = some m') (s : List Char) :
    m.copied (c :: s) = m.copies c ++ m'.copied s := by
  rw [Mode.copied, h, Option.map_some, Option.getD_some]

theorem Mode.copied_append (h : m.after s = some m') (t : List Char) :
    m.copied (s ++ t) = m.copied s ++ m'.copied t := by
  induction s generalizing m with
  | nil =>
    obtain rfl := Option.some.inj h
    rfl
  | cons c s ih =>
    obtain ⟨m₁, hnext, hs⟩ := Option.bind_eq_some_iff.mp h
    rw [List.cons_append, Mode.copied_cons_of_next hnext, Mode.copied_cons_of_next hnext, ih hs,
      List.append_assoc]

/-- Reading `s` in mode `m` ends and copies the same as reading `t` in mode `m'`. -/
def Mode.Reads (m : Mode) (s : List Char) (m' : Mode) (t : List Char) : Prop :=
  m.after s = m'.after t ∧ m.copied s = m'.copied t

theorem Mode.reads_cons (h : m.next c = some m') (hc : m.copies c = []) (s : List Char) :
    m.Reads (c :: s) m' s :=
  ⟨after_cons_of_next h s, by rw [copied_cons_of_next h, hc, List.nil_append]⟩

theorem Mode.Reads.trans {m₁ m₂ m₃ : Mode} {s₁ s₂ s₃ : List Char} (h : m₁.Reads s₁ m₂ s₂)
    (h' : m₂.Reads s₂ m₃ s₃) : m₁.Reads s₁ m₃ s₃ :=
  ⟨h.1.trans h'.1, h.2.trans h'.2⟩

/-! ### The scanner on characters -/

theorem ESC_eq : ESC = byte '\x1b' := by decide

theorem BEL_eq : BEL = byte '\x07' := by decide

/-- A scan either runs off the text or stops at a boundary after which the text goes on. -/
def Mode.Scans (m : Mode) (scan : List UInt8 → Nat → Option Nat) (s : List Char) (j : Nat) : Prop :=
  (scan (utf8 s) j = none ∧ ∃ m', m.Reads s m' []) ∨
  ∃ p t, s = p ++ t ∧ scan (utf8 s) j = some (j + (utf8 p).length) ∧ m.Reads s .text t

theorem Mode.Scans.cons {scan : List UInt8 → Nat → Option Nat} {j : Nat}
    (hskip : ∀ b ∈ String.utf8EncodeChar c, ∀ rest j, scan (b :: rest) j = scan rest (j + 1))
    (hnext : m.next c = some m) (hcopies : m.copies c = [])
    (h : ∀ j, m.Scans scan s j) : m.Scans scan (c :: s) j := by
  have hscan : ∀ l, (∀ b ∈ l, ∀ rest j, scan (b :: rest) j = scan rest (j + 1)) → ∀ rest j,
      scan (l ++ rest) j = scan rest (j + l.length) := by
    intro l hl rest j
    induction l generalizing j with
    | nil => rfl
    | cons b l ih =>
      obtain ⟨hb, hl⟩ := List.forall_mem_cons.mp hl
      rw [List.cons_append, hb, ih hl, List.length_cons, Nat.add_assoc, Nat.add_comm 1]
  have hstep := Mode.reads_cons hnext hcopies s
  rcases h (j + (String.utf8EncodeChar c).length) with ⟨hnone, m', hm⟩ | ⟨p, t, rfl, hs, hm⟩
  · exact .inl ⟨by rw [utf8_cons, hscan _ hskip, hnone], m', hstep.trans hm⟩
  · refine .inr ⟨c :: p, t, rfl, ?_, hstep.trans hm⟩
    rw [utf8_cons, hscan _ hskip, hs, utf8_cons, List.length_append, Nat.add_assoc]

theorem scanCsi_utf8 (s : List Char) (j : Nat) : Mode.csi.Scans scanCsi s j := by
  induction s generalizing j with
  | nil => exact .inl ⟨rfl, .csi, rfl, rfl⟩
  | cons c s ih =>
    by_cases hend : 0x40 ≤ c.toNat ∧ c.toNat ≤ 0x7E
    · have hc : isAscii c = true := by
        rw [isAscii, decide_eq_true_eq]
        omega
      refine .inr ⟨[c], s, rfl, ?_, Mode.reads_cons (by simp [Mode.next, hend]) rfl s⟩
      rw [utf8_cons_of_isAscii hc, utf8_cons_of_isAscii hc, scanCsi, if_pos]
      · rfl
      · simpa only [UInt8.le_iff_toNat_le, byte_toNat hc, UInt8.reduceToNat] using hend
    · refine .cons (fun b hb rest j => ?_) (by simp [Mode.next, hend]) rfl ih
      rw [scanCsi, if_neg]
      rw [UInt8.le_iff_toNat_le, UInt8.le_iff_toNat_le]
      simp only [UInt8.reduceToNat]
      cases hc : isAscii c with
      | true =>
        rw [utf8EncodeChar_of_isAscii hc, List.mem_singleton] at hb
        rwa [hb, byte_toNat hc]
      | false =>
        have := le_of_mem_utf8EncodeChar hc hb
        omega

theorem utf8_eq_nil : utf8 s = [] ↔ s = [] := by
  cases s with
  | nil => simp
  | cons c s => simp [String.utf8EncodeChar_ne_nil]

/-- The byte after a boundary is the ASCII literal exactly when the character there is. -/
theorem head?_utf8_eq_some_byte (hd : isAscii d = true) (s : List Char) :
    (utf8 s).head? = some (byte d) ↔ s.head? = some d := by
  rcases s with _ | ⟨c, _⟩
  · simp
  by_cases hc : isAscii c = true
  · rw [utf8_cons_of_isAscii hc]
    simp [byte_inj hc hd]
  have hcd : c ≠ d := by
    rintro rfl
    exact hc hd
  obtain ⟨b, l, hb⟩ := List.exists_cons_of_ne_nil (String.utf8EncodeChar_ne_nil (c := c))
  have hne : b ≠ byte d := ne_byte_of_mem_utf8EncodeChar hd hcd (by simp [hb])
  simp [utf8_cons, hb, hne, hcd]

/-- The string arm stops after BEL, ST, or the ESC that abandons the string: right after an ASCII
character. -/
theorem scanString_utf8 (s : List Char) (j : Nat) : Mode.str.Scans scanString s j := by
  induction s generalizing j with
  | nil => exact .inl ⟨rfl, .str, rfl, rfl⟩
  | cons c s ih =>
    by_cases hbel : c = '\x07'
    · subst hbel
      exact .inr ⟨['\x07'], s, rfl, rfl, rfl, rfl⟩
    by_cases hesc : c = '\x1b'
    · subst hesc
      have hstep := Mode.reads_cons (show Mode.str.next '\x1b' = some .strEsc from rfl) rfl s
      rcases s with _ | ⟨d, s⟩
      · exact .inl ⟨rfl, .strEsc, hstep⟩
      right
      by_cases hd : d = '\\'
      · subst hd
        exact ⟨['\x1b', '\\'], s, rfl, rfl, rfl, rfl⟩
      have hne : (utf8 (d :: s)).head? ≠ some (byte '\\') := by
        rw [Ne, head?_utf8_eq_some_byte (by decide)]
        simpa using hd
      obtain ⟨b, l, hb⟩ :=
        List.exists_cons_of_ne_nil (mt utf8_eq_nil.mp (List.cons_ne_nil d s))
      refine ⟨['\x1b'], d :: s, rfl, ?_, ?_⟩
      · rw [utf8_cons_of_isAscii (by decide), scanString, BEL_eq, ESC_eq, if_neg (by decide),
          if_pos rfl]
        rw [hb] at hne ⊢
        simp only [List.head?_cons]
        rw [if_neg (fun h => hne (by rw [h, List.head?_cons]))]
        rfl
      · -- the abandoned string is read on as text, from the character after the ESC
        refine hstep.trans ⟨?_, ?_⟩
        · rw [Mode.after_cons, Mode.after_cons]
          simp [Mode.next, hd]
        · rw [Mode.copied, Mode.copied]
          simp [Mode.next, Mode.copies, hd]
    · refine .cons (fun b hb rest j => ?_) (by simp [Mode.next, hbel, hesc]) rfl ih
      have h1 := ne_byte_of_mem_utf8EncodeChar (d := '\x07') (by decide) hbel hb
      have h2 := ne_byte_of_mem_utf8EncodeChar (d := '\x1b') (by decide) hesc hb
      rw [scanString, BEL_eq, ESC_eq, if_neg h1, if_neg h2]

theorem getElem?_utf8_append (s t : List Char) (k : Nat) :
    (utf8 (s ++ t))[(utf8 s).length + k]? = (utf8 t)[k]? := by
  rw [utf8_append, List.getElem?_append_right (by omega), Nat.add_sub_cancel_left]

theorem opensString_byte (hc : isAscii c = true) :
    opensString (byte c) = true ↔ c = ']' ∨ c = 'P' ∨ c = 'X' ∨ c = '^' ∨ c = '_' := by
  have h (d : Char) (hd : isAscii d = true) : byte c = byte d ↔ c = d := byte_inj hc hd
  simp only [opensString, Bool.or_eq_true, decide_eq_true_eq, h ']' (by decide),
    h 'P' (by decide), h 'X' (by decide), h '^' (by decide), h '_' (by decide)]
  tauto

theorem opensString_eq_false {b : UInt8} (hb : 0x80 ≤ b.toNat) : opensString b = false := by
  have h (d : Char) (hd : d.toNat < 0x80) : b ≠ byte d := by
    rintro rfl
    rw [byte_toNat (by simpa [isAscii] using hd)] at hb
    omega
  simp [opensString, h ']' (by decide), h 'P' (by decide), h 'X' (by decide), h '^' (by decide),
    h '_' (by decide)]

/-- `scan_escape` at a boundary runs off the text, stops at a later boundary, or stops one byte into
a multi-byte character behind the ESC. -/
theorem scanEscape_utf8 (pre s : List Char) :
    (scanEscape (utf8 (pre ++ '\x1b' :: s)) (utf8 pre).length = none ∧
      ∃ m, Mode.esc.Reads s m []) ∨
    (∃ p t, s = p ++ t ∧ scanEscape (utf8 (pre ++ '\x1b' :: s)) (utf8 pre).length
        = some ((utf8 pre).length + 1 + (utf8 p).length) ∧
      Mode.esc.Reads s .text t) ∨
    ∃ d t, s = d :: t ∧ isAscii d = false ∧ Mode.esc.after s = none ∧
      scanEscape (utf8 (pre ++ '\x1b' :: s)) (utf8 pre).length
        = some ((utf8 pre).length + 2) := by
  have hget : (utf8 (pre ++ '\x1b' :: s))[(utf8 pre).length + 1]? = (utf8 s).head? := by
    rw [getElem?_utf8_append, utf8_cons_of_isAscii (by decide), List.getElem?_cons_succ,
      List.head?_eq_getElem?]
  have hdrop : (utf8 (pre ++ '\x1b' :: s)).drop ((utf8 pre).length + 2) = (utf8 s).drop 1 := by
    rw [← List.drop_drop, drop_utf8_append, utf8_cons_of_isAscii (by decide), List.drop_succ_cons]
  unfold scanEscape
  rw [hget, hdrop]
  rcases s with _ | ⟨d, s⟩
  · exact .inl ⟨rfl, .esc, rfl, rfl⟩
  by_cases hd : isAscii d = true
  · rw [utf8_cons_of_isAscii hd]
    simp only [List.head?_cons, List.drop_succ_cons, List.drop_zero]
    have hlen (p : List Char) : (utf8 (d :: p)).length = (utf8 p).length + 1 := by
      rw [utf8_cons_of_isAscii hd, List.length_cons]
    by_cases hcsi : d = '['
    · subst hcsi
      have hstep := Mode.reads_cons (show Mode.esc.next '[' = some .csi from rfl) rfl s
      rw [if_pos rfl]
      rcases scanCsi_utf8 s ((utf8 pre).length + 2) with ⟨h, m, hm⟩ | ⟨p, t, rfl, h, hm⟩
      · exact .inl ⟨h, m, hstep.trans hm⟩
      · refine .inr (.inl ⟨'[' :: p, t, rfl, ?_, hstep.trans hm⟩)
        rw [h, hlen]
        congr 1
        omega
    rw [if_neg (fun h => hcsi ((byte_inj hd (by decide)).mp h))]
    by_cases hstr : d = ']' ∨ d = 'P' ∨ d = 'X' ∨ d = '^' ∨ d = '_'
    · have hstep := Mode.reads_cons
        (show Mode.esc.next d = some .str by simp only [Mode.next, if_neg hcsi, if_pos hstr])
        rfl s
      rw [if_pos ((opensString_byte hd).mpr hstr)]
      rcases scanString_utf8 s ((utf8 pre).length + 2) with ⟨h, m, hm⟩ | ⟨p, t, rfl, h, hm⟩
      · exact .inl ⟨h, m, hstep.trans hm⟩
      · refine .inr (.inl ⟨d :: p, t, rfl, ?_, hstep.trans hm⟩)
        rw [h, hlen]
        congr 1
        omega
    · rw [if_neg (fun h => hstr ((opensString_byte hd).mp h))]
      refine .inr (.inl ⟨[d], s, rfl, ?_, ?_⟩)
      · rw [hlen]
        rfl
      · exact Mode.reads_cons
          (by simp only [Mode.next, if_neg hcsi, if_neg hstr, if_pos hd]) rfl s
  · -- the two-byte arm: neither `[` nor a string opener, and not a whole character either
    have hd' : isAscii d = false := by simpa using hd
    obtain ⟨b, l, hb⟩ := List.exists_cons_of_ne_nil (String.utf8EncodeChar_ne_nil (c := d))
    have hge : 0x80 ≤ b.toNat := le_of_mem_utf8EncodeChar hd' (by simp [hb])
    have hlit (c : Char) (hc : isAscii c = true) : d ≠ c := by
      rintro rfl
      exact hd hc
    have hne : b ≠ byte '[' :=
      ne_byte_of_mem_utf8EncodeChar (by decide) (hlit '[' (by decide)) (by simp [hb])
    refine .inr (.inr ⟨d, s, rfl, hd', ?_, ?_⟩)
    · have : Mode.esc.next d = none := by
        simp [Mode.next, hlit '[' (by decide), hlit ']' (by decide), hlit 'P' (by decide),
          hlit 'X' (by decide), hlit '^' (by decide), hlit '_' (by decide), hd']
      rw [Mode.after_cons, this, Option.bind_none]
    · simp [utf8_cons, hb, hne, opensString_eq_false hge]

/-! ### The copier -/

theorem stripLoop_of_le (s : List Char) (b : List UInt8) (fuel i : Nat) (out : List Char)
    {c : UInt8} (hi : b[i]? = some c) (hc : 0x80 ≤ c.toNat) :
    stripLoop s b (fuel + 1) i out = match sliceFrom s i with
      | some (ch :: _) => stripLoop s b fuel (i + ch.utf8Size) (out ++ [ch])
      | _ => .error .panic := by
  have hne (n : UInt8) (hn : n.toNat < 0x80) : c ≠ n := by rintro rfl; omega
  have hlt : ¬ (c < 0x20 ∨ c = 0x7F) := by
    rw [UInt8.lt_iff_toNat_lt]
    rintro (h | h)
    · simp only [UInt8.reduceToNat] at h
      omega
    · exact hne _ (by decide) h
  have hws : ¬ (c = byte '\n' ∨ c = byte '\t') := by
    rintro (h | h)
    · exact hne _ (by decide) h
    · exact hne _ (by decide) h
  rw [stripLoop, hi]
  refine (if_neg (hne ESC (by decide))).trans ?_
  refine (if_neg (hne (byte '\r') (by decide))).trans ?_
  refine (if_neg hws).trans ?_
  exact (if_neg hlt).trans rfl

/-- Inside a multi-byte character the copier panics. -/
theorem stripLoop_inside (pre : List Char) (hd : isAscii d = false) (t : List Char) (fuel : Nat)
    (out : List Char) :
    stripLoop (pre ++ d :: t) (utf8 (pre ++ d :: t)) (fuel + 1) ((utf8 pre).length + 1) out
      = .error .panic := by
  have hsz := two_le_utf8Size hd
  have hlen : 1 < (String.utf8EncodeChar d).length := by rw [String.length_utf8EncodeChar]; omega
  have hget : (utf8 (pre ++ d :: t))[(utf8 pre).length + 1]?
      = some ((String.utf8EncodeChar d)[1]) := by
    rw [getElem?_utf8_append, utf8_cons, List.getElem?_append_left hlen,
      List.getElem?_eq_getElem hlen]
  rw [stripLoop_of_le _ _ _ _ _ hget (le_of_mem_utf8EncodeChar hd (List.getElem_mem hlen)),
    sliceFrom_append, sliceFrom_inside d t (by omega) hsz]

/-- What the copier makes of the text ahead, unless an escape panics. -/
def stripped (out s : List Char) : Except Fault (List Char) :=
  if escapesAscii s then .ok (out ++ Mode.text.copied s) else .error .panic

theorem stripped_congr {t : List Char} (h : Mode.text.Reads s .text t) (out : List Char) :
    stripped out s = stripped out t := by
  rw [stripped, stripped, escapesAscii, escapesAscii, h.1, h.2]

/-- One character of plain text. -/
theorem stripped_cons (hc : c ≠ '\x1b') (out s : List Char) :
    stripped out (c :: s) = stripped (out ++ if isCopied c then [c] else []) s := by
  have hnext : Mode.text.next c = some .text := by simp [Mode.next, hc]
  rw [stripped, stripped, escapesAscii, escapesAscii, Mode.after_cons_of_next hnext,
    Mode.copied_cons_of_next hnext, List.append_assoc]
  rfl

theorem stripped_cons_of_copied (hc : isCopied c = true) (out s : List Char) :
    stripped out (c :: s) = stripped (out ++ [c]) s := by
  have hesc : c ≠ '\x1b' := by
    rintro rfl
    exact absurd hc (by decide)
  rw [stripped_cons hesc, if_pos hc]

/-- The loop at a boundary copies a text ahead whose escapes are ASCII, and panics otherwise; one
unit of fuel for each byte is enough. -/
theorem stripLoop_spec (fuel : Nat) : ∀ (pre s out : List Char), (utf8 s).length ≤ fuel →
    stripLoop (pre ++ s) (utf8 (pre ++ s)) fuel (utf8 pre).length out = stripped out s := by
  induction fuel with
  | zero =>
    intro pre s out hf
    obtain rfl : s = [] := utf8_eq_nil.mp (List.length_eq_zero_iff.mp (by omega))
    simp [stripLoop, stripped, escapesAscii, Mode.copied]
  | succ fuel ih =>
    intro pre s out hf
    -- one more character is behind the loop: the index moves to the next boundary
    have advance (p t out' : List Char) (hs : s = p ++ t) (hp : p ≠ []) :
        stripLoop (pre ++ s) (utf8 (pre ++ s)) fuel ((utf8 pre).length + (utf8 p).length) out'
          = stripped out' t := by
      have hpos : 0 < (utf8 p).length :=
        List.length_pos_iff.mpr (mt utf8_eq_nil.mp hp)
      have h := ih (pre ++ p) t out' (by rw [hs, length_utf8_append] at hf; omega)
      rwa [List.append_assoc, ← hs, length_utf8_append] at h
    rcases s with _ | ⟨c, s⟩
    · rw [List.append_nil, stripLoop, List.getElem?_eq_none (Nat.le_refl _)]
      simp [stripped, escapesAscii, Mode.copied]
    have hget : (utf8 (pre ++ c :: s))[(utf8 pre).length]? = (utf8 (c :: s))[0]? :=
      getElem?_utf8_append pre (c :: s) 0
    by_cases hc : isAscii c = true
    · have hb : (utf8 (pre ++ c :: s))[(utf8 pre).length]? = some (byte c) := by
        rw [hget, utf8_cons_of_isAscii hc, List.getElem?_cons_zero]
      have hone : (utf8 [c]).length = 1 := by rw [utf8_cons_of_isAscii hc]; rfl
      by_cases hesc : c = '\x1b'
      · subst hesc
        have hopen := Mode.reads_cons (show Mode.text.next '\x1b' = some .esc from rfl) rfl s
        rw [stripLoop, hb]
        simp only [← ESC_eq, ↓reduceIte]
        rcases scanEscape_utf8 pre s with ⟨h, m, hm⟩ | ⟨p, t, rfl, h, hm⟩ | ⟨d, t, rfl, hd, hm, h⟩
        · -- a sequence that runs off the text: nothing more is copied
          rw [h, stripped, escapesAscii, (hopen.trans hm).1, (hopen.trans hm).2]
          simp [Mode.copied]
        · rw [h, stripped_congr (hopen.trans hm)]
          have := advance ('\x1b' :: p) t out rfl (by simp)
          rwa [utf8_cons_of_isAscii (by decide), List.length_cons, Nat.add_comm (utf8 p).length,
            ← Nat.add_assoc] at this
        · -- the source's panic: `end` points one byte into `d`
          rw [h, stripped, escapesAscii, hopen.1, hm]
          have hf' : 0 < fuel := by
            have := two_le_utf8Size hd
            rw [utf8_cons_of_isAscii (by decide), utf8_cons, List.length_cons,
              List.length_append, String.length_utf8EncodeChar] at hf
            omega
          obtain ⟨fuel, rfl⟩ : ∃ n, fuel = n + 1 := ⟨fuel - 1, by omega⟩
          have := stripLoop_inside (pre ++ ['\x1b']) hd t fuel out
          rwa [List.append_assoc, List.singleton_append, length_utf8_append, hone,
            Nat.add_assoc] at this
      · rw [stripLoop, hb]
        have hstep (out' : List Char) := advance [c] s out' rfl (by simp)
        rw [hone] at hstep
        have hinj (d : Char) (hd : isAscii d = true) : byte c = byte d ↔ c = d := byte_inj hc hd
        have hcontrol : (byte c < 0x20 ∨ byte c = 0x7F) ↔ (c.toNat < 0x20 ∨ c.toNat = 0x7F) := by
          rw [UInt8.lt_iff_toNat_lt, ← UInt8.toNat_inj, byte_toNat hc]
          simp only [UInt8.reduceToNat]
        simp only [ESC_eq, hinj '\x1b' (by decide), hinj '\r' (by decide), hinj '\n' (by decide),
          hinj '\t' (by decide), hcontrol, if_neg hesc]
        split_ifs with hcr hlf hnl hctl
        · -- `\r\n` collapses: two characters are behind the loop
          subst hcr
          have hlf' : s.head? = some '\n' := by
            rw [getElem?_utf8_append, utf8_cons_of_isAscii hc, List.getElem?_cons_succ,
              ← List.head?_eq_getElem?, head?_utf8_eq_some_byte (by decide)] at hlf
            exact hlf
          obtain ⟨s, rfl⟩ : ∃ t, s = '\n' :: t := by
            cases s with
            | nil => simp at hlf'
            | cons d s => exact ⟨s, by simpa using hlf'⟩
          have htwo : (utf8 ['\r', '\n']).length = 2 := rfl
          have := advance ['\r', '\n'] s (out ++ ['\n']) rfl (by simp)
          rw [htwo] at this
          rw [this, stripped_cons (by decide), stripped_cons (by decide)]
          simp [isCopied]
        · subst hcr
          rw [hstep, stripped_cons (by decide)]
          simp [isCopied]
        · have hcopied : isCopied c = true :=
            isCopied_iff.mpr (hnl.imp_right Or.inl)
          have hchar : Char.ofNat (byte c).toNat = c := by
            rw [byte_toNat hc, Char.ofNat_toNat]
          rw [hchar, hstep, stripped_cons_of_copied hcopied]
        · have hcopied : ¬ isCopied c = true := by
            rw [isCopied_iff]
            rintro (h | h | h)
            · exact hnl (.inl h)
            · exact hnl (.inr h)
            · exact h hctl
          rw [hstep, stripped_cons hesc, if_neg hcopied, List.append_nil]
        · rw [show (utf8 pre).length = (utf8 pre).length + 0 from rfl, sliceFrom_append]
          have hcopied : isCopied c = true := isCopied_iff.mpr (.inr (.inr hctl))
          simp only [sliceFrom, utf8Size_of_isAscii hc]
          rw [stripped_cons_of_copied hcopied]
          exact hstep _
    · have hc' : isAscii c = false := by simpa using hc
      have hcopied : isCopied c = true := by
        have : ¬ c.toNat < 0x80 := by simpa [isAscii] using hc'
        exact isCopied_iff.mpr (.inr (.inr (by omega)))
      obtain ⟨b, l, hb⟩ := List.exists_cons_of_ne_nil (String.utf8EncodeChar_ne_nil (c := c))
      have hb' : (utf8 (pre ++ c :: s))[(utf8 pre).length]? = some b := by
        rw [hget, utf8_cons, hb]
        rfl
      rw [stripLoop_of_le _ _ _ _ _ hb' (le_of_mem_utf8EncodeChar hc' (by simp [hb])),
        show (utf8 pre).length = (utf8 pre).length + 0 from rfl, sliceFrom_append,
        stripped_cons_of_copied hcopied]
      have := advance [c] s (out ++ [c]) rfl (by simp)
      rw [utf8_cons, utf8_nil, List.append_nil, String.length_utf8EncodeChar] at this
      simpa only [sliceFrom, Nat.add_zero] using this

/-- **`stripControls`, read off the characters.** -/
theorem stripControls_eq (s : List Char) : stripControls s = stripped [] s :=
  stripLoop_spec (utf8 s).length [] s [] (Nat.le_refl _)

/-- **`stripControls` returns exactly on the texts whose escapes are ASCII**, and panics on
others. -/
theorem stripControls_spec (s : List Char) :
    (escapesAscii s = true ∧ ∃ t, stripControls s = .ok t) ∨
    (escapesAscii s = false ∧ stripControls s = .error .panic) := by
  rw [stripControls_eq, stripped]
  cases h : escapesAscii s with
  | true => exact .inl ⟨rfl, _, rfl⟩
  | false => exact .inr ⟨rfl, rfl⟩

end Zyris.Terminal
