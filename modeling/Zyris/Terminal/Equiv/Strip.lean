import Zyris.Terminal.Equiv.Sanitize

/-!
# What `stripControls` leaves

Two questions about `Mode.copied`, the reading of `stripControls` by characters.  Only copied
characters come out, in order, and a second pass has nothing left to do.  A text written as plain
parts with complete control sequences between them (`render`) loses the sequences and nothing else,
but for a sequence that cuts a string short, whose rest is copied as text, and an ESC before a
character outside ASCII, on which it panics.
-/

namespace Zyris.Terminal

/-! ### Stripped text -/

variable {m : Mode} {c d : Char} {s t body : List Char} {cut : Bool} {q : ControlSequence}
  {seqs : List ControlSequence}

theorem Mode.mem_copies (h : d ∈ m.copies c) : d = c ∧ isCopied c = true := by
  cases m with
  | text =>
    simp only [Mode.copies] at h
    split at h
    · next hc => exact ⟨List.mem_singleton.mp h, hc⟩
    · simp at h
  | strEsc =>
    simp only [Mode.copies] at h
    split at h
    · simp at h
    · split at h
      · next hc => exact ⟨List.mem_singleton.mp h, hc⟩
      · simp at h
  | _ => simp [Mode.copies] at h

theorem Mode.copies_sublist (m : Mode) (c : Char) : (m.copies c).Sublist [c] := by
  cases m with
  | text =>
    simp only [Mode.copies]
    split <;> simp
  | strEsc =>
    simp only [Mode.copies]
    split
    · simp
    · split <;> simp
  | _ => simp [Mode.copies]

theorem Mode.isCopied_of_mem_copied (h : d ∈ m.copied s) : isCopied d = true := by
  induction s generalizing m with
  | nil => simp [Mode.copied] at h
  | cons c s ih =>
    rw [Mode.copied, List.mem_append] at h
    rcases h with h | h
    · obtain ⟨rfl, hc⟩ := mem_copies h
      exact hc
    · cases hn : m.next c with
      | none => simp [hn] at h
      | some m' =>
        rw [hn] at h
        exact ih h

theorem Mode.copied_sublist (m : Mode) (s : List Char) : (m.copied s).Sublist s := by
  induction s generalizing m with
  | nil => exact List.Sublist.refl []
  | cons c s ih =>
    refine (m.copies_sublist c).append ?_
    cases m.next c with
    | none => exact List.nil_sublist s
    | some m' => exact ih m'

theorem ne_esc_of_isCopied (hc : isCopied c = true) : c ≠ '\x1b' := by
  rintro rfl
  exact absurd hc (by decide)

theorem Mode.text_copied (ht : ∀ c ∈ t, isCopied c = true) :
    Mode.text.after t = some .text ∧ Mode.text.copied t = t := by
  induction t with
  | nil => exact ⟨rfl, rfl⟩
  | cons c t ih =>
    have hc : isCopied c = true := ht c (by simp)
    have hnext : Mode.text.next c = some .text := by
      simp [Mode.next, ne_esc_of_isCopied hc]
    obtain ⟨hafter, hcopied⟩ := ih fun d hd => ht d (by simp [hd])
    constructor
    · rw [Mode.after_cons_of_next hnext, hafter]
    · rw [Mode.copied_cons_of_next hnext, hcopied]
      simp [Mode.copies, hc]

/-- `t` is what comes out of `s`, read from mode `m` on. -/
def Mode.Gives (m : Mode) (s t : List Char) : Prop := (m.after s).isSome = true ∧ m.copied s = t

theorem stripControls_eq_ok_iff : stripControls s = .ok t ↔ Mode.text.Gives s t := by
  rw [stripControls_eq, stripped, Mode.Gives, escapesAscii]
  split
  · next h => simp [h]
  · next h => simp [h]

/-- **Stripped text is clean and stable**: of the C0 controls it has only `\n` and `\t`, and no DEL,
its characters are those of the input in order, and stripping it again changes nothing. -/
theorem stripControls_clean {s out : List Char} (h : stripControls s = .ok out) :
    (∀ c ∈ out, c.toNat < 0x20 → c = '\n' ∨ c = '\t') ∧ (∀ c ∈ out, c.toNat ≠ 0x7F) ∧
      out.Sublist s ∧ stripControls out = .ok out := by
  obtain ⟨-, rfl⟩ := stripControls_eq_ok_iff.mp h
  have hcopied : ∀ c ∈ Mode.text.copied s, isCopied c = true := fun c hc =>
    Mode.isCopied_of_mem_copied hc
  refine ⟨?_, ?_, Mode.text.copied_sublist s, ?_⟩
  · intro c hc hlt
    rcases isCopied_iff.mp (hcopied c hc) with h | h | h
    · exact .inl h
    · exact .inr h
    · exact absurd (.inl hlt) h
  · intro c hc hdel
    rcases isCopied_iff.mp (hcopied c hc) with rfl | rfl | h
    · exact absurd hdel (by decide)
    · exact absurd hdel (by decide)
    · exact h (.inr hdel)
  · obtain ⟨hafter, hsame⟩ := Mode.text_copied hcopied
    exact stripControls_eq_ok_iff.mpr ⟨by rw [hafter]; rfl, hsame⟩

theorem stripControls_clean_prompt :
    ∃ out, stripControls "\x1b[31ma\r\n\x07b".toList = .ok out ∧
      (∀ c ∈ out, c.toNat < 0x20 → c = '\n' ∨ c = '\t') ∧ (∀ c ∈ out, c.toNat ≠ 0x7F) ∧
      out.Sublist "\x1b[31ma\r\n\x07b".toList ∧ stripControls out = .ok out :=
  ⟨"a\nb".toList, by decide, stripControls_clean (by decide)⟩

/-! ### The grammar of control sequences -/

/-- A character that ends a CSI sequence. -/
def isFinal (c : Char) : Bool := 0x40 ≤ c.toNat && c.toNat ≤ 0x7E

/-- A character that, right after an ESC, opens a string sequence. -/
def isOpener (c : Char) : Bool := c = ']' || c = 'P' || c = 'X' || c = '^' || c = '_'

/-- How a string sequence ends. -/
inductive StringEnd
  | bel
  | st
  -- at the next ESC, which starts a sequence of its own
  | abandoned

/-- A complete control sequence. -/
inductive ControlSequence
  | csi (body : List Char) (final : Char) (hbody : body.any isFinal = false)
      (hfinal : isFinal final = true)
  | string (opener : Char) (body : List Char) (stop : StringEnd) (hopener : isOpener opener = true)
      (hbody : body.any (fun c => c = '\x07' || c = '\x1b') = false)
  -- ESC and one character
  | single (c : Char) (hcsi : c ≠ '[') (hopener : isOpener c = false)

def StringEnd.chars : StringEnd → List Char
  | .bel => ['\x07']
  | .st => ['\x1b', '\\']
  | .abandoned => []

namespace ControlSequence

/-- The sequence, as it is written. -/
def chars : ControlSequence → List Char
  | .csi body final _ _ => '\x1b' :: '[' :: (body ++ [final])
  | .string opener body stop _ _ => '\x1b' :: opener :: (body ++ stop.chars)
  | .single c _ _ => ['\x1b', c]

/-- A string sequence left open, to be cut short by the sequence after it. -/
def isAbandoned : ControlSequence → Bool
  | .string _ _ .abandoned _ _ => true
  | _ => false

end ControlSequence

/-- Text without C0 controls or DEL. -/
structure PlainText where
  val : List Char
  plain : val.any (fun c => c.toNat < 0x20 || c.toNat = 0x7F) = false

def PlainText.empty : PlainText := ⟨[], rfl⟩

@[simp] theorem PlainText.val_empty : PlainText.empty.val = [] := rfl

/-- A sequence and the text up to the next one. -/
structure Piece where
  seq : ControlSequence
  text : PlainText

/-- A text that alternates plain parts and complete sequences. -/
def render (lead : PlainText) (pieces : List Piece) : List Char :=
  lead.val ++ pieces.flatMap fun p => p.seq.chars ++ p.text.val

def plainParts (lead : PlainText) (pieces : List Piece) : List Char :=
  lead.val ++ pieces.flatMap fun p => p.text.val

/-- An abandoned string is cut short by the sequence that follows it at once. -/
def Joined : List Piece → Prop
  | [] => True
  | p :: pieces => (p.seq.isAbandoned = true → p.text.val = [] ∧ pieces ≠ []) ∧ Joined pieces

/-- The same, of the sequences alone: the last one is not left open. -/
def Complete : List ControlSequence → Prop
  | [] => True
  | q :: seqs => (q.isAbandoned = true → seqs ≠ []) ∧ Complete seqs

/-- The sequence is removed whole, right after an abandoned string (`cut`) or not.  One that cuts a
string short is when it is an ESC before an uncopied control, or the backslash that ends the
string. -/
def ControlSequence.removed (cut : Bool) : ControlSequence → Bool
  | .single c _ _ => if cut then (c = '\\' || !isCopied c) && c ≠ '\x1b' else isAscii c
  | _ => !cut

/-- Every sequence is removed whole. -/
def cleanFrom : Bool → List ControlSequence → Bool
  | _, [] => true
  | cut, q :: seqs => q.removed cut && cleanFrom q.isAbandoned seqs

/-! ### Reading one sequence -/

/-- The reader between two sequences: behind an abandoned string it is still in it. -/
def Mode.between (cut : Bool) : Mode := if cut then .str else .text

theorem Mode.Reads.refl (m : Mode) (s : List Char) : m.Reads s m s := ⟨rfl, rfl⟩

theorem Mode.Reads.gives_iff {m' : Mode} {s' : List Char} (h : m.Reads s m' s') (t : List Char) :
    m.Gives s t ↔ m'.Gives s' t := by
  rw [Mode.Gives, Mode.Gives, h.1, h.2]

theorem Mode.csi_reads {final : Char} (hbody : body.any isFinal = false)
    (hfinal : isFinal final = true) (s : List Char) :
    Mode.csi.Reads (body ++ final :: s) .text s := by
  have hiff (c : Char) : isFinal c = true ↔ 0x40 ≤ c.toNat ∧ c.toNat ≤ 0x7E := by
    rw [isFinal, Bool.and_eq_true, decide_eq_true_eq, decide_eq_true_eq]
  induction body with
  | nil => exact reads_cons (by rw [Mode.next, if_pos ((hiff final).mp hfinal)]) rfl s
  | cons c body ih =>
    obtain ⟨hcfinal, hbody⟩ := Bool.or_eq_false_iff.mp (List.any_cons ▸ hbody)
    have hc : ¬ (0x40 ≤ c.toNat ∧ c.toNat ≤ 0x7E) := by
      rw [← hiff, hcfinal]
      exact Bool.false_ne_true
    have hstep := reads_cons (show Mode.csi.next c = some .csi by rw [Mode.next, if_neg hc]) rfl
      (body ++ final :: s)
    exact hstep.trans (ih hbody)

theorem Mode.str_reads (hbody : body.any (fun c => c = '\x07' || c = '\x1b') = false)
    (s : List Char) : Mode.str.Reads (body ++ s) .str s := by
  induction body with
  | nil => exact Reads.refl .str s
  | cons c body ih =>
    obtain ⟨hc, hbody⟩ := Bool.or_eq_false_iff.mp (List.any_cons ▸ hbody)
    obtain ⟨hbel, hesc⟩ : c ≠ '\x07' ∧ c ≠ '\x1b' := by simpa using hc
    have hstep := reads_cons
      (show Mode.str.next c = some .str by simp [Mode.next, hbel, hesc]) rfl (body ++ s)
    exact hstep.trans (ih hbody)

theorem isOpener_iff : isOpener c = true ↔ c = ']' ∨ c = 'P' ∨ c = 'X' ∨ c = '^' ∨ c = '_' := by
  simp only [isOpener, Bool.or_eq_true, decide_eq_true_eq, or_assoc]

theorem Mode.esc_next_opener (hc : isOpener c = true) : Mode.esc.next c = some .str := by
  have hcsi : c ≠ '[' := by
    rintro rfl
    exact absurd hc (by decide)
  rw [Mode.next, if_neg hcsi, if_pos (isOpener_iff.mp hc)]

theorem Mode.esc_next_single (hcsi : c ≠ '[') (hopener : isOpener c = false) :
    Mode.esc.next c = if isAscii c then some .text else none := by
  have hstr : ¬ (c = ']' ∨ c = 'P' ∨ c = 'X' ∨ c = '^' ∨ c = '_') := by
    rw [← isOpener_iff, hopener]
    exact Bool.false_ne_true
  rw [Mode.next, if_neg hcsi, if_neg hstr]

theorem Mode.text_esc_reads (s : List Char) : Mode.text.Reads ('\x1b' :: s) .esc s :=
  reads_cons rfl rfl s

theorem Mode.str_esc_reads (s : List Char) : Mode.str.Reads ('\x1b' :: s) .strEsc s :=
  reads_cons rfl rfl s

/-- A sequence that is removed whole leaves the reader between two sequences again. -/
theorem ControlSequence.reads (h : q.removed cut = true) (s : List Char) :
    (Mode.between cut).Reads (q.chars ++ s) (Mode.between q.isAbandoned) s := by
  cases q with
  | csi body final hbody hfinal =>
    obtain rfl : cut = false := by simpa [removed] using h
    have hopen : Mode.text.Reads ('\x1b' :: '[' :: (body ++ final :: s)) .csi
        (body ++ final :: s) :=
      (Mode.text_esc_reads _).trans (Mode.reads_cons rfl rfl _)
    rw [chars, List.cons_append, List.cons_append, List.append_assoc]
    exact hopen.trans (Mode.csi_reads hbody hfinal s)
  | string opener body stop hopener hbody =>
    obtain rfl : cut = false := by simpa [removed] using h
    have hopen : Mode.text.Reads ('\x1b' :: opener :: (body ++ (stop.chars ++ s))) .str
        (stop.chars ++ s) :=
      ((Mode.text_esc_reads _).trans
        (Mode.reads_cons (Mode.esc_next_opener hopener) rfl _)).trans (Mode.str_reads hbody _)
    rw [chars, List.cons_append, List.cons_append, List.append_assoc]
    refine hopen.trans ?_
    cases stop with
    | bel => exact Mode.reads_cons rfl rfl s
    | st => exact (Mode.str_esc_reads _).trans (Mode.reads_cons rfl rfl s)
    | abandoned => exact Mode.Reads.refl .str s
  | single c hcsi hopener =>
    rcases cut with _ | _
    · have hc : isAscii c = true := h
      exact (Mode.text_esc_reads _).trans
        (Mode.reads_cons (by rw [Mode.esc_next_single hcsi hopener, if_pos hc]; rfl) rfl s)
    -- the reader takes `c` for text, or for the end of the string
    obtain ⟨hc, hesc⟩ : (c = '\\' ∨ isCopied c = false) ∧ c ≠ '\x1b' := by
      simpa [removed] using h
    refine (Mode.str_esc_reads _).trans (Mode.reads_cons ?_ ?_ s)
    · simp [Mode.next, hesc, isAbandoned, Mode.between]
    · rcases hc with rfl | hc
      · rfl
      · simp [Mode.copies, hc]

/-! ### Reading an alternation -/

theorem PlainText.isCopied_of_mem (t : PlainText) (hc : c ∈ t.val) : isCopied c = true := by
  have hplain := List.any_eq_false.mp t.plain c hc
  refine isCopied_iff.mpr (.inr (.inr ?_))
  simpa using hplain

theorem Mode.text_gives_append (t : PlainText) (s u : List Char) (h : Mode.text.Gives s u) :
    Mode.text.Gives (t.val ++ s) (t.val ++ u) := by
  obtain ⟨hafter, hcopied⟩ := Mode.text_copied fun c hc => t.isCopied_of_mem hc
  refine ⟨?_, ?_⟩
  · rw [Mode.after_append, hafter]
    exact h.1
  · rw [Mode.copied_append hafter, hcopied, h.2]

theorem gives_of_cleanFrom {pieces : List Piece} (hjoined : Joined pieces)
    (hclean : cleanFrom cut (pieces.map Piece.seq) = true) (hcut : cut = true → pieces ≠ []) :
    (Mode.between cut).Gives (pieces.flatMap fun p => p.seq.chars ++ p.text.val)
      (pieces.flatMap fun p => p.text.val) := by
  induction pieces generalizing cut with
  | nil =>
    obtain rfl : cut = false := by
      cases cut with
      | false => rfl
      | true => exact absurd rfl (hcut rfl)
    exact ⟨rfl, rfl⟩
  | cons p pieces ih =>
    obtain ⟨hopen, hjoined⟩ := hjoined
    obtain ⟨hremoved, hclean⟩ : p.seq.removed cut = true ∧
        cleanFrom p.seq.isAbandoned (pieces.map Piece.seq) = true := by
      simpa [cleanFrom] using hclean
    have hrest := ih hjoined hclean fun h => (hopen h).2
    rw [List.flatMap_cons, List.flatMap_cons, List.append_assoc,
      (ControlSequence.reads hremoved _).gives_iff]
    cases habandoned : p.seq.isAbandoned with
    | false =>
      rw [habandoned] at hrest
      exact Mode.text_gives_append p.text _ _ hrest
    | true =>
      rw [habandoned] at hrest
      rw [(hopen habandoned).1]
      exact hrest

/-! ### Where a sequence is not removed -/

/-- The alternation with no text at all. -/
def bare (seqs : List ControlSequence) : List Piece := seqs.map fun q => ⟨q, .empty⟩

theorem map_seq_bare (seqs : List ControlSequence) : (bare seqs).map Piece.seq = seqs := by
  simp [bare, List.map_map, Function.comp_def]

theorem flatMap_text_bare (seqs : List ControlSequence) :
    (bare seqs).flatMap (fun p => p.text.val) = [] := by
  simp [bare, List.flatMap_map]

theorem joined_bare (h : Complete seqs) : Joined (bare seqs) := by
  induction seqs with
  | nil => trivial
  | cons q seqs ih =>
    refine ⟨fun habandoned => ⟨rfl, ?_⟩, ih h.2⟩
    simpa [bare] using h.1 habandoned

/-- Right after the ESC that cuts a string short, a copied character leaks. -/
theorem Mode.not_strEsc_gives_nil (hc : isCopied c = true) (hst : c ≠ '\\') (s : List Char) :
    ¬ Mode.strEsc.Gives (c :: s) [] := by
  rintro ⟨-, hcopied⟩
  rw [Mode.copied, Mode.copies, if_neg hst, if_pos hc] at hcopied
  simp at hcopied

theorem ControlSequence.exists_not_gives (h : q.removed cut = false) (s : List Char) :
    ∃ t : PlainText, (q.isAbandoned = true → t.val = []) ∧
      ¬ (Mode.between cut).Gives (q.chars ++ t.val ++ s) t.val := by
  cases q with
  | csi body final hbody hfinal =>
    obtain rfl : cut = true := by simpa [removed] using h
    refine ⟨.empty, fun _ => rfl, ?_⟩
    exact mt ((Mode.str_esc_reads _).gives_iff []).mp
      (Mode.not_strEsc_gives_nil (by decide) (by decide) _)
  | string opener body stop hopener hbody =>
    obtain rfl : cut = true := by simpa [removed] using h
    refine ⟨.empty, fun _ => rfl, ?_⟩
    refine mt ((Mode.str_esc_reads _).gives_iff []).mp (Mode.not_strEsc_gives_nil ?_ ?_ _)
    · rcases isOpener_iff.mp hopener with rfl | rfl | rfl | rfl | rfl <;> decide
    · rintro rfl
      exact absurd hopener (by decide)
  | single c hcsi hopener =>
    cases cut with
    | false =>
      -- the panic
      have hc : isAscii c = false := h
      have hnone : Mode.esc.next c = none := by
        rw [Mode.esc_next_single hcsi hopener, hc]
        rfl
      refine ⟨.empty, fun _ => rfl, ?_⟩
      show ¬ Mode.text.Gives ('\x1b' :: c :: s) []
      rw [(Mode.text_esc_reads _).gives_iff]
      rintro ⟨hafter, -⟩
      rw [Mode.after_cons, hnone] at hafter
      exact absurd hafter Bool.false_ne_true
    | true =>
      by_cases hesc : c = '\x1b'
      · -- the second ESC opens a sequence, which takes the next character of the text: whatever
        -- comes out then, it is not right for both of two texts
        subst hesc
        have heat (d : Char) (hd : Mode.esc.next d = some .text) :
            (Mode.between true).Reads (['\x1b', '\x1b'] ++ [d] ++ s) .text s :=
          ((Mode.str_esc_reads _).trans (Mode.reads_cons rfl rfl _)).trans
            (Mode.reads_cons hd rfl s)
        by_cases ha : Mode.text.copied s = ['a']
        · refine ⟨⟨['b'], by decide⟩, nofun, ?_⟩
          refine mt ((heat 'b' (by decide)).gives_iff ['b']).mp ?_
          rintro ⟨-, hb⟩
          rw [ha] at hb
          exact absurd hb (by decide)
        · refine ⟨⟨['a'], by decide⟩, nofun, ?_⟩
          exact mt ((heat 'a' (by decide)).gives_iff ['a']).mp fun hgives => ha hgives.2
      · obtain ⟨hst, hc⟩ : c ≠ '\\' ∧ isCopied c = true := by
          simpa [removed, hesc] using h
        refine ⟨.empty, fun _ => rfl, ?_⟩
        exact mt ((Mode.str_esc_reads _).gives_iff []).mp (Mode.not_strEsc_gives_nil hc hst _)

theorem exists_not_gives_of_not_cleanFrom (hcomplete : Complete seqs)
    (h : cleanFrom cut seqs = false) :
    ∃ pieces : List Piece, pieces.map Piece.seq = seqs ∧ Joined pieces ∧
      ¬ (Mode.between cut).Gives (pieces.flatMap fun p => p.seq.chars ++ p.text.val)
        (pieces.flatMap fun p => p.text.val) := by
  induction seqs generalizing cut with
  | nil => exact absurd h (by simp [cleanFrom])
  | cons q seqs ih =>
    cases hremoved : q.removed cut with
    | false =>
      obtain ⟨t, hopen, hnot⟩ := ControlSequence.exists_not_gives hremoved
        ((bare seqs).flatMap fun p => p.seq.chars ++ p.text.val)
      refine ⟨⟨q, t⟩ :: bare seqs, ?_, ⟨?_, joined_bare hcomplete.2⟩, ?_⟩
      · rw [List.map_cons, map_seq_bare]
      · intro habandoned
        refine ⟨hopen habandoned, ?_⟩
        simpa [bare] using hcomplete.1 habandoned
      · rw [List.flatMap_cons, List.flatMap_cons, flatMap_text_bare, List.append_nil]
        exact hnot
    | true =>
      have hclean : cleanFrom q.isAbandoned seqs = false := by
        simpa [cleanFrom, hremoved] using h
      obtain ⟨pieces, rfl, hjoined, hnot⟩ := ih hcomplete.2 hclean
      refine ⟨⟨q, .empty⟩ :: pieces, rfl, ⟨?_, hjoined⟩, ?_⟩
      · intro habandoned
        refine ⟨rfl, ?_⟩
        simpa using hcomplete.1 habandoned
      · rw [List.flatMap_cons, List.flatMap_cons, PlainText.val_empty, List.append_nil,
          List.nil_append]
        exact mt ((ControlSequence.reads hremoved _).gives_iff _).mp hnot

/-- **What `stripControls` removes**: of these control sequences, with plain text around and between
them, exactly the plain text comes out, if and only if no ESC stands before a character outside
ASCII and no string is abandoned, other than to an ESC before an uncopied control. -/
theorem strip_alternation_iff {seqs : List ControlSequence} (hcomplete : Complete seqs) :
    (∀ (lead : PlainText) (pieces : List Piece), pieces.map Piece.seq = seqs → Joined pieces →
      stripControls (render lead pieces) = .ok (plainParts lead pieces)) ↔
    cleanFrom false seqs = true := by
  constructor
  · intro h
    by_contra hclean
    obtain ⟨pieces, hseqs, hjoined, hnot⟩ :=
      exists_not_gives_of_not_cleanFrom hcomplete (Bool.eq_false_iff.mpr hclean)
    exact hnot (stripControls_eq_ok_iff.mp (h .empty pieces hseqs hjoined))
  · rintro hclean lead pieces rfl hjoined
    refine stripControls_eq_ok_iff.mpr (Mode.text_gives_append lead _ _ ?_)
    exact gives_of_cleanFrom hjoined hclean nofun

/-- The sequences of a title and of a colour. -/
def titleAndColour (stop : StringEnd) : List ControlSequence :=
  [.string ']' ['0', ';', 't'] stop (by decide) (by decide),
    .csi ['3', '1'] 'm' (by decide) (by decide)]

theorem strip_alternation_iff_title :
    stripControls "a\x1b]0;t\x1b\\b\x1b[31mc".toList = .ok "abc".toList :=
  (@strip_alternation_iff (titleAndColour .st) ⟨nofun, nofun, trivial⟩).mpr rfl
    ⟨['a'], by decide⟩ [⟨(titleAndColour .st).head (by decide), ⟨['b'], by decide⟩⟩,
      ⟨.csi ['3', '1'] 'm' (by decide) (by decide), ⟨['c'], by decide⟩⟩] rfl ⟨nofun, nofun, trivial⟩

/-- **A sequence that cuts a title short leaks**: `ESC ] 0;t ESC [31m` before `red`. -/
theorem strip_abandoned_leaks :
    ∃ pieces : List Piece, pieces.map Piece.seq = titleAndColour .abandoned ∧ Joined pieces ∧
      render .empty pieces = "\x1b]0;t\x1b[31mred".toList ∧
      plainParts .empty pieces = "red".toList ∧
      stripControls (render .empty pieces) = .ok "[31mred".toList := by
  refine ⟨[⟨(titleAndColour .abandoned).head (by decide), .empty⟩,
    ⟨.csi ['3', '1'] 'm' (by decide) (by decide), ⟨['r', 'e', 'd'], by decide⟩⟩], rfl, ?_, rfl, rfl,
    by decide⟩
  exact ⟨fun _ => ⟨rfl, nofun⟩, nofun, trivial⟩

end Zyris.Terminal
