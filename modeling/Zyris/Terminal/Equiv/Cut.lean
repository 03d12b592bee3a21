import Zyris.Lib.Chunks
import Zyris.Terminal.Equiv.Paging
import Zyris.Terminal.Equiv.Strip

/-!
# Cutting output never damages a character

`trim_incomplete_tail` cuts at the end of the bytes, with the decoder between two characters there,
or before a byte that begins one.  `read` cuts there too, or before an ESC, so a session whose
output is a text is read in pieces of that text (`Paged`).
-/

namespace Zyris.Terminal

open Lossy

/-! ### The two cuts -/

theorem width_le_four (b : UInt8) : width b ≤ 4 := by
  unfold width
  split_ifs <;> omega

theorem trimIncompleteTail_le (b : List UInt8) : trimIncompleteTail b ≤ b.length := by
  rcases trimIncompleteTail_spec b with ⟨hall, -⟩ | ⟨x, lead, cs, rfl, -, -, -, hcut⟩
  · exact hall.le
  · rw [hcut, List.length_append]
    omega

/-- At most three bytes are cut off. -/
theorem length_le_trimIncompleteTail (b : List UInt8) : b.length ≤ trimIncompleteTail b + 3 := by
  rcases trimIncompleteTail_spec b with ⟨hall, -⟩ | ⟨x, lead, cs, rfl, -, -, hwidth, hcut⟩
  · omega
  · have hfour := width_le_four lead
    rw [hcut, List.length_append, List.length_cons]
    omega

theorem isBoundary_trimIncompleteTail (b : List UInt8) :
    IsBoundary (b.take (trimIncompleteTail b)) (b.drop (trimIncompleteTail b)) := by
  rcases trimIncompleteTail_spec b with ⟨hall, hafter⟩ | ⟨x, lead, cs, rfl, hlead, -, -, hcut⟩
  · left
    rwa [hall, List.take_length]
  · right
    refine ⟨lead, cs, ?_, isContinuation_of_lead hlead⟩
    rw [hcut, List.drop_left]

/-- The cut of `read` is where `trim_incomplete_tail` cuts, or before an ESC. -/
theorem isBoundary_cut (b : List UInt8) : IsBoundary (b.take (cut b)) (b.drop (cut b)) := by
  have htail := isBoundary_trimIncompleteTail b
  have hle := trimIncompleteTail_le b
  unfold cut
  rcases Nat.le_total (trimIncompleteTail b) (trimIncompleteEscape b) with hmin | hmin
  · rwa [Nat.min_eq_left hmin]
  rw [Nat.min_eq_right hmin]
  -- with nothing to hold back for an escape, the bytes end between characters
  have hwhole (h : trimIncompleteEscape b = b.length) :
      IsBoundary (b.take (trimIncompleteEscape b)) (b.drop (trimIncompleteEscape b)) := by
    have hsame : trimIncompleteEscape b = trimIncompleteTail b := by omega
    rwa [hsame]
  rcases trimIncompleteEscape_spec b with ⟨hall, -⟩ | ⟨x, y, rfl, -, -, hcut⟩
  · exact hwhole hall
  · split_ifs at hcut
    · exact hwhole hcut
    · right
      refine ⟨ESC, y, ?_, by decide⟩
      rw [hcut, List.drop_left]

/-! ### Reading a text page by page -/

/-- The texts that the reads of a session returned. -/
def pages (id : String) (ls : List (TermOp × TermResult)) : List (List Char) :=
  ls.filterMap (pageOf id)

theorem pages_snoc (id : String) (ls : List (TermOp × TermResult)) (l : TermOp × TermResult) :
    pages id (ls ++ [l]) = pages id ls ++ (pageOf id l).toList := by
  rw [pages, List.filterMap_append]
  rfl

/-- The program of a session writes nothing after its exit, in the rest of the run or `later`: the
thread that copies its output sets the exit code at its end. -/
def SilentAfterExit (id : String) (ls : List (TermOp × TermResult)) (later : List UInt8) : Prop :=
  ∀ before code result after, ls = before ++ (.exit id code, result) :: after →
    written id after ++ later = []

variable {id : String} {ls : List (TermOp × TermResult)} {l : TermOp × TermResult}
  {s : PtySession} {bytes : List UInt8} {t : PtyTerminal}

theorem SilentAfterExit.of_snoc {later : List UInt8} (h : SilentAfterExit id (ls ++ [l]) later) :
    SilentAfterExit id ls (writes id l ++ later) := by
  intro before code result after hls
  have hafter := h before code result (after ++ [l]) (by rw [hls]; simp)
  rwa [written_snoc, List.append_assoc] at hafter

/-- The session stays in its place, and no output is lost when it is read. -/
structure Attended (id : String) (l : TermOp × TermResult) : Prop where
  keeps : l.1.Keeps id
  returns : l.2 ≠ .panicked
  lossless : ∀ r, l = (.read id, .page r) → r.dropped = 0

/-- A page is the text of a piece without its control sequences. -/
def Strips (piece content : List Char) : Prop := stripControls piece = .ok content

/-- Whatever text the output turns out to be, the pages after `ls` are pieces of it, one after the
other, and the cursor stands between two of its characters. -/
structure Paged (id : String) (s : PtySession) (ls : List (TermOp × TermResult)) : Prop where
  total : s.buf.totalWritten = (written id ls).length
  ring : s.buf.ring <:+ written id ls
  exited : s.exited.isSome = true →
    ∃ before code result after, ls = before ++ (.exit id code, result) :: after
  text : ∀ later text, SilentAfterExit id ls later → written id ls ++ later = utf8 text →
    ∃ pieces rest, text = pieces.flatten ++ rest ∧ List.Forall₂ Strips pieces (pages id ls) ∧
      (written id ls ++ later).drop s.readCursor = utf8 rest

theorem PtySession.page_append (htotal : s.buf.totalWritten = bytes.length)
    (hring : s.buf.ring <:+ bytes) (hstart : s.buf.ringStart ≤ s.readCursor) :
    bytes.drop s.readCursor = s.page ++ bytes.drop s.advance.readCursor := by
  obtain ⟨⟨rest, hrest⟩, -⟩ := s.buf.readAt_spec hstart PTY_READ_MAX
  rw [s.buf.drop_ring hring htotal hstart] at hrest
  change _ = s.next.bytes ++ rest at hrest
  have hpage : s.page = (bytes.drop s.readCursor).take s.keep := by
    rw [PtySession.page, hrest, List.take_append_of_le_length s.keep_le]
  rw [PtySession.readCursor_advance hstart, ← List.drop_drop, hpage, List.take_append_drop]

/-- A page ends between two characters, unless it is the last of a program that has exited. -/
theorem PtySession.isBoundary_page (htotal : s.buf.totalWritten = bytes.length)
    (hring : s.buf.ring <:+ bytes) (hstart : s.buf.ringStart ≤ s.readCursor) :
    IsBoundary s.page (bytes.drop s.advance.readCursor) ∨
      s.exited.isSome = true ∧ bytes.drop s.advance.readCursor = [] := by
  obtain ⟨⟨rest, hrest⟩, hcursor⟩ := s.buf.readAt_spec hstart PTY_READ_MAX
  rw [s.buf.drop_ring hring htotal hstart] at hrest
  change _ = s.next.bytes ++ rest at hrest
  change s.next.cursor = s.readCursor + s.next.bytes.length at hcursor
  have hadvance := PtySession.readCursor_advance hstart
  by_cases hend : s.exited.isSome = true ∧ s.next.cursor = s.buf.totalWritten
  · right
    have hkeep : s.keep = s.next.bytes.length := by
      unfold PtySession.keep
      rw [if_pos (by simpa using hend)]
    refine ⟨hend.1, List.drop_eq_nil_of_le ?_⟩
    omega
  · left
    have hkeep : s.keep = cut s.next.bytes := by
      unfold PtySession.keep
      rw [if_neg (by simpa using hend)]
      rfl
    have hdrop : bytes.drop s.advance.readCursor = s.next.bytes.drop s.keep ++ rest := by
      rw [hadvance, ← List.drop_drop, hrest, List.drop_append_of_le_length s.keep_le]
    rw [hdrop, PtySession.page, hkeep]
    exact (isBoundary_cut s.next.bytes).append rest

namespace Paged

theorem new (id : String) : Paged id .new [] where
  total := rfl
  ring := List.nil_suffix
  exited := by rintro ⟨⟩
  text := fun _ text _ htext => ⟨[], text, rfl, .nil, htext⟩

theorem of_exited (h : Paged id s ls) (hexited : s.exited.isSome = true) {later : List UInt8}
    (hsilent : SilentAfterExit id ls later) : later = [] := by
  obtain ⟨before, code, result, after, hls⟩ := h.exited hexited
  exact (List.append_eq_nil_iff.mp (hsilent before code result after hls)).2

theorem of_written (h : Paged id s ls) {l : TermOp × TermResult} (hpage : pageOf id l = none)
    {s' : PtySession} (hcursor : s'.readCursor = s.readCursor)
    (htotal : s'.buf.totalWritten = (written id (ls ++ [l])).length)
    (hring : s'.buf.ring <:+ written id (ls ++ [l]))
    (hexited : s'.exited.isSome = true →
      s.exited.isSome = true ∨ ∃ code, l.1 = .exit id code) :
    Paged id s' (ls ++ [l]) where
  total := htotal
  ring := hring
  exited := by
    intro hsome
    rcases hexited hsome with hbefore | ⟨code, hop⟩
    · obtain ⟨before, code, result, after, rfl⟩ := h.exited hbefore
      exact ⟨before, code, result, after ++ [l], by simp⟩
    · obtain ⟨op, result⟩ := l
      subst hop
      exact ⟨ls, code, result, [], rfl⟩
  text := by
    intro later text hsilent htext
    rw [written_snoc, List.append_assoc] at htext
    obtain ⟨pieces, rest, hsplit, hpieces, hrest⟩ := h.text _ text hsilent.of_snoc htext
    refine ⟨pieces, rest, hsplit, ?_, ?_⟩
    · rwa [pages_snoc, hpage, Option.toList_none, List.append_nil]
    · rwa [written_snoc, List.append_assoc, hcursor]

theorem read (h : Paged id s ls) (hstart : s.buf.ringStart ≤ s.readCursor) {r : PtyRead}
    (hr : s.read fromUtf8Lossy = .ok r) : Paged id s.advance (ls ++ [(.read id, .page r)]) := by
  have hpage : pageOf id (.read id, .page r) = some r.content := if_pos rfl
  have hwritten : written id (ls ++ [(.read id, .page r)]) = written id ls := by
    rw [written_snoc]
    exact List.append_nil _
  refine ⟨by rw [hwritten]; exact h.total, by rw [hwritten]; exact h.ring, ?_, ?_⟩
  · intro hexited
    obtain ⟨before, code, result, after, rfl⟩ := h.exited hexited
    exact ⟨before, code, result, after ++ [(.read id, .page r)], by simp⟩
  intro later text hsilent htext
  rw [hwritten] at htext ⊢
  have hsilent' : SilentAfterExit id ls later := hsilent.of_snoc
  obtain ⟨pieces, rest, rfl, hpieces, hrest⟩ := h.text later text hsilent' htext
  -- what the cursor stood before: the page, and what follows it now and later
  have hcursor : s.readCursor ≤ (written id ls).length := h.total ▸ s.cursor_le
  have hcursor' : s.advance.readCursor ≤ (written id ls).length := h.total ▸ s.advance.cursor_le
  rw [List.drop_append_of_le_length hcursor,
    PtySession.page_append h.total h.ring hstart, List.append_assoc] at hrest
  rw [List.drop_append_of_le_length hcursor']
  obtain ⟨piece, rest', rfl, hpiece, hrest'⟩ : ∃ piece rest', rest = piece ++ rest' ∧
      s.page = utf8 piece ∧ (written id ls).drop s.advance.readCursor ++ later = utf8 rest' := by
    rcases PtySession.isBoundary_page h.total h.ring hstart with hboundary | ⟨hexited, hnil⟩
    · exact (hboundary.append later).exists_utf8 hrest
    · -- the last page of a program that has exited is all that was left
      rw [hnil, h.of_exited hexited hsilent', List.append_nil, List.append_nil] at hrest
      refine ⟨rest, [], (List.append_nil _).symm, hrest, ?_⟩
      rw [hnil, h.of_exited hexited hsilent']
      rfl
  refine ⟨pieces ++ [piece], rest', by simp, ?_, hrest'⟩
  have hcontent := (PtySession.read_eq_ok hr).1
  rw [hpiece, fromUtf8Lossy_utf8] at hcontent
  rw [pages_snoc, hpage]
  exact List.rel_append hpieces (.cons hcontent .nil)

end Paged

theorem PtyTerminal.Performs.paged {t' : PtyTerminal} (h : t.Performs l t') (hl : Attended id l)
    (ht : ∃ s, t.sessions.get id = some s ∧ Paged id s ls) :
    ∃ s, t'.sessions.get id = some s ∧ Paged id s (ls ++ [l]) := by
  obtain ⟨s, hs, hpaged⟩ := ht
  rcases h.session_cases hl.keeps hl.returns hs with
    ⟨bytes, hop, hget⟩ | ⟨code, hop, hget⟩ | ⟨r, rfl, hread, hget⟩ | ⟨hw, -, hp, hget⟩
  · obtain ⟨op, result⟩ := l
    subst hop
    have hwrites : writes id (.output id bytes, result) = bytes := if_pos rfl
    refine ⟨_, hget, hpaged.of_written rfl rfl ?_ ?_ .inl⟩
    · rw [written_snoc, hwrites, List.length_append, ← hpaged.total]
      rfl
    · rw [written_snoc, hwrites]
      exact s.buf.pushed_suffix hpaged.ring bytes
  · obtain ⟨op, result⟩ := l
    subst hop
    have hwritten : written id (ls ++ [(.exit id code, result)]) = written id ls := by
      rw [written_snoc]
      exact List.append_nil _
    refine ⟨_, hget, hpaged.of_written rfl rfl ?_ ?_ fun _ => .inr ⟨code, rfl⟩⟩
    · rw [hwritten]
      exact hpaged.total
    · rw [hwritten]
      exact hpaged.ring
  · have hstart : s.buf.ringStart ≤ s.readCursor := by
      have hdropped := (PtySession.read_eq_ok hread).2.1
      rw [hl.lossless r rfl] at hdropped
      omega
    exact ⟨_, hget, hpaged.read hstart hread⟩
  · have hwritten : written id (ls ++ [l]) = written id ls := by
      rw [written_snoc, hw, List.append_nil]
    refine ⟨s, hget, hpaged.of_written hp rfl ?_ ?_ .inl⟩
    · rw [hwritten]
      exact hpaged.total
    · rw [hwritten]
      exact hpaged.ring

theorem PtyTerminal.paged_of_run {t₀ : PtyTerminal} (hnew : t₀.sessions.get id = some .new)
    (hrun : Run PtyTerminal.Performs t₀ ls t) (hls : ∀ l ∈ ls, Attended id l) :
    ∃ s, t.sessions.get id = some s ∧ Paged id s ls := by
  revert hls
  refine hrun.invariant (I := fun ls t => (∀ l ∈ ls, Attended id l) →
    ∃ s, t.sessions.get id = some s ∧ Paged id s ls) ?_ ?_
  · intro _
    exact ⟨.new, hnew, .new id⟩
  · intro as t a t' _ ih hstep hall
    exact hstep.paged (hall a (by simp)) (ih fun l hl => hall l (List.mem_append_left _ hl))

theorem mem_of_mem_page {pieces contents : List (List Char)}
    (h : List.Forall₂ Strips pieces contents) {content : List Char} (hcontent : content ∈ contents)
    {c : Char} (hc : c ∈ content) : c ∈ pieces.flatten := by
  induction h with
  | nil => cases hcontent
  | @cons piece first pieces contents hfirst _ ih =>
    rw [List.flatten_cons, List.mem_append]
    rcases List.mem_cons.mp hcontent with rfl | hcontent
    · obtain ⟨-, rfl⟩ := stripControls_eq_ok_iff.mp hfirst
      exact .inl ((Mode.copied_sublist .text piece).mem hc)
    · exact .inr (ih hcontent)

/-- **Cutting output never damages a character.**  `trim_incomplete_tail` cuts off at most three
bytes, and the parts are decoded as they are together, whatever the bytes; when the bytes are those
of a text, both parts are.  So in every run of the terminal that loses none of the output of a new
session, and whatever text its output turns out to be, the pages are pieces of that text without
their control sequences, one after the other, and none shows a replacement character that is not in
the text. -/
theorem cut_never_damages (b r : List UInt8) :
    b.length ≤ trimIncompleteTail b + 3 ∧
    fromUtf8Lossy (b ++ r) = fromUtf8Lossy (b.take (trimIncompleteTail b)) ++
      fromUtf8Lossy (b.drop (trimIncompleteTail b) ++ r) ∧
    (∀ text, b ++ r = utf8 text → ∃ before rest, text = before ++ rest ∧
      b.take (trimIncompleteTail b) = utf8 before ∧
      b.drop (trimIncompleteTail b) ++ r = utf8 rest) ∧
    ∀ id t₀ t ls later text, t₀.sessions.get id = some .new →
      Run PtyTerminal.Performs t₀ ls t → (∀ l ∈ ls, Attended id l) →
      SilentAfterExit id ls later → written id ls ++ later = utf8 text →
      (∃ pieces, pieces.flatten <+: text ∧ List.Forall₂ Strips pieces (pages id ls)) ∧
      ∀ content ∈ pages id ls, REPLACEMENT ∈ content → REPLACEMENT ∈ text := by
  have hboundary := (isBoundary_trimIncompleteTail b).append r
  have hwhole : b ++ r = b.take (trimIncompleteTail b) ++ (b.drop (trimIncompleteTail b) ++ r) := by
    rw [← List.append_assoc, List.take_append_drop]
  refine ⟨length_le_trimIncompleteTail b, ?_, ?_, ?_⟩
  · rw [← hboundary.fromUtf8Lossy_eq, ← hwhole]
  · intro text htext
    rw [hwhole] at htext
    exact hboundary.exists_utf8 htext
  · intro id t₀ t ls later text hnew hrun hls hsilent htext
    obtain ⟨s, -, hpaged⟩ := PtyTerminal.paged_of_run hnew hrun hls
    obtain ⟨pieces, rest, rfl, hpieces, -⟩ := hpaged.text later text hsilent htext
    refine ⟨⟨pieces, List.prefix_append _ _, hpieces⟩, ?_⟩
    intro content hcontent hc
    exact List.mem_append_left _ (mem_of_mem_page hpieces hcontent hc)

/-- A character that arrives in two parts, and is read after the exit. -/
def splitCharacter : List (TermOp × TermResult) :=
  [(.output "pty-0" [0x61, 0xC3], .done),
    (.read "pty-0", .page ⟨['a'], true, 0, none⟩),
    (.output "pty-0" [0xA9], .done),
    (.exit "pty-0" 0, .done),
    (.read "pty-0", .page ⟨['é'], false, 0, some 0⟩)]

theorem cut_never_damages_splitCharacter :
    ∃ t, Run PtyTerminal.Performs spawned splitCharacter t ∧
      ∃ pieces, pieces.flatten <+: ['a', 'é'] ∧
        List.Forall₂ Strips pieces (pages "pty-0" splitCharacter) := by
  have hrun : Run PtyTerminal.Performs spawned splitCharacter _ :=
    .cons rfl (.cons rfl (.cons rfl (.cons rfl (.cons rfl .nil))))
  have hls : ∀ l ∈ splitCharacter, Attended "pty-0" l := by
    simp only [splitCharacter, List.forall_mem_cons]
    refine ⟨⟨trivial, by simp, by simp⟩, ⟨trivial, by simp, ?_⟩, ⟨trivial, by simp, by simp⟩,
      ⟨trivial, by simp, by simp⟩, ⟨trivial, by simp, ?_⟩, by simp⟩
    · rintro r ⟨⟩
      rfl
    · rintro r ⟨⟩
      rfl
  have hsilent : SilentAfterExit "pty-0" splitCharacter [] := by
    intro before code result after hls
    have hget : splitCharacter[before.length]? = some (.exit "pty-0" code, result) := by
      rw [hls]
      simp
    have hafter : after = splitCharacter.drop (before.length + 1) := by
      rw [hls]
      simp
    generalize before.length = n at hget hafter
    -- the exit is the fourth section
    obtain _ | _ | _ | _ | _ | n := n
    all_goals first | (subst hafter; rfl) | cases hget
  obtain ⟨hpieces, -⟩ := (cut_never_damages [] []).2.2.2 "pty-0" spawned _ splitCharacter []
    ['a', 'é'] rfl hrun hls hsilent (by decide)
  exact ⟨_, hrun, hpieces⟩

end Zyris.Terminal
