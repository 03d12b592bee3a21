import Zyris.Lib.Run
import Zyris.Terminal.Equiv.Session
import Zyris.Terminal.Equiv.Trim

/-!
# The text of a session and its pages

What the reads return is the text of what was written so far, up to the bytes that are held back, if
the output is tame.  Where an ESC stands inside a string the text depends on the pages:
`scan_escape` ends the string after that ESC, so the rest of the next sequence is text in one page,
and a sequence of its own when the page is cut before the ESC.  `Tracks` is the invariant of a
session.
-/

namespace Zyris.Terminal

/-! ### The ring and the cursor -/

def PtySession.heldBack (s : PtySession) : List UInt8 :=
  s.buf.ring.drop (s.readCursor - s.buf.ringStart)

namespace OutputBuffer

theorem length_pushed (b : OutputBuffer) (bytes : List UInt8) :
    (b.pushed bytes).length ≤ b.ring.length + bytes.length := by
  simp only [pushed, List.length_drop, List.length_append]
  split_ifs
  · rw [List.length_drop]
    omega
  · omega

/-- The ring keeps the end of what was written. -/
theorem pushed_suffix (b : OutputBuffer) {written : List UInt8} (h : b.ring <:+ written)
    (bytes : List UInt8) : b.pushed bytes <:+ written ++ bytes := by
  obtain ⟨before, rfl⟩ := h
  simp only [pushed]
  split_ifs with hbig
  · -- nothing of the old ring is left
    have hdrop : (b.ring ++ bytes.drop (bytes.length - b.cap)).length - b.cap = b.ring.length := by
      simp only [List.length_append, List.length_drop]
      omega
    rw [hdrop, List.drop_left]
    exact (List.drop_suffix _ _).trans (List.suffix_append _ _)
  · refine (List.drop_suffix _ _).trans ⟨before, ?_⟩
    rw [List.append_assoc]

theorem drop_ring (b : OutputBuffer) {written : List UInt8} (h : b.ring <:+ written)
    (htotal : b.totalWritten = written.length) {cursor : Nat} (hstart : b.ringStart ≤ cursor) :
    b.ring.drop (cursor - b.ringStart) = written.drop cursor := by
  obtain ⟨before, rfl⟩ := h
  have hbefore : b.ringStart = before.length := by
    rw [ringStart, htotal, List.length_append, Nat.add_sub_cancel]
  rw [hbefore] at hstart ⊢
  rw [List.drop_append, List.drop_eq_nil_of_le hstart, List.nil_append]

theorem readAt_spec (b : OutputBuffer) {cursor : Nat} (hstart : b.ringStart ≤ cursor) (max : Nat) :
    (∃ rest, b.ring.drop (cursor - b.ringStart) = (b.readAt cursor max).bytes ++ rest) ∧
      (b.readAt cursor max).cursor = cursor + (b.readAt cursor max).bytes.length := by
  have hdropped : ¬ 0 < b.ringStart - cursor := by omega
  simp only [readAt, if_neg hdropped]
  refine ⟨⟨_, (List.take_append_drop _ _).symm⟩, ?_⟩
  rw [List.length_take, List.length_drop]
  omega

end OutputBuffer

/-! ### One session -/

variable {r : PtyRead} {id : String} {t t' : PtyTerminal} {l : TermOp × TermResult}

variable {s : PtySession}

theorem PtySession.read_eq_ok {lossy : List UInt8 → List Char} (h : s.read lossy = .ok r) :
    stripControls (lossy s.page) = .ok r.content ∧ r.dropped = s.buf.ringStart - s.readCursor ∧
      (r.more = true ↔ s.advance.readCursor < s.buf.totalWritten) := by
  unfold PtySession.read at h
  rw [if_neg (Nat.not_lt.mpr s.keep_le)] at h
  cases hc : stripControls (lossy s.page) with
  | error e =>
    rw [hc] at h
    cases h
  | ok content =>
    rw [hc] at h
    cases h
    exact ⟨rfl, rfl, decide_eq_true_iff⟩

theorem PtySession.keep_of_running (h : s.exited = none) :
    s.keep = cut s.next.bytes := by
  simp only [PtySession.keep, h, Option.isSome_none, Bool.false_and, Bool.false_eq_true, if_false]
  rfl

theorem PtySession.readCursor_advance (hstart : s.buf.ringStart ≤ s.readCursor) :
    s.advance.readCursor = s.readCursor + s.keep := by
  have hkeep := s.keep_le
  have hnext : s.next.cursor = s.readCursor + s.next.bytes.length :=
    (s.buf.readAt_spec hstart PTY_READ_MAX).2
  change s.next.cursor - (s.next.bytes.length - s.keep) = _
  omega

/-- What holds of a session whose program wrote `written` and whose reads returned `shown`. -/
structure Tracks (s : PtySession) (written : List UInt8) (shown : List Char) : Prop where
  running : s.exited = none
  total : s.buf.totalWritten = written.length
  ring : s.buf.ring <:+ written
  text : s.buf.ringStart ≤ s.readCursor → ∀ later, escapesTame (written ++ later) = true →
    escapesTame ((written ++ later).drop s.readCursor) = true ∧
    Mode.text.copied (fromUtf8Lossy (written ++ later)) =
      shown ++ Mode.text.copied (fromUtf8Lossy ((written ++ later).drop s.readCursor))

namespace Tracks

variable {s : PtySession} {written : List UInt8} {shown : List Char}

theorem new : Tracks .new [] [] where
  running := rfl
  total := rfl
  ring := List.nil_suffix
  text := fun _ _ h => ⟨h, rfl⟩

theorem output (h : Tracks s written shown) (bytes : List UInt8) :
    Tracks (s.output bytes) (written ++ bytes) shown where
  running := h.running
  total := by
    change s.buf.totalWritten + bytes.length = _
    rw [h.total, List.length_append]
  ring := s.buf.pushed_suffix h.ring bytes
  text := by
    intro hstart later htame
    have hle := s.buf.length_pushed bytes
    have hring := s.buf.ring_le_total
    -- the ring's start only moves on, so nothing was lost before this output either
    have hbefore : s.buf.ringStart ≤ s.readCursor := by
      change s.buf.totalWritten + bytes.length - (s.buf.pushed bytes).length ≤ s.readCursor
        at hstart
      unfold OutputBuffer.ringStart
      omega
    rw [List.append_assoc] at htame ⊢
    exact h.text hbefore (bytes ++ later) htame

theorem read (h : Tracks s written shown) (hstart : s.buf.ringStart ≤ s.readCursor) {r : PtyRead}
    (hr : s.read fromUtf8Lossy = .ok r) : Tracks s.advance written (shown ++ r.content) where
  running := h.running
  total := h.total
  ring := h.ring
  text := by
    intro _ later htame
    obtain ⟨hcursor, hshown⟩ := h.text hstart later htame
    obtain ⟨⟨rest, hrest⟩, -⟩ := s.buf.readAt_spec hstart PTY_READ_MAX
    rw [s.buf.drop_ring h.ring h.total hstart] at hrest
    change _ = s.next.bytes ++ rest at hrest
    have hkeep : s.keep = cut s.next.bytes := PtySession.keep_of_running h.running
    -- the bytes from the cursor on: the page, what is held back, and what comes later
    have hdrop : (written ++ later).drop s.readCursor = s.next.bytes ++ (rest ++ later) := by
      rw [List.drop_append_of_le_length (h.total ▸ s.cursor_le), hrest, List.append_assoc]
    have hadvance : s.advance.readCursor = s.readCursor + cut s.next.bytes := by
      rw [← hkeep]
      exact PtySession.readCursor_advance hstart
    rw [hdrop] at hcursor hshown
    obtain ⟨hpage, htail, hcopied⟩ := cut_spec hcursor
    rw [hadvance, ← List.drop_drop, hdrop]
    refine ⟨htail, ?_⟩
    have hcontent := (PtySession.read_eq_ok hr).1
    rw [PtySession.page, hkeep, stripControls_of_tame hpage] at hcontent
    rw [hshown, hcopied, Except.ok.inj hcontent, List.append_assoc]

end Tracks

/-! ### Whole runs -/

/-- A locked section that ends with a result. -/
def PtyTerminal.Performs (t : PtyTerminal) (l : TermOp × TermResult) (t' : PtyTerminal) : Prop :=
  t.step fromUtf8Lossy l.1 = (t', l.2)

/-- What a section writes to a session. -/
def writes (id : String) : TermOp × TermResult → List UInt8
  | (.output i bytes, _) => if i = id then bytes else []
  | _ => []

/-- What a section returns of the text of a session. -/
def shows (id : String) : TermOp × TermResult → List Char
  | (.read i, .page r) => if i = id then r.content else []
  | _ => []

/-- All the program of a session wrote. -/
def written (id : String) (ls : List (TermOp × TermResult)) : List UInt8 := ls.flatMap (writes id)

/-- The `content` fields that the reads of a session returned, one after the other. -/
def shown (id : String) (ls : List (TermOp × TermResult)) : List Char := ls.flatMap (shows id)

/-- The text a section returns when it reads a session. -/
def pageOf (id : String) : TermOp × TermResult → Option (List Char)
  | (.read i, .page r) => if i = id then some r.content else none
  | _ => none

/-- The section leaves a session in its place. -/
def TermOp.Keeps (id : String) : TermOp → Prop
  | .spawn i | .close i => i ≠ id
  | .exit _ _ | .output _ _ | .read _ => True

/-- The section leaves the program of a session running. -/
def TermOp.Spares (id : String) : TermOp → Prop
  | .spawn i | .exit i _ | .close i => i ≠ id
  | .output _ _ | .read _ => True

theorem TermOp.Spares.keeps {op : TermOp} (h : op.Spares id) : op.Keeps id := by
  cases op with
  | spawn i => exact h
  | close i => exact h
  | exit i code => trivial
  | output i bytes => trivial
  | read i => trivial

/-- The section returns, leaves the program running, and has lost no output it reads. -/
structure Undisturbed (id : String) (l : TermOp × TermResult) : Prop where
  spares : l.1.Spares id
  returns : l.2 ≠ .panicked
  lossless : ∀ r, l = (.read id, .page r) → r.dropped = 0

/-- What a section does to `id`: its program writes or exits, it is read, or left alone. -/
theorem PtyTerminal.Performs.session_cases (h : t.Performs l t') (hkeeps : l.1.Keeps id)
    (hreturns : l.2 ≠ .panicked) (hs : t.sessions.get id = some s) :
    (∃ bytes, l.1 = .output id bytes ∧ t'.sessions.get id = some (s.output bytes)) ∨
    (∃ code, l.1 = .exit id code ∧ t'.sessions.get id = some { s with exited := some code }) ∨
    (∃ r, l = (.read id, .page r) ∧ s.read fromUtf8Lossy = .ok r ∧
      t'.sessions.get id = some s.advance) ∨
    (writes id l = [] ∧ shows id l = [] ∧ pageOf id l = none ∧ t'.sessions.get id = some s) := by
  obtain ⟨op, result⟩ := l
  change t.step fromUtf8Lossy op = (t', result) at h
  have hpoisoned : t.poisoned = false := by
    rw [Bool.eq_false_iff]
    intro hpoisoned
    rw [PtyTerminal.step.eq_def, if_pos hpoisoned] at h
    exact hreturns (congrArg Prod.snd h).symm
  rw [PtyTerminal.step.eq_def, if_neg (by rw [hpoisoned]; decide)] at h
  have hother {i : String} (hi : i ≠ id) (s' : PtySession) :
      (t.sessions.insert i s').get id = some s := by
    rw [Table.get_insert, if_neg (Ne.symm hi), hs]
  have hown (s' : PtySession) : (t.sessions.insert id s').get id = some s' := by
    rw [Table.get_insert, if_pos rfl]
  cases op with
  | spawn i =>
    obtain ⟨rfl, rfl⟩ := Prod.mk.inj h
    exact .inr (.inr (.inr ⟨rfl, rfl, rfl, hother hkeeps _⟩))
  | output i bytes =>
    by_cases hi : i = id
    · subst hi
      simp only [hs] at h
      obtain ⟨rfl, rfl⟩ := Prod.mk.inj h
      exact .inl ⟨bytes, rfl, hown _⟩
    · refine .inr (.inr (.inr ⟨if_neg hi, rfl, rfl, ?_⟩))
      cases hget : t.sessions.get i <;> simp only [hget] at h <;>
        obtain ⟨rfl, rfl⟩ := Prod.mk.inj h
      · exact hs
      · exact hother hi _
  | exit i code =>
    by_cases hi : i = id
    · subst hi
      simp only [hs] at h
      obtain ⟨rfl, rfl⟩ := Prod.mk.inj h
      exact .inr (.inl ⟨code, rfl, hown _⟩)
    · refine .inr (.inr (.inr ⟨rfl, rfl, rfl, ?_⟩))
      cases hget : t.sessions.get i <;> simp only [hget] at h <;>
        obtain ⟨rfl, rfl⟩ := Prod.mk.inj h
      · exact hs
      · exact hother hi _
  | close i =>
    obtain ⟨rfl, rfl⟩ := Prod.mk.inj h
    refine .inr (.inr (.inr ⟨rfl, rfl, rfl, ?_⟩))
    rw [Table.get_remove, if_neg (Ne.symm hkeeps), hs]
  | read i =>
    rcases hget : t.sessions.get i with _ | s' <;> simp only [hget] at h
    · obtain ⟨rfl, rfl⟩ := Prod.mk.inj h
      exact .inr (.inr (.inr ⟨rfl, rfl, rfl, hs⟩))
    rcases hread : s'.read fromUtf8Lossy with _ | r <;> simp only [hread] at h
    · exact absurd (congrArg Prod.snd h).symm hreturns
    obtain ⟨rfl, rfl⟩ := Prod.mk.inj h
    by_cases hi : i = id
    · subst hi
      cases hs.symm.trans hget
      exact .inr (.inr (.inl ⟨r, rfl, hread, hown _⟩))
    · exact .inr (.inr (.inr ⟨rfl, if_neg hi, if_neg hi, hother hi _⟩))

/-- A section that leaves the program running writes, reads, or leaves it alone. -/
theorem PtyTerminal.Performs.session (h : t.Performs l t') (hl : Undisturbed id l)
    (hs : t.sessions.get id = some s) :
    (∃ bytes, l.1 = .output id bytes ∧ t'.sessions.get id = some (s.output bytes)) ∨
    (∃ r, l = (.read id, .page r) ∧ s.read fromUtf8Lossy = .ok r ∧
      t'.sessions.get id = some s.advance) ∨
    (writes id l = [] ∧ shows id l = [] ∧ t'.sessions.get id = some s) := by
  rcases h.session_cases hl.spares.keeps hl.returns hs with
    hout | ⟨code, hop, -⟩ | hread | ⟨hw, hsh, -, hget⟩
  · exact .inl hout
  · have hspares := hl.spares
    rw [hop] at hspares
    exact absurd rfl hspares
  · exact .inr (.inl hread)
  · exact .inr (.inr ⟨hw, hsh, hget⟩)

theorem written_snoc (id : String) (ls : List (TermOp × TermResult)) (l : TermOp × TermResult) :
    written id (ls ++ [l]) = written id ls ++ writes id l := by
  rw [written, List.flatMap_append, List.flatMap_singleton]
  rfl

theorem shown_snoc (id : String) (ls : List (TermOp × TermResult)) (l : TermOp × TermResult) :
    shown id (ls ++ [l]) = shown id ls ++ shows id l := by
  rw [shown, List.flatMap_append, List.flatMap_singleton]
  rfl

theorem PtyTerminal.Performs.tracks (h : t.Performs l t') (hl : Undisturbed id l)
    {ls : List (TermOp × TermResult)}
    (ht : ∃ s, t.sessions.get id = some s ∧ Tracks s (written id ls) (shown id ls)) :
    ∃ s, t'.sessions.get id = some s ∧
      Tracks s (written id (ls ++ [l])) (shown id (ls ++ [l])) := by
  obtain ⟨s, hs, htracks⟩ := ht
  rw [written_snoc, shown_snoc]
  rcases h.session hl hs with ⟨bytes, hop, hget⟩ | ⟨r, rfl, hread, hget⟩ | ⟨hw, hsh, hget⟩
  · obtain ⟨op, result⟩ := l
    subst hop
    have hwrites : writes id (.output id bytes, result) = bytes := if_pos rfl
    have hshows : shows id (.output id bytes, result) = [] := rfl
    rw [hwrites, hshows, List.append_nil]
    exact ⟨_, hget, htracks.output bytes⟩
  · have hshows : shows id (.read id, .page r) = r.content := if_pos rfl
    have hwrites : writes id (.read id, .page r) = [] := rfl
    have hstart : s.buf.ringStart ≤ s.readCursor := by
      have hdropped := (PtySession.read_eq_ok hread).2.1
      rw [hl.lossless r rfl] at hdropped
      omega
    rw [hwrites, hshows, List.append_nil]
    exact ⟨_, hget, htracks.read hstart hread⟩
  · rw [hw, hsh, List.append_nil, List.append_nil]
    exact ⟨s, hget, htracks⟩

/-- **Terminal text does not depend on how it was paged**, as long as the output is tame: in every
run that leaves the program of a new session running and loses none of its output, the text returned
by the reads and then that of the bytes held back is the text of all that was written. -/
theorem text_independent_of_paging {id : String} {t₀ t : PtyTerminal}
    {ls : List (TermOp × TermResult)} (hnew : t₀.sessions.get id = some .new)
    (hrun : Run PtyTerminal.Performs t₀ ls t) (hls : ∀ l ∈ ls, Undisturbed id l)
    (htame : escapesTame (written id ls) = true) :
    ∃ s, t.sessions.get id = some s ∧ (s.buf.ringStart ≤ s.readCursor →
      ∃ text, stripControls (fromUtf8Lossy s.heldBack) = .ok text ∧
        stripControls (fromUtf8Lossy (written id ls)) = .ok (shown id ls ++ text)) := by
  have htracks : (∀ l ∈ ls, Undisturbed id l) → ∃ s, t.sessions.get id = some s ∧
      Tracks s (written id ls) (shown id ls) := by
    refine hrun.invariant (I := fun ls t => (∀ l ∈ ls, Undisturbed id l) →
      ∃ s, t.sessions.get id = some s ∧ Tracks s (written id ls) (shown id ls)) ?_ ?_
    · exact fun _ => ⟨.new, hnew, .new⟩
    · intro as t a t' _ ih hstep hall
      have hbefore := ih fun l hl => hall l (List.mem_append_left _ hl)
      exact hstep.tracks (hall a (by simp)) hbefore
  obtain ⟨s, hs, h⟩ := htracks hls
  refine ⟨s, hs, fun hstart => ?_⟩
  have htext := h.text hstart []
  rw [List.append_nil] at htext
  obtain ⟨hheld, hcopied⟩ := htext htame
  refine ⟨Mode.text.copied (fromUtf8Lossy ((written id ls).drop s.readCursor)), ?_, ?_⟩
  · rw [PtySession.heldBack, s.buf.drop_ring h.ring h.total hstart]
    exact stripControls_of_tame hheld
  · rw [stripControls_of_tame htame, hcopied]

theorem undisturbed_output (id i : String) (bytes : List UInt8) :
    Undisturbed id (.output i bytes, .done) :=
  ⟨trivial, by simp, by simp⟩

theorem undisturbed_page (h : r.dropped = 0) : Undisturbed id (.read id, .page r) := by
  refine ⟨trivial, by simp, ?_⟩
  rintro r' ⟨⟩
  exact h

def spawned : PtyTerminal := (PtyTerminal.new.step fromUtf8Lossy (.spawn "pty-0")).1

/-- A title that arrives in two parts, then a character that arrives in two parts. -/
def threeReads : List (TermOp × TermResult) :=
  [(.output "pty-0" [0x61, 0x1B, 0x5D, 0x74], .done),
    (.read "pty-0", .page ⟨['a'], true, 0, none⟩),
    (.output "pty-0" [0x07, 0xC3], .done),
    (.read "pty-0", .page ⟨[], true, 0, none⟩),
    (.output "pty-0" [0xA9], .done),
    (.read "pty-0", .page ⟨['é'], false, 0, none⟩)]

theorem text_independent_of_paging_threeReads : ∃ t s,
    Run PtyTerminal.Performs spawned threeReads t ∧ t.sessions.get "pty-0" = some s ∧
    ∃ text, stripControls (fromUtf8Lossy s.heldBack) = .ok text ∧
      stripControls (fromUtf8Lossy (written "pty-0" threeReads)) =
        .ok (shown "pty-0" threeReads ++ text) := by
  have hrun : Run PtyTerminal.Performs spawned threeReads _ :=
    .cons rfl (.cons rfl (.cons rfl (.cons rfl (.cons rfl (.cons rfl .nil)))))
  have hls : ∀ l ∈ threeReads, Undisturbed "pty-0" l := by
    simp only [threeReads, List.forall_mem_cons]
    exact ⟨undisturbed_output _ _ _, undisturbed_page rfl, undisturbed_output _ _ _,
      undisturbed_page rfl, undisturbed_output _ _ _, undisturbed_page rfl, by simp⟩
  obtain ⟨s, hs, htext⟩ := text_independent_of_paging rfl hrun hls (by decide)
  refine ⟨_, s, hrun, hs, htext ?_⟩
  cases hs
  decide

/-- An ESC inside a title starts another sequence.  Read in two parts, both are stripped; read at
once, the title ends after the ESC and what follows it is text. -/
def escInTitle : List (TermOp × TermResult) :=
  [(.output "pty-0" [0x1B, 0x5D, 0x74, 0x1B], .done),
    (.read "pty-0", .page ⟨[], true, 0, none⟩),
    (.output "pty-0" [0x5B, 0x33, 0x31, 0x6D], .done),
    (.read "pty-0", .page ⟨[], false, 0, none⟩)]

theorem text_depends_on_paging : ∃ t s,
    spawned.sessions.get "pty-0" = some .new ∧
    Run PtyTerminal.Performs spawned escInTitle t ∧ (∀ l ∈ escInTitle, Undisturbed "pty-0" l) ∧
    t.sessions.get "pty-0" = some s ∧ s.buf.ringStart ≤ s.readCursor ∧
    shown "pty-0" escInTitle = [] ∧ stripControls (fromUtf8Lossy s.heldBack) = .ok [] ∧
    stripControls (fromUtf8Lossy (written "pty-0" escInTitle)) = .ok ['[', '3', '1', 'm'] := by
  have hrun : Run PtyTerminal.Performs spawned escInTitle _ :=
    .cons rfl (.cons rfl (.cons rfl (.cons rfl .nil)))
  have hls : ∀ l ∈ escInTitle, Undisturbed "pty-0" l := by
    simp only [escInTitle, List.forall_mem_cons]
    exact ⟨undisturbed_output _ _ _, undisturbed_page rfl, undisturbed_output _ _ _,
      undisturbed_page rfl, by simp⟩
  exact ⟨_, _, rfl, hrun, hls, rfl, by decide, rfl, rfl, rfl⟩

end Zyris.Terminal
