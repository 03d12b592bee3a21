import Zyris.Terminal.Session
import Zyris.Terminal.Equiv.Sanitize

/-!
# When `PtyTerminal::read` returns

Nothing but `strip_controls` can make the locked section of `read` panic: `keep` never passes the
bytes just read (`PtySession.keep_le`).  So no section of a run panics exactly when every page read
along the way keeps its escapes ASCII.
-/

namespace Zyris.Terminal

/-! ### What is held back -/

theorem trimIncompleteEscape_le (b : List UInt8) : trimIncompleteEscape b ≤ b.length := by
  unfold trimIncompleteEscape
  simp only
  split
  · exact Nat.le_refl _
  rename_i esc hesc
  split
  · exact Nat.le_refl _
  -- an index of the searched suffix, shifted back to the whole
  simp only [rposition, Option.map_map, Option.map_eq_some_iff, Function.comp] at hesc
  obtain ⟨k, hk, rfl⟩ := hesc
  have := (List.findIdx?_eq_some_iff_findIdx_eq.mp hk).1
  simp only [List.length_reverse, List.length_drop] at this ⊢
  omega

theorem PtySession.keep_le (s : PtySession) : s.keep ≤ s.next.bytes.length := by
  unfold PtySession.keep
  simp only
  split_ifs
  · exact Nat.le_refl _
  · exact Nat.le_trans (Nat.min_le_right _ _) (trimIncompleteEscape_le _)

/-! ### One read -/

/-- `read` returns when the escapes of its page are ASCII, and panics otherwise. -/
theorem PtySession.read_spec (lossy : List UInt8 → List Char) (s : PtySession) :
    (escapesAscii (lossy s.page) = true ∧ ∃ r, s.read lossy = .ok r) ∨
    (escapesAscii (lossy s.page) = false ∧ s.read lossy = .error .panic) := by
  have hk : ¬ s.next.bytes.length < s.keep := Nat.not_lt.mpr s.keep_le
  unfold PtySession.read
  rw [if_neg hk]
  rcases stripControls_spec (lossy s.page) with ⟨h, t, ht⟩ | ⟨h, ht⟩
  · exact .inl ⟨h, _, by rw [ht]; rfl⟩
  · exact .inr ⟨h, by rw [ht]; rfl⟩

/-! ### Whole runs -/

/-- No locked section of the run panics. -/
def PanicFree (lossy : List UInt8 → List Char) : PtyTerminal → List TermOp → Prop
  | _, [] => True
  | t, op :: ops => (t.step lossy op).2 ≠ .panicked ∧ PanicFree lossy (t.step lossy op).1 ops

/-- Every page read along the run keeps its escapes ASCII. -/
def CleanReads (lossy : List UInt8 → List Char) : PtyTerminal → List TermOp → Prop
  | _, [] => True
  | t, op :: ops =>
    (∀ id s, op = .read id → t.sessions.get id = some s → escapesAscii (lossy s.page) = true) ∧
      CleanReads lossy (t.step lossy op).1 ops

/-- One section on a healthy terminal panics and poisons exactly on an unclean read. -/
theorem PtyTerminal.step_spec (lossy : List UInt8 → List Char) {t : PtyTerminal}
    (ht : t.poisoned = false) (op : TermOp) :
    (∀ id s, op = .read id → t.sessions.get id = some s → escapesAscii (lossy s.page) = true) ∧
      (t.step lossy op).2 ≠ .panicked ∧ (t.step lossy op).1.poisoned = false ∨
    (∃ id s, op = .read id ∧ t.sessions.get id = some s ∧ escapesAscii (lossy s.page) = false) ∧
      (t.step lossy op).2 = .panicked := by
  cases op with
  | spawn id | close id => left; simp [PtyTerminal.step, ht]
  | output id bytes | exit id code =>
    left
    cases h : t.sessions.get id <;> simp [PtyTerminal.step, ht, h]
  | read id =>
    rcases h : t.sessions.get id with _ | s
    · left
      refine ⟨?_, by simp [PtyTerminal.step, ht, h], by simp [PtyTerminal.step, ht, h]⟩
      rintro id' s ⟨⟩ hs
      simp [h] at hs
    rcases s.read_spec lossy with ⟨ha, r, hr⟩ | ⟨ha, hr⟩
    · left
      refine ⟨?_, by simp [PtyTerminal.step, ht, h, hr], by simp [PtyTerminal.step, ht, h, hr]⟩
      rintro id' s' ⟨⟩ hs
      obtain rfl := Option.mem_unique h hs
      exact ha
    · right
      refine ⟨⟨id, s, rfl, h, ha⟩, ?_⟩
      simp [PtyTerminal.step, ht, h, hr]

theorem PtyTerminal.panicFree_iff (lossy : List UInt8 → List Char) (ops : List TermOp) :
    ∀ {t : PtyTerminal}, t.poisoned = false →
      (PanicFree lossy t ops ∧ (t.run lossy ops).poisoned = false ↔ CleanReads lossy t ops) := by
  induction ops with
  | nil => intro t ht; simp [PanicFree, CleanReads, PtyTerminal.run, ht]
  | cons op ops ih =>
    intro t ht
    have hrun : t.run lossy (op :: ops) = (t.step lossy op).1.run lossy ops := rfl
    rcases PtyTerminal.step_spec lossy ht op with
      ⟨hclean, hres, hpois⟩ | ⟨⟨id, s, h1, h2, h3⟩, hres⟩
    · rw [PanicFree, CleanReads, hrun, ← ih hpois]
      exact ⟨fun ⟨⟨_, hp⟩, hr⟩ => ⟨hclean, hp, hr⟩, fun ⟨_, hp, hr⟩ => ⟨⟨hres, hp⟩, hr⟩⟩
    constructor
    · rintro ⟨⟨hne, _⟩, _⟩
      exact absurd hres hne
    · rintro ⟨hall, _⟩
      rw [hall id s h1 h2] at h3
      exact absurd h3 (by simp)

/-- **Stripping returns exactly on texts whose escapes are ASCII**, and over every run no section
panics and the session mutex stays healthy exactly when every page read keeps its escapes ASCII. -/
theorem strip_and_read_return_iff (lossy : List UInt8 → List Char) :
    (∀ s, (∃ text, stripControls s = .ok text) ↔ escapesAscii s = true) ∧
    ∀ ops, (PanicFree lossy .new ops ∧ (PtyTerminal.new.run lossy ops).poisoned = false) ↔
      CleanReads lossy .new ops := by
  refine ⟨fun s => ?_, fun ops => PtyTerminal.panicFree_iff lossy ops rfl⟩
  rcases stripControls_spec s with ⟨h, t, ht⟩ | ⟨h, ht⟩
  · exact ⟨fun _ => h, fun _ => ⟨t, ht⟩⟩
  constructor
  · rintro ⟨t, ht'⟩
    rw [ht] at ht'
    exact absurd ht' (by simp)
  · intro h'
    rw [h'] at h
    exact absurd h (by simp)

/-- ESC followed by `é`: the scanner's two-byte arm ends inside the character, and a program that
writes these bytes makes `read` panic with the session map locked. -/
theorem stripControls_esc_multibyte :
    ¬ (∃ text, stripControls ['\x1b', 'é'] = .ok text) ∧
    ¬ PanicFree (fun b => if b = utf8 ['\x1b', 'é'] then ['\x1b', 'é'] else [])
      .new [.spawn "pty-0", .output "pty-0" [0x1B, 0xC3, 0xA9], .read "pty-0"] ∧
    (PtyTerminal.new.run (fun b => if b = utf8 ['\x1b', 'é'] then ['\x1b', 'é'] else [])
      [.spawn "pty-0", .output "pty-0" [0x1B, 0xC3, 0xA9], .read "pty-0"]).poisoned = true := by
  have hs : stripControls ['\x1b', 'é'] = .error .panic := by decide
  refine ⟨by simp [hs], ?_, by decide⟩
  rintro ⟨-, -, h, -⟩
  exact h rfl

end Zyris.Terminal
