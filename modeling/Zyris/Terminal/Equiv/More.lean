import Zyris.Terminal.Equiv.Paging

/-!
# What `more` promises

`PtyRead::more` tells the caller that another `read` gets more bytes.  While the shell runs that is
not so for a single character or escape sequence that is still cut off (`isCutOff`).  Every other
read with bytes to come moves the cursor (`PtySession.readCursor_lt_advance_iff`).
-/

namespace Zyris.Terminal

/-! ### Bytes that are held back as a whole -/

/-- The bytes after an ESC do not finish its sequence. -/
def leavesOpen : List UInt8 → Bool
  | [] => true
  | kind :: rest =>
    kind = byte '[' && rest.all (fun c => ¬ (0x40 ≤ c ∧ c ≤ 0x7E)) ||
      opensString kind && rest.all (· ≠ BEL)

/-- A single character, or escape sequence of at most `LOOKBACK` bytes, that is cut off. -/
def isCutOff : List UInt8 → Bool
  | [] => false
  | c :: rest =>
    0xC0 ≤ c && rest.all isContinuation && rest.length + 1 < Lossy.width c ||
      c = ESC && !rest.contains ESC && rest.length + 1 ≤ LOOKBACK && leavesOpen rest

theorem isCutOff_cons_iff {c : UInt8} {rest : List UInt8} :
    isCutOff (c :: rest) = true ↔
      (0xC0 ≤ c ∧ (∀ b ∈ rest, isContinuation b = true) ∧ rest.length + 1 < Lossy.width c) ∨
      (c = ESC ∧ ESC ∉ rest ∧ rest.length + 1 ≤ LOOKBACK ∧ leavesOpen rest = true) := by
  simp only [isCutOff, Bool.or_eq_true, Bool.and_eq_true, decide_eq_true_eq, List.all_eq_true,
    Bool.not_eq_true', List.contains_eq_mem, decide_eq_false_iff_not, and_assoc]

theorem length_le_of_isCutOff {b : List UInt8} (h : isCutOff b = true) : b.length ≤ LOOKBACK := by
  rcases b with _ | ⟨c, _⟩
  · exact absurd h Bool.false_ne_true
  rcases isCutOff_cons_iff.mp h with ⟨-, -, hwidth⟩ | ⟨-, -, hle, -⟩
  · have hfour : Lossy.width c ≤ 4 := by
      unfold Lossy.width
      split_ifs <;> omega
    have hlookback : LOOKBACK = 256 := rfl
    rw [List.length_cons]
    omega
  · exact hle

theorem scanCsi_eq_none_iff {bs : List UInt8} {j : Nat} :
    scanCsi bs j = none ↔ bs.all (fun c => ¬ (0x40 ≤ c ∧ c ≤ 0x7E)) = true := by
  induction bs generalizing j with
  | nil => simp [scanCsi]
  | cons c bs ih =>
    rw [scanCsi, List.all_cons, Bool.and_eq_true, decide_eq_true_eq]
    by_cases hc : 0x40 ≤ c ∧ c ≤ 0x7E
    · rw [if_pos hc]
      exact iff_of_false (Option.some_ne_none _) fun h => h.1 hc
    · rw [if_neg hc, ih]
      exact ⟨fun h => ⟨hc, h⟩, And.right⟩

theorem scanString_eq_none_iff {bs : List UInt8} (hESC : ESC ∉ bs) {j : Nat} :
    scanString bs j = none ↔ bs.all (· ≠ BEL) = true := by
  induction bs generalizing j with
  | nil => simp [scanString]
  | cons c bs ih =>
    simp only [List.mem_cons, not_or] at hESC
    rw [scanString, List.all_cons, Bool.and_eq_true, decide_eq_true_eq]
    by_cases hc : c = BEL
    · rw [if_pos hc]
      exact iff_of_false (Option.some_ne_none _) fun h => h.1 hc
    · rw [if_neg hc, if_neg (Ne.symm hESC.1), ih hESC.2]
      exact ⟨fun h => ⟨hc, h⟩, And.right⟩

theorem scanEscape_eq_none_iff {rest : List UInt8} (hESC : ESC ∉ rest) :
    scanEscape (ESC :: rest) 0 = none ↔ leavesOpen rest = true := by
  rcases rest with _ | ⟨kind, rest⟩
  · exact iff_of_true rfl rfl
  simp only [List.mem_cons, not_or] at hESC
  have hstring : opensString (byte '[') = false := by decide
  change (if kind = byte '[' then scanCsi rest 2
    else if opensString kind then scanString rest 2 else some 2) = none ↔ _
  rw [leavesOpen, Bool.or_eq_true, Bool.and_eq_true, Bool.and_eq_true, decide_eq_true_eq]
  by_cases hcsi : kind = byte '['
  · subst hcsi
    rw [if_pos rfl, scanCsi_eq_none_iff]
    simp [hstring]
  rw [if_neg hcsi]
  cases hopen : opensString kind with
  | true =>
    rw [if_pos rfl, scanString_eq_none_iff hESC.2]
    simp [hcsi]
  | false =>
    simp [hcsi]

/-- The trimmers hold back everything exactly when there is nothing else. -/
theorem cut_eq_zero_iff {b : List UInt8} (hb : b ≠ []) : cut b = 0 ↔ isCutOff b = true := by
  have hpos : 0 < b.length := List.length_pos_iff.mpr hb
  unfold cut
  constructor
  · intro h
    rcases Nat.le_total (trimIncompleteTail b) (trimIncompleteEscape b) with hle | hle
    · rw [Nat.min_eq_left hle] at h
      rcases trimIncompleteTail_spec b with ⟨hall, -⟩ | ⟨x, lead, cs, rfl, hlead, hcs, hwidth, hx⟩
      · omega
      · obtain rfl : x = [] := List.length_eq_zero_iff.mp (hx.symm.trans h)
        exact isCutOff_cons_iff.mpr (.inl ⟨hlead, hcs, hwidth⟩)
    · rw [Nat.min_eq_right hle] at h
      rcases trimIncompleteEscape_spec b with ⟨hall, -⟩ | ⟨x, y, rfl, hy, hfar, hx⟩
      · omega
      rw [hx] at h
      split at h
      · omega
      · next hopen =>
        obtain rfl : x = [] := List.length_eq_zero_iff.mp h
        have hnone : scanEscape (ESC :: y) 0 = none := by simpa using hopen
        exact isCutOff_cons_iff.mpr
          (.inr ⟨rfl, hy, by simpa using hfar, (scanEscape_eq_none_iff hy).mp hnone⟩)
  · intro h
    obtain ⟨c, rest, rfl⟩ := List.exists_cons_of_ne_nil hb
    rcases isCutOff_cons_iff.mp h with ⟨hlead, hcs, hwidth⟩ | ⟨rfl, hESC, hle, hopen⟩
    · have htail : trimIncompleteTail (c :: rest) = 0 :=
        trimIncompleteTail_lead [] hlead hcs hwidth
      omega
    have hescape : trimIncompleteEscape (ESC :: rest) = 0 := by
      rcases trimIncompleteEscape_spec (ESC :: rest) with ⟨-, hfar⟩ | ⟨x, y, hsplit, hy, -, hx⟩
      · rw [Nat.sub_eq_zero_of_le (by simpa using hle)] at hfar
        exact absurd List.mem_cons_self hfar
      cases x with
      | nil =>
        rw [hx, List.length_nil, (scanEscape_eq_none_iff hESC).mpr hopen]
        rfl
      | cons d x =>
        -- the last ESC would be inside `rest`
        obtain ⟨-, rfl⟩ := List.cons.inj hsplit
        exact absurd (by simp) hESC
    omega

/-! ### One more read -/

namespace PtySession

/-- The shell is running, and what is left is held back as a whole. -/
def stuck (s : PtySession) : Bool := s.exited.isNone && isCutOff s.heldBack

/-- The session a later read finds if nothing was written: the shell may have exited. -/
def later (s : PtySession) (exited : Option Int) : PtySession :=
  { s with exited := s.exited.or exited }

theorem ringStart_le_readCursor_advance (s : PtySession) :
    s.buf.ringStart ≤ s.advance.readCursor := by
  have hkeep := s.keep_le
  change s.buf.ringStart ≤ s.next.cursor - (s.next.bytes.length - s.keep)
  by_cases hlost : 0 < s.buf.ringStart - s.readCursor
  · -- the read starts over at the oldest byte that is left
    have hnext : s.next = s.buf.readAt s.readCursor PTY_READ_MAX := rfl
    simp only [OutputBuffer.readAt, if_pos hlost, Nat.sub_self, List.drop_zero, Nat.sub_zero]
      at hnext
    rw [hnext] at hkeep ⊢
    simp only [List.length_take] at hkeep ⊢
    omega
  · have hnext : s.next.cursor = s.readCursor + s.next.bytes.length :=
      (s.buf.readAt_spec (by omega) PTY_READ_MAX).2
    omega

variable {s : PtySession}

theorem length_heldBack (hstart : s.buf.ringStart ≤ s.readCursor) :
    s.heldBack.length = s.buf.totalWritten - s.readCursor := by
  have hring := s.buf.ring_le_total
  rw [heldBack, List.length_drop]
  unfold OutputBuffer.ringStart at hstart ⊢
  omega

theorem next_bytes (hstart : s.buf.ringStart ≤ s.readCursor) :
    s.next.bytes = s.heldBack.take PTY_READ_MAX := by
  have hlost : ¬ 0 < s.buf.ringStart - s.readCursor := by omega
  simp only [next, OutputBuffer.readAt, if_neg hlost, heldBack]
  rw [← List.length_drop, Nat.min_comm]
  exact List.take_eq_take_min.symm

theorem isCutOff_next_bytes (hstart : s.buf.ringStart ≤ s.readCursor) :
    isCutOff s.next.bytes = isCutOff s.heldBack := by
  have hlookback : LOOKBACK < PTY_READ_MAX := by decide
  rw [next_bytes hstart]
  by_cases hle : s.heldBack.length ≤ PTY_READ_MAX
  · rw [List.take_of_length_le hle]
  · have hlong (b : List UInt8) (hb : PTY_READ_MAX ≤ b.length) : isCutOff b = false := by
      by_contra hcut
      have := length_le_of_isCutOff (Bool.not_eq_false _ ▸ hcut)
      omega
    rw [hlong _ (by rw [List.length_take]; omega), hlong _ (by omega)]

/-- **A read with bytes to come moves the cursor unless the session is stuck.** -/
theorem readCursor_lt_advance_iff (hstart : s.buf.ringStart ≤ s.readCursor)
    (hmore : s.readCursor < s.buf.totalWritten) :
    s.readCursor < s.advance.readCursor ↔ s.stuck = false := by
  have hleft : 0 < s.heldBack.length := by
    rw [length_heldBack hstart]
    omega
  have hpage : 0 < s.next.bytes.length := by
    have hmax : 0 < PTY_READ_MAX := by decide
    rw [next_bytes hstart, List.length_take]
    omega
  have hcut : cut s.next.bytes = 0 ↔ isCutOff s.heldBack = true := by
    rw [cut_eq_zero_iff (List.length_pos_iff.mp hpage), isCutOff_next_bytes hstart]
  rw [readCursor_advance hstart, stuck]
  rcases hexited : s.exited with _ | _
  · rw [keep_of_running hexited, Option.isNone_none, Bool.true_and, Bool.eq_false_iff, Ne, ← hcut]
    omega
  -- the last page goes out whole, and a page before it is too long to be held back
  simp only [Option.isNone_some, Bool.false_and, iff_true]
  have hnext : s.next.cursor = s.readCursor + s.next.bytes.length :=
    (s.buf.readAt_spec hstart PTY_READ_MAX).2
  simp only [keep, hexited, Option.isSome_some, Bool.true_and, decide_eq_true_eq]
  split
  · omega
  next hend =>
  have hlookback : LOOKBACK < PTY_READ_MAX := by decide
  have hlong : LOOKBACK < s.next.bytes.length := by
    have hlen := congrArg List.length (next_bytes hstart)
    rw [List.length_take, length_heldBack hstart] at hlen
    omega
  have hpos : cut s.next.bytes ≠ 0 := by
    rw [Ne, cut_eq_zero_iff (List.length_pos_iff.mp hpage)]
    intro h
    have := length_le_of_isCutOff h
    omega
  change s.readCursor < s.readCursor + cut s.next.bytes
  omega

/-! ### Reading on -/

/-- A caller that reads while there is more, and the shell's exit. -/
inductive QuietOp
  | read
  | exit (code : Int)

/-- A step with no output: a read is only made while bytes are left. -/
def quietStep (s : PtySession) : QuietOp → Option PtySession
  | .read => if s.readCursor < s.buf.totalWritten then some s.advance else none
  | .exit code => some (s.later (some code))

/-- The read of a session that is not stuck. -/
def unstuck (s : PtySession) : QuietOp → Prop
  | .read => s.stuck = false
  | .exit _ => True

def reads (ops : List QuietOp) : Nat := ops.countP fun op => match op with
  | .read => true
  | .exit _ => false

theorem reads_le {t : PtySession} {ops : List QuietOp} (hstart : s.buf.ringStart ≤ s.readCursor)
    (h : Run (Guarded (Steps quietStep) unstuck) s ops t) :
    t.buf = s.buf ∧ s.readCursor + reads ops ≤ t.readCursor := by
  refine h.invariant (I := fun ops t => t.buf = s.buf ∧ s.readCursor + reads ops ≤ t.readCursor)
    ⟨rfl, Nat.le_refl _⟩ ?_
  rintro ops t op u - ⟨hbuf, hle⟩ ⟨hstep, hok⟩
  rw [reads, List.countP_append, List.countP_singleton]
  cases op with
  | read =>
    simp only [Steps, quietStep] at hstep
    split at hstep
    · next hmore =>
      obtain rfl := Option.some.inj hstep
      have hin : t.buf.ringStart ≤ t.readCursor := by
        rw [hbuf]
        omega
      have hmoves := (readCursor_lt_advance_iff hin hmore).mpr hok
      refine ⟨hbuf, ?_⟩
      change _ + (reads ops + 1) ≤ _
      omega
    · cases hstep
  | exit code =>
    obtain rfl := Option.some.inj hstep
    exact ⟨hbuf, hle⟩

theorem advance_eq_self (h : s.advance.readCursor = s.readCursor) :
    s.advance = s := by
  cases s
  unfold advance at h ⊢
  simp only at h
  simp only [h]

/-- **What `more` promises**: after a read with `more`, and no output since, the next read moves the
cursor exactly when the session is not stuck.  A caller that reads on while there is more, and is
never stuck, makes at most as many calls as bytes are left; a stuck one gets nothing from any number
of calls, and `more` stays true. -/
theorem more_promise_iff {lossy : List UInt8 → List Char} {s : PtySession} {r : PtyRead}
    (h : s.read lossy = .ok r) (hmore : r.more = true) (exited : Option Int) :
    let t := s.advance.later exited
    (t.readCursor < t.advance.readCursor ↔ t.stuck = false) ∧
    (∀ ops u, Run (Guarded (Steps quietStep) unstuck) t ops u →
      reads ops ≤ t.buf.totalWritten - t.readCursor) ∧
    (t.stuck = true → ∀ n, advance^[n] t = t ∧ t.readCursor < t.buf.totalWritten) := by
  intro t
  have hstart : t.buf.ringStart ≤ t.readCursor := s.ringStart_le_readCursor_advance
  have hleft : t.readCursor < t.buf.totalWritten := (read_eq_ok h).2.2.mp hmore
  have hiff := readCursor_lt_advance_iff hstart hleft
  refine ⟨hiff, ?_, ?_⟩
  · intro ops u hrun
    obtain ⟨hbuf, hle⟩ := reads_le hstart hrun
    have hend := u.cursor_le
    rw [hbuf] at hend
    omega
  · intro hstuck n
    have hkept : t.advance.readCursor = t.readCursor := by
      have hnot : ¬ t.readCursor < t.advance.readCursor := by
        rw [hiff, hstuck]
        exact Bool.false_ne_true.symm
      have := readCursor_advance hstart
      omega
    exact ⟨Function.iterate_fixed (advance_eq_self hkept) n, hleft⟩

end PtySession

/-- A shell that wrote two letters and the start of a colour. -/
def halfColour : PtySession := PtySession.new.output [0x61, 0x62, 0x1B, 0x5B]

theorem PtySession.more_promise_iff_halfColour :
    ∃ r, halfColour.read fromUtf8Lossy = .ok r ∧ r.more = true ∧
      let t := halfColour.advance.later (some 0)
      (t.readCursor < t.advance.readCursor ↔ t.stuck = false) ∧
      (∀ ops u, Run (Guarded (Steps quietStep) unstuck) t ops u →
        reads ops ≤ t.buf.totalWritten - t.readCursor) ∧
      (t.stuck = true → ∀ n, advance^[n] t = t ∧ t.readCursor < t.buf.totalWritten) := by
  obtain ⟨r, hr, hmore⟩ : ∃ r, halfColour.read fromUtf8Lossy = .ok r ∧ r.more = true :=
    ⟨_, rfl, rfl⟩
  exact ⟨r, hr, hmore, more_promise_iff hr hmore (some 0)⟩

/-- **`more` breaks its promise**: the shell has written `ab ESC [` and runs on.  The first read
returns `ab` with `more`, and no read after it moves the cursor. -/
theorem more_never_ends :
    ∃ r, halfColour.read fromUtf8Lossy = .ok r ∧ r.content = ['a', 'b'] ∧ r.more = true ∧
      halfColour.advance.readCursor = 2 ∧ halfColour.buf.totalWritten = 4 ∧
      ∀ n, PtySession.advance^[n] halfColour.advance = halfColour.advance := by
  refine ⟨_, rfl, rfl, rfl, rfl, rfl, fun n => ?_⟩
  exact Function.iterate_fixed (PtySession.advance_eq_self rfl) n

end Zyris.Terminal
