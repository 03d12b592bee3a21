import Zyris.Lib.History
import Zyris.Terminal.Readers

/-!
# The ring is a window on the output

What a reader gets through its cursor is what it would get from the whole output (`historyRead`),
and its cursor never lies past the end, so no subtraction of `read_at` goes below zero.
-/

namespace Zyris.Terminal

open History

/-- The read on everything written: up to `max` bytes from the cursor, or from the start of the
window. -/
def historyRead (cap : Nat) (output : List UInt8) (cursor max : Nat) : OutputBuffer.ReadAt :=
  let first := Nat.max cursor (start cap output)
  let n := min max (output.length - first)
  { bytes := (output.drop first).take n
    dropped := start cap output - cursor
    cursor := first + n }

namespace OutputBuffer

variable {b : OutputBuffer} {output : List UInt8}

/-- The ring holds the last bytes of the output. -/
structure Holds (b : OutputBuffer) (output : List UInt8) : Prop where
  ring : b.ring = window b.cap output
  total : b.totalWritten = output.length

theorem holds_new (cap : Nat) : (new cap).Holds [] := by
  constructor
  · rw [window_of_length_le (Nat.zero_le _)]
    rfl
  · rfl

theorem pushed_eq (b : OutputBuffer) (bytes : List UInt8) :
    b.pushed bytes = window b.cap (b.ring ++ window b.cap bytes) := by
  have htail : (if b.cap < bytes.length then bytes.drop (bytes.length - b.cap) else bytes) =
      window b.cap bytes := by
    split_ifs with hbig
    · rfl
    · exact (window_of_length_le (Nat.not_lt.mp hbig)).symm
  unfold pushed
  rw [htail]
  rfl

theorem Holds.push (h : b.Holds output) (bytes : List UInt8) :
    (b.push bytes).Holds (output ++ bytes) := by
  constructor
  · show b.pushed bytes = window b.cap (output ++ bytes)
    rw [pushed_eq, h.ring, window_append_window]
  · show b.totalWritten + bytes.length = (output ++ bytes).length
    rw [h.total, List.length_append]

theorem Holds.length_ring (h : b.Holds output) : b.ring.length = min b.cap output.length := by
  rw [h.ring, length_window]

theorem Holds.ringStart (h : b.Holds output) : b.ringStart = start b.cap output := by
  rw [OutputBuffer.ringStart, h.total, h.length_ring, start]

theorem Holds.drop_ring (h : b.Holds output) (off : Nat) :
    b.ring.drop off = output.drop (start b.cap output + off) := by
  rw [h.ring, window_eq_drop, List.drop_drop]

/-- **One read**: it is the read on the whole output. -/
theorem Holds.readAt (h : b.Holds output) (cursor max : Nat) :
    b.readAt cursor max = historyRead b.cap output cursor max := by
  have hlen := h.length_ring
  have hstart : start b.cap output = output.length - min b.cap output.length := rfl
  have hfirst : (if 0 < start b.cap output - cursor then start b.cap output else cursor) =
      Nat.max cursor (start b.cap output) := by
    split_ifs with hlost
    · exact (Nat.max_eq_right (by omega)).symm
    · exact (Nat.max_eq_left (by omega)).symm
  have hle : start b.cap output ≤ Nat.max cursor (start b.cap output) := Nat.le_max_right _ _
  unfold OutputBuffer.readAt historyRead
  simp only [h.ringStart, hfirst, h.drop_ring, hlen]
  have hoff : start b.cap output +
      (Nat.max cursor (start b.cap output) - start b.cap output) =
      Nat.max cursor (start b.cap output) := by omega
  have hn : min (min b.cap output.length -
      (Nat.max cursor (start b.cap output) - start b.cap output)) max =
      min max (output.length - Nat.max cursor (start b.cap output)) := by omega
  rw [hoff, hn]

/-- No subtraction goes below zero while the cursor is not past the end. -/
theorem readAtChecked_eq {cursor : Nat} (h : cursor ≤ b.totalWritten) (max : Nat) :
    b.readAtChecked cursor max = .ok (b.readAt cursor max) := by
  have hring := b.ring_le_total
  have hstart : b.totalWritten - b.ring.length ≤
      (if 0 < b.totalWritten - b.ring.length - cursor then b.totalWritten - b.ring.length
        else cursor) := by
    split_ifs <;> omega
  have hoff : (if 0 < b.totalWritten - b.ring.length - cursor then b.totalWritten - b.ring.length
        else cursor) - (b.totalWritten - b.ring.length) ≤ b.ring.length := by
    split_ifs <;> omega
  simp only [readAtChecked, checkedSub, if_pos hring, if_pos hstart, if_pos hoff, bind,
    Except.bind]
  rfl

end OutputBuffer

/-! ### What a read delivers -/

section HistoryRead

variable (cap : Nat) (output : List UInt8) {cursor : Nat} (max : Nat)

theorem historyRead_dropped (cursor : Nat) : cursor + (historyRead cap output cursor max).dropped =
    Nat.max cursor (start cap output) := by
  show cursor + (start cap output - cursor) = _
  have := Nat.le_max_left cursor (start cap output)
  rcases Nat.le_total cursor (start cap output) with h | h
  · rw [show Nat.max cursor (start cap output) = start cap output from Nat.max_eq_right h]
    omega
  · rw [show Nat.max cursor (start cap output) = cursor from Nat.max_eq_left h]
    omega

theorem historyRead_length (cursor : Nat) : (historyRead cap output cursor max).bytes.length =
    min max (output.length - Nat.max cursor (start cap output)) := by
  show ((output.drop _).take _).length = _
  rw [List.length_take, List.length_drop]
  omega

theorem historyRead_cursor (cursor : Nat) : (historyRead cap output cursor max).cursor =
    cursor + (historyRead cap output cursor max).dropped +
      (historyRead cap output cursor max).bytes.length := by
  rw [historyRead_dropped, historyRead_length]
  rfl

theorem historyRead_cursor_le (h : cursor ≤ output.length) :
    (historyRead cap output cursor max).cursor ≤ output.length := by
  have hstart : start cap output ≤ output.length := Nat.sub_le _ _
  have hmax : Nat.max cursor (start cap output) ≤ output.length := Nat.max_le.mpr ⟨h, hstart⟩
  rw [historyRead_cursor, historyRead_dropped, historyRead_length]
  omega

end HistoryRead

/-! ### Whole runs -/

def RingAct.bytes : RingAct → List UInt8
  | .push bytes => bytes
  | _ => []

/-- Where the reader starts that a step attaches. -/
def RingAct.attaches : RingAct → List Nat
  | .attach cursor => [cursor]
  | _ => []

/-- What a step delivers to a reader. -/
def delivers (i : Nat) : RingAct × RingResult → List (Delivery UInt8)
  | (.read j _ keep, .got out) => if j = i then [⟨out.dropped, out.bytes.take keep⟩] else []
  | _ => []

/-- The step is no read of another reader. -/
def RingAct.isOwn (i : Nat) : RingAct → Bool
  | .read j _ _ => j = i
  | _ => true

namespace Readers

variable {r r' : Readers} {l : RingAct × RingResult} {ls : List (RingAct × RingResult)}
  {cap : Nat}

def output (ls : List (RingAct × RingResult)) : List UInt8 := ls.flatMap (·.1.bytes)

def attached (ls : List (RingAct × RingResult)) : List Nat := ls.flatMap (·.1.attaches)

def deliveries (i : Nat) (ls : List (RingAct × RingResult)) : List (Delivery UInt8) :=
  ls.flatMap (delivers i)

theorem output_snoc (ls : List (RingAct × RingResult)) (l : RingAct × RingResult) :
    output (ls ++ [l]) = output ls ++ l.1.bytes := by
  rw [output, List.flatMap_append, List.flatMap_singleton]
  rfl

theorem attached_snoc (ls : List (RingAct × RingResult)) (l : RingAct × RingResult) :
    attached (ls ++ [l]) = attached ls ++ l.1.attaches := by
  rw [attached, List.flatMap_append, List.flatMap_singleton]
  rfl

theorem deliveries_snoc (i : Nat) (ls : List (RingAct × RingResult)) (l : RingAct × RingResult) :
    deliveries i (ls ++ [l]) = deliveries i ls ++ delivers i l := by
  rw [deliveries, List.flatMap_append, List.flatMap_singleton]
  rfl

theorem output_snoc_of_nil (h : l.1.bytes = []) : output (ls ++ [l]) = output ls := by
  rw [output_snoc, h, List.append_nil]

theorem attached_snoc_of_nil (h : l.1.attaches = []) : attached (ls ++ [l]) = attached ls := by
  rw [attached_snoc, h, List.append_nil]

theorem deliveries_snoc_of_nil {i : Nat} (h : delivers i l = []) :
    deliveries i (ls ++ [l]) = deliveries i ls := by
  rw [deliveries_snoc, h, List.append_nil]

inductive Does (r : Readers) : RingAct × RingResult → Readers → Prop
  | pushed (bytes : List UInt8) :
    Does r (.push bytes, .done) { r with buf := r.buf.push bytes }
  | attached (cursor : Nat) : cursor ≤ r.buf.totalWritten →
    Does r (.attach cursor, .done) { r with cursors := r.cursors.alloc cursor }
  | got (i max keep cursor : Nat) (out : OutputBuffer.ReadAt) : r.cursors.get i = some cursor →
    r.buf.readAtChecked cursor max = .ok out → keep ≤ out.bytes.length →
    Does r (.read i max keep, .got out)
      { r with
        cursors := r.cursors.update i fun _ => out.cursor - (out.bytes.length - keep) }
  | panicked (i max keep cursor : Nat) (e : Fault) : r.cursors.get i = some cursor →
    r.buf.readAtChecked cursor max = .error e → Does r (.read i max keep, .panicked) r

theorem Performs.does (h : r.Performs l r') : r.Does l r' := by
  obtain ⟨a, res⟩ := l
  unfold Performs step at h
  cases a with
  | push bytes =>
    cases h
    exact .pushed bytes
  | attach cursor =>
    dsimp only at h
    split_ifs at h with hle
    cases h
    exact .attached cursor hle
  | read i max keep =>
    obtain ⟨cursor, hcursor, h⟩ := Option.bind_eq_some_iff.mp h
    rcases hread : r.buf.readAtChecked cursor max with e | out <;> rw [hread] at h
    · cases h
      exact .panicked i max keep cursor e hcursor hread
    dsimp only at h
    split_ifs at h with hkeep
    cases h
    exact .got i max keep cursor out hcursor hread hkeep

theorem Does.performs (h : r.Does l r') : r.Performs l r' := by
  cases h with
  | pushed => rfl
  | attached cursor hle => simp [Performs, step, hle]
  | got i max keep c out hc hread hkeep => simp [Performs, step, hc, hread, hkeep]
  | panicked i max keep c e hc hread => simp [Performs, step, hc, hread]

/-- What holds of the ring and the readers after the steps `ls`. -/
structure Tracked (cap : Nat) (ls : List (RingAct × RingResult)) (r : Readers) : Prop where
  cap_eq : r.buf.cap = cap
  holds : r.buf.Holds (output ls)
  quiet : ∀ l ∈ ls, l.2 ≠ .panicked
  size_eq : r.cursors.size = (attached ls).length
  idle : ∀ i, r.cursors.size ≤ i → deliveries i ls = []
  cursor_le : ∀ i c, r.cursors.get i = some c → c ≤ (output ls).length
  accounts : ∀ i c₀ c, (attached ls)[i]? = some c₀ → r.cursors.get i = some c →
    Accounts (output ls) c₀ (deliveries i ls) c

namespace Tracked

theorem start (cap : Nat) : Tracked cap [] (.new cap) where
  cap_eq := rfl
  holds := OutputBuffer.holds_new cap
  quiet l hl := by cases hl
  size_eq := rfl
  idle i _ := rfl
  cursor_le i c hc := by cases hc
  accounts i c₀ c hc₀ := by cases hc₀

theorem read (h : Tracked cap ls r) {i c : Nat} (hc : r.cursors.get i = some c) (max : Nat) :
    r.buf.readAtChecked c max = .ok (historyRead cap (output ls) c max) := by
  have hle := h.cursor_le i c hc
  rw [← h.holds.total] at hle
  rw [OutputBuffer.readAtChecked_eq hle, h.holds.readAt, h.cap_eq]

theorem quiet_snoc (h : Tracked cap ls r) (hl : l.2 ≠ .panicked) :
    ∀ l' ∈ ls ++ [l], l'.2 ≠ .panicked := by
  intro l' hl'
  rcases List.mem_append.mp hl' with hl' | hl'
  · exact h.quiet l' hl'
  · rwa [List.mem_singleton.mp hl']

theorem push (h : Tracked cap ls r) (bytes : List UInt8) :
    Tracked cap (ls ++ [(.push bytes, .done)]) { r with buf := r.buf.push bytes } := by
  have hatt : attached (ls ++ [(.push bytes, .done)]) = attached ls := attached_snoc_of_nil rfl
  have hdel (i : Nat) : deliveries i (ls ++ [(.push bytes, .done)]) = deliveries i ls :=
    deliveries_snoc_of_nil rfl
  refine ⟨h.cap_eq, ?_, h.quiet_snoc (by simp), ?_, fun i hi => ?_, fun i c hc => ?_,
    fun i c₀ c hc₀ hc => ?_⟩
  · rw [output_snoc]
    exact h.holds.push bytes
  · rw [hatt]
    exact h.size_eq
  · rw [hdel]
    exact h.idle i hi
  · rw [output_snoc, List.length_append]
    exact Nat.le_add_right_of_le (h.cursor_le i c hc)
  · rw [output_snoc, hdel]
    rw [hatt] at hc₀
    exact (h.accounts i c₀ c hc₀ hc).mono (List.prefix_append _ _)

theorem attach (h : Tracked cap ls r) {cursor : Nat} (hle : cursor ≤ r.buf.totalWritten) :
    Tracked cap (ls ++ [(.attach cursor, .done)])
      { r with cursors := r.cursors.alloc cursor } := by
  have hout : output (ls ++ [(.attach cursor, .done)]) = output ls := output_snoc_of_nil rfl
  have hdel (i : Nat) : deliveries i (ls ++ [(.attach cursor, .done)]) = deliveries i ls :=
    deliveries_snoc_of_nil rfl
  have hatt : attached (ls ++ [(.attach cursor, .done)]) = attached ls ++ [cursor] :=
    attached_snoc ls _
  refine ⟨h.cap_eq, ?_, h.quiet_snoc (by simp), ?_, fun i hi => ?_, fun i c hc => ?_,
    fun i c₀ c hc₀ hc => ?_⟩
  · rw [hout]
    exact h.holds
  · rw [hatt, Arena.size_alloc, List.length_append, h.size_eq]
    rfl
  · rw [hdel]
    rw [Arena.size_alloc] at hi
    exact h.idle i (by omega)
  · rw [hout]
    rcases Arena.get_alloc_cases hc with ⟨-, rfl⟩ | hc
    · exact h.holds.total ▸ hle
    · exact h.cursor_le i c hc
  · rw [hout, hdel]
    rw [hatt] at hc₀
    rcases Arena.get_alloc_cases hc with ⟨rfl, rfl⟩ | hc
    · -- the new reader has been delivered nothing
      rw [h.size_eq, List.getElem?_concat_length] at hc₀
      rw [h.idle _ (Nat.le_refl _)]
      exact (Option.some.inj hc₀).symm
    · have hi : i < (attached ls).length := h.size_eq ▸ Arena.lt_size_of_get hc
      rw [List.getElem?_append_left hi] at hc₀
      exact h.accounts i c₀ c hc₀ hc

theorem cursor_after (cap : Nat) (output : List UInt8) (c max : Nat) {keep : Nat}
    (hkeep : keep ≤ (historyRead cap output c max).bytes.length) :
    (historyRead cap output c max).cursor -
        ((historyRead cap output c max).bytes.length - keep) =
      c + (historyRead cap output c max).dropped +
        ((historyRead cap output c max).bytes.take keep).length := by
  rw [historyRead_cursor, List.length_take, Nat.min_eq_left hkeep]
  omega

theorem got (h : Tracked cap ls r) {i max keep c : Nat} (hc : r.cursors.get i = some c)
    (hkeep : keep ≤ (historyRead cap (output ls) c max).bytes.length) :
    Tracked cap (ls ++ [(.read i max keep, .got (historyRead cap (output ls) c max))])
      { r with cursors := r.cursors.update i fun _ =>
          (historyRead cap (output ls) c max).cursor -
            ((historyRead cap (output ls) c max).bytes.length - keep) } := by
  rw [cursor_after cap (output ls) c max hkeep]
  generalize hl : (RingAct.read i max keep, RingResult.got (historyRead cap (output ls) c max)) = l
  have hout : output (ls ++ [l]) = output ls := output_snoc_of_nil (by rw [← hl]; rfl)
  have hatt : attached (ls ++ [l]) = attached ls := attached_snoc_of_nil (by rw [← hl]; rfl)
  have hother {j : Nat} (hj : j ≠ i) : deliveries j (ls ++ [l]) = deliveries j ls :=
    deliveries_snoc_of_nil (by rw [← hl]; exact if_neg hj.symm)
  have hown : deliveries i (ls ++ [l]) = deliveries i ls ++
      [⟨(historyRead cap (output ls) c max).dropped,
        (historyRead cap (output ls) c max).bytes.take keep⟩] := by
    rw [deliveries_snoc, ← hl]
    exact congrArg _ (if_pos rfl)
  refine ⟨h.cap_eq, ?_, h.quiet_snoc (by rw [← hl]; simp), ?_, fun j hj => ?_, fun j d hd => ?_,
    fun j c₀ d hc₀ hd => ?_⟩
  · rw [hout]
    exact h.holds
  · rw [hatt, Arena.size_update]
    exact h.size_eq
  · rw [Arena.size_update] at hj
    have hne : j ≠ i := by
      have := Arena.lt_size_of_get hc
      omega
    rw [hother hne]
    exact h.idle j hj
  · rw [hout]
    rcases Arena.get_update_cases hd with ⟨rfl, _, _, rfl⟩ | ⟨-, hd⟩
    · have hle := historyRead_cursor_le cap (output ls) max (h.cursor_le j c hc)
      rw [historyRead_cursor] at hle
      rw [List.length_take]
      omega
    · exact h.cursor_le j d hd
  · rw [hatt] at hc₀
    rw [hout]
    rcases Arena.get_update_cases hd with ⟨rfl, _, _, rfl⟩ | ⟨hne, hd⟩
    · rw [hown]
      refine (h.accounts j c₀ c hc₀ hc).snoc ((List.take_prefix _ _).trans ?_)
      rw [historyRead_dropped]
      exact List.take_prefix _ _
    · rw [hother hne]
      exact h.accounts j c₀ d hc₀ hd

theorem step (h : Tracked cap ls r) (hstep : r.Performs l r') : Tracked cap (ls ++ [l]) r' := by
  cases hstep.does with
  | pushed bytes => exact h.push bytes
  | attached cursor hle => exact h.attach hle
  | got i max keep c out hc hread hkeep =>
    rw [h.read hc] at hread
    cases hread
    exact h.got hc hkeep
  | panicked i max keep c e hc hread =>
    rw [h.read hc] at hread
    cases hread

end Tracked

/-! ### One reader and the others -/

/-- The two rings are the same, and the reader `i` stands at the same cursor. -/
structure SameFor (i : Nat) (r r' : Readers) : Prop where
  buf : r'.buf = r.buf
  size : r'.cursors.size = r.cursors.size
  cursor : r'.cursors.get i = r.cursors.get i

theorem SameFor.other {i : Nat} {s : Readers} (h : SameFor i r s) (hstep : r.Performs l r')
    (hl : l.1.isOwn i = false) : SameFor i r' s := by
  cases hstep.does with
  | pushed bytes => cases hl
  | attached cursor _ => cases hl
  | got j max keep c out hc hread hkeep =>
    have hne : i ≠ j := fun hij => of_decide_eq_false hl hij.symm
    refine ⟨h.buf, ?_, ?_⟩
    · rw [h.size, Arena.size_update]
    · rw [h.cursor, Arena.get_update, if_neg hne]
  | panicked => exact h

theorem SameFor.own {i : Nat} {s : Readers} (h : SameFor i r s) (hstep : r.Performs l r')
    (hl : l.1.isOwn i = true) : ∃ s', s.Performs l s' ∧ SameFor i r' s' := by
  cases hstep.does with
  | pushed bytes =>
    refine ⟨_, (Does.pushed bytes).performs, ?_, h.size, h.cursor⟩
    show s.buf.push bytes = r.buf.push bytes
    rw [h.buf]
  | attached cursor hle =>
    rw [← h.buf] at hle
    refine ⟨_, (Does.attached cursor hle).performs, h.buf, ?_, ?_⟩
    · rw [Arena.size_alloc, Arena.size_alloc, h.size]
    · rw [Arena.get_alloc, Arena.get_alloc, h.size, h.cursor]
  | got j max keep c out hc hread hkeep =>
    obtain rfl : j = i := of_decide_eq_true hl
    have hc' := h.cursor.trans hc
    rw [← h.buf] at hread
    refine ⟨_, (Does.got j max keep c out hc' hread hkeep).performs, h.buf, ?_, ?_⟩
    · rw [Arena.size_update, Arena.size_update, h.size]
    · rw [Arena.get_update_self hc', Arena.get_update_self hc]
  | panicked j max keep c e hc hread =>
    obtain rfl : j = i := of_decide_eq_true hl
    have hc' := h.cursor.trans hc
    rw [← h.buf] at hread
    exact ⟨s, (Does.panicked j max keep c e hc' hread).performs, h⟩

theorem run_isOwn (i : Nat) (h : Run Performs (new cap) ls r) :
    ∃ s, Run Performs (new cap) (ls.filter fun l => l.1.isOwn i) s ∧ SameFor i r s := by
  refine h.invariant
    (I := fun ls r => ∃ s, Run Performs (new cap) (ls.filter fun l => l.1.isOwn i) s ∧
      SameFor i r s) ⟨_, .nil, rfl, rfl, rfl⟩ ?_
  rintro ls r l r' - ⟨s, hrun, hsame⟩ hstep
  rw [List.filter_append]
  rcases hl : l.1.isOwn i with _ | _
  · have hfilter : [l].filter (fun l => l.1.isOwn i) = [] := by simp [hl]
    rw [hfilter, List.append_nil]
    exact ⟨s, hrun, hsame.other hstep hl⟩
  obtain ⟨s', hs', hsame'⟩ := hsame.own hstep hl
  have hfilter : [l].filter (fun l => l.1.isOwn i) = [l] := by simp [hl]
  rw [hfilter]
  exact ⟨s', hrun.snoc hs', hsame'⟩

end Readers

open Readers in
/-- **The ring refines the history.**  After any pushes, attachments and reads the ring holds the
last bytes of all that was pushed; no read has panicked; a read from any reader's cursor gives what
the same read of the whole output would; what a reader was delivered and told was dropped account
for the output from its start to its cursor; and the same happens to it when the other readers do
not read at all. -/
theorem ring_refines_history {cap : Nat} {ls : List (RingAct × RingResult)} {r : Readers}
    (h : Run Readers.Performs (.new cap) ls r) :
    r.buf.ring = (output ls).drop ((output ls).length - min cap (output ls).length) ∧
    r.buf.totalWritten = (output ls).length ∧
    (∀ l ∈ ls, l.2 ≠ .panicked) ∧
    (∀ i c max, r.cursors.get i = some c →
      r.buf.readAtChecked c max = .ok (historyRead cap (output ls) c max)) ∧
    (∀ i c₀, (attached ls)[i]? = some c₀ → ∃ c, r.cursors.get i = some c ∧
      c ≤ (output ls).length ∧ Accounts (output ls) c₀ (deliveries i ls) c) ∧
    ∀ i, ∃ r', Run Readers.Performs (.new cap) (ls.filter fun l => l.1.isOwn i) r' ∧
      r'.buf = r.buf ∧ r'.cursors.get i = r.cursors.get i := by
  have ht : Tracked cap ls r :=
    h.invariant (I := Tracked cap) (.start cap) fun _ _ _ _ _ hi hstep => hi.step hstep
  refine ⟨?_, ht.holds.total, ht.quiet, fun i c max hc => ht.read hc max, fun i c₀ hc₀ => ?_,
    fun i => ?_⟩
  · rw [ht.holds.ring, ht.cap_eq]
    exact window_eq_drop cap (output ls)
  · have hi : i < r.cursors.size := by
      rw [ht.size_eq]
      exact (List.getElem?_eq_some_iff.mp hc₀).1
    obtain ⟨c, hc⟩ : ∃ c, r.cursors.get i = some c := ⟨_, List.getElem?_eq_getElem hi⟩
    exact ⟨c, hc, ht.cursor_le i c hc, ht.accounts i c₀ c hc₀ hc⟩
  · obtain ⟨r', hrun, hsame⟩ := run_isOwn i h
    exact ⟨r', hrun, hsame.buf, hsame.cursor⟩

/-- Three bytes go through a ring of two; one reader comes too late for the first of them. -/
def threeThroughTwo : List (RingAct × RingResult) :=
  [(.attach 0, .done), (.push [1], .done), (.attach 1, .done), (.push [2, 3], .done),
    (.read 0 1 1, .got ⟨[2], 1, 2⟩), (.read 1 8 1, .got ⟨[2, 3], 0, 3⟩)]

theorem ring_refines_history_threeThroughTwo : ∃ r,
    Run Readers.Performs (.new 2) threeThroughTwo r ∧ r.buf.ring = [2, 3] ∧
    ∃ c, r.cursors.get 0 = some c ∧ c ≤ 3 ∧
      Accounts ([1, 2, 3] : List UInt8) 0 [⟨1, [2]⟩] c := by
  obtain ⟨r, hrun⟩ : ∃ r, Run Readers.Performs (.new 2) threeThroughTwo r :=
    ⟨_, .cons rfl (.cons rfl (.cons rfl (.cons rfl (.cons rfl (.cons rfl .nil)))))⟩
  obtain ⟨hring, -, -, -, haccounts, -⟩ := ring_refines_history hrun
  exact ⟨r, hrun, hring, haccounts 0 0 rfl⟩

end Zyris.Terminal
