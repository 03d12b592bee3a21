import Zyris.Terminal.Equiv.Ring
import Zyris.Terminal.Stream

/-!
# What an output stream yields

The stream throws the count of the dropped bytes away.  As long as each poll finds its cursor in the
ring (`Streaming.KeepsUp`), what it has yielded is the output up to its cursor.  A consumer that
falls behind is handed later bytes as if they were the next ones (`stream_skips`).
-/

namespace Zyris.Terminal

open History

/-- The bytes the thread has read in a step. -/
def StreamAct.copies : StreamAct → List UInt8
  | .copy bytes => bytes
  | _ => []

namespace Streaming

variable {lossy : List UInt8 → List Char} {id : String} {st st' : Streaming}
  {l : StreamAct × Option (List UInt8)} {ls : List (StreamAct × Option (List UInt8))}

def copied (ls : List (StreamAct × Option (List UInt8))) : List UInt8 := ls.flatMap (·.1.copies)

/-- The chunks of the stream, one after the other. -/
def yielded (ls : List (StreamAct × Option (List UInt8))) : List UInt8 := ls.flatMap (·.2.getD [])

theorem copied_snoc (ls : List (StreamAct × Option (List UInt8)))
    (l : StreamAct × Option (List UInt8)) : copied (ls ++ [l]) = copied ls ++ l.1.copies := by
  rw [copied, List.flatMap_append, List.flatMap_singleton]
  rfl

theorem yielded_snoc (ls : List (StreamAct × Option (List UInt8)))
    (l : StreamAct × Option (List UInt8)) : yielded (ls ++ [l]) = yielded ls ++ l.2.getD [] := by
  rw [yielded, List.flatMap_append, List.flatMap_singleton]
  rfl

/-- A poll finds the stream's cursor in the ring. -/
def KeepsUp (id : String) (st : Streaming) (l : StreamAct × Option (List UInt8)) : Prop :=
  l.1 = .poll → ∀ c s, st.stream = .walking c → st.term.sessions.get id = some s →
    s.buf.ringStart ≤ c

/-! ### The session under the steps of others -/

/-- The session is gone, or has the output and the exit code it had. -/
def Keeps (id : String) (t t' : PtyTerminal) : Prop :=
  (t.poisoned = true → t'.poisoned = true) ∧ ∀ s', t'.sessions.get id = some s' →
    ∃ s, t.sessions.get id = some s ∧ s'.buf = s.buf ∧ s'.exited = s.exited

theorem keeps_refl (id : String) (t : PtyTerminal) : Keeps id t t :=
  ⟨fun h => h, fun s hs => ⟨s, hs, rfl, rfl⟩⟩

variable {t : PtyTerminal} {i : String} {op : TermOp}

theorem keeps_insert (hi : i ≠ id) (s : PtySession) :
    Keeps id t { t with sessions := t.sessions.insert i s } := by
  refine ⟨fun h => h, fun s' hs' => ⟨s', ?_, rfl, rfl⟩⟩
  rwa [Table.get_insert, if_neg (Ne.symm hi)] at hs'

theorem keeps_advance {s : PtySession} (hs : t.sessions.get i = some s) (poisoned : Bool)
    (hp : t.poisoned = false) : Keeps id t ⟨t.sessions.insert i s.advance, poisoned⟩ := by
  refine ⟨fun h => ?_, fun s' hs' => ?_⟩
  · rw [hp] at h
    cases h
  · rcases Table.get_insert_cases hs' with ⟨rfl, rfl⟩ | ⟨-, hold⟩
    · exact ⟨s, hs, rfl, rfl⟩
    · exact ⟨s', hold, rfl, rfl⟩

theorem keeps_step (h : op.isForeign id = true) (t : PtyTerminal) :
    Keeps id t (t.step lossy op).1 := by
  unfold PtyTerminal.step
  split_ifs with hp
  · exact keeps_refl id t
  have hp' : t.poisoned = false := Bool.eq_false_iff.mpr hp
  cases op with
  | spawn i => exact keeps_insert (of_decide_eq_true h) _
  | output i bytes | exit i code =>
    cases hs : t.sessions.get i with
    | none => simpa only [hs] using keeps_refl id t
    | some s => simpa only [hs] using keeps_insert (of_decide_eq_true h) _
  | read i =>
    cases hs : t.sessions.get i with
    | none => simpa only [hs] using keeps_refl id t
    | some s =>
      cases hr : s.read lossy with
      | ok r => simpa only [hs, hr] using keeps_advance hs _ hp'
      | error e => simpa only [hs, hr] using keeps_advance hs true hp'
  | close i =>
    refine ⟨fun h => h, fun s' hs' => ⟨s', ?_, rfl, rfl⟩⟩
    exact (Table.get_of_get_remove hs').2

theorem poisoned_step (h : t.poisoned = true) : (t.step lossy op).1.poisoned = true := by
  rw [PtyTerminal.step.eq_def, if_pos h]
  exact h

theorem own_cases (f : PtySession → PtySession)
    (hop : t.poisoned = false →
      (t.step lossy op).1 =
      (t.sessions.get id).elim t fun s => { t with sessions := t.sessions.insert id (f s) }) :
    (t.step lossy op).1.poisoned = true ∨
    (∃ s, t.sessions.get id = some s ∧ (t.step lossy op).1.sessions.get id = some (f s)) ∨
    (t.step lossy op).1.sessions.get id = none := by
  cases hp : t.poisoned with
  | true => exact .inl (poisoned_step hp)
  | false =>
    right
    rw [hop hp]
    cases hs : t.sessions.get id with
    | none => exact .inr hs
    | some s =>
      refine .inl ⟨s, rfl, ?_⟩
      show (t.sessions.insert id (f s)).get id = some (f s)
      rw [Table.get_insert, if_pos rfl]

theorem step_output (h : t.poisoned = false) (bytes : List UInt8) :
    (t.step lossy (.output id bytes)).1 = (t.sessions.get id).elim t fun s =>
      { t with sessions := t.sessions.insert id (s.output bytes) } := by
  simp only [PtyTerminal.step, h, Bool.false_eq_true, if_false]
  cases t.sessions.get id <;> rfl

theorem step_exit (h : t.poisoned = false) (code : Int) :
    (t.step lossy (.exit id code)).1 = (t.sessions.get id).elim t fun s =>
      { t with sessions := t.sessions.insert id { s with exited := some code } } := by
  simp only [PtyTerminal.step, h, Bool.false_eq_true, if_false]
  cases t.sessions.get id <;> rfl

/-! ### One poll -/

theorem readAt_of_keepsUp {b : OutputBuffer} {output : List UInt8} (hb : b.Holds output) {c : Nat}
    (hc : b.ringStart ≤ c) (max : Nat) :
    b.readAt c max =
      ⟨(output.drop c).take (min max (output.length - c)), 0,
        c + min max (output.length - c)⟩ := by
  rw [hb.ringStart] at hc
  have hfirst : Nat.max c (History.start b.cap output) = c := Nat.max_eq_left hc
  have hdropped : History.start b.cap output - c = 0 := Nat.sub_eq_zero_of_le hc
  rw [hb.readAt, historyRead, hfirst, hdropped]

/-! ### Whole runs -/

/-- After the steps `ls` the stream has yielded the output up to its cursor, and the session holds
all of it and tells when no more can come. -/
structure Follows (id : String) (ls : List (StreamAct × Option (List UInt8))) (st : Streaming) :
    Prop where
  isPrefix : yielded ls <+: copied ls
  cursor : ∀ c, st.stream = .walking c →
    yielded ls = (copied ls).take c ∧ c ≤ (copied ls).length
  complete : st.stream = .ended true → yielded ls = copied ls ∧ st.copier = .ended
  session : st.term.poisoned = true ∨ ∀ s, st.term.sessions.get id = some s →
    s.buf.Holds (copied ls) ∧ (s.exited.isSome = true → st.copier = .ended)

namespace Follows

theorem start {t : PtyTerminal} (h : t.sessions.get id = some .new) :
    Follows id [] (.start t) where
  isPrefix := List.nil_prefix
  cursor c hc := by
    cases hc
    exact ⟨rfl, Nat.le_refl 0⟩
  complete hc := by cases hc
  session := by
    right
    intro s hs
    obtain rfl := Option.mem_unique h hs
    exact ⟨OutputBuffer.holds_new _, nofun⟩

theorem quiet (h : Follows id ls st) (hc : l.1.copies = []) (hy : l.2 = none)
    (hstream : st'.stream = st.stream) (hcopier : st.copier = .ended → st'.copier = .ended)
    (hsession : st'.term.poisoned = true ∨ ∀ s, st'.term.sessions.get id = some s →
      s.buf.Holds (copied ls) ∧ (s.exited.isSome = true → st'.copier = .ended)) :
    Follows id (ls ++ [l]) st' := by
  have hcopied : copied (ls ++ [l]) = copied ls := by rw [copied_snoc, hc, List.append_nil]
  have hyielded : yielded (ls ++ [l]) = yielded ls := by
    rw [yielded_snoc, hy]
    exact List.append_nil _
  constructor
  · rw [hcopied, hyielded]
    exact h.isPrefix
  · rw [hcopied, hyielded, hstream]
    exact h.cursor
  · rw [hcopied, hyielded, hstream]
    intro he
    exact ⟨(h.complete he).1, hcopier (h.complete he).2⟩
  · rw [hcopied]
    exact hsession

theorem copy (h : Follows id ls st) (hreading : st.copier = .reading) (bytes : List UInt8) :
    Follows id (ls ++ [(.copy bytes, none)]) (st.copy lossy id bytes) := by
  have hcopied : copied (ls ++ [(.copy bytes, none)]) = copied ls ++ bytes := copied_snoc ls _
  have hyielded : yielded (ls ++ [(.copy bytes, none)]) = yielded ls := by
    rw [yielded_snoc]
    exact List.append_nil _
  have hne : st.copier ≠ .ended := by
    rw [hreading]
    decide
  constructor
  · rw [hcopied, hyielded]
    exact h.isPrefix.trans (List.prefix_append _ _)
  · intro c hc
    obtain ⟨hy, hle⟩ := h.cursor c hc
    rw [hcopied, hyielded, List.take_append_of_le_length hle, List.length_append]
    exact ⟨hy, by omega⟩
  · intro he
    -- the stream has not ended with the shell, whose output is still being read
    exact absurd (h.complete he).2 hne
  · rw [hcopied]
    rcases h.session.symm with hsession | hp
    · rcases own_cases (·.output bytes) (step_output · bytes) with hp | ⟨s₀, hs₀, hget⟩ | hnone
      · exact .inl hp
      · right
        intro s hs
        obtain rfl := Option.mem_unique hget hs
        obtain ⟨hholds, hexited⟩ := hsession s₀ hs₀
        refine ⟨hholds.push bytes, fun he => ?_⟩
        exact absurd (hexited he) hne
      · right
        intro s hs
        cases hnone.symm.trans hs
    · exact .inl (poisoned_step hp)

theorem eof (h : Follows id ls st) (hreading : st.copier = .reading) :
    Follows id (ls ++ [(.eof, none)]) { st with copier := .waiting } := by
  have hne : st.copier ≠ .ended := by
    rw [hreading]
    decide
  refine h.quiet rfl rfl rfl (fun hc => absurd hc hne) (h.session.imp_right fun hs s hget => ?_)
  exact ⟨(hs s hget).1, fun he => absurd ((hs s hget).2 he) hne⟩

theorem waited (h : Follows id ls st) (code : Int) :
    Follows id (ls ++ [(.waited code, none)])
      { st with term := (st.term.step lossy (.exit id code)).1, copier := .ended } := by
  refine h.quiet rfl rfl rfl (fun _ => rfl) ?_
  rcases h.session with hp | hsession
  · exact .inl (poisoned_step hp)
  rcases own_cases ({ · with exited := some code }) (step_exit · code) with
    hp | ⟨s₀, hs₀, hget⟩ | hnone
  · exact .inl hp
  · right
    intro s hs
    obtain rfl := Option.mem_unique hget hs
    exact ⟨(hsession s₀ hs₀).1, fun _ => rfl⟩
  · right
    intro s hs
    cases hnone.symm.trans hs

theorem other (h : Follows id ls st) {op : TermOp} (hop : op.isForeign id = true) :
    Follows id (ls ++ [(.other op, none)])
      { st with term := (st.term.step lossy op).1 } := by
  have hkept : Keeps id st.term (st.term.step lossy op).1 := keeps_step hop st.term
  obtain ⟨hpoisoned, hkeeps⟩ := hkept
  refine h.quiet rfl rfl rfl (fun hc => hc) ?_
  rcases h.session with hp | hsession
  · exact .inl (hpoisoned hp)
  · right
    intro s' hs'
    obtain ⟨s, hs, hbuf, hexited⟩ := hkeeps s' hs'
    rw [hbuf, hexited]
    exact hsession s hs

theorem walked (h : Follows id ls st) {chunk : Option (List UInt8)} {c : Nat}
    (hy : yielded ls ++ chunk.getD [] = (copied ls).take c) (hle : c ≤ (copied ls).length) :
    Follows id (ls ++ [(.poll, chunk)]) { st with stream := .walking c } := by
  have hcopied : copied (ls ++ [(.poll, chunk)]) = copied ls := by
    rw [copied_snoc]
    exact List.append_nil _
  have hyielded : yielded (ls ++ [(.poll, chunk)]) = (copied ls).take c := by
    rw [yielded_snoc]
    exact hy
  constructor
  · rw [hcopied, hyielded]
    exact List.take_prefix _ _
  · intro c' hc'
    cases hc'
    rw [hcopied, hyielded]
    exact ⟨rfl, hle⟩
  · intro he
    cases he
  · rw [hcopied]
    exact h.session

theorem stopped (h : Follows id ls st) {pc : SubscriberPc} (hpc : ∀ c, pc ≠ .walking c)
    (hcomplete : pc = .ended true → yielded ls = copied ls ∧ st.copier = .ended) :
    Follows id (ls ++ [(.poll, none)]) { st with stream := pc } := by
  have hcopied : copied (ls ++ [(.poll, none)]) = copied ls := by
    rw [copied_snoc]
    exact List.append_nil _
  have hyielded : yielded (ls ++ [(.poll, none)]) = yielded ls := by
    rw [yielded_snoc]
    exact List.append_nil _
  constructor
  · rw [hcopied, hyielded]
    exact h.isPrefix
  · intro c hc
    exact absurd hc (hpc c)
  · rw [hcopied, hyielded]
    exact hcomplete
  · rw [hcopied]
    exact h.session

theorem poll (h : Follows id ls st) {c : Nat} (hc : st.stream = .walking c)
    (hup : ∀ s, st.term.sessions.get id = some s → s.buf.ringStart ≤ c) :
    Follows id (ls ++ [(.poll, (Streaming.poll id st.term c).2)])
      { st with stream := (Streaming.poll id st.term c).1 } := by
  obtain ⟨hy, hle⟩ := h.cursor c hc
  unfold Streaming.poll
  split_ifs with hp
  · exact h.stopped (by simp) (by simp)
  rcases hs : st.term.sessions.get id with _ | s
  · exact h.stopped (by simp) (by simp)
  obtain ⟨hholds, hexited⟩ := (h.session.resolve_left hp) s hs
  have hread := readAt_of_keepsUp hholds (hup s hs) STREAM_CHUNK_MAX
  simp only [hread]
  split_ifs with hbytes he
  · -- the next chunk
    refine h.walked ?_ (by omega)
    rw [hy, Option.getD_some, List.take_add]
  · -- nothing is left, and the shell has exited
    refine h.stopped (by simp) fun _ => ⟨?_, hexited he⟩
    have hlen := congrArg List.length (not_not.mp hbytes)
    rw [List.length_take, List.length_drop, List.length_nil, STREAM_CHUNK_MAX] at hlen
    rw [hy, List.take_of_length_le (by omega)]
  · -- nothing is left for now
    refine h.walked ?_ (by omega)
    rw [hy, Option.getD_none, List.take_add, not_not.mp hbytes]

theorem step (h : Follows id ls st) (hstep : st.Performs lossy id l st') (hup : KeepsUp id st l) :
    Follows id (ls ++ [l]) st' := by
  obtain ⟨a, chunk⟩ := l
  unfold Performs Streaming.step at hstep
  cases a with
  | copy bytes =>
    dsimp only at hstep
    split at hstep <;> cases hstep
    exact h.copy ‹_› bytes
  | eof =>
    dsimp only at hstep
    split at hstep <;> cases hstep
    exact h.eof ‹_›
  | waited code =>
    dsimp only at hstep
    split at hstep <;> cases hstep
    exact h.waited code
  | poll =>
    dsimp only at hstep
    split at hstep <;> cases hstep
    exact h.poll ‹_› fun s hs => hup rfl _ s ‹_› hs
  | other op =>
    dsimp only at hstep
    split_ifs at hstep with hop
    cases hstep
    exact h.other hop

end Follows

end Streaming

open Streaming in
/-- **A stream that keeps up yields the output.**  If each poll finds the cursor in the ring, what
the stream has yielded is a beginning of what the PTY gave, and all of it once the stream has ended
because the shell exited. -/
theorem stream_complete {lossy : List UInt8 → List Char} {id : String} {t : PtyTerminal}
    {ls : List (StreamAct × Option (List UInt8))} {st : Streaming}
    (hnew : t.sessions.get id = some .new)
    (h : Run (Guarded (Performs lossy id) (KeepsUp id)) (.start t) ls st) :
    yielded ls <+: copied ls ∧ (st.stream = .ended true → yielded ls = copied ls) := by
  have hfollows : Follows id ls st :=
    h.invariant (I := Follows id) (.start hnew) fun _ _ _ _ _ hi hstep => hi.step hstep.1 hstep.2
  exact ⟨hfollows.isPrefix, fun he => (hfollows.complete he).1⟩

def oneSession : PtyTerminal := ⟨.insert .empty "pty-0" .new, false⟩

/-- The shell writes two bytes and exits, and the stream is polled in between and after. -/
def twoBytesThenExit : List (StreamAct × Option (List UInt8)) :=
  [(.copy [7, 8], none), (.poll, some [7, 8]), (.eof, none), (.waited 0, none), (.poll, none)]

theorem stream_complete_twoBytesThenExit : ∃ st,
    Run (Guarded (Streaming.Performs (fun _ => []) "pty-0") (Streaming.KeepsUp "pty-0"))
      (.start oneSession) twoBytesThenExit st ∧ st.stream = .ended true ∧
    Streaming.yielded twoBytesThenExit = Streaming.copied twoBytesThenExit := by
  have hup {st : Streaming} {a : StreamAct} {chunk : Option (List UInt8)} (ha : a ≠ .poll) :
      Streaming.KeepsUp "pty-0" st (a, chunk) := fun h => absurd h ha
  obtain ⟨st, hrun, hended⟩ : ∃ st,
      Run (Guarded (Streaming.Performs (fun _ => []) "pty-0") (Streaming.KeepsUp "pty-0"))
        (.start oneSession) twoBytesThenExit st ∧ st.stream = .ended true := by
    refine ⟨_, .cons ⟨rfl, hup (by simp)⟩ (.cons ⟨rfl, fun _ c s hc hs => ?_⟩
      (.cons ⟨rfl, hup (by simp)⟩ (.cons ⟨rfl, hup (by simp)⟩
      (.cons ⟨rfl, fun _ c s hc hs => ?_⟩ .nil)))), rfl⟩
    all_goals
      cases hc
      cases hs
      decide
  exact ⟨st, hrun, hended, (stream_complete rfl hrun).2 hended⟩

/-! ### A slow consumer -/

/-- The reads of the session's thread, while nothing else happens. -/
def copies (chunks : List (List UInt8)) : List (StreamAct × Option (List UInt8)) :=
  chunks.map fun bytes => (.copy bytes, none)

theorem Streaming.copied_copies (chunks : List (List UInt8)) :
    copied (copies chunks) = chunks.flatten := by
  rw [copied, copies, List.flatMap_map, ← List.flatMap_id']
  rfl

theorem Streaming.yielded_copies (chunks : List (List UInt8)) : yielded (copies chunks) = [] := by
  rw [yielded, copies, List.flatMap_map]
  exact List.flatMap_eq_nil_iff.mpr fun _ _ => rfl

/-- The thread may read any number of times before the stream is polled again. -/
theorem Streaming.run_copies (lossy : List UInt8 → List Char) (id : String) :
    ∀ (chunks : List (List UInt8)) (st : Streaming) {s : PtySession} {output : List UInt8},
      st.term.poisoned = false → st.copier = .reading → st.term.sessions.get id = some s →
      s.buf.cap = RING_MAX → s.buf.Holds output →
      ∃ st' s', Run (Performs lossy id) st (copies chunks) st' ∧
        st'.term.poisoned = false ∧ st'.stream = st.stream ∧
        st'.term.sessions.get id = some s' ∧ s'.buf.cap = RING_MAX ∧
        s'.buf.Holds (output ++ chunks.flatten)
  | [], st, s, output, hp, _, hs, hcap, hholds => by
    refine ⟨st, s, .nil, hp, rfl, hs, hcap, ?_⟩
    rwa [List.flatten_nil, List.append_nil]
  | bytes :: chunks, st, s, output, hp, hreading, hs, hcap, hholds => by
    have hterm : (st.copy lossy id bytes).term =
        { st.term with sessions := st.term.sessions.insert id (s.output bytes) } := by
      show (st.term.step lossy (.output id bytes)).1 = _
      rw [step_output hp, hs]
      rfl
    have hreading' : (st.copy lossy id bytes).copier = .reading := by
      show (if st.term.poisoned then _ else _) = _
      rw [hp, hs]
      rfl
    obtain ⟨st', s', hrun, hp', hstream, hs', hcap', hholds'⟩ :=
      run_copies lossy id chunks (st.copy lossy id bytes) (s := s.output bytes)
        (by rw [hterm]; exact hp) hreading'
        (by rw [hterm, Table.get_insert, if_pos rfl]) hcap (hholds.push bytes)
    have hstep : Performs lossy id st (.copy bytes, none) (st.copy lossy id bytes) := by
      unfold Performs Streaming.step
      rw [hreading]
    refine ⟨st', s', .cons hstep hrun, hp', hstream, hs', hcap', ?_⟩
    rwa [List.flatten_cons, ← List.append_assoc]

/-- One read of zeros, and then a ring full of ones. -/
def ringFullBehind : List (List UInt8) :=
  List.replicate 8192 0 :: List.replicate 128 (List.replicate 8192 1)

theorem flatten_ringFullBehind :
    ringFullBehind.flatten = List.replicate 8192 0 ++ List.replicate RING_MAX 1 := by
  have hsize : 128 * 8192 = RING_MAX := by decide
  rw [ringFullBehind, List.flatten_cons, List.flatten_replicate_replicate, hsize]

/-- A reader that is still at the start gets the first of the ones. -/
theorem readAt_ringFullBehind {b : OutputBuffer} (hcap : b.cap = RING_MAX)
    (h : b.Holds ringFullBehind.flatten) : b.readAt 0 STREAM_CHUNK_MAX =
      ⟨List.replicate STREAM_CHUNK_MAX 1, 8192, 8192 + STREAM_CHUNK_MAX⟩ := by
  rw [flatten_ringFullBehind] at h
  have hlen : (List.replicate 8192 (0 : UInt8) ++ List.replicate RING_MAX 1).length =
      8192 + RING_MAX := by
    rw [List.length_append, List.length_replicate, List.length_replicate]
  have hstart : History.start RING_MAX
      (List.replicate 8192 (0 : UInt8) ++ List.replicate RING_MAX 1) = 8192 := by
    rw [History.start, hlen]
    omega
  have hfirst : Nat.max 0 8192 = 8192 := by decide
  have hn : min STREAM_CHUNK_MAX (8192 + RING_MAX - 8192) = STREAM_CHUNK_MAX := by decide
  have hn' : min STREAM_CHUNK_MAX RING_MAX = STREAM_CHUNK_MAX := by decide
  have hdrop : (List.replicate 8192 (0 : UInt8) ++ List.replicate RING_MAX 1).drop 8192 =
      List.replicate RING_MAX 1 := List.drop_left' List.length_replicate
  simp only [h.readAt, historyRead, hcap, hstart, hfirst, hdrop, hlen, hn, hn',
    List.take_replicate, Nat.sub_zero]

/-- The first bytes leave the ring before the stream is polled: it yields what follows them. -/
theorem stream_skips : ∃ ls st,
    Run (Streaming.Performs (fun _ => []) "pty-0") (.start oneSession) ls st ∧
    ¬ Streaming.yielded ls <+: Streaming.copied ls := by
  obtain ⟨st, s, hrun, hp, hstream, hs, hcap, hholds⟩ :=
    Streaming.run_copies (fun _ => []) "pty-0" ringFullBehind (.start oneSession) rfl rfl rfl rfl
      (OutputBuffer.holds_new _)
  rw [List.nil_append] at hholds
  have hread := readAt_ringFullBehind hcap hholds
  have hones : List.replicate STREAM_CHUNK_MAX (1 : UInt8) ≠ [] :=
    mt (List.replicate_eq_nil_iff _).mp (by decide)
  have hzeros : List.replicate 8192 (0 : UInt8) ≠ [] :=
    mt (List.replicate_eq_nil_iff _).mp (by decide)
  have hpoll : Streaming.Performs (fun _ => []) "pty-0" st
      (.poll, some (List.replicate STREAM_CHUNK_MAX 1))
      { st with stream := .walking (8192 + STREAM_CHUNK_MAX) } := by
    unfold Streaming.Performs Streaming.step Streaming.poll
    rw [hstream]
    simp only [Streaming.start, hp, hs, hread, Bool.false_eq_true, if_false, if_pos hones]
  refine ⟨_, _, hrun.snoc hpoll, fun hpre => ?_⟩
  rw [Streaming.copied_snoc, Streaming.yielded_snoc, Streaming.copied_copies,
    Streaming.yielded_copies, flatten_ringFullBehind] at hpre
  obtain ⟨rest, heq⟩ := hpre
  -- the first byte of the chunk is not the first byte of the output
  have hhead := congrArg List.head? heq
  rw [List.nil_append, Option.getD_some, List.append_assoc, List.head?_append_of_ne_nil _ hones,
    List.head?_append_of_ne_nil _ hzeros, List.head?_replicate, List.head?_replicate] at hhead
  revert hhead
  decide

end Zyris.Terminal
