import Zyris.Core.Attachment

/-!
# An attachment transfer gets stuck exactly when a chunk exceeds the credit window

Credit is conserved until the terminator (`Sending`), so when nothing is on its way or unread the
gate holds the whole window, and a sender that still waits has a chunk that is longer.  The chunk
size is `max_chunk`, another limit, and nothing relates the two.
-/

namespace Zyris.Core

open Proto

namespace Transfer

/-- The transfer's start is what the ends come to when the reader takes the response and it is
claimed. -/
theorem start_client (cfg : Config) (served : Served) (item : Detached) (size offset : Nat)
    (sha256 : Option String) :
    Client.attachment { (Shared.start served).client with
        streams := Streams.register ⟨.empty, .empty, .empty, .empty⟩
          [⟨item.stream, size, sha256, offset⟩] } item.stream =
      some (⟨item.stream, size, sha256, offset⟩, (start cfg served item).client) := by
  have hremove : (Table.empty.insert item.stream (⟨⟨item.stream, size, sha256, offset⟩, 0⟩ :
      PendingAttachment)).remove item.stream = .empty := by
    simp [Table.remove, Table.others, Table.insert, Table.empty]
  have hsize : (Arena.empty : Arena Chan).size = 0 := rfl
  simp only [Client.attachment, Streams.register, Streams.registerOne, List.foldl_cons,
    List.foldl_nil, Table.get_empty, Option.isSome_none, Bool.false_eq_true, if_false,
    Table.get_insert, if_true, hsize, hremove]
  rfl

/-! ### The chunks on their way -/

/-- Chunks as frames, the first one numbered `n`. -/
def chunkFrames (x n : Nat) : List (List UInt8) → List Frame
  | [] => []
  | c :: cs => .streamData x n c :: chunkFrames x ((n + 1) % 2 ^ 32) cs

theorem chunkFrames_snoc (x n : Nat) (cs : List (List UInt8)) (c : List UInt8)
    (hn : n < 2 ^ 32) : chunkFrames x n (cs ++ [c]) =
      chunkFrames x n cs ++ [.streamData x ((n + cs.length) % 2 ^ 32) c] := by
  induction cs generalizing n with
  | nil => rw [List.nil_append, List.length_nil, Nat.add_zero, Nat.mod_eq_of_lt hn]; rfl
  | cons d cs ih =>
    have hnum : ((n + 1) % 2 ^ 32 + cs.length) % 2 ^ 32 = (n + (d :: cs).length) % 2 ^ 32 := by
      simp only [List.length_cons]
      omega
    rw [List.cons_append, chunkFrames, chunkFrames, ih _ (Nat.mod_lt _ (by decide)), hnum,
      List.cons_append]

def inHand : SenderPc → Nat
  | .pushing _ _ chunk _ => chunk.length
  | _ => 0

/-- The sender is before its terminator, and its next chunk has the number `seq`. -/
inductive Before (item : Detached) (seq : Nat) : SenderPc → Prop
  | starting : seq = 0 → Before item seq .starting
  | acquiring (rest : List UInt8) : rest.length ≤ item.bytes.length →
    Before item seq (.acquiring 0 seq rest)
  | pushing (chunk rest : List UInt8) : rest.length ≤ item.bytes.length →
    Before item seq (.pushing 0 seq chunk rest)
  | pushingEnd : Before item seq .pushingEnd

def isPast : SenderPc → Bool
  | .closingGate => true
  | .ended => true
  | _ => false

/-- Before the terminator the receiver expects `n` next and `chunks` are on their way. -/
structure Sending (cfg : Config) (item : Detached) (t : Transfer) (pc : SenderPc) (g : CreditGate)
    (chan : Chan) (n : Nat) (chunks : List (List UInt8)) : Prop where
  sender : t.sender = some ⟨item, pc⟩
  before : Before item ((n + chunks.length) % 2 ^ 32) pc
  gate : t.serve.credits.table.get item.stream = some 0 ∧ t.serve.credits.gates.get 0 = some g
  open_gate : g.canceled = false
  entry : t.client.streams.incoming.get item.stream = some ⟨0, n⟩
  seq_lt : n < 2 ^ 32
  chan_get : t.client.streams.chans.get 0 = some chan
  chan_stream : chan.stream = item.stream
  data : ∀ ev ∈ chan.log, ev.isData = true
  read_le : chan.read ≤ chan.log.length
  consumer : ∃ seen, t.client.streams.consumers.get 0 = some ⟨item.stream, 0, false, false, seen⟩
  down : t.down = chunkFrames item.stream n chunks
  up : ∀ f ∈ t.up, ∃ bytes, f = .control (.sCredit item.stream bytes)
  conserved : g.available + inHand pc + (chunks.map List.length).sum +
    ((chan.log.drop chan.read).map eventBytes).sum + credited item.stream t.up =
      cfg.limits.initialStreamCredit

/-- Before the terminator credit is conserved; after it nobody waits. -/
def Sound (cfg : Config) (item : Detached) (t : Transfer) : Prop :=
  (∃ pc, t.sender = some ⟨item, pc⟩ ∧ isPast pc = true) ∨
    ∃ pc g chan n chunks, Sending cfg item t pc g chan n chunks

theorem sound_start (cfg : Config) (served : Served) (item : Detached) :
    Sound cfg item (start cfg served item) := by
  refine .inr ⟨.starting, ⟨cfg.limits.initialStreamCredit, false⟩, ⟨item.stream, [], 0⟩, 0, [], ?_⟩
  exact {
    sender := rfl
    before := .starting rfl
    gate := ⟨by simp [start, Credits.openGate, Arena.size, Arena.empty], rfl⟩
    open_gate := rfl
    entry := by simp [start]
    seq_lt := by decide
    chan_get := rfl
    chan_stream := rfl
    data := by simp
    read_le := Nat.le_refl 0
    consumer := ⟨[], rfl⟩
    down := rfl
    up := by simp [start]
    conserved := by simp [inHand, start] }

/-! ### One step -/

variable {sending receiving : Config} {item : Detached} {t t' : Transfer} {pc : SenderPc}
  {g : CreditGate} {chan : Chan} {n : Nat} {chunks : List (List UInt8)}

theorem Sending.send (h : Sending sending item t pc g chan n chunks) {v : Serve} {e : Emit}
    (hstep : t.serve.senderRun sending ⟨true, 0⟩ 0 ⟨item, pc⟩ = some (v, e)) :
    Sound sending item { t with serve := v, down := t.down ++ frames e.cmds } := by
  have hsender : t.serve.senders.get 0 = some ⟨item, pc⟩ := h.sender
  -- a sender that only moves on
  have hmove (pc' : SenderPc) : (t.serve.senderPc 0 pc').senders.get 0 = some ⟨item, pc'⟩ :=
    Arena.get_update_self hsender _
  have hbefore := h.before
  cases Serve.senderStep_of_senderRun hstep with
  | found gate hpc hgate =>
    cases hpc
    cases h.gate.1.symm.trans hgate
    cases hbefore with
    | starting hseq =>
      have hnext : Before item ((n + chunks.length) % 2 ^ 32) (.acquiring 0 0 item.bytes) := by
        rw [hseq]
        exact .acquiring _ (Nat.le_refl _)
      exact .inr ⟨_, g, chan, n, chunks, { h with
        sender := hmove _
        before := hnext
        down := (List.append_nil _).trans h.down }⟩
  | gone hpc hgate => cases h.gate.1.symm.trans hgate
  | sentAll gate seq hpc =>
    cases hpc
    exact .inr ⟨_, g, chan, n, chunks, { h with
      sender := hmove _
      before := .pushingEnd
      down := (List.append_nil _).trans h.down }⟩
  | acquired gate seq rest g' k hpc hrest hk hg hopen hle =>
    cases hpc
    cases hbefore with
    | acquiring _ hlen =>
      cases h.gate.2.symm.trans hg
      have hdrop : (rest.drop k).length ≤ item.bytes.length := by
        rw [List.length_drop]
        omega
      refine .inr ⟨_, { g with available := g.available - (rest.take k).length }, chan, n, chunks,
        { h with
          sender := hmove _
          before := .pushing _ _ hdrop
          gate := ⟨h.gate.1, Arena.get_update_self h.gate.2 _⟩
          down := (List.append_nil _).trans h.down
          conserved := ?_ }⟩
      have hconserved := h.conserved
      simp only [inHand] at hconserved ⊢
      omega
  | acquireCanceled gate seq rest g' hpc hg hcanceled =>
    cases hpc
    cases hbefore
    cases h.gate.2.symm.trans hg
    cases h.open_gate.symm.trans hcanceled
  | pushedData gate seq chunk rest pc' hpc hlive =>
    cases hpc
    rcases hlive with ⟨rfl, -⟩ | ⟨-, hlive⟩
    · cases hbefore with
      | pushing _ _ hlen =>
        have hseq : ((n + chunks.length) % 2 ^ 32 + 1) % 2 ^ 32 =
            (n + (chunks ++ [chunk]).length) % 2 ^ 32 := by
          rw [List.length_append, List.length_singleton]
          omega
        refine .inr ⟨_, g, chan, n, chunks ++ [chunk], { h with
          sender := hmove _
          before := hseq ▸ .acquiring _ hlen
          down := ?_
          conserved := ?_ }⟩
        · rw [chunkFrames_snoc _ _ _ _ h.seq_lt, h.down]
          rfl
        · have hconserved := h.conserved
          simp only [inHand, List.map_append, List.map_singleton, List.sum_append,
            List.sum_singleton] at hconserved ⊢
          omega
    · cases hlive
  | pushedEnd hpc | closedGate hpc => exact .inl ⟨_, hmove _, rfl⟩

theorem Sending.deliver (h : Sending sending item t pc g chan n chunks) {f : Frame}
    {down : List Frame} (hdown : t.down = f :: down) :
    Sound sending item { t with
      down := down
      client := t.client.handle f
      up := t.up ++ frames (t.client.reaction receiving f) } := by
  rcases chunks with _ | ⟨c, chunks⟩
  · cases h.down.symm.trans hdown
  obtain ⟨rfl, rfl⟩ := List.cons.inj (hdown.symm.trans h.down)
  have hgap : t.client.streams.gap item.stream n = none := by
    simp [Streams.gap, h.entry]
  have hreaction : t.client.reaction receiving (.streamData item.stream n c) = [] := by
    simp [Client.reaction, hgap]
  have hdata : t.client.streams.data item.stream n c =
      { t.client.streams.send 0 (.data c) with
        incoming := t.client.streams.incoming.insert item.stream ⟨0, (n + 1) % 2 ^ 32⟩ } := by
    simp [Streams.data, h.entry]
  have hstreams : (t.client.handle (.streamData item.stream n c)).streams = _ := hdata
  have hbefore := h.before
  have hseq : (n + (c :: chunks).length) % 2 ^ 32 =
      ((n + 1) % 2 ^ 32 + chunks.length) % 2 ^ 32 := by
    rw [List.length_cons]
    omega
  refine .inr ⟨pc, g, { chan with log := chan.log ++ [.data c] }, (n + 1) % 2 ^ 32, chunks, ?_⟩
  exact {
    sender := h.sender
    before := hseq ▸ hbefore
    gate := h.gate
    open_gate := h.open_gate
    entry := by
      change (t.client.handle _).streams.incoming.get _ = _
      rw [hstreams, Table.get_insert, if_pos rfl]
    seq_lt := Nat.mod_lt _ (by decide)
    chan_get := by
      change (t.client.handle _).streams.chans.get 0 = _
      rw [hstreams]
      exact Arena.get_update_self h.chan_get _
    chan_stream := h.chan_stream
    data := by
      intro ev hev
      rcases List.mem_append.mp hev with hev | hev
      · exact h.data ev hev
      · rw [List.mem_singleton.mp hev]
        rfl
    read_le := by
      rw [List.length_append]
      exact Nat.le_add_right_of_le h.read_le
    consumer := by
      obtain ⟨seen, hseen⟩ := h.consumer
      refine ⟨seen, ?_⟩
      change (t.client.handle _).streams.consumers.get 0 = _
      rw [hstreams]
      exact hseen
    down := rfl
    up := by
      rw [hreaction, frames_nil, List.append_nil]
      exact h.up
    conserved := by
      have hconserved := h.conserved
      rw [hreaction, frames_nil, List.append_nil, List.drop_append_of_le_length h.read_le]
      simp only [List.map_cons, List.sum_cons, List.map_append, List.sum_append, List.map_nil,
        List.sum_nil, eventBytes] at hconserved ⊢
      omega }

theorem Sending.poll (h : Sending sending item t pc g chan n chunks) {ev : StreamEvent} {v : Client}
    {e : Emit} (hpoll : t.client.pollNext receiving 0 = some (ev, v, e)) :
    Sound sending item { t with client := v, up := t.up ++ frames e.cmds } := by
  obtain ⟨-, -, -, c, hc, -, -, hnext, hstreams, hcmds⟩ := Client.pollNext_reads hpoll
  obtain ⟨seen, hseen⟩ := h.consumer
  cases hseen.symm.trans hc
  -- the channel is open, so there is an event to read, and it is a chunk
  have hopen : t.client.streams.isOpen 0 chan = true := by
    simp [Streams.isOpen, h.chan_stream, h.entry]
  have hev : chan.log[chan.read]? = some ev := by
    simp only [Streams.next, h.chan_get, hopen, if_true] at hnext
    split at hnext
    · rename_i hget
      rw [hget, hnext]
    · cases hnext
  have hmem : ev ∈ chan.log := List.mem_of_getElem? hev
  cases ev with
  | done => cases h.data _ hmem
  | failed error => cases h.data _ hmem
  | data bytes =>
    have hlt : chan.read < chan.log.length := (List.getElem?_eq_some_iff.mp hev).1
    have hdrop : chan.log.drop chan.read = .data bytes :: chan.log.drop (chan.read + 1) := by
      rw [List.drop_eq_getElem_cons hlt, (List.getElem?_eq_some_iff.mp hev).2]
    have hframes : frames e.cmds = [.control (.sCredit item.stream bytes.length)] := by
      rw [hcmds]
      rfl
    have hchan : v.streams.chans.get 0 = some { chan with read := chan.read + 1 } := by
      have hmin : min (chan.read + 1) chan.log.length = chan.read + 1 := Nat.min_eq_left hlt
      rw [hstreams, Streams.take]
      exact (Arena.get_update_self h.chan_get _).trans (by rw [hmin])
    refine .inr ⟨pc, g, { chan with read := chan.read + 1 }, n, chunks, { h with
      entry := by
        rw [hstreams]
        exact h.entry
      chan_get := hchan
      chan_stream := h.chan_stream
      data := h.data
      read_le := hlt
      consumer := ⟨seen ++ [.data bytes], by
        rw [hstreams]
        exact Arena.get_update_self hseen _⟩
      up := ?_
      conserved := ?_ }⟩
    · intro f hf
      rw [hframes] at hf
      rcases List.mem_append.mp hf with hf | hf
      · exact h.up f hf
      · exact ⟨_, List.mem_singleton.mp hf⟩
    · have hconserved := h.conserved
      have hcredit : credited item.stream [.control (.sCredit item.stream bytes.length)] =
          bytes.length := by
        exact if_pos rfl
      rw [hdrop] at hconserved
      rw [hframes, credited_append, hcredit]
      simp only [List.map_cons, List.sum_cons, eventBytes] at hconserved
      change g.available + inHand pc + (chunks.map List.length).sum +
        ((chan.log.drop (chan.read + 1)).map eventBytes).sum + _ = _
      omega

theorem Sending.credit (h : Sending sending item t pc g chan n chunks)
    (hlt : sending.limits.initialStreamCredit < 2 ^ 32) {f : Frame} {up : List Frame}
    (hup : t.up = f :: up) :
    Sound sending item { t with
      up := up
      serve := t.serve.handle sending f
      taken := t.taken ++ [f] } := by
  obtain ⟨bytes, rfl⟩ := h.up f (hup ▸ List.mem_cons_self)
  have hcredit : credited item.stream t.up = bytes + credited item.stream up := by
    rw [hup, credited, List.map_cons, List.sum_cons]
    exact congrArg (· + _) (if_pos rfl)
  have hconserved := h.conserved
  -- the gate never holds more than the window, so its counter does not wrap
  have hwrap : g.available + bytes < 2 ^ 64 := by omega
  refine .inr ⟨pc, { g with available := g.available + bytes }, chan, n, chunks, { h with
    sender := h.sender
    gate := ⟨h.gate.1, ?_⟩
    up := ?_
    conserved := ?_ }⟩
  · change (t.serve.credits.gates.updateAll (t.serve.credits.table.get item.stream).toList
      _).get 0 = _
    rw [Arena.get_updateAll, h.gate.1, h.gate.2]
    simpa using hwrap
  · intro f hf
    exact h.up f (hup ▸ List.mem_cons_of_mem _ hf)
  · change g.available + bytes + inHand pc + _ + _ + credited item.stream up = _
    omega

theorem senders_handle (cfg : Config) (v : Serve) (f : Frame) :
    (v.handle cfg f).senders = v.senders := by
  unfold Serve.handle
  split
  · rfl
  · unfold Serve.handleCancel
    split <;> rfl
  · rfl
  · rfl
  · rfl

/-- After the terminator only the gate is left to close. -/
theorem isPast_send (hpast : isPast pc = true) {v v' : Serve} {e : Emit}
    (hget : v.senders.get 0 = some ⟨item, pc⟩)
    (hstep : v.senderRun sending ⟨true, 0⟩ 0 ⟨item, pc⟩ = some (v', e)) :
    ∃ pc', v'.senders.get 0 = some ⟨item, pc'⟩ ∧ isPast pc' = true := by
  cases pc with
  | closingGate =>
    cases hstep
    exact ⟨.ended, Arena.get_update_self hget _, rfl⟩
  | ended => cases hstep
  | starting => cases hpast
  | acquiring gate seq rest => cases hpast
  | pushing gate seq chunk rest => cases hpast
  | pushingEnd => cases hpast

theorem Sound.step (hlt : sending.limits.initialStreamCredit < 2 ^ 32) {a : TransferAct}
    (h : Sound sending item t) (hstep : t.step sending receiving a = some t') :
    Sound sending item t' := by
  cases a with
  | send =>
    obtain ⟨⟨v, e⟩, hsends, rfl⟩ := Option.map_eq_some_iff.mp hstep
    obtain ⟨x, hx, hrun⟩ := Option.bind_eq_some_iff.mp hsends
    rcases h with ⟨pc, hpc, hpast⟩ | ⟨pc, g, chan, n, chunks, h⟩
    · cases hpc.symm.trans hx
      exact .inl (isPast_send hpast hpc hrun)
    · cases h.sender.symm.trans hx
      exact h.send hrun
  | deliver =>
    simp only [Transfer.step] at hstep
    split at hstep <;> cases hstep
    rename_i f down hdown
    rcases h with hpast | ⟨pc, g, chan, n, chunks, h⟩
    · exact .inl hpast
    · exact h.deliver hdown
  | poll =>
    obtain ⟨⟨ev, v, e⟩, hpoll, rfl⟩ := Option.map_eq_some_iff.mp hstep
    rcases h with hpast | ⟨pc, g, chan, n, chunks, h⟩
    · exact .inl hpast
    · exact h.poll hpoll
  | credit =>
    simp only [Transfer.step] at hstep
    split at hstep <;> cases hstep
    rename_i f up hup
    rcases h with ⟨pc, hpc, hpast⟩ | ⟨pc, g, chan, n, chunks, h⟩
    · refine .inl ⟨pc, ?_, hpast⟩
      exact (congrArg (·.get 0) (senders_handle sending t.serve f)).trans hpc
    · exact h.credit hlt hup

/-! ### Getting stuck -/

/-- A sound transfer is not stuck when no chunk is longer than the window. -/
theorem Sound.not_stuck (h : Sound sending item t)
    (hle : min (max sending.limits.maxChunk 1) item.bytes.length ≤
      sending.limits.initialStreamCredit) : ¬ t.Stuck sending item := by
  intro hstuck
  have hwaiting := hstuck.waiting
  simp only [isWaiting, Bool.and_eq_true] at hwaiting
  obtain ⟨hacquiring, hnone⟩ := hwaiting
  rcases h with ⟨pc, hpc, hpast⟩ | ⟨pc, g, chan, n, chunks, h⟩
  · rw [hpc] at hacquiring
    cases pc <;> simp [SenderPc.isAcquiring, isPast] at hacquiring hpast
  have hbefore := h.before
  rw [h.sender] at hacquiring
  cases hbefore with
  | starting => cases hacquiring
  | pushing => cases hacquiring
  | pushingEnd => cases hacquiring
  | acquiring rest hlen =>
    -- nothing is on its way and nothing is unread: the gate holds the whole window
    have hunread : chan.log.drop chan.read = [] := by
      have := hstuck.unread
      simpa [unread, h.chan_get] using this
    have hchunks : chunks = [] := by
      have := h.down.symm.trans hstuck.down
      cases chunks with
      | nil => rfl
      | cons c cs => cases this
    have hfull : g.available = sending.limits.initialStreamCredit := by
      have := h.conserved
      rw [hunread, hchunks, hstuck.up] at this
      simpa [inHand] using this
    have htake : (rest.take (max sending.limits.maxChunk 1)).length ≤ g.available := by
      rw [hfull, List.length_take]
      omega
    have hacquire : g.acquire (rest.take (max sending.limits.maxChunk 1)).length =
        some (.ok ()) := by
      rw [CreditGate.acquire, h.open_gate, if_neg (by decide), if_pos htake]
    simp only [sends, h.sender, Option.bind_some, Serve.senderRun, h.gate.2, hacquire] at hnone
    split_ifs at hnone <;> cases hnone

/-- A first chunk longer than the window gets the transfer stuck at once. -/
theorem stuck_of_lt (sending receiving : Config) (served : Served) (item : Detached)
    (hlt : sending.limits.initialStreamCredit <
      min (max sending.limits.maxChunk 1) item.bytes.length) :
    ∃ t, Run (Steps (step sending receiving)) (start sending served item) [.send] t ∧
      t.Stuck sending item := by
  have hsender : (start sending served item).serve.senders.get 0 = some ⟨item, .starting⟩ := rfl
  have htable : (start sending served item).serve.credits.table.get item.stream = some 0 := by
    simp [start, Credits.openGate, Arena.size, Arena.empty]
  -- the sender finds its gate, and its chunk is longer than what the gate holds
  have hstep : (start sending served item).step sending receiving .send = some
      { start sending served item with
        serve := (start sending served item).serve.senderPc 0 (.acquiring 0 0 item.bytes) } := by
    simp only [step, sends, sender, hsender, Option.bind_some, Serve.senderRun, htable,
      Option.map_some, Emit.cmds_none, frames_nil, List.append_nil]
  refine ⟨_, .single hstep, ?_, rfl, rfl, rfl, rfl⟩
  have hacquiring : ((start sending served item).serve.senderPc 0
      (.acquiring 0 0 item.bytes)).senders.get 0 = some ⟨item, .acquiring 0 0 item.bytes⟩ :=
    Arena.get_update_self hsender _
  have hgate : ((start sending served item).serve.senderPc 0
      (.acquiring 0 0 item.bytes)).credits.gates.get 0 =
        some ⟨sending.limits.initialStreamCredit, false⟩ := rfl
  have hempty : item.bytes.isEmpty = false := by
    cases hbytes : item.bytes with
    | nil => rw [hbytes] at hlt; simp at hlt
    | cons b bs => rfl
  have htake : ¬ (item.bytes.take (max sending.limits.maxChunk 1)).length ≤
      sending.limits.initialStreamCredit := by
    rw [List.length_take]
    omega
  simp only [isWaiting, sends, sender, hacquiring, Option.any_some, SenderPc.isAcquiring,
    Option.bind_some, Serve.senderRun, hempty, hgate, CreditGate.acquire, if_neg htake,
    Bool.false_eq_true, if_false, Bool.true_and, Option.isNone_none]

/-- **An attachment transfer cannot get stuck exactly when the first chunk fits the credit window**:
the smaller of `max_chunk` (at least 1) and the blob is at most `initial_stream_credit`. -/
theorem never_stuck_iff (sending receiving : Config) (served : Served) (item : Detached)
    (hcredit : sending.limits.initialStreamCredit < 2 ^ 32) :
    (∀ as t, Run (Steps (step sending receiving)) (start sending served item) as t →
      ¬ t.Stuck sending item) ↔
    min (max sending.limits.maxChunk 1) item.bytes.length ≤ sending.limits.initialStreamCredit := by
  constructor
  · intro hnever
    by_contra hlt
    obtain ⟨t, hrun, hstuck⟩ := stuck_of_lt sending receiving served item (by omega)
    exact hnever _ t hrun hstuck
  · intro hle as t hrun
    have hsound : Sound sending item t :=
      hrun.state_invariant (sound_start sending served item)
        fun s a s' hs hstep => hs.step hcredit hstep
    exact hsound.not_stuck hle

/-- Default limits but for the credit window, which is 64 KiB. -/
def narrowWindow : Config :=
  { Config.bare .acceptor .msgpack with limits := { Limits.default with
    initialStreamCredit := 64 * 1024 } }

/-- The smallest blob that is moved out of a response. -/
def detachedBlob : Detached where
  stream := 2
  bytes := List.replicate (INLINE_BLOB_MAX + 1) 0
  sha256 := "95e441ca65cd41fa01b2a71799e79fd60db59ed34f13af32a91e85f90378676c"

/-- Under the default limits the chunks are as long as the window. -/
theorem never_stuck_default :
    min (max Limits.default.maxChunk 1) detachedBlob.bytes.length ≤
      Limits.default.initialStreamCredit ∧
    ∀ as t, Run (Steps (step (.bare .acceptor .msgpack) (.bare .dialer .msgpack)))
        (start (.bare .acceptor .msgpack) .default detachedBlob) as t →
      ¬ t.Stuck (.bare .acceptor .msgpack) detachedBlob := by
  have hle : min (max Limits.default.maxChunk 1) detachedBlob.bytes.length ≤
      Limits.default.initialStreamCredit := by
    rw [detachedBlob, List.length_replicate]
    decide
  exact ⟨hle, (never_stuck_iff _ _ _ _ (by decide)).mpr hle⟩

/-- With a window of 64 KiB and chunks of 256 KiB the sender waits for good. -/
theorem stuck_before_first_chunk : ∃ t,
    1 ≤ narrowWindow.limits.initialStreamCredit ∧
    Run (Steps (step narrowWindow (.bare .dialer .msgpack)))
      (start narrowWindow .default detachedBlob) [.send] t ∧
    t.Stuck narrowWindow detachedBlob := by
  have hlt : narrowWindow.limits.initialStreamCredit <
      min (max narrowWindow.limits.maxChunk 1) detachedBlob.bytes.length := by
    rw [detachedBlob, List.length_replicate]
    decide
  obtain ⟨t, hrun, hstuck⟩ :=
    stuck_of_lt narrowWindow (.bare .dialer .msgpack) .default detachedBlob hlt
  exact ⟨t, by decide, hrun, hstuck⟩

end Transfer

end Zyris.Core
