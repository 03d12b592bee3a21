import Mathlib.Logic.Relation
import Zyris.Core.Equiv.Client
import Zyris.Core.Equiv.Flow

/-!
# Received streams are contiguous and end once

The channel of a registration is given the chunks numbered `0, 1, …` of the frames that follow it,
then at most one terminal event.  `Client.Change` is what a step can do to the callers' half, but
for taking a chunk or a terminator off the wire, which is `Streams.accept`; `Client.Channels` is
what both keep.
-/

namespace Zyris.Core

open Proto

/-! ### What a step does to the streams -/

/-- The channel a call will make its `RawIncomingStream` of. -/
def Call.channel (c : Call) : Option (Nat × Nat) :=
  match c.pc with
  | .failed _ => none
  | .returned _ => none
  | .dropped => none
  | _ => c.stream

/-- The call's entry of `incoming` comes next. -/
def Call.isOpening (c : Call) : Bool :=
  match c.pc with
  | .opening => true
  | _ => false

/-- Each call keeps its channel or is done with it; none is about to open that was not. -/
def Requests.KeepsChannels (r r' : Requests) : Prop :=
  ∀ i c', r'.calls.get i = some c' → c'.channel = none ∨
    ∃ c, r.calls.get i = some c ∧ c'.channel = c.channel ∧ (c'.isOpening → c.isOpening)

namespace Requests

variable {r r' r'' : Requests}

/-- A call with a channel has had it. -/
theorem KeepsChannels.get (h : r.KeepsChannels r') {i : Nat} {c' : Call} {p : Nat × Nat}
    (hc' : r'.calls.get i = some c') (hch : c'.channel = some p) :
    ∃ c, r.calls.get i = some c ∧ c.channel = some p ∧ (c'.isOpening → c.isOpening) := by
  rcases h i c' hc' with hnone | ⟨c, hc, hch', hop⟩
  · rw [hnone] at hch
    cases hch
  · exact ⟨c, hc, hch'.symm.trans hch, hop⟩

theorem keepsChannels_refl (r : Requests) : r.KeepsChannels r :=
  fun _ c hc => .inr ⟨c, hc, rfl, id⟩

theorem KeepsChannels.trans (h : r.KeepsChannels r') (h' : r'.KeepsChannels r'') :
    r.KeepsChannels r'' := by
  intro i c'' hc''
  rcases h' i c'' hc'' with hnone | ⟨c', hc', hch, hop⟩
  · exact .inl hnone
  · rcases h i c' hc' with hnone | ⟨c, hc, hch', hop'⟩
    · exact .inl (hch.trans hnone)
    · exact .inr ⟨c, hc, hch.trans hch', fun ho => hop' (hop ho)⟩

theorem keepsChannels_settle (r : Requests) (is : List Nat) (f : Oneshot → Oneshot) :
    r.KeepsChannels (r.settle is f) := by
  intro i c' hc'
  simp only [settle, Arena.get_updateAll, Option.map_eq_some_iff] at hc'
  obtain ⟨c, hc, rfl⟩ := hc'
  refine .inr ⟨c, hc, ?_⟩
  split_ifs
  · exact ⟨rfl, id⟩
  · exact ⟨rfl, id⟩

theorem keepsChannels_update {i : Nat} {c : Call} {f : Call → Call} (hc : r.calls.get i = some c)
    (hf : (f c).channel = c.channel ∧ ((f c).isOpening → c.isOpening)) :
    r.KeepsChannels (r.update i f) :=
  Arena.forall_update_known r.keepsChannels_refl hc (.inr ⟨c, hc, hf⟩)

theorem keepsChannels_update_none (r : Requests) (i : Nat) {f : Call → Call}
    (hf : ∀ c, (f c).channel = none) : r.KeepsChannels (r.update i f) :=
  Arena.forall_update r.keepsChannels_refl fun c _ => .inl (hf c)

theorem keepsChannels_alloc (r : Requests) {c : Call} (hc : c.channel = none) :
    r.KeepsChannels { r with calls := r.calls.alloc c } :=
  Arena.forall_alloc r.keepsChannels_refl (.inl hc)

end Requests

namespace Client

/-- What a step can do to calls and streams, but for `Streams.accept`. -/
inductive Change (cfg : Config) (v : Client) : Client → Prop
  | settled (v' : Client) : v.requests.KeepsChannels v'.requests → v'.streams = v.streams →
    Change cfg v v'
  | began (x : Nat) (method : String) (params : Payload) :
    Change cfg v (v.beginStreaming x method params)
  | opened (i : Nat) (c : Call) (x rx : Nat) : v.requests.calls.get i = some c →
    c.pc = .opening → c.stream = some (x, rx) →
    Change cfg v { v.callPc i .numbering with
      streams := { v.streams with incoming := v.streams.incoming.insert x ⟨rx, 0⟩ } }
  | headed (i : Nat) (c : Call) (x rx : Nat) (head : Payload) : v.requests.calls.get i = some c →
    c.pc = .parked → c.stream = some (x, rx) →
    Change cfg v { v.callPc i (.returned (.ok head)) with
      streams := { v.streams with
        consumers := v.streams.consumers.alloc ⟨x, rx, false, false, []⟩ } }
  | removed (v' : Client) (x : Nat) : v.requests.KeepsChannels v'.requests →
    v'.streams = { v.streams with incoming := v.streams.incoming.remove x } → Change cfg v v'
  | read (v' : Client) (cmds : List WriterCmd) : v'.requests = v.requests →
    Streams.Read cfg v.streams v'.streams cmds → Change cfg v v'
  | registered (reference : AttachmentRef) :
    Change cfg v { v with streams := v.streams.registerOne reference }
  | drained : Change cfg v { v with streams := v.streams.drain }
  | cleared : Change cfg v { v with streams := { v.streams with attachments := .empty } }

def Changes (cfg : Config) : Client → Client → Prop := Relation.ReflTransGen (Change cfg)

variable {cfg : Config} {env : Env} {v v' : Client} {e : Emit}

theorem Change.changes (h : Change cfg v v') : Changes cfg v v' := .single h

theorem changes_of_requests (h : v.requests.KeepsChannels v'.requests)
    (hs : v'.streams = v.streams) : Changes cfg v v' :=
  (Change.settled v' h hs).changes

theorem changes_of_reads {st : Streams} {cmds : List WriterCmd}
    (h : Streams.Reads cfg v.streams st cmds) : Changes cfg v { v with streams := st } := by
  induction h with
  | refl => exact .refl
  | tail st' st'' cmds cmds' _ hread ih =>
    exact ih.tail (.read { v with streams := st'' } cmds' rfl hread)

theorem changes_of_callStep {a : CallAct} (h : v.callStep cfg env a = some (v', e)) :
    Changes cfg v v' := by
  have hnone {r : Requests} {i : Nat} {pc : CallPc} (hr : v.requests.KeepsChannels r)
      (hpc : ∀ c : Call, ({ c with pc := pc } : Call).channel = none) :
      v.requests.KeepsChannels (r.update i ({ · with pc := pc })) :=
    hr.trans (r.keepsChannels_update_none i hpc)
  have hrefl := v.requests.keepsChannels_refl
  rcases callStep_cases h with ⟨method, params, metadata, -, rfl, -⟩ |
    ⟨method, params, -, rfl, -⟩ | ⟨i, c, -, hc, hstep⟩ | ⟨i, c, -, hc, hpc, rfl, -⟩
  · exact changes_of_requests (Requests.keepsChannels_alloc _ rfl) rfl
  · exact (Change.began _ _ _).changes
  · cases hstep with
    | opened x rx hpc hs => exact (Change.opened i c x rx hc hpc hs).changes
    | numbered hpc | pushed hpc | refused _ hpc =>
      refine changes_of_requests (Requests.keepsChannels_update hc ?_) rfl
      simp [Call.channel, Call.isOpening, hpc]
    | inserted hpc =>
      refine changes_of_requests (Requests.KeepsChannels.trans
        (Requests.keepsChannels_update hc (f := ({ · with pc := .pushing })) ?_)
        (Requests.keepsChannels_settle _ _ _)) rfl
      simp [Call.channel, Call.isOpening, hpc]
    | unsentUnary | unsentStream =>
      exact changes_of_requests (hnone (Requests.keepsChannels_settle _ _ _) fun _ => rfl) rfl
    | answered | streamFailed => exact changes_of_requests (hnone hrefl fun _ => rfl) rfl
    | headed head x rx hpc _ hs => exact (Change.headed i c x rx head hc hpc hs).changes
    | removed error x rx hpc hs =>
      exact (Change.removed _ x (hnone hrefl fun _ => rfl) rfl).changes
  · exact changes_of_requests (hnone hrefl fun _ => rfl) rfl

theorem changes_of_streamStep {a : StreamAct} (h : v.streamStep cfg a = some (v', e)) :
    Changes cfg v v' := by
  obtain ⟨hr, -, hreads⟩ := streamStep_reads h
  refine (changes_of_reads hreads).tail (.settled v' ?_ rfl)
  rw [hr]
  exact Requests.keepsChannels_refl _

end Client

/-- The reader takes a chunk of a stream, or its terminator. -/
def Streams.accept (st : Streams) (x : Nat) : Nat × StreamEvent → Streams
  | (seq, .data bytes) => st.data x seq bytes
  | (_, ev) => st.finish x ev

namespace Streams

variable {st : Streams}

theorem accept_frame (st : Streams) (x : Nat) (p : Nat × StreamEvent) :
    (st.accept x p).attachments = st.attachments ∧ (st.accept x p).consumers = st.consumers := by
  unfold accept data finish
  repeat' split
  all_goals exact ⟨rfl, rfl⟩

theorem get_register_of_get {rs : List AttachmentRef} {x : Nat} {e : IncomingStreamEntry}
    (h : st.incoming.get x = some e) : (st.register rs).incoming.get x = some e := by
  induction rs generalizing st with
  | nil => exact h
  | cons r rs ih =>
    show ((st.registerOne r).register rs).incoming.get x = some e
    apply ih
    unfold registerOne
    split_ifs with htaken
    · exact h
    · have hne : x ≠ r.stream := by
        rintro rfl
        simp [h] at htaken
      simp [hne, h]

end Streams

namespace Client

variable {cfg : Config} {v v' : Client}

theorem changes_register (references : List AttachmentRef) :
    Changes cfg v { v with streams := v.streams.register references } := by
  induction references generalizing v with
  | nil => exact .refl
  | cons reference rest ih => exact .head (.registered reference) ih

theorem handle_cases (cfg : Config) (v : Client) (f : Frame) :
    (∃ x p, f.part x = some p ∧ (∀ y, y ≠ x → f.part y = none) ∧
      v.handle f = { v with streams := v.streams.accept x p }) ∨
    (∀ x, f.part x = none) ∧ Changes cfg v (v.handle f) := by
  cases f with
  | streamData x seq bytes =>
    refine .inl ⟨x, (seq, .data bytes), if_pos rfl, fun y hy => if_neg (Ne.symm hy), rfl⟩
  | control e =>
    cases e with
    | sEnd x trailer =>
      exact .inl ⟨x, (0, .done), if_pos rfl, fun y hy => if_neg (Ne.symm hy), rfl⟩
    | sErr x error =>
      exact .inl ⟨x, (0, .failed error), if_pos rfl, fun y hy => if_neg (Ne.symm hy), rfl⟩
    | res id result =>
      refine .inr ⟨fun _ => rfl, (changes_register (refs result.value)).tail ?_⟩
      exact .settled _ (Requests.keepsChannels_settle _ _ _) rfl
    | err id error =>
      refine .inr ⟨fun _ => rfl, changes_of_requests ?_ rfl⟩
      exact Requests.keepsChannels_settle _ _ _
    | _ => exact .inr ⟨fun _ => rfl, .refl⟩

end Client

namespace Shared

variable {cfg : Config} {s s' : Shared}

theorem changes_of_shutdownRun {k : Nat} {x : Shutdown} (h : s.shutdownRun k x = some s') :
    s'.received = s.received ∧ Client.Changes cfg s.client s'.client := by
  unfold shutdownRun at h
  split at h <;> cases h
  case h_2 =>
    exact ⟨rfl, Client.changes_of_requests (Requests.keepsChannels_settle _ _ _) rfl⟩
  case h_3 => exact ⟨rfl, Client.Change.drained.changes⟩
  case h_5 => exact ⟨rfl, Client.Change.cleared.changes⟩
  all_goals exact ⟨rfl, .refl⟩

/-- A step takes a frame, or it changes the callers' half as `Client.Change` says. -/
theorem changes_of_step {a : Act} (h : s.step cfg a = some s') :
    (∃ f, s' = s.receive cfg f) ∨
      s'.received = s.received ∧ Client.Changes cfg s.client s'.client := by
  cases acts_of_step h with
  | call hstep => exact .inr ⟨rfl, Client.changes_of_callStep hstep⟩
  | stream hstep => exact .inr ⟨rfl, Client.changes_of_streamStep hstep⟩
  | announced =>
    exact .inr ⟨rfl, Client.changes_of_requests (Requests.keepsChannels_alloc _ rfl) rfl⟩
  | @receive f => exact .inl ⟨f, rfl⟩
  | shutdownRun _ hrun => exact .inr (changes_of_shutdownRun hrun)
  | _ => exact .inr ⟨rfl, .refl⟩

theorem eq_receive_of_step {f : Frame} (h : s.step cfg (.receive f) = some s') :
    s' = s.receive cfg f := by
  cases acts_of_step h
  rfl

end Shared

/-! ### Channels and who may read them -/

def AllData (log : List StreamEvent) : Prop := ∀ ev ∈ log, ev.isData = true

theorem allData_nil : AllData [] := nofun

variable {log : List StreamEvent} {ev : StreamEvent} {a : Act}

theorem AllData.snoc_iff (h : AllData log) : AllData (log ++ [ev]) ↔ ev.isData = true := by
  constructor
  · exact fun hall => hall ev (by simp)
  · intro hev ev' hmem
    rcases List.mem_append.mp hmem with hl | hl
    · exact h ev' hl
    · rw [List.mem_singleton.mp hl, hev]

/-- Chunks, then at most one terminal event. -/
def EndsOnce (log : List StreamEvent) : Prop :=
  ∃ l last, log = l ++ Option.toList last ∧ AllData l ∧ ∀ ev ∈ last, ev.isData = false

theorem AllData.endsOnce (h : AllData log) : EndsOnce log :=
  ⟨log, none, by simp, h, by simp⟩

/-- Nothing but a chunk comes before another event. -/
theorem EndsOnce.isData_head {next : StreamEvent} (h : EndsOnce (ev :: next :: log)) :
    ev.isData = true := by
  obtain ⟨l, last, hlog, hl, -⟩ := h
  cases l with
  | nil => cases last <;> cases hlog
  | cons y l =>
    obtain rfl := (List.cons.inj hlog).1
    exact hl ev List.mem_cons_self

theorem AllData.snoc_endsOnce (h : AllData log) (ev : StreamEvent) : EndsOnce (log ++ [ev]) := by
  cases hev : ev.isData with
  | false => exact ⟨log, some ev, by simp, h, by simpa using hev⟩
  | true => exact (h.snoc_iff.mpr hev).endsOnce

/-- What a consumer has seen: what it took out, and `connection_lost` if it then found the channel
empty and closed. -/
def Streams.Saw (st : Streams) (c : RawIncomingStream) (chan : Chan) : Prop :=
  (c.seen = chan.log.take chan.read ∧ (c.finished = false ↔ AllData c.seen)) ∨
    c.finished = true ∧ c.seen = chan.log ++ [.failed .connectionLost] ∧ AllData chan.log ∧
      chan.read = chan.log.length ∧ ∀ e, st.incoming.get chan.stream = some e → e.tx ≠ c.rx

namespace Client

/-- One for a call that has the channel. -/
def callHolds (rx : Nat) (c : Call) : Nat := if c.channel.map Prod.snd = some rx then 1 else 0

/-- The parties that read from the channel or may yet: calls that have not returned, unclaimed
attachments, consumers. -/
def holders (v : Client) (rx : Nat) : Nat :=
  v.requests.calls.total (callHolds rx) +
    v.streams.attachments.total (fun _ p => if p.rx = rx then 1 else 0) +
    v.streams.consumers.total (fun c => if c.rx = rx then 1 else 0)

/-- Each channel has one holder at most, and nothing is taken out before there is a consumer.  The
channel of an entry holds as many chunks as the entry has counted. -/
structure Channels (v : Client) : Prop where
  holders_le : ∀ rx, v.holders rx ≤ if rx < v.streams.chans.size then 1 else 0
  call : ∀ i c x rx, v.requests.calls.get i = some c → c.channel = some (x, rx) →
    ∃ chan, v.streams.chans.get rx = some chan ∧ chan.stream = x ∧ chan.read = 0 ∧
      (c.isOpening = true → chan.log = [] ∧ ∀ e, v.streams.incoming.get x = some e → e.tx ≠ rx)
  attachment : ∀ x p, v.streams.attachments.get x = some p →
    ∃ chan, v.streams.chans.get p.rx = some chan ∧ chan.stream = x ∧ chan.read = 0
  consumer : ∀ k c, v.streams.consumers.get k = some c →
    ∃ chan, v.streams.chans.get c.rx = some chan ∧ chan.stream = c.streamId ∧
      v.streams.Saw c chan
  entry : ∀ x e, v.streams.incoming.get x = some e →
    ∃ chan, v.streams.chans.get e.tx = some chan ∧ chan.stream = x ∧ AllData chan.log ∧
      e.nextSeq = chan.log.length % 2 ^ 32
  chan : ∀ rx chan, v.streams.chans.get rx = some chan →
    chan.read ≤ chan.log.length ∧ EndsOnce chan.log

variable {cfg : Config} {v v' : Client}

section Holders

variable {rx : Nat}

theorem callHolds_eq_one {c : Call} {x : Nat} (h : c.channel = some (x, rx)) :
    callHolds rx c = 1 := by
  rw [callHolds, h]
  exact if_pos rfl

theorem callHolders_le (h : v.requests.KeepsChannels v'.requests) (rx : Nat) :
    v'.requests.calls.total (callHolds rx) ≤ v.requests.calls.total (callHolds rx) := by
  refine Arena.total_le_of_get fun i c' hc' => ?_
  rcases h i c' hc' with hnone | ⟨c, hc, hch, -⟩
  · exact .inl (by rw [callHolds, hnone]; rfl)
  · exact .inr ⟨c, hc, by rw [callHolds, hch, callHolds]⟩

theorem Channels.holders_le_one (h : v.Channels) (rx : Nat) : v.holders rx ≤ 1 :=
  (h.holders_le rx).trans (by split_ifs <;> omega)

theorem Channels.only_call (h : v.Channels) {i : Nat} {c : Call} {x : Nat}
    (hc : v.requests.calls.get i = some c) (hch : c.channel = some (x, rx)) :
    (∀ j c' x', v.requests.calls.get j = some c' → c'.channel = some (x', rx) → j = i) ∧
      (∀ y p, v.streams.attachments.get y = some p → p.rx ≠ rx) ∧
      ∀ k c', v.streams.consumers.get k = some c' → c'.rx ≠ rx := by
  have hle := h.holders_le_one rx
  unfold holders at hle
  have hself := Arena.le_total_of_get hc (callHolds rx)
  rw [callHolds_eq_one hch] at hself
  refine ⟨fun j c' x' hj hch' => ?_, fun y p hp hrx => ?_, fun k c' hk hrx => ?_⟩
  · by_contra hne
    have htwo := Arena.add_le_total hc hj (Ne.symm hne) (callHolds rx)
    rw [callHolds_eq_one hch, callHolds_eq_one hch'] at htwo
    omega
  · have hatt := Table.le_total_of_get hp (fun _ p => if p.rx = rx then 1 else 0)
    simp only [hrx, if_true] at hatt
    omega
  · have hcon := Arena.le_total_of_get hk (fun c => if c.rx = rx then 1 else 0)
    simp only [hrx, if_true] at hcon
    omega

theorem Channels.only_consumer (h : v.Channels) {k : Nat} {c : RawIncomingStream}
    (hk : v.streams.consumers.get k = some c) :
    (∀ i c' x, v.requests.calls.get i = some c' → c'.channel ≠ some (x, c.rx)) ∧
      (∀ y p, v.streams.attachments.get y = some p → p.rx ≠ c.rx) ∧
      ∀ k' c', v.streams.consumers.get k' = some c' → c'.rx = c.rx → k' = k := by
  have hle := h.holders_le_one c.rx
  unfold holders at hle
  have hself := Arena.le_total_of_get hk (fun c' => if c'.rx = c.rx then 1 else 0)
  simp only [if_true] at hself
  refine ⟨fun i c' x hi hch => ?_, fun y p hp hrx => ?_, fun k' c' hk' hrx => ?_⟩
  · have hcall := Arena.le_total_of_get hi (callHolds c.rx)
    rw [callHolds_eq_one hch] at hcall
    omega
  · have hatt := Table.le_total_of_get hp (fun _ p => if p.rx = c.rx then 1 else 0)
    simp only [hrx, if_true] at hatt
    omega
  · by_contra hne
    have htwo := Arena.add_le_total hk hk' (Ne.symm hne) (fun c' => if c'.rx = c.rx then 1 else 0)
    simp only [hrx, if_true] at htwo
    omega

end Holders

end Client

/-! ### What the changes keep -/

/-- No channel becomes registered. -/
def Streams.RegistersNone (st st' : Streams) : Prop :=
  ∀ x e', st'.incoming.get x = some e' → ∃ e, st.incoming.get x = some e ∧ e.tx = e'.tx

namespace Streams

variable {st st' : Streams} {c : RawIncomingStream} {chan : Chan}

theorem Saw.keep (h : st.Saw c chan)
    (hreg : ∀ e', st'.incoming.get chan.stream = some e' → e'.tx = c.rx →
      ∃ e, st.incoming.get chan.stream = some e ∧ e.tx = c.rx) : st'.Saw c chan := by
  rcases h with hsaw | ⟨hf, hseen, hdata, hread, hclosed⟩
  · exact .inl hsaw
  · refine .inr ⟨hf, hseen, hdata, hread, fun e' he' htx => ?_⟩
    obtain ⟨e, he, htx'⟩ := hreg e' he' htx
    exact hclosed e he htx'

theorem Saw.registersNone (h : st.Saw c chan) (hreg : st.RegistersNone st') : st'.Saw c chan := by
  refine h.keep fun e' he' htx => ?_
  obtain ⟨e, he, htx'⟩ := hreg _ e' he'
  exact ⟨e, he, htx'.trans htx⟩

theorem Saw.grow (h : st.Saw c chan) (hle : chan.read ≤ chan.log.length) {e : IncomingStreamEntry}
    (he : st.incoming.get chan.stream = some e) (htx : e.tx = c.rx) (ev : StreamEvent) :
    st'.Saw c { chan with log := chan.log ++ [ev] } := by
  rcases h with ⟨hseen, hdata⟩ | ⟨-, -, -, -, hclosed⟩
  · refine .inl ⟨?_, hdata⟩
    rw [hseen, List.take_append_of_le_length hle]
  · exact absurd htx (hclosed e he)

theorem registersNone_refl (st : Streams) : st.RegistersNone st := fun _ e he => ⟨e, he, rfl⟩

theorem registersNone_remove (st : Streams) (x : Nat) :
    st.RegistersNone { st with incoming := st.incoming.remove x } := by
  intro y e' he'
  exact ⟨e', (Table.get_of_get_remove he').2, rfl⟩

theorem Read.registersNone {cfg : Config} {cmds : List WriterCmd} (h : Read cfg st st' cmds) :
    st.RegistersNone st' := by
  cases h with
  | polled | closed | claimed => exact registersNone_refl _
  | canceled | swept => exact registersNone_remove _ _

end Streams

namespace Client.Channels

variable {cfg : Config} {v v' : Client} {x rx i : Nat} {e : IncomingStreamEntry} {chan : Chan}
  {c : Call}

theorem entry_of_tx (h : v.Channels) (he : v.streams.incoming.get x = some e) (htx : e.tx = rx)
    (hchan : v.streams.chans.get rx = some chan) :
    chan.stream = x ∧ AllData chan.log ∧ e.nextSeq = chan.log.length % 2 ^ 32 := by
  obtain ⟨chan', hchan', hrest⟩ := h.entry x e he
  rw [htx] at hchan'
  obtain rfl := Option.mem_unique hchan hchan'
  exact hrest

theorem shrink (h : v.Channels) (hr : v.requests.KeepsChannels v'.requests)
    (hentry : ∀ x e, v'.streams.incoming.get x = some e → v.streams.incoming.get x = some e)
    (hatt : ∀ x p, v'.streams.attachments.get x = some p → v.streams.attachments.get x = some p)
    (hatt' : ∀ rx, v'.streams.attachments.total (fun _ p => if p.rx = rx then 1 else 0) ≤
      v.streams.attachments.total (fun _ p => if p.rx = rx then 1 else 0))
    (hchans : v'.streams.chans = v.streams.chans)
    (hcons : v'.streams.consumers = v.streams.consumers) : v'.Channels where
  holders_le rx := by
    have hle := h.holders_le rx
    have hcalls := callHolders_le hr rx
    have ha := hatt' rx
    unfold holders at hle ⊢
    rw [hchans, hcons]
    omega
  call i c' x rx hc' hch := by
    obtain ⟨c, hc, hch, hop⟩ := hr.get hc' hch
    obtain ⟨chan, hchan, hx, hread, hopen⟩ := h.call i c x rx hc hch
    refine ⟨chan, hchans ▸ hchan, hx, hread, fun ho => ?_⟩
    obtain ⟨hlog, hne⟩ := hopen (hop ho)
    exact ⟨hlog, fun e he => hne e (hentry x e he)⟩
  attachment x p hp := by
    rw [hchans]
    exact h.attachment x p (hatt x p hp)
  consumer k c hk := by
    rw [hcons] at hk
    obtain ⟨chan, hchan, hx, hsaw⟩ := h.consumer k c hk
    exact ⟨chan, hchans ▸ hchan, hx, hsaw.registersNone fun x e he => ⟨e, hentry x e he, rfl⟩⟩
  entry x e he := by
    rw [hchans]
    exact h.entry x e (hentry x e he)
  chan rx chan hchan := h.chan rx chan (hchans ▸ hchan)

theorem settled (h : v.Channels) (hr : v.requests.KeepsChannels v'.requests)
    (hs : v'.streams = v.streams) : v'.Channels := by
  refine h.shrink hr ?_ ?_ ?_ ?_ ?_ <;> rw [hs]
  · exact fun _ _ he => he
  · exact fun _ _ hp => hp
  · exact fun _ => Nat.le_refl _

theorem removed (h : v.Channels) (hr : v.requests.KeepsChannels v'.requests)
    (hs : v'.streams = { v.streams with incoming := v.streams.incoming.remove x }) :
    v'.Channels := by
  refine h.shrink hr ?_ ?_ ?_ ?_ ?_ <;> rw [hs]
  · exact fun _ _ he => (Table.get_of_get_remove he).2
  · exact fun _ _ hp => hp
  · exact fun _ => Nat.le_refl _

theorem cleared (h : v.Channels) :
    ({ v with streams := { v.streams with attachments := .empty } } : Client).Channels := by
  refine h.shrink (Requests.keepsChannels_refl _) (fun _ _ he => he) (fun _ _ hp => ?_)
    (fun _ => Nat.zero_le _) rfl rfl
  cases hp

theorem began (h : v.Channels) (x : Nat) (method : String) (params : Payload) :
    (v.beginStreaming x method params).Channels where
  holders_le rx := by
    have hle := h.holders_le rx
    unfold holders at hle ⊢
    have hnew : (⟨method, params, .nil, some (x, v.streams.chans.size), 0, .waiting, .opening⟩ :
        Call).channel = some (x, v.streams.chans.size) := rfl
    simp only [beginStreaming, Arena.total_alloc, Arena.size_alloc, callHolds, hnew,
      Option.map_some, Option.some.injEq] at hle ⊢
    split_ifs at hle ⊢ <;> omega
  call i c y rx hc hch := by
    rcases Arena.get_alloc_cases hc with ⟨rfl, rfl⟩ | hget
    · obtain ⟨rfl, rfl⟩ : x = y ∧ v.streams.chans.size = rx := by simpa [Call.channel] using hch
      refine ⟨⟨x, [], 0⟩, by simp [beginStreaming], rfl, rfl, fun _ => ⟨rfl, fun e he htx => ?_⟩⟩
      -- an entry's channel is an old one
      obtain ⟨chan, hchan, -⟩ := h.entry x e he
      exact absurd (Arena.lt_size_of_get hchan) (by omega)
    · obtain ⟨chan, hchan, hrest⟩ := h.call i c y rx hget hch
      exact ⟨chan, Arena.get_alloc_of_get hchan _, hrest⟩
  attachment y p hp := by
    obtain ⟨chan, hchan, hrest⟩ := h.attachment y p hp
    exact ⟨chan, Arena.get_alloc_of_get hchan _, hrest⟩
  consumer k c hk := by
    obtain ⟨chan, hchan, hrest⟩ := h.consumer k c hk
    exact ⟨chan, Arena.get_alloc_of_get hchan _, hrest⟩
  entry y e he := by
    obtain ⟨chan, hchan, hrest⟩ := h.entry y e he
    exact ⟨chan, Arena.get_alloc_of_get hchan _, hrest⟩
  chan := Arena.forall_alloc h.chan ⟨Nat.le_refl 0, allData_nil.endsOnce⟩

theorem opened (h : v.Channels) (hc : v.requests.calls.get i = some c) (hpc : c.pc = .opening)
    (hs : c.stream = some (x, rx)) :
    ({ v.callPc i .numbering with
      streams := { v.streams with incoming := v.streams.incoming.insert x ⟨rx, 0⟩ } } :
      Client).Channels := by
  have hchc : c.channel = some (x, rx) := by simp [Call.channel, hpc, hs]
  obtain ⟨hcalls, hatts, hcons⟩ := h.only_call hc hchc
  obtain ⟨chan, hchan, hx, hread, hopen⟩ := h.call i c x rx hc hchc
  obtain ⟨hlog, -⟩ := hopen (by simp [Call.isOpening, hpc])
  have hkeep : v.requests.KeepsChannels (v.callPc i .numbering).requests :=
    Requests.keepsChannels_update hc (by simp [Call.channel, Call.isOpening, hpc])
  refine ⟨fun rx' => ?_, fun j c' y rx' hj hch => ?_, h.attachment, fun k c' hk => ?_,
    fun y e he => ?_, h.chan⟩
  · have hle := h.holders_le rx'
    have hcalls := callHolders_le hkeep rx'
    unfold holders at hle ⊢
    dsimp only
    have hst : (v.callPc i .numbering).streams = v.streams := rfl
    omega
  · obtain ⟨c₀, hc₀, hch, hop⟩ := hkeep.get hj hch
    obtain ⟨chan', hchan', hy, hread', hopen'⟩ := h.call j c₀ y rx' hc₀ hch
    refine ⟨chan', hchan', hy, hread', fun ho => ⟨(hopen' (hop ho)).1, fun e he htx => ?_⟩⟩
    rcases Table.get_insert_cases he with ⟨rfl, rfl⟩ | ⟨-, hold⟩
    · -- the new entry is the call's own, and that call is not opening any more
      obtain rfl := htx
      obtain rfl := hcalls j c₀ y hc₀ hch
      obtain rfl := Arena.eq_of_get_update hc hj
      cases ho
    · exact (hopen' (hop ho)).2 e hold htx
  · obtain ⟨chan', hchan', hy, hsaw⟩ := h.consumer k c' hk
    refine ⟨chan', hchan', hy, hsaw.keep fun e' he' htx => ?_⟩
    rcases Table.get_insert_cases he' with ⟨-, rfl⟩ | ⟨-, hold⟩
    · exact absurd htx.symm (hcons k c' hk)
    · exact ⟨e', hold, htx⟩
  · exact Table.forall_insert h.entry ⟨chan, hchan, hx, hlog ▸ allData_nil, hlog ▸ rfl⟩ y e he

theorem headed (h : v.Channels) (head : Payload) (hc : v.requests.calls.get i = some c)
    (hpc : c.pc = .parked) (hs : c.stream = some (x, rx)) :
    ({ v.callPc i (.returned (.ok head)) with
      streams := { v.streams with
        consumers := v.streams.consumers.alloc ⟨x, rx, false, false, []⟩ } } :
        Client).Channels := by
  have hchc : c.channel = some (x, rx) := by simp [Call.channel, hpc, hs]
  obtain ⟨chan, hchan, hx, hread, -⟩ := h.call i c x rx hc hchc
  have hkeep : v.requests.KeepsChannels (v.callPc i (.returned (.ok head))).requests :=
    Requests.keepsChannels_update_none _ i fun _ => rfl
  refine ⟨fun rx' => ?_, fun j c' y rx' hj hch => ?_, h.attachment, fun k c' hk => ?_, h.entry,
    h.chan⟩
  · -- the call hands its share over to the consumer
    have hle := h.holders_le rx'
    have hcalls := Arena.total_update hc ({ · with pc := .returned (.ok head) }) (callHolds rx')
    have hgone : callHolds rx' { c with pc := .returned (.ok head) } = 0 := rfl
    have hhad : callHolds rx' c = if rx = rx' then 1 else 0 := by simp [callHolds, hchc]
    unfold holders at hle ⊢
    simp only [callPc, updateCall, Requests.update, Arena.total_alloc]
    omega
  · obtain ⟨c₀, hc₀, hch, hop⟩ := hkeep.get hj hch
    obtain ⟨chan', hchan', hy, hread', hopen'⟩ := h.call j c₀ y rx' hc₀ hch
    exact ⟨chan', hchan', hy, hread', fun ho => hopen' (hop ho)⟩
  · refine Arena.forall_alloc h.consumer ⟨chan, hchan, hx, .inl ⟨?_, ?_⟩⟩ k c' hk
    · simp [hread]
    · exact iff_of_true rfl allData_nil

theorem claimed (h : v.Channels) {p : PendingAttachment}
    (hp : v.streams.attachments.get x = some p) :
    ({ v with streams := { v.streams with
        attachments := v.streams.attachments.remove x
        consumers := v.streams.consumers.alloc ⟨x, p.rx, false, false, []⟩ } } :
        Client).Channels := by
  obtain ⟨chan, hchan, hx, hread⟩ := h.attachment x p hp
  refine ⟨fun rx' => ?_, h.call, fun y p' hp' => ?_, fun k c' hk => ?_, h.entry, h.chan⟩
  · -- the attachment hands its share over to the consumer
    have hle := h.holders_le rx'
    have hatt := Table.total_remove_of_get hp (fun _ p => if p.rx = rx' then 1 else 0)
    unfold holders at hle ⊢
    simp only [Arena.total_alloc]
    omega
  · exact h.attachment y p' (Table.get_of_get_remove hp').2
  · refine Arena.forall_alloc h.consumer ⟨chan, hchan, hx, .inl ⟨?_, ?_⟩⟩ k c' hk
    · simp [hread]
    · exact iff_of_true rfl allData_nil

theorem swept (h : v.Channels) (x : Nat) :
    ({ v with streams := { v.streams with
        attachments := v.streams.attachments.remove x
        incoming := v.streams.incoming.remove x } } : Client).Channels := by
  refine h.shrink (Requests.keepsChannels_refl _)
    (fun _ _ he => (Table.get_of_get_remove he).2) (fun _ _ hp => (Table.get_of_get_remove hp).2)
    (fun _ => Table.total_remove_le _ _ _) rfl rfl

theorem dropped (h : v.Channels) (k : Nat) :
    ({ v with streams := { v.streams with
        consumers := v.streams.consumers.update k ({ · with dropped := true }) } } :
      Client).Channels := by
  refine ⟨fun rx => ?_, h.call, h.attachment, fun k' c' hk' => ?_, h.entry, h.chan⟩
  · have hle := h.holders_le rx
    have hcons : (v.streams.consumers.update k ({ · with dropped := true })).total
        (fun c => if c.rx = rx then 1 else 0) ≤
        v.streams.consumers.total (fun c => if c.rx = rx then 1 else 0) := by
      refine Arena.total_le_of_get fun j c' hc' => .inr ?_
      rcases Arena.get_update_cases hc' with ⟨rfl, c, hc, rfl⟩ | ⟨-, hj⟩
      · exact ⟨c, hc, Nat.le_refl _⟩
      · exact ⟨c', hj, Nat.le_refl _⟩
    unfold holders at hle ⊢
    dsimp only at hle ⊢
    omega
  · rcases Arena.get_update_cases hk' with ⟨rfl, c, hc, rfl⟩ | ⟨-, hj⟩
    · exact h.consumer k' c hc
    · exact h.consumer k' c' hj

theorem polled (h : v.Channels) {k : Nat} {c : RawIncomingStream}
    (hk : v.streams.consumers.get k = some c) (hf : c.finished = false)
    (hnext : v.streams.next c.rx = some ev) :
    ({ v with streams := v.streams.take k c.rx ev } : Client).Channels := by
  obtain ⟨chan, hchan, hx, hsaw⟩ := h.consumer k c hk
  obtain ⟨hcalls, hatts, hcons⟩ := h.only_consumer hk
  obtain ⟨hle, hends⟩ := h.chan c.rx chan hchan
  obtain ⟨hseen, hdata⟩ : c.seen = chan.log.take chan.read ∧ AllData c.seen := by
    rcases hsaw with ⟨hseen, hdata⟩ | ⟨hf', -⟩
    · exact ⟨hseen, hdata.mp hf⟩
    · rw [hf] at hf'
      cases hf'
  have hother {rx : Nat} {chan' : Chan} (hne : rx ≠ c.rx)
      (hget : v.streams.chans.get rx = some chan') :
      (v.streams.take k c.rx ev).chans.get rx = some chan' := by
    simp only [Streams.take, Arena.get_update, if_neg hne, hget]
  have hself : (v.streams.take k c.rx ev).chans.get c.rx =
      some { chan with read := min (chan.read + 1) chan.log.length } :=
    Arena.get_update_self hchan _
  refine ⟨fun rx => ?_, fun i c' x rx hi hch => ?_, fun x p hp => ?_, fun k' c' hk' => ?_,
    fun x e he => ?_, fun rx chan' hchan' => ?_⟩
  · have hle := h.holders_le rx
    have hcons := Arena.total_update hk
      (fun c => { c with seen := c.seen ++ [ev], finished := !ev.isData })
      (fun c => if c.rx = rx then 1 else 0)
    unfold holders at hle ⊢
    simp only [Streams.take, Arena.size_update] at hcons ⊢
    omega
  · have hne : rx ≠ c.rx := fun heq => hcalls i c' x hi (heq ▸ hch)
    obtain ⟨chan', hchan', hrest⟩ := h.call i c' x rx hi hch
    exact ⟨chan', hother hne hchan', hrest⟩
  · obtain ⟨chan', hchan', hrest⟩ := h.attachment x p hp
    exact ⟨chan', hother (hatts x p hp) hchan', hrest⟩
  · rcases Arena.get_update_known hk hk' with ⟨rfl, rfl⟩ | ⟨hne, hj⟩
    · refine ⟨_, hself, hx, ?_⟩
      unfold Streams.next at hnext
      rw [hchan] at hnext
      dsimp only at hnext
      split at hnext
      · -- the next event of the log
        rename_i ev' hev
        obtain rfl := Option.some.inj hnext
        obtain ⟨hlt, hget⟩ := List.getElem?_eq_some_iff.mp hev
        refine .inl ⟨?_, ?_⟩
        · rw [hseen, Nat.min_eq_left hlt, List.take_succ_eq_append_getElem hlt, hget]
        · show (!ev'.isData) = false ↔ _
          rw [Bool.not_eq_false', hdata.snoc_iff]
      · -- the channel is empty and closed
        rename_i hnone
        have hlen : chan.read = chan.log.length := by
          have := List.getElem?_eq_none_iff.mp hnone
          omega
        split_ifs at hnext with hopen
        obtain rfl := Option.some.inj hnext
        have hall : c.seen = chan.log := by rw [hseen, hlen, List.take_length]
        refine .inr ⟨rfl, by rw [hall], hall ▸ hdata, ?_, fun e he htx => hopen ?_⟩
        · show min (chan.read + 1) chan.log.length = chan.log.length
          omega
        · simp only [Streams.isOpen]
          have he' : v.streams.incoming.get chan.stream = some e := he
          have htx' : e.tx = c.rx := htx
          simp [he', htx']
    · obtain ⟨chan', hchan', hx', hsaw'⟩ := h.consumer k' c' hj
      exact ⟨chan', hother (fun heq => hne (hcons k' c' hj heq)) hchan', hx', hsaw'⟩
  · obtain ⟨chan', hchan', hx', hdata', hseq⟩ := h.entry x e he
    by_cases heq : e.tx = c.rx
    · rw [heq] at hchan'
      obtain rfl := Option.mem_unique hchan hchan'
      refine ⟨{ chan with read := min (chan.read + 1) chan.log.length }, ?_, hx', hdata', hseq⟩
      rw [heq]
      exact hself
    · exact ⟨chan', hother heq hchan', hx', hdata', hseq⟩
  · exact Arena.forall_update_known h.chan hchan ⟨Nat.min_le_right _ _, hends⟩ rx chan' hchan'

theorem read (h : v.Channels) (hr : v'.requests = v.requests) {cmds : List WriterCmd}
    (hread : Streams.Read cfg v.streams v'.streams cmds) : v'.Channels := by
  have hkeep : Requests.KeepsChannels v.requests v'.requests := by
    rw [hr]
    exact Requests.keepsChannels_refl _
  -- first what happens to the streams, then the rest of the state
  suffices hst : ({ v with streams := v'.streams } : Client).Channels by
    exact Client.Channels.settled hst hkeep rfl
  generalize v'.streams = st' at hread
  cases hread with
  | polled k c ev hk hf hd hnext => exact h.polled hk hf hnext
  | closed k c hk hd hf => exact h.dropped k
  | canceled k c hk hd hf =>
    exact (h.dropped k).removed (Requests.keepsChannels_refl _) rfl
  | claimed x p hp => exact h.claimed hp
  | swept x p hp => exact h.swept x

theorem append (h : v.Channels) {incoming : Table Nat IncomingStreamEntry}
    (he : v.streams.incoming.get x = some e)
    (hother : ∀ y, y ≠ x → incoming.get y = v.streams.incoming.get y)
    (hself : incoming.get x = none ∨ ev.isData = true ∧
      incoming.get x = some { e with nextSeq := (e.nextSeq + 1) % 2 ^ 32 }) :
    ({ v with streams := { v.streams.send e.tx ev with incoming := incoming } } :
      Client).Channels := by
  obtain ⟨chan, hchan, hx, hdata, hseq⟩ := h.entry x e he
  have hreg : ∀ y e', incoming.get y = some e' →
      ∃ e₀, v.streams.incoming.get y = some e₀ ∧ e₀.tx = e'.tx := by
    intro y e' he'
    by_cases hy : y = x
    · subst hy
      rcases hself with hnone | ⟨-, hsome⟩
      · rw [hnone] at he'
        cases he'
      · obtain rfl := Option.mem_unique hsome he'
        exact ⟨e, he, rfl⟩
    · exact ⟨e', (hother y hy).symm.trans he', rfl⟩
  have hget {rx : Nat} {chan' : Chan} (hc : v.streams.chans.get rx = some chan') :
      (v.streams.send e.tx ev).chans.get rx =
        some (if rx = e.tx then { chan' with log := chan'.log ++ [ev] } else chan') := by
    simp only [Streams.send, Arena.get_update]
    split_ifs with hrx
    · rw [← hrx, hc]
      rfl
    · exact hc
  refine ⟨fun rx => ?_, fun i c y rx hi hch => ?_, fun y p hp => ?_, fun k c hk => ?_,
    fun y e' he' => ?_, fun rx chan' hchan' => ?_⟩
  · have hle := h.holders_le rx
    unfold holders at hle ⊢
    simpa only [Streams.send, Arena.size_update] using hle
  · obtain ⟨chan', hchan', hy, hread, hopen⟩ := h.call i c y rx hi hch
    by_cases hrx : rx = e.tx
    · -- the channel of an opening call is not registered yet
      refine ⟨_, hget hchan', by rw [if_pos hrx]; exact hy, by rw [if_pos hrx]; exact hread,
        fun ho => ?_⟩
      subst hrx
      obtain rfl := Option.mem_unique hchan hchan'
      obtain rfl : x = y := hx.symm.trans hy
      exact absurd rfl ((hopen ho).2 e he)
    · refine ⟨chan', (hget hchan').trans (by rw [if_neg hrx]), hy, hread, fun ho => ?_⟩
      refine ⟨(hopen ho).1, fun e' he' htx => ?_⟩
      obtain ⟨e₀, he₀, htx'⟩ := hreg y e' he'
      exact (hopen ho).2 e₀ he₀ (htx'.trans htx)
  · obtain ⟨chan', hchan', hy, hread⟩ := h.attachment y p hp
    exact ⟨_, hget hchan', by split_ifs <;> exact hy, by split_ifs <;> exact hread⟩
  · obtain ⟨chan', hchan', hy, hsaw⟩ := h.consumer k c hk
    by_cases hrx : c.rx = e.tx
    · rw [hrx] at hchan'
      obtain rfl := Option.mem_unique hchan hchan'
      refine ⟨{ chan with log := chan.log ++ [ev] }, ?_, hy, ?_⟩
      · rw [hrx]
        exact (hget hchan).trans (by rw [if_pos rfl])
      · exact hsaw.grow (h.chan e.tx chan hchan).1 (hx.symm ▸ he) hrx.symm ev
    · refine ⟨chan', (hget hchan').trans (by rw [if_neg hrx]), hy, ?_⟩
      exact hsaw.keep fun e' he' htx => by
        obtain ⟨e₀, he₀, htx'⟩ := hreg _ e' he'
        exact ⟨e₀, he₀, htx'.trans htx⟩
  · by_cases hy : y = x
    · subst hy
      rcases hself with hnone | ⟨hev, hsome⟩
      · rw [hnone] at he'
        cases he'
      · obtain rfl := Option.mem_unique hsome he'
        refine ⟨{ chan with log := chan.log ++ [ev] }, (hget hchan).trans (by rw [if_pos rfl]), hx,
          hdata.snoc_iff.mpr hev, ?_⟩
        · simp only [List.length_append, List.length_singleton, hseq]
          omega
    · have hy' : v.streams.incoming.get y = some e' := (hother y hy).symm.trans he'
      obtain ⟨chan', hchan', hy'', hdata', hseq'⟩ := h.entry y e' hy'
      -- two entries with one channel would be of one stream
      have hrx : e'.tx ≠ e.tx := fun heq => hy ((h.entry_of_tx hy' heq hchan).1.symm.trans hx)
      exact ⟨chan', (hget hchan').trans (by rw [if_neg hrx]), hy'', hdata', hseq'⟩
  · rcases Arena.get_update_known hchan hchan' with ⟨rfl, rfl⟩ | ⟨-, hold⟩
    · refine ⟨?_, hdata.snoc_endsOnce ev⟩
      have := (h.chan e.tx chan hchan).1
      simp only [List.length_append, List.length_singleton]
      omega
    · exact h.chan rx chan' hold

theorem finish (h : v.Channels) (x : Nat) (ev : StreamEvent) :
    ({ v with streams := v.streams.finish x ev } : Client).Channels := by
  unfold Streams.finish
  split
  · refine h.append ‹_› (fun y hy => ?_) (.inl ?_)
    · rw [Table.get_remove, if_neg hy]
    · rw [Table.get_remove, if_pos rfl]
  · exact h

theorem accept (h : v.Channels) (x : Nat) (p : Nat × StreamEvent) :
    ({ v with streams := v.streams.accept x p } : Client).Channels := by
  unfold Streams.accept
  split
  · rename_i seq bytes
    unfold Streams.data
    split
    · rename_i e he
      split_ifs with hseq
      · exact h.finish x _
      · refine h.append he (fun y hy => ?_) (.inr ⟨rfl, ?_⟩)
        · rw [Table.get_insert, if_neg hy]
        · rw [Table.get_insert, if_pos rfl, not_not.mp hseq]
    · exact h
  · exact h.finish x _

theorem registered (h : v.Channels) (reference : AttachmentRef) :
    ({ v with streams := v.streams.registerOne reference } : Client).Channels := by
  unfold Streams.registerOne
  split_ifs with hsome
  · exact h
  have hnew {rx : Nat} {chan : Chan} (hc : v.streams.chans.get rx = some chan) :
      rx ≠ v.streams.chans.size := Nat.ne_of_lt (Arena.lt_size_of_get hc)
  refine ⟨fun rx => ?_, fun i c y rx hi hch => ?_, fun y p hp => ?_, fun k c hk => ?_,
    fun y e he => ?_, fun rx chan hchan => ?_⟩
  · have hle := h.holders_le rx
    have hatt := v.streams.attachments.total_remove_le reference.stream
      (fun _ p => if p.rx = rx then 1 else 0)
    unfold holders at hle ⊢
    simp only [Arena.size_alloc, Table.total_insert]
    split_ifs at hle ⊢ <;> omega
  · obtain ⟨chan, hchan, hy, hread, hopen⟩ := h.call i c y rx hi hch
    refine ⟨chan, Arena.get_alloc_of_get hchan _, hy, hread, fun ho => ⟨(hopen ho).1, ?_⟩⟩
    intro e he htx
    rcases Table.get_insert_cases he with ⟨-, rfl⟩ | ⟨-, hold⟩
    · exact hnew hchan htx.symm
    · exact (hopen ho).2 e hold htx
  · rcases Table.get_insert_cases hp with ⟨rfl, rfl⟩ | ⟨-, hold⟩
    · exact ⟨⟨reference.stream, [], 0⟩, by simp, rfl, rfl⟩
    · obtain ⟨chan, hchan, hrest⟩ := h.attachment y p hold
      exact ⟨chan, Arena.get_alloc_of_get hchan _, hrest⟩
  · obtain ⟨chan, hchan, hy, hsaw⟩ := h.consumer k c hk
    refine ⟨chan, Arena.get_alloc_of_get hchan _, hy, hsaw.keep fun e he htx => ?_⟩
    rcases Table.get_insert_cases he with ⟨-, rfl⟩ | ⟨-, hold⟩
    · exact absurd htx.symm (hnew hchan)
    · exact ⟨e, hold, htx⟩
  · rcases Table.get_insert_cases he with ⟨rfl, rfl⟩ | ⟨-, hold⟩
    · exact ⟨⟨reference.stream, [], 0⟩, by simp, rfl, allData_nil, rfl⟩
    · obtain ⟨chan, hchan, hrest⟩ := h.entry y e hold
      exact ⟨chan, Arena.get_alloc_of_get hchan _, hrest⟩
  · exact Arena.forall_alloc h.chan ⟨Nat.le_refl 0, allData_nil.endsOnce⟩ rx chan hchan

theorem get_drain {st : Streams} (hc : st.chans.get rx = some chan) :
    ∃ chan', st.drain.chans.get rx = some chan' ∧
      (chan' = { chan with log := chan.log ++ [.failed .connectionLost] } ∧
        (∃ x e, st.incoming.get x = some e ∧ e.tx = rx) ∨
      chan' = chan ∧ ∀ x e, st.incoming.get x = some e → e.tx ≠ rx) := by
  simp only [Streams.drain, Arena.get_updateAll, hc, Option.map_some]
  by_cases hmem : rx ∈ st.incoming.entries.map fun e => e.2.tx
  · obtain ⟨⟨x, e⟩, hxe, htx⟩ := List.mem_map.mp hmem
    refine ⟨_, rfl, .inl ⟨if_pos hmem, x, e, ?_, htx⟩⟩
    exact (st.incoming.mem_entries_iff x e).mp hxe
  · refine ⟨_, rfl, .inr ⟨if_neg hmem, fun x e he htx => hmem ?_⟩⟩
    exact List.mem_map.mpr ⟨(x, e), (st.incoming.mem_entries_iff x e).mpr he, htx⟩

theorem drained (h : v.Channels) : ({ v with streams := v.streams.drain } : Client).Channels := by
  refine ⟨fun rx => ?_, fun i c x rx hi hch => ?_, fun x p hp => ?_, fun k c hk => ?_,
    fun x e he => ?_, fun rx chan' hchan' => ?_⟩
  · have hle := h.holders_le rx
    unfold holders at hle ⊢
    simpa only [Streams.drain, Arena.size_updateAll] using hle
  · obtain ⟨chan, hchan, hx, hread, hopen⟩ := h.call i c x rx hi hch
    obtain ⟨chan', hchan', ⟨rfl, y, e, he, htx⟩ | ⟨rfl, -⟩⟩ := get_drain hchan
    · refine ⟨_, hchan', hx, hread, fun ho => ?_⟩
      -- the channel of an opening call is not registered yet
      obtain rfl : y = x := (h.entry_of_tx he htx hchan).1.symm.trans hx
      exact absurd htx ((hopen ho).2 e he)
    · exact ⟨chan', hchan', hx, hread, fun ho => ⟨(hopen ho).1, nofun⟩⟩
  · obtain ⟨chan, hchan, hx, hread⟩ := h.attachment x p hp
    obtain ⟨chan', hchan', ⟨rfl, -⟩ | ⟨rfl, -⟩⟩ := get_drain hchan
    · exact ⟨_, hchan', hx, hread⟩
    · exact ⟨_, hchan', hx, hread⟩
  · obtain ⟨chan, hchan, hx, hsaw⟩ := h.consumer k c hk
    obtain ⟨chan', hchan', ⟨rfl, y, e, he, htx⟩ | ⟨rfl, -⟩⟩ := get_drain hchan
    · refine ⟨_, hchan', hx, hsaw.grow (h.chan _ _ hchan).1 (e := e) ?_ htx _⟩
      exact (h.entry_of_tx he htx hchan).1 ▸ he
    · exact ⟨chan', hchan', hx, hsaw.keep nofun⟩
  · cases he
  · have hex : ∃ chan, v.streams.chans.get rx = some chan := by
      simp only [Streams.drain, Arena.get_updateAll, Option.map_eq_some_iff] at hchan'
      obtain ⟨chan, hchan, -⟩ := hchan'
      exact ⟨chan, hchan⟩
    obtain ⟨chan, hchan⟩ := hex
    obtain ⟨hle, hends⟩ := h.chan rx chan hchan
    obtain ⟨chan'', hchan'', ⟨rfl, y, e, he, htx⟩ | ⟨rfl, -⟩⟩ := get_drain hchan
    · obtain rfl := Option.mem_unique hchan'' hchan'
      refine ⟨?_, (h.entry_of_tx he htx hchan).2.1.snoc_endsOnce _⟩
      simp only [List.length_append, List.length_singleton]
      omega
    · obtain rfl := Option.mem_unique hchan'' hchan'
      exact ⟨hle, hends⟩

theorem change (h : v.Channels) (hc : Change cfg v v') : v'.Channels := by
  cases hc with
  | settled v' hr hs => exact h.settled hr hs
  | began x method params => exact h.began x method params
  | opened i c x rx hc hpc hs => exact h.opened hc hpc hs
  | headed i c x rx head hc hpc hs => exact h.headed head hc hpc hs
  | removed v' x hr hs => exact h.removed hr hs
  | read v' cmds hr hread => exact h.read hr hread
  | registered reference => exact h.registered reference
  | drained => exact h.drained
  | cleared => exact h.cleared

theorem changes (h : v.Channels) (hc : Changes cfg v v') : v'.Channels := by
  induction hc with
  | refl => exact h
  | tail _ hstep ih => exact ih.change hstep

theorem handle (h : v.Channels) (cfg : Config) (f : Frame) : (v.handle f).Channels := by
  rcases handle_cases cfg v f with ⟨x, p, -, -, heq⟩ | ⟨-, hc⟩
  · rw [heq]
    exact h.accept x p
  · exact h.changes hc

theorem start (served : Served) : (Shared.start served).client.Channels where
  holders_le rx := Nat.zero_le _
  call i c x rx hc := by cases hc
  attachment x p hp := by cases hp
  consumer k c hk := by cases hk
  entry x e he := by cases he
  chan rx chan hchan := by cases hchan

theorem step {s s' : Shared} {a : Act} (h : s.client.Channels) (hs : s.step cfg a = some s') :
    s'.client.Channels := by
  rcases Shared.changes_of_step hs with ⟨f, rfl⟩ | ⟨-, hc⟩
  · exact h.handle cfg f
  · exact h.changes hc

end Client.Channels

/-! ### One registration -/

/-- The channel has the stream's entry of `incoming`. -/
def Streams.Registered (st : Streams) (x rx : Nat) : Prop :=
  ∃ e, st.incoming.get x = some e ∧ e.tx = rx

variable {x rx : Nat} {parts : List (Nat × StreamEvent)} {chunks : List (List UInt8)}
  {cfg : Config} {s : Shared}

theorem Streams.RegistersNone.registered {st st' : Streams} (h : st.RegistersNone st')
    (hr : st'.Registered x rx) : st.Registered x rx := by
  obtain ⟨e', he', htx'⟩ := hr
  obtain ⟨e, he, htx⟩ := h x e' he'
  exact ⟨e, he, htx.trans htx'⟩

/-- A call is about to register the channel. -/
def Client.Opens (v : Client) (rx : Nat) : Prop :=
  ∃ i c x, v.requests.calls.get i = some c ∧ c.isOpening = true ∧ c.channel = some (x, rx)

namespace Client

variable {v v' : Client} {chan : Chan}

theorem opens_of_keepsChannels (h : v.requests.KeepsChannels v'.requests) (ho : v'.Opens rx) :
    v.Opens rx := by
  obtain ⟨i, c', x, hc', hop', hch'⟩ := ho
  obtain ⟨c, hc, hch, hop⟩ := h.get hc' hch'
  exact ⟨i, c, x, hc, hop hop', hch⟩

theorem Change.opens (h : Change cfg v v') (ho : v'.Opens rx) :
    v.Opens rx ∨ rx = v.streams.chans.size := by
  cases h with
  | settled v' hr | removed v' _ hr => exact .inl (opens_of_keepsChannels hr ho)
  | began x method params =>
    obtain ⟨i, c, y, hc, hop, hch⟩ := ho
    rcases Arena.get_alloc_cases hc with ⟨-, rfl⟩ | hget
    · obtain ⟨-, rfl⟩ : x = y ∧ v.streams.chans.size = rx := by simpa [Call.channel] using hch
      exact .inr rfl
    · exact .inl ⟨i, c, y, hget, hop, hch⟩
  | opened i c x rx' hc hpc hs =>
    refine .inl (opens_of_keepsChannels (Requests.keepsChannels_update hc ?_) ho)
    simp [Call.channel, Call.isOpening, hpc]
  | headed i c x rx' head hc hpc hs =>
    exact .inl (opens_of_keepsChannels (Requests.keepsChannels_update_none _ i fun _ => rfl) ho)
  | read v' cmds hr hread =>
    refine .inl (opens_of_keepsChannels ?_ ho)
    rw [hr]
    exact Requests.keepsChannels_refl _
  | registered | drained | cleared => exact .inl ho

theorem Change.registers (h : Change cfg v v') (hv : v.Channels) {x : Nat}
    (hreg : v'.streams.Registered x rx) : v.streams.Registered x rx ∨
      (v.Opens rx ∨ rx = v.streams.chans.size) ∧ ¬ v'.Opens rx ∧
        ∃ chan, v'.streams.chans.get rx = some chan ∧ chan.stream = x ∧ chan.log = [] := by
  cases h with
  | settled v' hr hs =>
    rw [hs] at hreg
    exact .inl hreg
  | opened i c y rx' hc hpc hs =>
    obtain ⟨e, he, htx⟩ := hreg
    rcases Table.get_insert_cases he with ⟨rfl, rfl⟩ | ⟨-, hold⟩
    · obtain rfl : rx' = rx := htx
      have hchc : c.channel = some (x, rx') := by simp [Call.channel, hpc, hs]
      have hop : c.isOpening = true := by simp [Call.isOpening, hpc]
      obtain ⟨chan, hchan, hx, -, hopen⟩ := hv.call i c x rx' hc hchc
      refine .inr ⟨.inl ⟨i, c, x, hc, hop, hchc⟩, ?_, chan, hchan, hx, (hopen hop).1⟩
      rintro ⟨j, c', y', hj, hop', hch⟩
      rcases Arena.get_update_cases hj with ⟨rfl, c₁, hc₁, rfl⟩ | ⟨hne, hget⟩
      · cases hop'
      · exact hne ((hv.only_call hc hchc).1 j c' y' hget hch)
    · exact .inl ⟨e, hold, htx⟩
  | removed v' y hr hs =>
    rw [hs] at hreg
    exact .inl ((Streams.registersNone_remove _ y).registered hreg)
  | read v' cmds hr hread => exact .inl (hread.registersNone.registered hreg)
  | registered reference =>
    unfold Streams.registerOne at hreg ⊢
    split_ifs at hreg ⊢
    · exact .inl hreg
    obtain ⟨e, he, htx⟩ := hreg
    rcases Table.get_insert_cases he with ⟨rfl, rfl⟩ | ⟨-, hold⟩
    · obtain rfl : v.streams.chans.size = rx := htx
      refine .inr ⟨.inr rfl, ?_, ⟨reference.stream, [], 0⟩, by simp, rfl, rfl⟩
      rintro ⟨j, c', y', hj, -, hch⟩
      obtain ⟨chan, hchan, -⟩ := hv.call j c' y' _ hj hch
      exact absurd (Arena.lt_size_of_get hchan) (Nat.lt_irrefl _)
    · exact .inl ⟨e, hold, htx⟩
  | drained =>
    obtain ⟨e, he, -⟩ := hreg
    cases he
  | began | headed | cleared => exact .inl hreg

/-- A channel keeps its log, which the drain may end. -/
theorem Change.get_chan (h : Change cfg v v') (hv : v.Channels)
    (hchan : v.streams.chans.get rx = some chan) :
    ∃ chan', v'.streams.chans.get rx = some chan' ∧ chan'.stream = chan.stream ∧
      (chan'.log = chan.log ∨ chan'.log = chan.log ++ [.failed .connectionLost] ∧
        v.streams.Registered chan.stream rx ∧ ¬ v'.streams.Registered chan.stream rx) := by
  cases h with
  | settled v' _ hs | removed v' _ _ hs => exact ⟨chan, by rw [hs]; exact hchan, rfl, .inl rfl⟩
  | began => exact ⟨chan, Arena.get_alloc_of_get hchan _, rfl, .inl rfl⟩
  | read v' cmds hr hread =>
    generalize v'.streams = st' at hread
    cases hread with
    | polled k c ev hk hf hd hnext =>
      by_cases hrx : rx = c.rx
      · subst hrx
        exact ⟨_, Arena.get_update_self hchan _, rfl, .inl rfl⟩
      · exact ⟨chan, by simp [Streams.take, Arena.get_update, hrx, hchan], rfl, .inl rfl⟩
    | _ => exact ⟨chan, hchan, rfl, .inl rfl⟩
  | registered reference =>
    unfold Streams.registerOne
    split_ifs
    · exact ⟨chan, hchan, rfl, .inl rfl⟩
    · exact ⟨chan, Arena.get_alloc_of_get hchan _, rfl, .inl rfl⟩
  | drained =>
    obtain ⟨chan', hchan', ⟨rfl, y, e, he, htx⟩ | ⟨rfl, -⟩⟩ := Channels.get_drain hchan
    · refine ⟨_, hchan', rfl, .inr ⟨rfl, ⟨e, (hv.entry_of_tx he htx hchan).1 ▸ he, htx⟩, ?_⟩⟩
      rintro ⟨e', he', -⟩
      cases he'
    · exact ⟨chan', hchan', rfl, .inl rfl⟩
  | opened | headed | cleared => exact ⟨chan, hchan, rfl, .inl rfl⟩

/-- A step without a frame for the stream leaves a registered channel its log, which the drain may
end. -/
structure Quiet (v v' : Client) (rx : Nat) (chan chan' : Chan) : Prop where
  get : v'.streams.chans.get rx = some chan'
  stream : chan'.stream = chan.stream
  opens : ¬ v'.Opens rx
  registered : v'.streams.Registered chan.stream rx → v.streams.Registered chan.stream rx
  log : chan'.log = chan.log ∨ chan'.log = chan.log ++ [.failed .connectionLost] ∧
    v.streams.Registered chan.stream rx ∧ ¬ v'.streams.Registered chan.stream rx

theorem Channels.quiet (h : v.Channels) (hc : Change cfg v v')
    (hchan : v.streams.chans.get rx = some chan) (ho : ¬ v.Opens rx) :
    ∃ chan', Quiet v v' rx chan chan' := by
  have hold : ¬ (v.Opens rx ∨ rx = v.streams.chans.size) := by
    rintro (ho' | rfl)
    · exact ho ho'
    · exact Nat.lt_irrefl _ (Arena.lt_size_of_get hchan)
  obtain ⟨chan', hchan', hstream, hlog⟩ := hc.get_chan h hchan
  refine ⟨chan', hchan', hstream, fun ho' => hold (hc.opens ho'), fun hreg => ?_, hlog⟩
  exact (hc.registers h hreg).resolve_right fun hnew => hold hnew.1

end Client

namespace Streams

variable {st : Streams} {y : Nat}

theorem registersNone_finish (st : Streams) (y : Nat) (ev : StreamEvent) :
    st.RegistersNone (st.finish y ev) := by
  unfold finish
  split
  · exact registersNone_remove _ y
  · exact fun _ e he => ⟨e, he, rfl⟩

theorem registersNone_accept (st : Streams) (y : Nat) (p : Nat × StreamEvent) :
    st.RegistersNone (st.accept y p) := by
  unfold accept
  split
  · unfold data
    split
    · rename_i e he
      split_ifs
      · exact registersNone_finish st y _
      · intro x e' he'
        rcases Table.get_insert_cases he' with ⟨rfl, rfl⟩ | ⟨-, hold⟩
        · exact ⟨e, he, rfl⟩
        · exact ⟨e', hold, rfl⟩
    · exact fun _ e he => ⟨e, he, rfl⟩
  · exact registersNone_finish st y _

theorem get_finish_other (h : ∀ e, st.incoming.get y = some e → e.tx ≠ rx) (ev : StreamEvent) :
    (st.finish y ev).chans.get rx = st.chans.get rx := by
  unfold finish
  split
  · rename_i e he
    simp only [send, Arena.get_update, if_neg (h e he).symm]
  · rfl

theorem get_accept_other (h : ∀ e, st.incoming.get y = some e → e.tx ≠ rx)
    (p : Nat × StreamEvent) : (st.accept y p).chans.get rx = st.chans.get rx := by
  unfold accept
  split
  · unfold data
    split
    · rename_i e he
      split_ifs
      · exact get_finish_other h _
      · simp only [send, Arena.get_update, if_neg (h e he).symm]
    · rfl
  · exact get_finish_other h _

end Streams

/-- The error of a chunk that left a gap. -/
def lagged (expected got : Nat) : WireError :=
  .new .streamLagged ("chunk gap: expected " ++ toString expected ++ " got " ++ toString got)

/-- The chunks with the numbers a sender gives them. -/
def numbered (chunks : List (List UInt8)) : List (Nat × StreamEvent) :=
  chunks.mapIdx fun i bytes => (i % 2 ^ 32, .data bytes)

theorem numbered_snoc (chunks : List (List UInt8)) (bytes : List UInt8) :
    numbered (chunks ++ [bytes]) =
      numbered chunks ++ [(chunks.length % 2 ^ 32, .data bytes)] := by
  simp [numbered, List.mapIdx_append]

/-- A registration is given some chunks of `parts` numbered from `0`, and then at most one terminal
event. -/
inductive Delivered (parts : List (Nat × StreamEvent)) :
    List (List UInt8) → Option StreamEvent → Prop
  | ongoing (chunks : List (List UInt8)) : numbered chunks <+: parts → Delivered parts chunks none
  | terminated (chunks : List (List UInt8)) (seq : Nat) (ev : StreamEvent) : ev.isData = false →
    numbered chunks ++ [(seq, ev)] <+: parts → Delivered parts chunks (some ev)
  | gap (chunks : List (List UInt8)) (seq : Nat) (bytes : List UInt8) :
    seq ≠ chunks.length % 2 ^ 32 → numbered chunks ++ [(seq, .data bytes)] <+: parts →
    Delivered parts chunks (some (.failed (lagged (chunks.length % 2 ^ 32) seq)))
  -- the connection was shut down
  | lost (chunks : List (List UInt8)) : numbered chunks <+: parts →
    Delivered parts chunks (some (.failed .connectionLost))

theorem Delivered.mono {parts' : List (Nat × StreamEvent)} {last : Option StreamEvent}
    (h : Delivered parts chunks last) (hp : parts <+: parts') : Delivered parts' chunks last := by
  cases h with
  | ongoing hpre => exact .ongoing _ (hpre.trans hp)
  | terminated seq ev hev hpre => exact .terminated _ seq ev hev (hpre.trans hp)
  | gap seq bytes hne hpre => exact .gap _ seq bytes hne (hpre.trans hp)
  | lost hpre => exact .lost _ (hpre.trans hp)

/-- The registration of `rx` under `x`, for which the `parts` have arrived. -/
structure Client.Registration (v : Client) (x rx : Nat) (parts : List (Nat × StreamEvent))
    (chunks : List (List UInt8)) (last : Option StreamEvent) : Prop where
  chan : ∃ chan, v.streams.chans.get rx = some chan ∧ chan.stream = x ∧
    chan.log = chunks.map .data ++ last.toList
  opens : ¬ v.Opens rx
  delivered : Delivered parts chunks last
  registered : v.streams.Registered x rx → last = none ∧ parts = numbered chunks

namespace Client.Registration

variable {v v' : Client} {last : Option StreamEvent}

theorem change (h : v.Registration x rx parts chunks last) (hv : v.Channels)
    (hc : Change cfg v v') : ∃ last', v'.Registration x rx parts chunks last' := by
  obtain ⟨chan, hchan, rfl, hlog⟩ := h.chan
  obtain ⟨chan', hq⟩ := hv.quiet hc hchan h.opens
  rcases hq.log with hsame | ⟨hlost, hreg, hnot⟩
  · exact ⟨last, ⟨chan', hq.get, hq.stream, hsame.trans hlog⟩, hq.opens, h.delivered,
      fun hr => h.registered (hq.registered hr)⟩
  · obtain ⟨rfl, hparts⟩ := h.registered hreg
    refine ⟨some (.failed .connectionLost), ⟨chan', hq.get, hq.stream, ?_⟩, hq.opens,
      .lost _ (hparts ▸ List.prefix_refl _), fun hr => absurd hr hnot⟩
    rw [hlost, hlog]
    simp

theorem changes (h : v.Registration x rx parts chunks last) (hv : v.Channels)
    (hc : Changes cfg v v') : ∃ last', v'.Registration x rx parts chunks last' := by
  induction hc with
  | refl => exact ⟨last, h⟩
  | tail hcs hstep ih =>
    obtain ⟨last', h'⟩ := ih
    exact h'.change (hv.changes hcs) hstep

theorem ended (h : v.Registration x rx parts chunks last) {e : IncomingStreamEntry}
    (he : v.streams.incoming.get x = some e) (htx : e.tx = rx) {p : Nat × StreamEvent}
    {ev : StreamEvent} (hd : Delivered (parts ++ [p]) chunks (some ev)) :
    ({ v with streams := v.streams.finish x ev } : Client).Registration x rx (parts ++ [p]) chunks
      (some ev) := by
  obtain ⟨chan, hchan, hx, hlog⟩ := h.chan
  obtain ⟨rfl, -⟩ := h.registered ⟨e, he, htx⟩
  refine ⟨⟨{ chan with log := chan.log ++ [ev] }, ?_, hx, ?_⟩, h.opens, hd, ?_⟩
  · simp only [Streams.finish, he, Streams.send, htx, Arena.get_update_self hchan]
  · simp [hlog]
  · rintro ⟨e', he', -⟩
    simp only [Streams.finish, he, Table.get_remove, if_true] at he'
    cases he'

theorem accept (h : v.Registration x rx parts chunks last) (hv : v.Channels)
    (p : Nat × StreamEvent) : ∃ chunks' last',
    ({ v with streams := v.streams.accept x p } : Client).Registration x rx (parts ++ [p]) chunks'
      last' := by
  obtain ⟨seq, ev⟩ := p
  obtain ⟨chan, hchan, hx, hlog⟩ := h.chan
  by_cases hreg : v.streams.Registered x rx
  · obtain ⟨e, he, htx⟩ := hreg
    obtain ⟨rfl, hparts⟩ := h.registered ⟨e, he, htx⟩
    have hseq := (hv.entry_of_tx he htx hchan).2.2
    have hlen : e.nextSeq = chunks.length % 2 ^ 32 := by rw [hseq, hlog]; simp
    cases ev with
    | done =>
      refine ⟨chunks, some .done, h.ended he htx (.terminated _ seq _ rfl ?_)⟩
      exact hparts ▸ List.prefix_refl _
    | failed error =>
      refine ⟨chunks, some (.failed error), h.ended he htx (.terminated _ seq _ rfl ?_)⟩
      exact hparts ▸ List.prefix_refl _
    | data bytes =>
      by_cases hnum : seq = e.nextSeq
      · -- the chunk that was due
        subst hnum
        have hnumbered : parts ++ [(e.nextSeq, .data bytes)] = numbered (chunks ++ [bytes]) := by
          rw [hparts, numbered_snoc, hlen]
        refine ⟨chunks ++ [bytes], none,
          ⟨{ chan with log := chan.log ++ [.data bytes] }, ?_, hx, ?_⟩, h.opens, .ongoing _ ?_,
          fun _ => ⟨rfl, ?_⟩⟩
        · simp only [Streams.accept, Streams.data, he, ne_eq, not_true_eq_false, if_false,
            Streams.send, htx, Arena.get_update_self hchan]
        · simp [hlog]
        · exact hnumbered ▸ List.prefix_refl _
        · exact hnumbered
      · refine ⟨chunks, some (.failed (lagged e.nextSeq seq)), ?_⟩
        have hst : v.streams.accept x (seq, .data bytes) =
            v.streams.finish x (.failed (lagged e.nextSeq seq)) := by
          simp only [Streams.accept, Streams.data, he, ne_eq, hnum, not_false_eq_true, if_true]
          rfl
        rw [hst]
        refine h.ended he htx ?_
        rw [hlen] at hnum ⊢
        exact .gap _ seq bytes hnum (hparts ▸ List.prefix_refl _)
  · -- nobody listens on this channel any more
    have hchans := Streams.get_accept_other (fun e he htx => hreg ⟨e, he, htx⟩) (seq, ev)
    refine ⟨chunks, last, ⟨chan, hchans.trans hchan, hx, hlog⟩, h.opens,
      h.delivered.mono (List.prefix_append _ _), fun hr => absurd ?_ hreg⟩
    exact (Streams.registersNone_accept _ x _).registered hr

theorem handle (h : v.Registration x rx parts chunks last) (hv : v.Channels) (cfg : Config)
    (f : Frame) : ∃ chunks' last',
    (v.handle f).Registration x rx (parts ++ (f.part x).toList) chunks' last' := by
  rcases handle_cases cfg v f with ⟨y, p, hpart, hother, heq⟩ | ⟨hnone, hc⟩
  · rw [heq]
    by_cases hy : x = y
    · subst hy
      rw [hpart]
      exact h.accept hv p
    rw [hother x hy]
    obtain ⟨chan, hchan, hx, hlog⟩ := h.chan
    -- the entry of another stream has another channel
    have hne : ∀ e, v.streams.incoming.get y = some e → e.tx ≠ rx :=
      fun e he htx => hy (hx.symm.trans (hv.entry_of_tx he htx hchan).1)
    have hchans := Streams.get_accept_other hne p
    refine ⟨chunks, last, ⟨chan, hchans.trans hchan, hx, hlog⟩, h.opens, ?_, fun hr => ?_⟩
    · rw [Option.toList_none, List.append_nil]
      exact h.delivered
    · rw [Option.toList_none, List.append_nil]
      exact h.registered ((Streams.registersNone_accept _ y p).registered hr)
  · rw [hnone x, Option.toList_none, List.append_nil]
    obtain ⟨last', h'⟩ := h.changes hv hc
    exact ⟨chunks, last', h'⟩

theorem step {s s' : Shared} {a : Act} {m : Nat} (hm : m ≤ s.received.length)
    (h : s.client.Registration x rx (flow x (s.received.drop m)) chunks last)
    (hv : s.client.Channels) (hs : s.step cfg a = some s') :
    m ≤ s'.received.length ∧ ∃ chunks' last',
      s'.client.Registration x rx (flow x (s'.received.drop m)) chunks' last' := by
  rcases Shared.changes_of_step hs with ⟨f, rfl⟩ | ⟨hrec, hc⟩
  · simp only [Shared.receive, List.length_append, List.length_singleton]
    refine ⟨by omega, ?_⟩
    rw [List.drop_append_of_le_length hm, flow_append, flow_singleton]
    exact h.handle hv cfg f
  · rw [hrec]
    obtain ⟨last', h'⟩ := h.changes hv hc
    exact ⟨hm, chunks, last', h'⟩

end Client.Registration

/-! ### Where a registration starts -/

/-- If the channel is registered, then only just. -/
def Client.Fresh (v : Client) (x rx : Nat) : Prop :=
  v.streams.Registered x rx → v.Registration x rx [] [] none

namespace Client

variable {v v' : Client}

theorem Fresh.change (h : v.Fresh x rx) (hv : v.Channels) (hc : Change cfg v v') :
    v'.Fresh x rx := by
  intro hreg'
  rcases hc.registers hv hreg' with hreg | ⟨-, hopens, hchan⟩
  · obtain ⟨last', h'⟩ := (h hreg).change hv hc
    obtain ⟨rfl, -⟩ := h'.registered hreg'
    exact h'
  · exact ⟨hchan, hopens, .ongoing _ (List.prefix_refl _), fun _ => ⟨rfl, rfl⟩⟩

theorem Fresh.changes (h : v.Fresh x rx) (hv : v.Channels) (hc : Changes cfg v v') :
    v'.Fresh x rx := by
  induction hc with
  | refl => exact h
  | tail hcs hstep ih => exact ih.change (hv.changes hcs) hstep

end Client

theorem Shared.fresh_of_step {s' : Shared} (hv : s.client.Channels) (hs : s.step cfg a = some s')
    (hnew : ¬ s.client.streams.Registered x rx) : s'.client.Fresh x rx := by
  have hfresh : s.client.Fresh x rx := fun hreg => absurd hreg hnew
  rcases Shared.changes_of_step hs with ⟨f, rfl⟩ | ⟨-, hc⟩
  · rcases Client.handle_cases cfg s.client f with ⟨y, p, -, -, heq⟩ | ⟨-, hc⟩
    · intro hreg'
      have hreg'' : (s.client.handle f).streams.Registered x rx := hreg'
      rw [heq] at hreg''
      exact absurd ((Streams.registersNone_accept _ y p).registered hreg'') hnew
    · exact hfresh.changes hv hc
  · exact hfresh.changes hv hc

/-! ### Along a run -/

instance (st : Streams) (x rx : Nat) : Decidable (st.Registered x rx) :=
  decidable_of_iff ((st.incoming.get x).map IncomingStreamEntry.tx = some rx)
    Option.map_eq_some_iff

theorem Client.Channels.run {served : Served} {as : List Act}
    (h : Run (Steps (Shared.step cfg)) (.start served) as s) : s.client.Channels :=
  h.state_invariant (I := fun s => s.client.Channels) (Client.Channels.start served)
    fun _ _ _ hv hs => hv.step hs

/-- From its registration on, a channel is given what is delivered of the frames that follow. -/
theorem Shared.registration_of_run {s₀ s₁ : Shared} {bs : List Act} (hv₀ : s₀.client.Channels)
    (ha : s₀.step cfg a = some s₁) (hnew : ¬ s₀.client.streams.Registered x rx)
    (hreg : s₁.client.streams.Registered x rx) (h : Run (Steps (Shared.step cfg)) s₁ bs s) :
    s.client.Channels ∧ ∃ chunks last,
      s.client.Registration x rx (flow x (s.received.drop s₁.received.length)) chunks last := by
  have hinv : s.client.Channels ∧ s₁.received.length ≤ s.received.length ∧ ∃ chunks last,
      s.client.Registration x rx (flow x (s.received.drop s₁.received.length)) chunks last := by
    refine h.state_invariant (I := fun s => s.client.Channels ∧
      s₁.received.length ≤ s.received.length ∧ ∃ chunks last, s.client.Registration x rx
        (flow x (s.received.drop s₁.received.length)) chunks last) ?_ ?_
    · refine ⟨hv₀.step ha, Nat.le_refl _, [], none, ?_⟩
      rw [List.drop_length]
      exact Shared.fresh_of_step hv₀ ha hnew hreg
    · rintro s b s' ⟨hv, hm, chunks, last, hr⟩ hs
      exact ⟨hv.step hs, hr.step hm hv hs⟩
  exact ⟨hinv.1, hinv.2.2⟩

theorem Delivered.last_not_data (h : Delivered parts chunks (some ev)) : ev.isData = false := by
  cases h <;> first | assumption | rfl

/-- **Received streams are contiguous and end once.**  A step of any run registers the channel `rx`
for the stream `x`, and then anything may happen.  The channel is given some chunks, which are the
first to arrive on the stream since and are numbered `0, 1, …` modulo `2 ^ 32`, and then at most one
terminal event: the terminator that arrived next, the error for a chunk with another number, or
`connection_lost`.  A consumer of the channel has seen the beginning of that, or all of it and
`connection_lost` in place of the terminal event. -/
theorem received_contiguous {cfg : Config} {served : Served} {as bs : List Act} {s₀ s₁ s : Shared}
    {a : Act} {x rx : Nat} (h₀ : Run (Steps (Shared.step cfg)) (.start served) as s₀)
    (ha : s₀.step cfg a = some s₁) (hnew : ¬ s₀.client.streams.Registered x rx)
    (hreg : s₁.client.streams.Registered x rx) (h : Run (Steps (Shared.step cfg)) s₁ bs s) :
    ∃ chan chunks last, s.client.streams.chans.get rx = some chan ∧
      chan.log = chunks.map .data ++ Option.toList last ∧
      Delivered (flow x (s.received.drop s₁.received.length)) chunks last ∧
      ∀ k c, s.client.streams.consumers.get k = some c → c.rx = rx →
        c.seen <+: chan.log ∨ c.seen = chan.log ++ [.failed .connectionLost] ∧ last = none := by
  obtain ⟨hv, chunks, last, hr⟩ :=
    Shared.registration_of_run (Client.Channels.run h₀) ha hnew hreg h
  obtain ⟨chan, hchan, -, hlog⟩ := hr.chan
  refine ⟨chan, chunks, last, hchan, hlog, hr.delivered, fun k c hk hrx => ?_⟩
  obtain ⟨chan', hchan', -, hsaw⟩ := hv.consumer k c hk
  rw [hrx] at hchan'
  obtain rfl := Option.mem_unique hchan hchan'
  rcases hsaw with ⟨hseen, -⟩ | ⟨-, hseen, hdata, -⟩
  · rw [hseen]
    exact .inl (List.take_prefix _ _)
  refine .inr ⟨hseen, ?_⟩
  rcases hlast : last with _ | ev
  · rfl
  -- a terminal event in the log is no chunk
  have hev := hr.delivered
  rw [hlast] at hev
  have hmem : ev ∈ chan.log := by
    rw [hlog, hlast]
    exact List.mem_append_right _ (List.mem_singleton.mpr rfl)
  exact absurd hev.last_not_data (by simp [hdata ev hmem])

/-- Chunk `1` of the stream `1` is lost: the chunk before it is delivered, then the error, and
nothing after it. -/
theorem received_contiguous_lostChunk :
    ∃ s₀ s₁ s : Shared, ∃ chan chunks last,
      Run (Steps (Shared.step (.bare .dialer .msgpack))) (.start .default)
        [.call (.callStreaming "fs.tail" .nil)] s₀ ∧
      s₀.step (.bare .dialer .msgpack) (.call (.run 0)) = some s₁ ∧
      Run (Steps (Shared.step (.bare .dialer .msgpack))) s₁
        [.receive (.streamData 1 0 [7]), .receive (.streamData 1 2 [9])] s ∧
      s.client.streams.chans.get 0 = some chan ∧
      chan.log = chunks.map .data ++ Option.toList last ∧ chan.log.length = 2 ∧
      Delivered (flow 1 (s.received.drop s₁.received.length)) chunks last := by
  let step := Shared.step (.bare .dialer .msgpack)
  obtain ⟨s₀, h₀, hnew, hrest⟩ := exists_run_of_exec step (.start .default)
    [.call (.callStreaming "fs.tail" .nil)]
    (fun s₀ => ¬ s₀.client.streams.Registered 1 0 ∧ (step s₀ (.call (.run 0))).any fun s₁ =>
      s₁.client.streams.Registered 1 0 ∧
      (exec step s₁ [.receive (.streamData 1 0 [7]), .receive (.streamData 1 2 [9])]).any fun s =>
        (s.client.streams.chans.get 0).any fun chan => chan.log.length = 2) rfl
  obtain ⟨s₁, ha, hs₁⟩ := (Option.any_eq_true _ _).mp hrest
  obtain ⟨hreg, hlast⟩ := of_decide_eq_true hs₁
  obtain ⟨s, hexec, hchan⟩ := (Option.any_eq_true _ _).mp hlast
  obtain ⟨chan₁, hget, hlen⟩ := (Option.any_eq_true _ _).mp hchan
  obtain ⟨chan, chunks, last, hget', hlog, hd, -⟩ :=
    received_contiguous h₀ ha hnew hreg (run_of_exec hexec)
  obtain rfl := Option.mem_unique hget hget'
  exact ⟨s₀, s₁, s, chan₁, chunks, last, h₀, ha, run_of_exec hexec, hget, hlog,
    of_decide_eq_true hlen, hd⟩

end Zyris.Core
