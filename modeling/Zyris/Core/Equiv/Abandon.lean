import Zyris.Core.Equiv.Incoming
import Zyris.Core.Equiv.Reason

/-!
# No receive entry outlives its consumer

Whoever gives the receiving half of a channel up takes the entry of `incoming` out as well, but for
a caller that drops the future of its call while it waits for the head (`entry_left_behind`): chunks
that arrive for it pile up in a channel nobody reads.
-/

namespace Zyris.Core

open Proto

/-- The channel whose receiving half the call has. -/
def Call.receiver (c : Call) : Option Nat :=
  match c.pc with
  | .returned _ => none
  | .dropped => none
  | _ => c.stream.map Prod.snd

/-- The call has the same stream and the same receiving half as before. -/
structure Call.SameEnd (c c' : Call) : Prop where
  stream : c'.stream = c.stream
  receiver : c'.receiver = c.receiver

theorem Call.sameEnd_refl (c : Call) : c.SameEnd c := ⟨rfl, rfl⟩

namespace Requests

variable {r : Requests} {i : Nat} {c : Call}

theorem sameEnd_settle (r : Requests) (is : List Nat) (f : Oneshot → Oneshot) :
    r.calls.Rel Call.SameEnd (r.settle is f).calls :=
  Arena.rel_updateAll Call.sameEnd_refl fun _ => ⟨rfl, rfl⟩

theorem sameEnd_update (hc : r.calls.get i = some c) {f : Call → Call} (hf : c.SameEnd (f c)) :
    r.calls.Rel Call.SameEnd (r.update i f).calls := by
  refine Arena.rel_update Call.sameEnd_refl fun c' hc' => ?_
  obtain rfl := Option.mem_unique hc hc'
  exact hf

end Requests

namespace Client

/-- A call, an unclaimed attachment or a `RawIncomingStream` has the receiving half. -/
def Received (v : Client) (rx : Nat) : Prop :=
  (∃ i c, v.requests.calls.get i = some c ∧ c.receiver = some rx) ∨
  (∃ x p, v.streams.attachments.get x = some p ∧ p.rx = rx) ∨
  ∃ k c, v.streams.consumers.get k = some c ∧ c.rx = rx ∧ c.dropped = false

/-- Every entry of `incoming` has a live receiving half. -/
def EntriesReceived (v : Client) : Prop :=
  ∀ x e, v.streams.incoming.get x = some e → v.Received e.tx

/-- The same, and the channel of a streaming call is one of its stream. -/
structure Owned (v : Client) : Prop where
  call : ∀ i c x rx, v.requests.calls.get i = some c → c.stream = some (x, rx) →
    ∃ chan, v.streams.chans.get rx = some chan ∧ chan.stream = x
  entry : v.EntriesReceived

variable {cfg : Config} {v v' : Client} {rx : Nat}

/-! ### Who has a receiving half afterwards -/

theorem Received.of_calls (h : v.Received rx)
    (hr : v.requests.calls.Rel Call.SameEnd v'.requests.calls) (hs : v'.streams = v.streams) :
    v'.Received rx := by
  rcases h with ⟨i, c, hc, hrx⟩ | ⟨x, p, hp, hrx⟩ | ⟨k, c, hk, hrx⟩
  · obtain ⟨c', hc', hsame⟩ := hr.get_right hc
    exact .inl ⟨i, c', hc', hsame.receiver.trans hrx⟩
  · exact .inr (.inl ⟨x, p, hs ▸ hp, hrx⟩)
  · exact .inr (.inr ⟨k, c, hs ▸ hk, hrx⟩)

/-- The channel of an entry is one of the entry's stream. -/
theorem Channels.stream_of_entry (h : v.Channels) {x : Nat} {e : IncomingStreamEntry} {chan : Chan}
    (he : v.streams.incoming.get x = some e) (hchan : v.streams.chans.get e.tx = some chan) :
    chan.stream = x := by
  obtain ⟨chan', hchan', hx, -⟩ := h.entry x e he
  obtain rfl := Option.mem_unique hchan hchan'
  exact hx

/-- A finished consumer's channel is not registered. -/
theorem Channels.tx_ne_of_finished (h : v.Channels) {k x : Nat} {c : RawIncomingStream}
    {e : IncomingStreamEntry} (hk : v.streams.consumers.get k = some c) (hf : c.finished = true)
    (he : v.streams.incoming.get x = some e) : e.tx ≠ c.rx := by
  intro htx
  obtain ⟨chan, hchan, -, hsaw⟩ := h.consumer k c hk
  obtain ⟨chan', hchan', hx, hdata, -⟩ := h.entry x e he
  rw [htx] at hchan'
  obtain rfl := Option.mem_unique hchan hchan'
  rcases hsaw with ⟨hseen, hiff⟩ | ⟨-, -, -, -, hclosed⟩
  · -- it has seen a terminal event, but the channel of an entry holds chunks only
    have hall : AllData c.seen := by
      rw [hseen]
      exact fun ev hev => hdata ev (List.mem_of_mem_take hev)
    rw [hiff.mpr hall] at hf
    cases hf
  · exact hclosed e (hx.symm ▸ he) htx

namespace Owned

/-! ### Calls -/

theorem settled {w : Client} (h : v.Owned)
    (hr : v.requests.calls.Rel Call.SameEnd w.requests.calls) (hs : w.streams = v.streams) :
    w.Owned where
  call i c' x rx hc' hst := by
    obtain ⟨c, hc, hsame⟩ := hr.get hc'
    rw [hs]
    exact h.call i c x rx hc (hsame.stream.symm.trans hst)
  entry x e he := (h.entry x e (hs ▸ he)).of_calls hr hs

theorem beginCall (h : v.Owned) (method : String) (params metadata : Payload) :
    (v.beginCall method params metadata).Owned where
  call i c x rx hc hst := by
    rcases Arena.get_alloc_cases hc with ⟨-, rfl⟩ | hget
    · cases hst
    · exact h.call i c x rx hget hst
  entry x e he := by
    rcases h.entry x e he with ⟨i, c, hc, hrx⟩ | hrest
    · exact .inl ⟨i, c, Arena.get_alloc_of_get hc _, hrx⟩
    · exact .inr hrest

theorem began (h : v.Owned) (x : Nat) (method : String) (params : Payload) :
    (v.beginStreaming x method params).Owned where
  call i c y rx hc hst := by
    rcases Arena.get_alloc_cases hc with ⟨-, rfl⟩ | hget
    · obtain ⟨rfl, rfl⟩ : x = y ∧ v.streams.chans.size = rx := by simpa using hst
      exact ⟨⟨x, [], 0⟩, by simp [beginStreaming], rfl⟩
    · obtain ⟨chan, hchan, hy⟩ := h.call i c y rx hget hst
      exact ⟨chan, Arena.get_alloc_of_get hchan _, hy⟩
  entry y e he := by
    rcases h.entry y e he with ⟨i, c, hc, hrx⟩ | hrest
    · exact .inl ⟨i, c, Arena.get_alloc_of_get hc _, hrx⟩
    · exact .inr hrest

variable {i : Nat} {c : Call} {st : Streams} {cmds : List WriterCmd}

theorem opened (h : v.Owned) {x rx : Nat} (hc : v.requests.calls.get i = some c)
    (hpc : c.pc = .opening) (hs : c.stream = some (x, rx)) :
    ({ v.callPc i .numbering with
      streams := { v.streams with incoming := v.streams.incoming.insert x ⟨rx, 0⟩ } } :
      Client).Owned := by
  have hr : v.requests.calls.Rel Call.SameEnd (v.callPc i .numbering).requests.calls :=
    Requests.sameEnd_update hc ⟨rfl, by simp [Call.receiver, hpc]⟩
  have hkept := h.settled (w := v.callPc i .numbering) hr rfl
  refine ⟨hkept.call, fun y e he => ?_⟩
  rcases Table.get_insert_cases he with ⟨-, rfl⟩ | ⟨-, hold⟩
  · exact .inl ⟨i, { c with pc := .numbering }, Arena.get_update_self hc _,
      by simp [Call.receiver, hs]⟩
  · exact hkept.entry y e hold

/-- A call is done with its channel, which has no entry any more or has found another owner. -/
theorem finished (h : v.Owned) {pc : CallPc} (hc : v.requests.calls.get i = some c)
    (hcalls : v'.requests = (v.callPc i pc).requests)
    (hchans : v'.streams.chans = v.streams.chans)
    (hatt : v'.streams.attachments = v.streams.attachments)
    (hentries : ∀ x e, v'.streams.incoming.get x = some e → v.streams.incoming.get x = some e)
    (hcons : ∀ k d, v.streams.consumers.get k = some d → v'.streams.consumers.get k = some d)
    (hgone : ∀ x e, v'.streams.incoming.get x = some e → c.receiver = some e.tx →
      v'.Received e.tx) :
    v'.Owned where
  call j d x rx hd hst := by
    rw [hcalls] at hd
    rw [hchans]
    rcases Arena.get_update_cases hd with ⟨rfl, d', hd', rfl⟩ | ⟨-, hget⟩
    · exact h.call j d' x rx hd' hst
    · exact h.call j d x rx hget hst
  entry x e he := by
    rcases h.entry x e (hentries x e he) with ⟨j, d, hd, hrx⟩ | ⟨y, p, hp, hrx⟩ | ⟨k, d, hk, hrx⟩
    · by_cases hj : j = i
      · subst hj
        obtain rfl := Option.mem_unique hc hd
        exact hgone x e he hrx
      · refine .inl ⟨j, d, ?_, hrx⟩
        rw [hcalls]
        simp only [callPc, updateCall, Requests.update, Arena.get_update, if_neg hj, hd]
    · exact .inr (.inl ⟨y, p, hatt ▸ hp, hrx⟩)
    · exact .inr (.inr ⟨k, d, hcons k d hk, hrx⟩)

theorem callStep {env : Env} {e : Emit} (h : v.Owned) (hv : v.Channels)
    (hc : v.requests.calls.get i = some c) (hs : CallStep cfg env v i c v' e) : v'.Owned := by
  -- the call takes itself out of `pending` and moves on
  have removed {pc : CallPc} (hpc : ∀ c' : Call, c.SameEnd c' → c'.SameEnd { c' with pc := pc }) :
      (Client.callPc { v with requests := v.requests.remove c.id } i pc).Owned := by
    have hset := h.settled (w := { v with requests := v.requests.remove c.id })
      (Requests.sameEnd_settle _ _ _) rfl
    obtain ⟨c', hc', hsame⟩ := (Requests.sameEnd_settle v.requests
      (v.requests.pending.get c.id).toList .drop).get_right hc
    exact hset.settled (Requests.sameEnd_update hc' (hpc c' hsame)) rfl
  cases hs with
  | opened x rx hpc hst => exact h.opened hc hpc hst
  | numbered hpc | pushed hpc _ | refused error hpc | streamFailed error x rx hpc _ hst =>
    exact h.settled (Requests.sameEnd_update hc ⟨rfl, by simp [Call.receiver, hpc]⟩) rfl
  | inserted hpc =>
    have hmoved := h.settled (w := v.callPc i .pushing)
      (Requests.sameEnd_update hc ⟨rfl, by simp [Call.receiver, hpc]⟩) rfl
    exact hmoved.settled (Requests.sameEnd_settle _ _ _) rfl
  | unsentUnary error hpc hst =>
    refine removed fun c' hsame => ⟨rfl, ?_⟩
    rw [hsame.receiver]
    simp [Call.receiver, hpc, hst]
  | unsentStream error x rx hpc hst =>
    refine removed fun c' hsame => ⟨rfl, ?_⟩
    rw [hsame.receiver]
    simp [Call.receiver, hpc, hsame.stream]
  | answered result hpc _ hst =>
    exact h.settled (Requests.sameEnd_update hc ⟨rfl, by simp [Call.receiver, hpc, hst]⟩) rfl
  | headed head x rx hpc _ hst =>
    refine h.finished hc rfl rfl rfl (fun _ _ he => he)
      (fun _ _ hk => Arena.get_alloc_of_get hk _) fun y e he hrx => ?_
    have htx : rx = e.tx := by simpa [Call.receiver, hpc, hst] using hrx
    exact .inr (.inr ⟨v.streams.consumers.size, ⟨x, rx, false, false, []⟩, by simp, htx, rfl⟩)
  | removed error x rx hpc hst =>
    refine h.finished hc rfl rfl rfl (fun _ _ he => (Table.get_of_get_remove he).2)
      (fun _ _ hk => hk) fun y e he hrx => ?_
    -- the entry that was there under another stream has another channel
    obtain ⟨hy, hold⟩ := Table.get_of_get_remove he
    have htx : rx = e.tx := by simpa [Call.receiver, hpc, hst] using hrx
    obtain ⟨chan, hchan, hx⟩ := h.call i c x rx hc hst
    rw [htx] at hchan
    exact absurd ((hv.stream_of_entry hold hchan).symm.trans hx) hy

theorem abandoned (h : v.Owned) (hc : v.requests.calls.get i = some c)
    (hno : ∀ x e, c.stream = some (x, e.tx) → v.streams.incoming.get x ≠ some e) (hv : v.Channels) :
    (v.callPc i .dropped).Owned := by
  refine h.finished hc rfl rfl rfl (fun _ _ he => he) (fun _ _ hk => hk) fun y e he hrx => ?_
  obtain ⟨x, hst⟩ : ∃ x, c.stream = some (x, e.tx) := by
    unfold Call.receiver at hrx
    split at hrx
    · cases hrx
    · cases hrx
    · obtain ⟨⟨x, rx⟩, hst, hrx⟩ := Option.map_eq_some_iff.mp hrx
      exact ⟨x, hst.trans (by rw [← hrx])⟩
  obtain ⟨chan, hchan, hx⟩ := h.call i c x e.tx hc hst
  obtain rfl : y = x := (hv.stream_of_entry he hchan).symm.trans hx
  exact absurd he (hno y e hst)

/-! ### Streams -/

theorem streams (h : v.Owned)
    (hchans : ∀ rx chan, v.streams.chans.get rx = some chan →
      ∃ chan', st.chans.get rx = some chan' ∧ chan'.stream = chan.stream)
    (hentries : ∀ x e, st.incoming.get x = some e →
      ({ v with streams := st } : Client).Received e.tx ∨
      ∃ e₀, v.streams.incoming.get x = some e₀ ∧ e₀.tx = e.tx)
    (hatt : ∀ x e y p, st.incoming.get x = some e → v.streams.attachments.get y = some p →
      p.rx = e.tx → ({ v with streams := st } : Client).Received e.tx)
    (hcons : ∀ x e k c, st.incoming.get x = some e → v.streams.consumers.get k = some c →
      c.rx = e.tx → c.dropped = false → ({ v with streams := st } : Client).Received e.tx) :
    ({ v with streams := st } : Client).Owned where
  call i c x rx hc hst := by
    obtain ⟨chan, hchan, hx⟩ := h.call i c x rx hc hst
    obtain ⟨chan', hchan', hsame⟩ := hchans rx chan hchan
    exact ⟨chan', hchan', hsame.trans hx⟩
  entry x e he := by
    rcases hentries x e he with hnew | ⟨e₀, he₀, htx⟩
    · exact hnew
    · rcases h.entry x e₀ he₀ with ⟨i, c, hc, hrx⟩ | ⟨y, p, hp, hrx⟩ | ⟨k, c, hk, hrx, hd⟩
      · exact .inl ⟨i, c, hc, hrx.trans (congrArg some htx)⟩
      · exact hatt x e y p he hp (hrx.trans htx)
      · exact hcons x e k c he hk (hrx.trans htx) hd

theorem read (h : v.Owned) (hv : v.Channels) (hread : Streams.Read cfg v.streams st cmds) :
    ({ v with streams := st } : Client).Owned := by
  have same (rx : Nat) (chan : Chan) (hchan : v.streams.chans.get rx = some chan) :
      ∃ chan', v.streams.chans.get rx = some chan' ∧ chan'.stream = chan.stream :=
    ⟨chan, hchan, rfl⟩
  cases hread with
  | polled k c ev hk hf hd hnext =>
    refine h.streams (fun rx chan hchan => ?_) (fun x e he => .inr ⟨e, he, rfl⟩)
      (fun x e y p _ hp hrx => .inr (.inl ⟨y, p, hp, hrx⟩)) fun x e j d _ hj hrx hdr => ?_
    · simp only [Streams.take, Arena.get_update]
      split_ifs with heq
      · rw [← heq, hchan]
        exact ⟨_, rfl, rfl⟩
      · exact ⟨chan, hchan, rfl⟩
    · by_cases hjk : j = k
      · subst hjk
        obtain rfl := Option.mem_unique hk hj
        exact .inr (.inr ⟨j, _, Arena.get_update_self hk _, hrx, hdr⟩)
      · refine .inr (.inr ⟨j, d, ?_, hrx, hdr⟩)
        simp only [Streams.take, Arena.get_update, if_neg hjk, hj]
  | closed k c hk hd hf =>
    refine h.streams same (fun x e he => .inr ⟨e, he, rfl⟩)
      (fun x e y p _ hp hrx => .inr (.inl ⟨y, p, hp, hrx⟩)) fun x e j d he hj hrx hdr => ?_
    have hjk : j ≠ k := by
      rintro rfl
      obtain rfl := Option.mem_unique hk hj
      exact hv.tx_ne_of_finished hk hf he hrx.symm
    refine .inr (.inr ⟨j, d, ?_, hrx, hdr⟩)
    simp only [Arena.get_update, if_neg hjk, hj]
  | canceled k c hk hd hf =>
    refine h.streams same (fun x e he => .inr ⟨e, (Table.get_of_get_remove he).2, rfl⟩)
      (fun x e y p _ hp hrx => .inr (.inl ⟨y, p, hp, hrx⟩)) fun x e j d he hj hrx hdr => ?_
    obtain ⟨hx, hold⟩ := Table.get_of_get_remove he
    have hjk : j ≠ k := by
      rintro rfl
      obtain rfl := Option.mem_unique hk hj
      obtain ⟨chan, hchan, hstream, -⟩ := hv.consumer j c hk
      rw [hrx] at hchan
      exact hx ((hv.stream_of_entry hold hchan).symm.trans hstream)
    refine .inr (.inr ⟨j, d, ?_, hrx, hdr⟩)
    simp only [Arena.get_update, if_neg hjk, hj]
  | claimed y p hp =>
    refine h.streams same (fun x e he => .inr ⟨e, he, rfl⟩) (fun x e z q he hq hrx => ?_)
      fun x e j d _ hj hrx hdr => .inr (.inr ⟨j, d, Arena.get_alloc_of_get hj _, hrx, hdr⟩)
    by_cases hz : z = y
    · subst hz
      obtain rfl := Option.mem_unique hp hq
      exact .inr (.inr ⟨v.streams.consumers.size, ⟨z, p.rx, false, false, []⟩, by simp, hrx,
        rfl⟩)
    · exact .inr (.inl ⟨z, q, by simp [hz, hq], hrx⟩)
  | swept y p hp =>
    refine h.streams same (fun x e he => .inr ⟨e, (Table.get_of_get_remove he).2, rfl⟩)
      (fun x e z q he hq hrx => ?_) fun x e j d _ hj hrx hdr => .inr (.inr ⟨j, d, hj, hrx, hdr⟩)
    obtain ⟨hx, hold⟩ := Table.get_of_get_remove he
    have hz : z ≠ y := by
      rintro rfl
      obtain ⟨chan, hchan, hstream, -⟩ := hv.attachment z q hq
      rw [hrx] at hchan
      exact hx ((hv.stream_of_entry hold hchan).symm.trans hstream)
    exact .inr (.inl ⟨z, q, by simp [hz, hq], hrx⟩)

theorem reads (h : v.Owned) (hv : v.Channels) (hreads : Streams.Reads cfg v.streams st cmds) :
    ({ v with streams := st } : Client).Owned := by
  suffices hboth : ({ v with streams := st } : Client).Channels ∧
      ({ v with streams := st } : Client).Owned from hboth.2
  induction hreads with
  | refl => exact ⟨hv, h⟩
  | tail st' st'' cmds cmds' _ hread ih =>
    have hchans : ({ v with streams := st'' } : Client).Channels := ih.1.read rfl hread
    exact ⟨hchans, ih.2.read ih.1 hread⟩

theorem registerOne (h : v.Owned) (hv : v.Channels) (reference : AttachmentRef) :
    ({ v with streams := v.streams.registerOne reference } : Client).Owned := by
  unfold Streams.registerOne
  split_ifs with hsome
  · exact h
  have hnone : v.streams.incoming.get reference.stream = none := by simpa using hsome
  refine h.streams (fun rx chan hchan => ⟨chan, Arena.get_alloc_of_get hchan _, rfl⟩)
    (fun x e he => ?_) (fun x e y p he hp hrx => ?_)
    fun x e j d _ hj hrx hdr => .inr (.inr ⟨j, d, hj, hrx, hdr⟩)
  · rcases Table.get_insert_cases he with ⟨-, rfl⟩ | ⟨-, hold⟩
    · exact .inl (.inr (.inl ⟨reference.stream, ⟨reference, v.streams.chans.size⟩,
        by simp, rfl⟩))
    · exact .inr ⟨e, hold, rfl⟩
  by_cases hy : y = reference.stream
  · -- the attachment that was there under the stream has no entry any more
    subst hy
    rcases Table.get_insert_cases he with ⟨-, rfl⟩ | ⟨-, hold⟩
    · exact .inr (.inl ⟨reference.stream, ⟨reference, v.streams.chans.size⟩, by simp, rfl⟩)
    · obtain ⟨chan, hchan, hstream, -⟩ := hv.attachment _ p hp
      rw [hrx] at hchan
      obtain rfl : x = reference.stream := (hv.stream_of_entry hold hchan).symm.trans hstream
      rw [hnone] at hold
      cases hold
  · exact .inr (.inl ⟨y, p, by simp [hy, hp], hrx⟩)

theorem register (h : v.Owned) (hv : v.Channels) (references : List AttachmentRef) :
    ({ v with streams := v.streams.register references } : Client).Owned := by
  induction references generalizing v with
  | nil => exact h
  | cons reference rest ih =>
    exact ih (v := { v with streams := v.streams.registerOne reference })
      (h.registerOne hv reference) (hv.registered reference)

theorem accept (h : v.Owned) (x : Nat) (p : Nat × StreamEvent) :
    ({ v with streams := v.streams.accept x p } : Client).Owned := by
  obtain ⟨hatt, hcons⟩ := v.streams.accept_frame x p
  have hchans : ∀ rx chan, v.streams.chans.get rx = some chan →
      ∃ chan', (v.streams.accept x p).chans.get rx = some chan' ∧ chan'.stream = chan.stream := by
    have hsend (tx : Nat) (ev : StreamEvent) (rx : Nat) (chan : Chan)
        (hchan : v.streams.chans.get rx = some chan) :
        ∃ chan', (v.streams.send tx ev).chans.get rx = some chan' ∧
          chan'.stream = chan.stream := by
      simp only [Streams.send, Arena.get_update]
      split_ifs with heq
      · rw [← heq, hchan]
        exact ⟨_, rfl, rfl⟩
      · exact ⟨chan, hchan, rfl⟩
    have hkeep (rx : Nat) (chan : Chan) (hchan : v.streams.chans.get rx = some chan) :
        ∃ chan', v.streams.chans.get rx = some chan' ∧ chan'.stream = chan.stream :=
      ⟨chan, hchan, rfl⟩
    unfold Streams.accept Streams.data Streams.finish
    repeat' split
    all_goals first | exact hsend _ _ | exact hkeep
  refine h.streams hchans (fun y e he => .inr ?_)
    (fun y e z q _ hq hrx => .inr (.inl ⟨z, q, by rwa [hatt], hrx⟩))
    fun y e j d _ hj hrx hdr => .inr (.inr ⟨j, d, by rwa [hcons], hrx, hdr⟩)
  exact Streams.registersNone_accept _ x p y e he

theorem handle (h : v.Owned) (hv : v.Channels) (f : Frame) : (v.handle f).Owned := by
  unfold Client.handle
  split
  · exact (h.register hv _).settled (Requests.sameEnd_settle _ _ _) rfl
  · exact h.settled (Requests.sameEnd_settle _ _ _) rfl
  · exact h.accept _ (0, .done)
  · exact h.accept _ (0, .failed _)
  · exact h.accept _ (_, .data _)
  · exact h

end Owned

end Client

/-! ### Along a run -/

/-- The caller drops the future of a streaming call whose entry is in `incoming`. -/
def abandons (s : Shared) : Act → Bool
  | .call (.drop i) =>
    match (s.client.requests.calls.get i).bind Call.stream with
    | some (x, rx) => s.client.streams.Registered x rx
    | none => false
  | _ => false

namespace Shared

variable {cfg : Config} {s s' : Shared}

theorem owned_step {a : Act} (hs : s.step cfg a = some s') (ha : abandons s a = false)
    (hopen : s'.NoShutdown) (hv : s.client.Channels) (h : s.client.Owned) :
    s'.client.Owned := by
  cases acts_of_step hs with
  | call hstep =>
    rcases Client.callStep_cases hstep with ⟨method, params, metadata, -, rfl, -⟩ |
      ⟨method, params, -, rfl, -⟩ | ⟨i, c, -, hc, hrun⟩ | ⟨i, c, rfl, hc, -, rfl, -⟩
    · exact h.beginCall method params metadata
    · exact h.began _ method params
    · exact h.callStep hv hc hrun
    · refine h.abandoned hc (fun x e hst he => ?_) hv
      simp only [abandons, hc, Option.bind_some, hst, decide_eq_false_iff_not] at ha
      exact ha ⟨e, he, rfl⟩
  | @stream _ c _ hstep =>
    obtain ⟨hr, -, hreads⟩ := Client.streamStep_reads hstep
    refine (h.reads hv hreads).settled (w := c) ?_ rfl
    rw [hr]
    exact Arena.rel_refl Call.sameEnd_refl _
  | announced => exact h.beginCall _ _ _
  | receive => exact h.handle hv _
  | shutdownRun => exact absurd rfl ((NoShutdown.of_step hs hopen).2 _)
  | _ => exact h

theorem owned_start (served : Served) : (Shared.start served).client.Owned where
  call i c x rx hc := by cases hc
  entry x e he := by cases he

end Shared

/-- **Every receive entry has a consumer as long as no caller gives up a streaming call before its
head.**  If no shutdown comes and no caller drops the future of a streaming call that is in
`incoming`, every entry there has a live receiving half: with a call that has not returned, in
`attachments`, or in a `RawIncomingStream`. -/
theorem entries_received {cfg : Config} {served : Served} {as : List Act} {s : Shared}
    (h : Run (Guarded (Steps (Shared.step cfg)) fun s a => abandons s a = false) (.start served)
      as s)
    (hopen : s.NoShutdown) : s.client.EntriesReceived := by
  have hinv : s.client.Channels ∧ (s.NoShutdown → s.client.Owned) := by
    refine h.state_invariant
      (I := fun s => s.client.Channels ∧ (s.NoShutdown → s.client.Owned))
      ⟨Client.Channels.start served, fun _ => Shared.owned_start served⟩ ?_
    rintro s a s' ⟨hv, hown⟩ ⟨hstep, ha⟩
    refine ⟨hv.step hstep, fun hopen' => ?_⟩
    exact Shared.owned_step hstep ha hopen' hv (hown (Shared.NoShutdown.of_step hstep hopen').1)
  exact (hinv.2 hopen).entry

/-- One stream is opened and its consumer given a chunk; a second one waits for its head. -/
def oneStreamOneWaiting : List Act :=
  [.call (.callStreaming "fs.tail" .nil)] ++ List.replicate 4 (.call (.run 0)) ++
    [.receive (.control (.res 1 .nil)), .call (.run 0), .receive (.streamData 1 0 [7]),
      .stream (.poll 0), .call (.callStreaming "fs.tail" .nil)] ++
    List.replicate 4 (.call (.run 1))

theorem entries_received_oneStreamOneWaiting :
    ∃ s, Run (Guarded (Steps (Shared.step (.bare .dialer .msgpack)))
        fun s a => abandons s a = false) (.start .default) oneStreamOneWaiting s ∧
      s.NoShutdown ∧ s.client.streams.Registered 1 0 ∧ s.client.streams.Registered 3 1 ∧
      s.client.EntriesReceived := by
  obtain ⟨s, hrun, hopen, h1, h3⟩ := exists_run_of_execOk (Shared.step (.bare .dialer .msgpack))
    (fun s a => !abandons s a) (.start .default) oneStreamOneWaiting
    (fun s => s.closing.shutdowns.size = 0 ∧ s.client.streams.Registered 1 0 ∧
      s.client.streams.Registered 3 1) rfl
  have hrun' : Run (Guarded (Steps (Shared.step (.bare .dialer .msgpack)))
      fun s a => abandons s a = false) (.start .default) oneStreamOneWaiting s :=
    hrun.mono fun _ _ _ hstep => ⟨hstep.1, by simpa using hstep.2⟩
  exact ⟨s, hrun', hopen, h1, h3, entries_received hrun' hopen⟩

/-- The caller drops a streaming call that waits for its head: the entry stays, and the receiving
half is gone. -/
theorem entry_left_behind :
    ∃ s e, Run (Steps (Shared.step (.bare .dialer .msgpack))) (.start .default)
        ([.call (.callStreaming "fs.tail" .nil)] ++ List.replicate 4 (.call (.run 0)) ++
          [.call (.drop 0)]) s ∧
      s.NoShutdown ∧ s.client.streams.incoming.get 1 = some e ∧ ¬ s.client.Received e.tx := by
  refine ⟨_, _, run_of_exec rfl, rfl, rfl, ?_⟩
  rintro (⟨i, c, hc, hrx⟩ | ⟨x, p, hp, -⟩ | ⟨k, c, hk, -⟩)
  · obtain rfl := List.mem_singleton.mp (Arena.mem_objects_of_get hc)
    cases hrx
  · cases hp
  · cases hk

end Zyris.Core
