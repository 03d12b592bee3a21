import Zyris.Core.Equiv.Step

/-!
# What a step of the callers' half can do

`Client.CallStep` is what comes next in a call.  A step on the streams is a sequence of
`Streams.Read`s, mostly one; a `hydrate` may claim a stream, or read from it, and drop it at once.
-/

namespace Zyris.Core

open Proto

/-! ### Streams -/

/-- The command only manages a stream's credit. -/
inductive WriterCmd.Grants : WriterCmd → Prop
  | credit (stream n : Nat) : Grants (.send (.control (.sCredit stream n)))
  | cancel (stream : Nat) : Grants (.send (.control (.sCancel stream)))

namespace Streams

/-- What the consumer's side can do to the streams, with what it sends. -/
inductive Read (cfg : Config) (st : Streams) : Streams → List WriterCmd → Prop
  | polled (k : Nat) (c : RawIncomingStream) (ev : StreamEvent) : st.consumers.get k = some c →
    c.finished = false → c.dropped = false → st.next c.rx = some ev →
    Read cfg st (st.take k c.rx ev) (Client.creditFor cfg c.streamId ev)
  | closed (k : Nat) (c : RawIncomingStream) : st.consumers.get k = some c → c.dropped = false →
    c.finished = true →
    Read cfg st { st with consumers := st.consumers.update k ({ · with dropped := true }) } []
  | canceled (k : Nat) (c : RawIncomingStream) : st.consumers.get k = some c → c.dropped = false →
    c.finished = false →
    Read cfg st
      { st with
        incoming := st.incoming.remove c.streamId
        consumers := st.consumers.update k ({ · with dropped := true }) }
      (cfg.encode (.sCancel c.streamId))
  | claimed (stream : Nat) (p : PendingAttachment) : st.attachments.get stream = some p →
    Read cfg st
      { st with
        attachments := st.attachments.remove stream
        consumers := st.consumers.alloc ⟨stream, p.rx, false, false, []⟩ } []
  | swept (stream : Nat) (p : PendingAttachment) : st.attachments.get stream = some p →
    Read cfg st
      { st with
        attachments := st.attachments.remove stream
        incoming := st.incoming.remove stream }
      (cfg.encode (.sCancel stream))

/-- Any number of reads. -/
inductive Reads (cfg : Config) (st : Streams) : Streams → List WriterCmd → Prop
  | refl : Reads cfg st st []
  | tail (st' st'' : Streams) (cmds cmds' : List WriterCmd) : Reads cfg st st' cmds →
    Read cfg st' st'' cmds' → Reads cfg st st'' (cmds ++ cmds')

variable {cfg : Config} {st st' st'' : Streams} {cmds cmds' : List WriterCmd}

theorem Read.reads (h : Read cfg st st' cmds) : Reads cfg st st' cmds :=
  .tail st st' [] cmds .refl h

theorem Reads.trans (h : Reads cfg st st' cmds) (h' : Reads cfg st' st'' cmds') :
    Reads cfg st st'' (cmds ++ cmds') := by
  induction h' with
  | refl => rwa [List.append_nil]
  | tail a b c d _ hr ih =>
    rw [← List.append_assoc]
    exact .tail _ _ _ _ ih hr

theorem Reads.grants (h : Reads cfg st st' cmds) : ∀ c ∈ cmds, c.Grants := by
  induction h with
  | refl =>
    intro c hc
    cases hc
  | tail _ _ cmds cmds' _ hr ih =>
    intro c hc
    rcases List.mem_append.mp hc with hc | hc
    · exact ih c hc
    cases hr with
    | polled k r ev =>
      cases ev with
      | data bytes => exact mem_encode hc ▸ .credit _ _
      | _ => cases hc
    | canceled | swept => exact mem_encode hc ▸ .cancel _
    | _ => cases hc

end Streams

theorem Client.reaction_grants (cfg : Config) (v : Client) (f : Frame) :
    ∀ c ∈ v.reaction cfg f, c.Grants := by
  intro c hc
  unfold Client.reaction at hc
  split at hc
  · split_ifs at hc
    · exact mem_encode hc ▸ .cancel _
    · cases hc
  · cases hc

namespace Client

variable {cfg : Config} {env : Env} {v v' : Client} {e : Emit}

theorem pollNext_reads {k : Nat} {ev : StreamEvent} (h : v.pollNext cfg k = some (ev, v', e)) :
    v'.requests = v.requests ∧ v'.hydrations = v.hydrations ∧ e.allocs = 0 ∧
      ∃ c, v.streams.consumers.get k = some c ∧ c.finished = false ∧ c.dropped = false ∧
        v.streams.next c.rx = some ev ∧ v'.streams = v.streams.take k c.rx ev ∧
        e.cmds = creditFor cfg c.streamId ev := by
  unfold pollNext at h
  split at h
  · rename_i c hc
    split_ifs at h with hf
    split at h <;> cases h
    simp only [Bool.or_eq_true, not_or, Bool.not_eq_true] at hf
    exact ⟨rfl, rfl, rfl, c, hc, hf.1, hf.2, ‹_›, rfl, rfl⟩
  · cases h

theorem dropStream_reads {k : Nat} (h : v.dropStream cfg k = some (v', e)) :
    v'.requests = v.requests ∧ v'.hydrations = v.hydrations ∧ e.allocs = 0 ∧
      Streams.Read cfg v.streams v'.streams e.cmds := by
  simp only [dropStream] at h
  split at h
  · rename_i c hc
    split_ifs at h with hd hf
    · cases h
      exact ⟨rfl, rfl, rfl, .closed k c hc (by simpa using hd) hf⟩
    · cases h
      exact ⟨rfl, rfl, rfl, .canceled k c hc (by simpa using hd) (by simpa using hf)⟩
  · cases h

theorem hydrateFail_reads {x k : Nat} {pc : HydratePc} {cmds : List WriterCmd}
    (h : v.hydrateFail cfg x k pc cmds = some (v', e)) :
    v'.requests = v.requests ∧
      v'.hydrations = v.hydrations.update x ({ · with pc := pc }) ∧ e.allocs = 0 ∧
      ∃ cmds', Streams.Read cfg v.streams v'.streams cmds' ∧ e.cmds = cmds ++ cmds' := by
  unfold hydrateFail at h
  split at h <;> cases h
  obtain ⟨hr, hh, -, hread⟩ := dropStream_reads ‹_›
  refine ⟨hr, ?_, rfl, _, hread, rfl⟩
  simp only [hydratePc, hh]

theorem hydrateFail_after {w : Client} {x k : Nat} {pc : HydratePc} {cmds : List WriterCmd}
    (hr : w.requests = v.requests) (hreads : Streams.Reads cfg v.streams w.streams cmds)
    (h : w.hydrateFail cfg x k pc cmds = some (v', e)) :
    v'.requests = v.requests ∧ e.allocs = 0 ∧ Streams.Reads cfg v.streams v'.streams e.cmds := by
  obtain ⟨hr', -, ha, cmds', hdrop, he⟩ := hydrateFail_reads h
  refine ⟨hr'.trans hr, ha, ?_⟩
  rw [he]
  exact hreads.trans hdrop.reads

theorem attachment_reads (cfg : Config) {stream : Nat} {reference : AttachmentRef}
    (h : v.attachment stream = some (reference, v')) :
    v'.requests = v.requests ∧ v'.hydrations = v.hydrations ∧
      Streams.Read cfg v.streams v'.streams [] ∧
      ∃ p, v.streams.attachments.get stream = some p ∧ p.reference = reference ∧
        v'.streams = { v.streams with
          attachments := v.streams.attachments.remove stream
          consumers := v.streams.consumers.alloc ⟨stream, p.rx, false, false, []⟩ } := by
  unfold attachment at h
  split at h <;> cases h
  exact ⟨rfl, rfl, .claimed stream _ ‹_›, _, ‹_›, rfl, rfl⟩

theorem hydrateRun_reads {k : Nat} {x : Hydration} (h : v.hydrateRun cfg k x = some (v', e)) :
    v'.requests = v.requests ∧ e.allocs = 0 ∧ Streams.Reads cfg v.streams v'.streams e.cmds := by
  unfold hydrateRun at h
  split at h
  · split at h
    · cases h
      exact ⟨rfl, rfl, .refl⟩
    unfold hydrateNext at h
    split at h
    · cases h
      exact ⟨rfl, rfl, .refl⟩
    · obtain ⟨hr, -, hclaim, -⟩ := attachment_reads cfg ‹_›
      split_ifs at h
      · exact hydrateFail_after hr hclaim.reads h
      · cases h
        exact ⟨hr, rfl, hclaim.reads⟩
  · rename_i reference j buf _
    split at h
    · obtain ⟨hr, -, ha, c, hc, hf, hd, hnext, hst, hcmds⟩ := pollNext_reads ‹_›
      have hpoll : Streams.Read cfg v.streams _ _ := .polled j c _ hc hf hd hnext
      rw [← hst, ← hcmds] at hpoll
      unfold hydrateEvent at h
      split at h
      · split_ifs at h
        · exact hydrateFail_after hr hpoll.reads h
        · cases h
          exact ⟨hr, ha, hpoll.reads⟩
      · cases h
        exact ⟨hr, ha, hpoll.reads⟩
      · split at h <;> cases h
        · exact ⟨hr, ha, hpoll.reads⟩
        · exact ⟨hr, ha, hpoll.reads⟩
    · cases h
  · cases h
  · cases h

theorem streamStep_reads {a : StreamAct} (h : v.streamStep cfg a = some (v', e)) :
    v'.requests = v.requests ∧ e.allocs = 0 ∧ Streams.Reads cfg v.streams v'.streams e.cmds := by
  unfold streamStep at h
  split at h
  · split_ifs at h
    split at h <;> cases h
    obtain ⟨hr, -, ha, c, hc, hf, hd, hnext, hst, hcmds⟩ := pollNext_reads ‹_›
    refine ⟨hr, ha, ?_⟩
    rw [hst, hcmds]
    exact (Streams.Read.polled _ c _ hc hf hd hnext).reads
  · split_ifs at h
    obtain ⟨hr, -, ha, hread⟩ := dropStream_reads h
    exact ⟨hr, ha, hread.reads⟩
  · split at h <;> cases h
    obtain ⟨hr, -, hread, -⟩ := attachment_reads cfg ‹_›
    exact ⟨hr, rfl, hread.reads⟩
  · unfold sweep at h
    split at h <;> cases h
    exact ⟨rfl, rfl, (Streams.Read.swept _ _ ‹_›).reads⟩
  · cases h
    exact ⟨rfl, rfl, .refl⟩
  · split at h
    · exact hydrateRun_reads h
    · cases h
  · split at h
    · exact hydrateFail_after rfl .refl h
    · cases h

/-! ### Calls -/

/-- Everything a step of a call can do. -/
inductive CallStep (cfg : Config) (env : Env) (v : Client) (i : Nat) (c : Call) :
    Client → Emit → Prop
  | opened (streamId rx : Nat) : c.pc = .opening → c.stream = some (streamId, rx) →
    CallStep cfg env v i c { v.callPc i .numbering with
      streams := { v.streams with incoming := v.streams.incoming.insert streamId ⟨rx, 0⟩ } } .none
  | numbered : c.pc = .numbering →
    CallStep cfg env v i c { v with requests :=
      { v.requests.update i ({ · with id := v.requests.nextReqId, pc := .inserting }) with
        nextReqId := (v.requests.nextReqId + 1) % 2 ^ 64 } } .none
  | inserted : c.pc = .inserting →
    CallStep cfg env v i c { v with requests :=
      (v.requests.update i ({ · with pc := .pushing })).insert c.id i } .none
  | pushed : c.pc = .pushing → env.live = true →
    CallStep cfg env v i c (v.callPc i .parked) (.send (cfg.encode c.envelope))
  | refused (error : WireError) : c.pc = .pushing →
    CallStep cfg env v i c (v.callPc i (.unsent error)) .none
  | unsentUnary (error : WireError) : c.pc = .unsent error → c.stream = none →
    CallStep cfg env v i c
      (({ v with requests := v.requests.remove c.id } : Client).callPc i
        (.returned (.error error))) .none
  | unsentStream (error : WireError) (streamId rx : Nat) : c.pc = .unsent error →
    c.stream = some (streamId, rx) →
    CallStep cfg env v i c
      (({ v with requests := v.requests.remove c.id } : Client).callPc i (.failed error)) .none
  | answered (result : Except WireError Payload) : c.pc = .parked → c.slot.result = some result →
    c.stream = none → CallStep cfg env v i c (v.callPc i (.returned result)) .none
  | headed (head : Payload) (streamId rx : Nat) : c.pc = .parked →
    c.slot.result = some (.ok head) → c.stream = some (streamId, rx) →
    CallStep cfg env v i c { v.callPc i (.returned (.ok head)) with
      streams := { v.streams with
        consumers := v.streams.consumers.alloc ⟨streamId, rx, false, false, []⟩ } } .none
  | streamFailed (error : WireError) (streamId rx : Nat) : c.pc = .parked →
    c.slot.result = some (.error error) → c.stream = some (streamId, rx) →
    CallStep cfg env v i c (v.callPc i (.failed error)) .none
  | removed (error : WireError) (streamId rx : Nat) : c.pc = .failed error →
    c.stream = some (streamId, rx) →
    CallStep cfg env v i c { v.callPc i (.returned (.error error)) with
      streams := { v.streams with incoming := v.streams.incoming.remove streamId } } .none

theorem callStep_of_callRun {i : Nat} {c : Call} (h : v.callRun cfg env i c = some (v', e)) :
    CallStep cfg env v i c v' e := by
  unfold callRun at h
  split at h
  · split at h <;> cases h
    exact .opened _ _ ‹_› ‹_›
  · cases h
    exact .numbered ‹_›
  · cases h
    exact .inserted ‹_›
  · split at h <;> cases h
    · rename_i hsend
      refine .pushed ‹_› ?_
      unfold Config.sendError at hsend
      split_ifs at hsend with _ hlive
      exact hlive
    · exact .refused _ ‹_›
  · cases h
    unfold callReturn
    cases hs : c.stream with
    | none => exact .unsentUnary _ ‹_› hs
    | some x => exact .unsentStream _ x.1 x.2 ‹_› hs
  · split at h <;> cases h
    rename_i result hres
    unfold callReturn
    cases hs : c.stream with
    | none => exact .answered _ ‹_› hres hs
    | some x =>
      cases result with
      | ok head => exact .headed head x.1 x.2 ‹_› hres hs
      | error e => exact .streamFailed e x.1 x.2 ‹_› hres hs
  · split at h <;> cases h
    exact .removed _ _ _ ‹_› ‹_›
  · cases h
  · cases h

theorem callStep_cases {a : CallAct} (h : v.callStep cfg env a = some (v', e)) :
    (∃ method params metadata, a = .call method params metadata ∧
      v' = v.beginCall method params metadata ∧ e = .none) ∨
    (∃ method params, a = .callStreaming method params ∧
      v' = v.beginStreaming env.streamId method params ∧ e = ⟨[], 1⟩) ∨
    (∃ i c, a = .run i ∧ v.requests.calls.get i = some c ∧ CallStep cfg env v i c v' e) ∨
    ∃ i c, a = .drop i ∧ v.requests.calls.get i = some c ∧ c.pc = .parked ∧
      v' = v.callPc i .dropped ∧ e = .none := by
  cases a with
  | call method params metadata =>
    cases h
    exact .inl ⟨_, _, _, rfl, rfl, rfl⟩
  | callStreaming method params =>
    cases h
    exact .inr (.inl ⟨_, _, rfl, rfl, rfl⟩)
  | run i =>
    simp only [callStep] at h
    split at h
    · exact .inr (.inr (.inl ⟨i, _, rfl, ‹_›, callStep_of_callRun h⟩))
    · cases h
  | drop i =>
    simp only [callStep] at h
    split at h <;> cases h
    obtain ⟨c, hc, hpc⟩ := Option.map_eq_some_iff.mp ‹_›
    exact .inr (.inr (.inr ⟨i, c, rfl, hc, hpc, rfl, rfl⟩))

theorem callStep_sends {a : CallAct} (h : v.callStep cfg env a = some (v', e)) :
    ∀ d ∈ e.cmds, ∃ c : Call, d = .send (.control c.envelope) := by
  intro d hd
  rcases callStep_cases h with ⟨_, _, _, -, -, rfl⟩ | ⟨_, _, -, -, rfl⟩ | ⟨i, c, -, -, hstep⟩ |
    ⟨_, _, -, -, -, -, rfl⟩
  · cases hd
  · cases hd
  · cases hstep with
    | pushed => exact ⟨c, mem_encode hd⟩
    | _ => cases hd
  · cases hd

end Client

end Zyris.Core
