import Zyris.Core.Equiv.Incoming

/-!
# A collected attachment is the one that was announced

An attachment has a channel of its own with one consumer at most, and `collect_attachment` keeps the
reference it was handed with the stream.  What it has in its buffer is what the channel was given
(`Client.Collecting`): the chunks that arrived after the registration (`Client.Registration`).
-/

namespace Zyris.Core

open Proto

/-! ### What a step does to a `hydrate` -/

namespace Client

variable {cfg : Config} {v v' : Client} {e : Emit}

theorem isCollecting_iff {k : Nat} : v.isCollecting k = true ↔
    ∃ h x r buf, v.hydrations.get h = some x ∧ x.pc = .collecting r k buf := by
  rw [isCollecting, List.any_eq_true]
  constructor
  · rintro ⟨x, hmem, hx⟩
    obtain ⟨h, hget⟩ := Arena.mem_objects_iff.1 hmem
    split at hx
    · rename_i r k' buf hpc
      rw [of_decide_eq_true hx] at hpc
      exact ⟨h, x, r, buf, hget, hpc⟩
    · cases hx
  · rintro ⟨h, x, r, buf, hget, hpc⟩
    refine ⟨x, Arena.mem_objects_of_get hget, ?_⟩
    simp [hpc]

/-- What a step on the streams does to the `hydrate`s, and to the consumers they read. -/
inductive StreamStep (cfg : Config) (v : Client) : Client → Prop
  -- somebody else's step
  | aside (v' : Client) : v'.hydrations = v.hydrations →
    (∀ k c, v.isCollecting k = true → v.streams.consumers.get k = some c →
      v'.streams.consumers.get k = some c) → StreamStep cfg v v'
  | began (x : Hydration) (v' : Client) : x.pc = .next →
    v'.hydrations = v.hydrations.alloc x → v'.streams = v.streams → StreamStep cfg v v'
  -- a `hydrate` does not collect any more, or still does not
  | stopped (h : Nat) (x : Hydration) (f : Hydration → Hydration) (v' : Client) :
    v.hydrations.get h = some x → v'.hydrations = v.hydrations.update h f →
    (∀ r k buf, (f x).pc ≠ .collecting r k buf) →
    (∀ k c, (∀ r buf, x.pc ≠ .collecting r k buf) → v.streams.consumers.get k = some c →
      v'.streams.consumers.get k = some c) → StreamStep cfg v v'
  | claimed (h : Nat) (x : Hydration) (wanted : AttachmentRef) (rest : List AttachmentRef)
    (p : PendingAttachment) (v' : Client) : v.hydrations.get h = some x →
    x.left = wanted :: rest → v.streams.attachments.get wanted.stream = some p →
    p.reference.size ≤ x.maxBytes % 2 ^ 64 →
    v'.hydrations = v.hydrations.update h
      ({ · with pc := .collecting p.reference v.streams.consumers.size [] }) →
    v'.streams.consumers =
      v.streams.consumers.alloc ⟨wanted.stream, p.rx, false, false, []⟩ → StreamStep cfg v v'
  | collected (h : Nat) (x : Hydration) (r : AttachmentRef) (k : Nat) (buf bytes : List UInt8)
    (c : RawIncomingStream) (v' : Client) : v.hydrations.get h = some x →
    x.pc = .collecting r k buf → v.streams.consumers.get k = some c →
    (buf ++ bytes).length ≤ x.maxBytes →
    v'.hydrations = v.hydrations.update h ({ · with pc := .collecting r k (buf ++ bytes) }) →
    v'.streams = v.streams.take k c.rx (.data bytes) → StreamStep cfg v v'

theorem dropStream_consumers {k : Nat} (h : v.dropStream cfg k = some (v', e)) :
    ∃ f, v'.streams.consumers = v.streams.consumers.update k f := by
  simp only [dropStream] at h
  split at h
  · split_ifs at h <;> cases h <;> exact ⟨_, rfl⟩
  · cases h

theorem hydrateFail_consumers {x k : Nat} {pc : HydratePc} {cmds : List WriterCmd}
    (h : v.hydrateFail cfg x k pc cmds = some (v', e)) :
    v'.hydrations = v.hydrations.update x ({ · with pc := pc }) ∧
      ∃ f, v'.streams.consumers = v.streams.consumers.update k f := by
  refine ⟨(hydrateFail_reads h).2.1, ?_⟩
  unfold hydrateFail at h
  split at h <;> cases h
  rename_i v₁ e₁ hdrop
  obtain ⟨f, hf⟩ := dropStream_consumers hdrop
  exact ⟨f, hf⟩

theorem streamStep_of_hydrateNext {h : Nat} {x : Hydration} {wanted : AttachmentRef}
    {rest : List AttachmentRef} (hx : v.hydrations.get h = some x)
    (hleft : x.left = wanted :: rest) (hstep : v.hydrateNext cfg h x wanted = some (v', e)) :
    StreamStep cfg v v' := by
  unfold hydrateNext at hstep
  split at hstep
  · cases hstep
    exact .stopped h x _ _ hx rfl (fun _ _ _ => by simp) fun _ _ _ hk => hk
  rename_i reference v₁ hclaim
  obtain ⟨-, hh, -, p, hp, rfl, hst⟩ := attachment_reads cfg hclaim
  split_ifs at hstep with hsize
  · -- refused for its size: the stream is claimed and dropped
    obtain ⟨hhyd, f, hcons⟩ := hydrateFail_consumers hstep
    rw [hh] at hhyd
    refine .stopped h x _ _ hx hhyd (fun _ _ _ => by simp) fun k c _ hk => ?_
    rw [hcons, hst]
    have hlt := Arena.lt_size_of_get hk
    exact Arena.get_update_of_ne (by omega) (Arena.get_alloc_of_get hk _) f
  · cases hstep
    refine .claimed h x wanted rest p _ hx hleft hp (by omega) ?_ ?_
    · simp only [hydratePc, hh]
    · simp only [hydratePc, hst]

theorem streamStep_of_hydrateEvent {h k : Nat} {x : Hydration} {r : AttachmentRef}
    {buf : List UInt8} {v₁ : Client} {e₁ : Emit} {ev : StreamEvent}
    (hx : v.hydrations.get h = some x) (hpc : x.pc = .collecting r k buf)
    (hpoll : v.pollNext cfg k = some (ev, v₁, e₁))
    (hstep : v₁.hydrateEvent cfg h x r k buf e₁ ev = some (v', e)) : StreamStep cfg v v' := by
  obtain ⟨-, hh, -, c, hc, -, -, -, hst, -⟩ := pollNext_reads hpoll
  -- whoever reads another consumer is not concerned
  have hother {j : Nat} {c' : RawIncomingStream} (hne : ∀ r' buf', x.pc ≠ .collecting r' j buf')
      (hj : v.streams.consumers.get j = some c') : v₁.streams.consumers.get j = some c' := by
    have hjk : j ≠ k := by
      rintro rfl
      exact hne r buf hpc
    rw [hst]
    exact Arena.get_update_of_ne hjk hj _
  cases ev with
  | data bytes =>
    simp only [hydrateEvent] at hstep
    split_ifs at hstep with hlong
    · obtain ⟨hhyd, f, hcons⟩ := hydrateFail_consumers hstep
      rw [hh] at hhyd
      refine .stopped h x _ _ hx hhyd (fun _ _ _ => by simp) fun j c' hne hj => ?_
      have hjk : j ≠ k := by
        rintro rfl
        exact hne r buf hpc
      rw [hcons]
      exact Arena.get_update_of_ne hjk (hother hne hj) f
    · cases hstep
      refine .collected h x r k buf bytes c _ hx hpc hc (by omega) ?_ ?_
      · simp only [hydratePc, hh]
      · simp only [hydratePc, hst]
  | failed error =>
    cases hstep
    refine .stopped h x ({ · with pc := .returned (.error error) }) _ hx ?_ (fun _ _ _ => by simp)
      fun j c' hne hj => hother hne hj
    simp only [hydratePc, hh]
  | done =>
    simp only [hydrateEvent] at hstep
    split at hstep <;> cases hstep
    · refine .stopped h x _ _ hx (by simp only [hydrateSplice, hh]; rfl) (fun _ _ _ => by simp)
        fun j c' hne hj => hother hne hj
    · refine .stopped h x _ _ hx (by simp only [hydratePc, hh]; rfl) (fun _ _ _ => by simp)
        fun j c' hne hj => hother hne hj

theorem streamStep_of_hydrateRun {h : Nat} {x : Hydration} (hx : v.hydrations.get h = some x)
    (hstep : v.hydrateRun cfg h x = some (v', e)) : StreamStep cfg v v' := by
  unfold hydrateRun at hstep
  split at hstep
  · split at hstep
    · cases hstep
      exact .stopped h x _ _ hx rfl (fun _ _ _ => by simp) fun _ _ _ hk => hk
    · rename_i wanted rest hleft
      exact streamStep_of_hydrateNext hx hleft hstep
  · rename_i r k buf hpc
    split at hstep
    · exact streamStep_of_hydrateEvent hx hpc ‹_› hstep
    · cases hstep
  · cases hstep
  · cases hstep

theorem streamStep_cases {a : StreamAct} (hstep : v.streamStep cfg a = some (v', e)) :
    StreamStep cfg v v' := by
  cases a with
  | poll k =>
    simp only [streamStep] at hstep
    split_ifs at hstep with hk
    split at hstep <;> cases hstep
    obtain ⟨-, hh, -, c, hc, -, -, -, hst, -⟩ := pollNext_reads ‹_›
    refine .aside _ hh fun j c' hj hget => ?_
    have hjk : j ≠ k := by
      rintro rfl
      exact hk hj
    rw [hst]
    exact Arena.get_update_of_ne hjk hget _
  | drop k =>
    simp only [streamStep] at hstep
    split_ifs at hstep with hk
    obtain ⟨f, hcons⟩ := dropStream_consumers hstep
    refine .aside _ (dropStream_reads hstep).2.1 fun j c' hj hget => ?_
    have hjk : j ≠ k := by
      rintro rfl
      exact hk hj
    rw [hcons]
    exact Arena.get_update_of_ne hjk hget f
  | claim stream =>
    simp only [streamStep] at hstep
    split at hstep <;> cases hstep
    obtain ⟨-, hh, -, p, -, -, hst⟩ := attachment_reads cfg ‹_›
    refine .aside _ hh fun j c' _ hget => ?_
    rw [hst]
    exact Arena.get_alloc_of_get hget _
  | sweep stream =>
    simp only [streamStep, sweep] at hstep
    split at hstep <;> cases hstep
    exact .aside _ rfl fun j c' _ hget => hget
  | hydrate payload maxBytes =>
    cases hstep
    exact .began _ _ rfl rfl rfl
  | hydrateRun h =>
    simp only [streamStep] at hstep
    split at hstep
    · exact streamStep_of_hydrateRun ‹_› hstep
    · cases hstep
  | hydrateDrop h =>
    simp only [streamStep] at hstep
    split at hstep
    · rename_i r k buf hpc
      obtain ⟨x, hx, hpc⟩ := Option.map_eq_some_iff.1 hpc
      obtain ⟨hhyd, f, hcons⟩ := hydrateFail_consumers hstep
      refine .stopped h x _ _ hx hhyd (fun _ _ _ => by simp) fun j c' hne hj => ?_
      have hjk : j ≠ k := by
        rintro rfl
        exact hne r buf hpc
      rw [hcons]
      exact Arena.get_update_of_ne hjk hj f
    · cases hstep

/-! ### What a `collect_attachment` holds -/

/-- A `hydrate` in the loop of `collect_attachment` has the bytes its consumer was given. -/
structure Holds (P : PendingAttachment → Prop) (v : Client) (x : Hydration) (r : AttachmentRef)
    (k : Nat) (buf : List UInt8) : Prop where
  consumer : ∃ (c : RawIncomingStream) (chunks : List (List UInt8)),
    v.streams.consumers.get k = some c ∧ P ⟨r, c.rx⟩ ∧ c.seen = chunks.map .data ∧
      chunks.flatten = buf
  wanted : ∃ w rest, x.left = w :: rest ∧ w.stream = r.stream
  size : r.size ≤ x.maxBytes % 2 ^ 64
  length : buf.length ≤ x.maxBytes

/-- Waiting and collected attachments have the property `P`, and no two `hydrate`s read one
consumer. -/
structure Collecting (P : PendingAttachment → Prop) (v : Client) : Prop where
  pending : ∀ y p, v.streams.attachments.get y = some p → p.reference.stream = y ∧ P p
  holds : ∀ h x r k buf, v.hydrations.get h = some x → x.pc = .collecting r k buf →
    Holds P v x r k buf
  unique : ∀ h h' x x' r r' k buf buf', v.hydrations.get h = some x → x.pc = .collecting r k buf →
    v.hydrations.get h' = some x' → x'.pc = .collecting r' k buf' → h = h'

namespace Collecting

variable {P Q : PendingAttachment → Prop}

theorem mono (h : Collecting P v) (hPQ : ∀ p, P p → Q p) : Collecting Q v := by
  refine ⟨fun y p hp => ?_, fun i x r k buf hx hpc => ?_, h.unique⟩
  · obtain ⟨hy, hP⟩ := h.pending y p hp
    exact ⟨hy, hPQ p hP⟩
  · obtain ⟨⟨c, chunks, hc, hP, hseen, hbuf⟩, hwanted, hsize, hlength⟩ := h.holds i x r k buf hx hpc
    exact ⟨⟨c, chunks, hc, hPQ _ hP, hseen, hbuf⟩, hwanted, hsize, hlength⟩

theorem aside (h : Collecting P v)
    (hpending : ∀ y p, v'.streams.attachments.get y = some p →
      v.streams.attachments.get y = some p ∨ p.reference.stream = y ∧ P p)
    (hhyd : v'.hydrations = v.hydrations)
    (hcons : ∀ k c, v.isCollecting k = true → v.streams.consumers.get k = some c →
      v'.streams.consumers.get k = some c) : Collecting P v' := by
  refine ⟨fun y p hp => ?_, fun i x r k buf hx hpc => ?_, ?_⟩
  · obtain hold | hnew := hpending y p hp
    · exact h.pending y p hold
    · exact hnew
  · rw [hhyd] at hx
    obtain ⟨⟨c, chunks, hc, hrest⟩, hwanted, hsize, hlength⟩ := h.holds i x r k buf hx hpc
    have hk : v.isCollecting k = true := isCollecting_iff.2 ⟨i, x, r, buf, hx, hpc⟩
    exact ⟨⟨c, chunks, hcons k c hk hc, hrest⟩, hwanted, hsize, hlength⟩
  · rw [hhyd]
    exact h.unique

/-- One `hydrate` changes; the others hold what they held, and it holds what it should. -/
theorem update (hc : Collecting P v) {h : Nat} {x : Hydration} {f : Hydration → Hydration}
    (hx : v.hydrations.get h = some x) (hhyd : v'.hydrations = v.hydrations.update h f)
    (hpending : ∀ y p, v'.streams.attachments.get y = some p →
      v.streams.attachments.get y = some p)
    (hcons : ∀ k c, (∀ r buf, x.pc ≠ .collecting r k buf) → v.streams.consumers.get k = some c →
      v'.streams.consumers.get k = some c)
    (hself : ∀ r k buf, (f x).pc = .collecting r k buf → Holds P v' (f x) r k buf)
    (hnew : ∀ r k buf, (f x).pc = .collecting r k buf → (∃ r' buf', x.pc = .collecting r' k buf') ∨
      v.streams.consumers.size ≤ k) : Collecting P v' := by
  -- another `hydrate` reads another consumer
  have hother {i : Nat} {y : Hydration} {r : AttachmentRef} {k : Nat} {buf : List UInt8}
      (hi : i ≠ h) (hy : v.hydrations.get i = some y) (hpc : y.pc = .collecting r k buf)
      (r' : AttachmentRef) (buf' : List UInt8) : x.pc ≠ .collecting r' k buf' := by
    intro hpc'
    exact hi (hc.unique i h y x r r' k buf buf' hy hpc hx hpc')
  have hfresh {i : Nat} {y : Hydration} {r r' : AttachmentRef} {k : Nat} {buf buf' : List UInt8}
      (hi : i ≠ h) (hy : v.hydrations.get i = some y) (hpc : y.pc = .collecting r k buf)
      (hpc' : (f x).pc = .collecting r' k buf') : False := by
    obtain ⟨r'', buf'', hx'⟩ | hle := hnew r' k buf' hpc'
    · exact hother hi hy hpc r'' buf'' hx'
    · obtain ⟨⟨c, -, hget, -⟩, -⟩ := hc.holds i y r k buf hy hpc
      have hlt := Arena.lt_size_of_get hget
      omega
  refine ⟨fun y p hp => hc.pending y p (hpending y p hp), fun i y r k buf hy hpc => ?_, ?_⟩
  · rw [hhyd] at hy
    obtain ⟨rfl, rfl⟩ | ⟨hi, hy⟩ := Arena.get_update_known hx hy
    · exact hself r k buf hpc
    · obtain ⟨⟨c, chunks, hget, hrest⟩, hwanted, hsize, hlength⟩ := hc.holds i y r k buf hy hpc
      exact ⟨⟨c, chunks, hcons k c (hother hi hy hpc) hget, hrest⟩, hwanted, hsize, hlength⟩
  · intro i j y z r r' k buf buf' hy hpc hz hpc'
    rw [hhyd] at hy hz
    obtain ⟨rfl, rfl⟩ | ⟨hi, hy'⟩ := Arena.get_update_known hx hy
    · obtain ⟨rfl, -⟩ | ⟨hj, hz'⟩ := Arena.get_update_cases hz
      · rfl
      · exact (hfresh hj hz' hpc' hpc).elim
    · obtain ⟨rfl, rfl⟩ | ⟨hj, hz'⟩ := Arena.get_update_known hx hz
      · exact (hfresh hi hy' hpc hpc').elim
      · exact hc.unique i j y z r r' k buf buf' hy' hpc hz' hpc'

theorem streamStep (hc : Collecting P v) (hstep : StreamStep cfg v v')
    (hpending : ∀ y p, v'.streams.attachments.get y = some p →
      v.streams.attachments.get y = some p) : Collecting P v' := by
  cases hstep with
  | aside _ hhyd hcons => exact hc.aside (fun y p hp => .inl (hpending y p hp)) hhyd hcons
  | began x _ hnext hhyd hst =>
    -- the new `hydrate` has not claimed anything
    have hold {i : Nat} {y : Hydration} {r : AttachmentRef} {k : Nat} {buf : List UInt8}
        (hy : v'.hydrations.get i = some y) (hpc : y.pc = .collecting r k buf) :
        v.hydrations.get i = some y := by
      rw [hhyd] at hy
      obtain ⟨-, rfl⟩ | hy := Arena.get_alloc_cases hy
      · rw [hnext] at hpc
        cases hpc
      · exact hy
    refine ⟨fun y p hp => hc.pending y p (hpending y p hp), fun i y r k buf hy hpc => ?_,
      fun i j y z r r' k buf buf' hy hpc hz hpc' =>
        hc.unique i j y z r r' k buf buf' (hold hy hpc) hpc (hold hz hpc') hpc'⟩
    obtain ⟨hcons, hwanted, hsize, hlength⟩ := hc.holds i y r k buf (hold hy hpc) hpc
    exact ⟨hst ▸ hcons, hwanted, hsize, hlength⟩
  | stopped h x f _ hx hhyd hpc hcons =>
    exact hc.update hx hhyd hpending hcons (fun r k buf hf => absurd hf (hpc r k buf))
      fun r k buf hf => absurd hf (hpc r k buf)
  | claimed h x wanted rest p _ hx hleft hp hsize hhyd hcons =>
    obtain ⟨hstream, hP⟩ := hc.pending _ p hp
    refine hc.update hx hhyd hpending (fun k c _ hk => ?_) (fun r k buf hf => ?_)
      fun r k buf hf => ?_
    · rw [hcons]
      exact Arena.get_alloc_of_get hk _
    · obtain ⟨rfl, rfl, rfl⟩ := HydratePc.collecting.inj hf
      refine ⟨⟨⟨wanted.stream, p.rx, false, false, []⟩, [], ?_, hP, rfl, rfl⟩,
        ⟨wanted, rest, hleft, hstream.symm⟩, hsize, Nat.zero_le _⟩
      rw [hcons, Arena.get_alloc, if_pos rfl]
    · obtain ⟨-, rfl, -⟩ := HydratePc.collecting.inj hf
      exact .inr (Nat.le_refl _)
  | collected h x r k buf bytes c _ hx hpc hk hlen hhyd hst =>
    obtain ⟨⟨c', chunks, hk', hP, hseen, hbuf⟩, hwanted, hsize, -⟩ := hc.holds h x r k buf hx hpc
    obtain rfl := Option.mem_unique hk hk'
    refine hc.update hx hhyd hpending (fun j c' hne hj => ?_) (fun r' k' buf' hf => ?_)
      fun r' k' buf' hf => ?_
    · have hjk : j ≠ k := by
        rintro rfl
        exact hne r buf hpc
      rw [hst]
      exact Arena.get_update_of_ne hjk hj _
    · obtain ⟨rfl, rfl, rfl⟩ := HydratePc.collecting.inj hf
      refine ⟨⟨{ c with seen := c.seen ++ [.data bytes], finished := false }, chunks ++ [bytes], ?_,
        hP, ?_, ?_⟩, hwanted, hsize, hlen⟩
      · rw [hst]
        exact Arena.get_update_self hk _
      · rw [hseen, List.map_append, List.map_singleton]
      · rw [List.flatten_append, hbuf, List.flatten_singleton]
    · obtain ⟨-, rfl, -⟩ := HydratePc.collecting.inj hf
      exact .inl ⟨r, buf, hpc⟩

end Collecting

end Client

/-! ### What a step does to waiting attachments -/

/-- A step without a frame and off the streams: no attachment comes in, `hydrate`s and consumers
stay. -/
structure Client.Idles (v v' : Client) : Prop where
  hydrations : v'.hydrations = v.hydrations
  consumers : ∀ k c, v.streams.consumers.get k = some c → v'.streams.consumers.get k = some c
  attachments : ∀ y p, v'.streams.attachments.get y = some p →
    v.streams.attachments.get y = some p

variable {v v' : Client} {cfg : Config} {e : Emit} {s s' : Shared} {a : Act} {st : Streams}
  {y k n : Nat} {p : PendingAttachment} {served : Served} {as : List Act} {r : AttachmentRef}
  {buf : List UInt8}

theorem Client.idles_of_streams (hh : v'.hydrations = v.hydrations) (hs : v'.streams = v.streams) :
    v.Idles v' :=
  ⟨hh, fun _ _ hk => hs ▸ hk, fun _ _ hp => hs ▸ hp⟩

theorem Client.idles_of_callStep {env : Env} {a : CallAct}
    (h : v.callStep cfg env a = some (v', e)) : v.Idles v' := by
  obtain ⟨method, params, metadata, -, rfl, -⟩ | ⟨method, params, -, rfl, -⟩ | ⟨i, c, -, -, hstep⟩ |
    ⟨i, c, -, -, -, rfl, -⟩ := callStep_cases h
  · exact idles_of_streams rfl rfl
  · exact ⟨rfl, fun _ _ hk => hk, fun _ _ hp => hp⟩
  · cases hstep with
    | headed head x rx => exact ⟨rfl, fun k c hk => Arena.get_alloc_of_get hk _, fun _ _ hp => hp⟩
    | opened | removed => exact ⟨rfl, fun _ _ hk => hk, fun _ _ hp => hp⟩
    | _ => exact idles_of_streams rfl rfl
  · exact idles_of_streams rfl rfl

theorem Shared.idles_of_step (h : s.step cfg a = some s') (hreceive : ∀ f, a ≠ .receive f)
    (hstream : ∀ b, a ≠ .stream b) : s.client.Idles s'.client := by
  cases acts_of_step h with
  | call hstep => exact Client.idles_of_callStep hstep
  | stream => exact absurd rfl (hstream _)
  | receive => exact absurd rfl (hreceive _)
  | shutdownRun _ hrun =>
    unfold shutdownRun at hrun
    split at hrun <;> cases hrun
    case h_5 => exact ⟨rfl, fun _ _ hk => hk, fun _ _ hp => by simp at hp⟩
    all_goals exact ⟨rfl, fun _ _ hk => hk, fun _ _ hp => hp⟩
  | _ => exact Client.idles_of_streams rfl rfl

theorem Streams.Reads.get_attachments {st' : Streams} {cmds : List WriterCmd}
    (h : Streams.Reads cfg st st' cmds) (hp : st'.attachments.get y = some p) :
    st.attachments.get y = some p := by
  induction h with
  | refl => exact hp
  | tail st₁ st₂ _ _ _ hread ih =>
    refine ih ?_
    cases hread with
    | polled | closed | canceled => exact hp
    | claimed | swept => exact (Table.get_of_get_remove hp).2

/-- `register_attachments` leaves what was there, and references of the payload, each with a new
channel of its stream. -/
theorem Streams.get_attachments_register {rs : List AttachmentRef}
    (h : (st.register rs).attachments.get y = some p) :
    st.attachments.get y = some p ∨ p.reference ∈ rs ∧ p.reference.stream = y ∧
      st.chans.size ≤ p.rx ∧ (st.register rs).Registered y p.rx := by
  induction rs generalizing st with
  | nil => exact .inl h
  | cons r rs ih =>
    have hrest : st.register (r :: rs) = (st.registerOne r).register rs := rfl
    rw [hrest] at h ⊢
    obtain hold | ⟨hmem, hy, hle, hreg⟩ := ih h
    · unfold registerOne at hold
      split_ifs at hold with htaken
      · exact .inl hold
      obtain ⟨rfl, rfl⟩ | ⟨-, hold⟩ := Table.get_insert_cases hold
      · -- the reference that comes first
        refine .inr ⟨List.mem_cons_self, rfl, Nat.le_refl _, ⟨st.chans.size, 0⟩, ?_, rfl⟩
        refine get_register_of_get ?_
        rw [registerOne, if_neg htaken, Table.get_insert, if_pos rfl]
      · exact .inl hold
    · refine .inr ⟨List.mem_cons_of_mem _ hmem, hy, le_trans ?_ hle, hreg⟩
      unfold registerOne
      split_ifs
      · exact Nat.le_refl _
      · rw [Arena.size_alloc]
        exact Nat.le_succ _

theorem Client.get_attachments_handle {f : Frame}
    (h : (v.handle f).streams.attachments.get y = some p) :
    v.streams.attachments.get y = some p ∨ p.reference ∈ f.references ∧ p.reference.stream = y ∧
      v.streams.chans.size ≤ p.rx ∧ (v.handle f).streams.Registered y p.rx := by
  have haccept {x : Nat} {q : Nat × StreamEvent}
      (h : (v.streams.accept x q).attachments.get y = some p) :
      v.streams.attachments.get y = some p := by
    rwa [(v.streams.accept_frame x q).1] at h
  cases f with
  | streamData x seq bytes => exact .inl (haccept (q := (seq, .data bytes)) h)
  | control e =>
    cases e with
    | res id result => exact Streams.get_attachments_register h
    | sEnd x trailer => exact .inl (haccept (q := (0, .done)) h)
    | sErr x error => exact .inl (haccept (q := (0, .failed error)) h)
    | _ => exact .inl h

theorem Client.handle_frame (v : Client) (f : Frame) :
    (v.handle f).hydrations = v.hydrations ∧
      (v.handle f).streams.consumers = v.streams.consumers := by
  have hregister (st : Streams) (rs : List AttachmentRef) :
      (st.register rs).consumers = st.consumers := by
    induction rs generalizing st with
    | nil => rfl
    | cons r rs ih =>
      refine (ih (st.registerOne r)).trans ?_
      unfold Streams.registerOne
      split_ifs <;> rfl
  cases f with
  | streamData x seq bytes => exact ⟨rfl, (v.streams.accept_frame x (seq, .data bytes)).2⟩
  | control e =>
    cases e with
    | res id result => exact ⟨rfl, hregister _ _⟩
    | sEnd x trailer => exact ⟨rfl, (v.streams.accept_frame x (0, .done)).2⟩
    | sErr x error => exact ⟨rfl, (v.streams.accept_frame x (0, .failed error)).2⟩
    | _ => exact ⟨rfl, rfl⟩

/-- A step of the end; a frame may bring in attachments, each with a channel. -/
theorem Client.Collecting.step {P : PendingAttachment → Prop} (hc : s.client.Collecting P)
    (hs : s.step cfg a = some s')
    (hnew : ∀ f p, a = .receive f → p.reference ∈ f.references →
      s.client.streams.chans.size ≤ p.rx → s'.client.streams.Registered p.reference.stream p.rx →
      s'.client.streams.attachments.get p.reference.stream = some p → P p) :
    s'.client.Collecting P := by
  cases a with
  | receive f =>
    rw [Shared.eq_receive_of_step hs] at hnew ⊢
    obtain ⟨hhyd, hcons⟩ := s.client.handle_frame f
    refine hc.aside (fun y p hp => ?_) hhyd fun k c _ hk => hcons ▸ hk
    obtain hold | ⟨hmem, rfl, hle, hreg⟩ := Client.get_attachments_handle hp
    · exact .inl hold
    · exact .inr ⟨rfl, hnew f p rfl hmem hle hreg hp⟩
  | stream b =>
    cases Shared.acts_of_step hs with
    | stream hstep =>
      exact hc.streamStep (streamStep_cases hstep)
        fun y p hp => (streamStep_reads hstep).2.2.get_attachments hp
  | _ =>
    have hidle := Shared.idles_of_step hs (by simp) (by simp)
    exact hc.aside (fun y p hp => .inl (hidle.attachments y p hp)) hidle.hydrations
      fun k c _ hk => hidle.consumers k c hk

/-! ### Along a run -/

/-- The `n`-th frame registered the attachment `p`: it refers to it, and the channel of `p`, new,
has the stream's entry and waits in `attachments`. -/
inductive Announced (cfg : Config) (served : Served) (as : List Act) (s : Shared)
    (p : PendingAttachment) : Nat → Prop
  | intro (before after : List Act) (f : Frame) (s₀ s₁ : Shared) :
    as = before ++ .receive f :: after →
    Run (Steps (Shared.step cfg)) (.start served) before s₀ → s₀.step cfg (.receive f) = some s₁ →
    Run (Steps (Shared.step cfg)) s₁ after s → p.reference ∈ f.references →
    ¬ s₀.client.streams.Registered p.reference.stream p.rx →
    s₁.client.streams.Registered p.reference.stream p.rx →
    s₁.client.streams.attachments.get p.reference.stream = some p →
    Announced cfg served as s p s₁.received.length

namespace Announced

theorem snoc (h : Announced cfg served as s p n) {a : Act} (hs : s.step cfg a = some s') :
    Announced cfg served (as ++ [a]) s' p n := by
  obtain ⟨before, after, f, s₀, s₁, rfl, hbefore, hf, hafter, hmem, hnew, hreg, hget⟩ := h
  refine .intro before (after ++ [a]) f s₀ s₁ ?_ hbefore hf (hafter.snoc hs) hmem hnew hreg hget
  rw [List.append_assoc, List.cons_append]

theorem registration (h : Announced cfg served as s p n) : ∃ chunks last,
    s.client.Registration p.reference.stream p.rx (flow p.reference.stream (s.received.drop n))
      chunks last := by
  obtain ⟨before, after, f, s₀, s₁, -, hbefore, hf, hafter, -, hnew, hreg, -⟩ := h
  have hv := Client.Channels.run hbefore
  exact (Shared.registration_of_run hv hf hnew hreg hafter).2

end Announced

/-- Whatever waits or is being collected was announced. -/
theorem Shared.collecting_of_run (h : Run (Steps (Shared.step cfg)) (.start served) as s) :
    s.client.Collecting fun p => ∃ n, Announced cfg served as s p n := by
  refine h.invariant (I := fun as s => s.client.Collecting fun p => ∃ n,
    Announced cfg served as s p n) ?_ fun as s a s' hrun hc hs => ?_
  · refine ⟨fun y p hp => ?_, fun i x r k buf hx => ?_, fun i j x y r r' k buf buf' hx => ?_⟩
    · simp [Shared.start] at hp
    · simp [Shared.start] at hx
    · simp [Shared.start] at hx
  have hkept := hc.mono fun p hp => hp.imp fun n hn => hn.snoc hs
  refine hkept.step hs fun f p ha hmem hle hreg hget => ?_
  subst ha
  -- the channel is new, so no entry had it before the frame
  have hnew : ¬ s.client.streams.Registered p.reference.stream p.rx := by
    rintro ⟨e, he, htx⟩
    obtain ⟨chan, hchan, -⟩ := (Client.Channels.run hrun).entry _ e he
    have hlt := Arena.lt_size_of_get hchan
    omega
  exact ⟨_, .intro as [] f s s' rfl hrun hs .nil hmem hnew hreg hget⟩

/-! ### The end of a collection -/

/-- `collect_attachment(stream, max)` in the `hydrate` `h`, reading the consumer `k`, returns
`Ok(bytes)`. -/
def Shared.Collects (cfg : Config) (s : Shared) (h stream max k : Nat) (bytes : List UInt8) :
    Prop :=
  ∃ x wanted rest r s', s.client.hydrations.get h = some x ∧ x.left = wanted :: rest ∧
    wanted.stream = stream ∧ x.maxBytes = max ∧ x.pc = .collecting r k bytes ∧
    s.step cfg (.stream (.hydrateRun h)) = some s' ∧
    (s'.client.hydrations.get h).map Hydration.pc = some .next

theorem Client.checked_of_next {h : Nat} {x : Hydration} (hx : v.hydrations.get h = some x)
    (hpc : x.pc = .collecting r k buf) (hstep : v.hydrateRun cfg h x = some (v', e))
    (hnext : (v'.hydrations.get h).map Hydration.pc = some .next) :
    checkAttachment cfg r buf = .ok () ∧ ∃ c, v.streams.consumers.get k = some c ∧
      c.finished = false ∧ v.streams.next c.rx = some .done := by
  -- a `hydrate` that is moved to another place is not at the next reference
  have hmoved (pc : HydratePc) (hpc : pc ≠ .next)
      (hhyd : v'.hydrations = v.hydrations.update h ({ · with pc := pc })) : False := by
    rw [hhyd, Arena.get_update_self hx] at hnext
    exact hpc (Option.some.inj hnext)
  simp only [hydrateRun, hpc] at hstep
  split at hstep
  · rename_i ev v₁ e₁ hpoll
    obtain ⟨-, hh, -, c, hc, hf, -, hev, -⟩ := pollNext_reads hpoll
    cases ev with
    | data bytes =>
      simp only [hydrateEvent] at hstep
      split_ifs at hstep with hlong
      · have hhyd := (hydrateFail_reads hstep).2.1
        rw [hh] at hhyd
        exact (hmoved _ (by simp) hhyd).elim
      · cases hstep
        exact (hmoved (.collecting r k (buf ++ bytes)) (by simp)
          (by simp only [hydratePc, hh])).elim
    | failed error =>
      cases hstep
      exact (hmoved (.returned (.error error)) (by simp)
        (by simp only [hydratePc, hh])).elim
    | done =>
      refine ⟨?_, c, hc, hf, hev⟩
      simp only [hydrateEvent] at hstep
      split at hstep <;> cases hstep
      · assumption
      · rename_i _ error _
        exact (hmoved (.returned (.error error)) (by simp)
          (by simp only [hydratePc, hh])).elim
  · cases hstep

theorem Client.eq_of_checkAttachment (h : checkAttachment cfg r buf = .ok ()) :
    buf.length % 2 ^ 64 = r.size ∧
      ∀ sha256, r.sha256 = some sha256 → cfg.digest buf = sha256 := by
  unfold checkAttachment at h
  split_ifs at h with hsize
  refine ⟨by omega, fun sha256 hsha => ?_⟩
  rw [hsha] at h
  by_contra hne
  simp [hne] at h

theorem last_of_getElem_done {chunks : List (List UInt8)} {last : Option StreamEvent}
    (h : (chunks.map StreamEvent.data ++ last.toList)[n]? = some .done) :
    n = chunks.length ∧ last = some .done := by
  by_cases hn : n < chunks.length
  · rw [List.getElem?_append_left (by simpa using hn), List.getElem?_map] at h
    obtain ⟨bytes, -, hbytes⟩ := Option.map_eq_some_iff.1 h
    cases hbytes
  rw [List.getElem?_append_right (by simpa using hn), List.length_map] at h
  rcases last with _ | _
  · simp at h
  obtain ⟨hlt, hev⟩ := List.getElem?_eq_some_iff.1 h
  have hlt' : n - chunks.length < 1 := by simpa using hlt
  refine ⟨by omega, ?_⟩
  have hzero : n - chunks.length = 0 := by omega
  rw [hzero] at h
  exact h

theorem fst_eq_zero_of_mem_flow {x seq : Nat} {fs : List Frame} (h : (seq, .done) ∈ flow x fs) :
    seq = 0 := by
  obtain ⟨f, -, hf⟩ := List.mem_filterMap.1 h
  unfold Frame.part at hf
  split at hf
  · split_ifs at hf
    cases hf
  · split_ifs at hf
    cases hf
    rfl
  · split_ifs at hf
    cases hf
  · cases hf

/-- A channel read up to its clean end has shown all chunks that arrived after the registration. -/
theorem Announced.chunks_of_done (h : Announced cfg served as s p n) (hv : s.client.Channels)
    {c : RawIncomingStream} (hc : s.client.streams.consumers.get k = some c) (hrx : c.rx = p.rx)
    (hf : c.finished = false) (hdone : s.client.streams.next c.rx = some .done) : ∃ chunks,
      c.seen = chunks.map .data ∧
      numbered chunks ++ [(0, .done)] <+: flow p.reference.stream (s.received.drop n) := by
  obtain ⟨chunks, last, hreg⟩ := h.registration
  obtain ⟨chan, hchan, -, hlog⟩ := hreg.chan
  obtain ⟨chan', hchan', -, hsaw⟩ := hv.consumer k c hc
  rw [hrx] at hchan' hdone
  obtain rfl := Option.mem_unique hchan hchan'
  have hseen : c.seen = chan.log.take chan.read := by
    obtain ⟨hseen, -⟩ | ⟨hfin, -⟩ := hsaw
    · exact hseen
    · rw [hf] at hfin
      cases hfin
  -- an empty channel that is closed reads as lost, so the end is in the log
  have hget : chan.log[chan.read]? = some .done := by
    simp only [Streams.next, hchan] at hdone
    split at hdone
    · rename_i ev hev
      rw [hev, hdone]
    · split_ifs at hdone
      cases hdone
  rw [hlog] at hget
  obtain ⟨hread, rfl⟩ := last_of_getElem_done hget
  refine ⟨chunks, ?_, ?_⟩
  · rw [hseen, hlog, hread, List.take_left' (by simp)]
  · cases hreg.delivered with
    | terminated seq _ _ hpre =>
      have hmem : (seq, StreamEvent.done) ∈ flow p.reference.stream (s.received.drop n) :=
        hpre.subset (by simp)
      rwa [fst_eq_zero_of_mem_flow hmem] at hpre

/-- **The attachment is the one that was promised.**  Whatever frames, claims, sweeps and
`shutdown`s come, no two claims are handed the same registration, and when `collect_attachment`
returns bytes, they are the chunks that arrived between the registration it claimed and a clean end,
as many as the reference says, no more than allowed, and with its digest. -/
theorem attachment_as_promised {cfg : Config} {served : Served} {as : List Act} {s : Shared}
    (hrun : Run (Steps (Shared.step cfg)) (.start served) as s) :
    (∀ k k' c c', s.client.streams.consumers.get k = some c →
      s.client.streams.consumers.get k' = some c' → c.rx = c'.rx → k = k') ∧
    ∀ h stream max k bytes, s.Collects cfg h stream max k bytes → max < 2 ^ 64 →
      ∃ (p : PendingAttachment) (n : Nat) (c : RawIncomingStream) (chunks : List (List UInt8)),
        Announced cfg served as s p n ∧ p.reference.stream = stream ∧
        s.client.streams.consumers.get k = some c ∧ c.rx = p.rx ∧
        bytes.length = p.reference.size ∧ p.reference.size ≤ max ∧ bytes = chunks.flatten ∧
        numbered chunks ++ [(0, .done)] <+: flow stream (s.received.drop n) ∧
        ∀ sha256, p.reference.sha256 = some sha256 → cfg.digest bytes = sha256 := by
  have hv := Client.Channels.run hrun
  refine ⟨fun k k' c c' hk hk' hrx => ?_, fun h stream max k bytes hcollects hmax => ?_⟩
  · exact ((hv.only_consumer hk).2.2 k' c' hk' hrx.symm).symm
  obtain ⟨x, wanted, rest, r, s', hx, hleft, rfl, rfl, hpc, hstep, hnext⟩ := hcollects
  obtain ⟨⟨c, held, hc, ⟨n, hann⟩, hseen, hbytes⟩, ⟨w, rest', hleft', hw⟩, hsize, hlength⟩ :=
    (Shared.collecting_of_run hrun).holds h x r k bytes hx hpc
  obtain ⟨rfl, -⟩ := List.cons.inj (hleft.symm.trans hleft')
  simp only [Shared.step, Client.streamStep, hx] at hstep
  split at hstep <;> cases hstep
  rename_i v' e hhydrate
  obtain ⟨hcheck, c', hc', hf, hdone⟩ := Client.checked_of_next hx hpc hhydrate hnext
  obtain rfl := Option.mem_unique hc hc'
  obtain ⟨hlen, hdigest⟩ := Client.eq_of_checkAttachment hcheck
  obtain ⟨chunks, hchunks, hflow⟩ := hann.chunks_of_done hv hc rfl hf hdone
  have heq : chunks = held :=
    List.map_injective_iff.2 (fun _ _ => StreamEvent.data.inj) (hchunks.symm.trans hseen)
  refine ⟨⟨r, c.rx⟩, n, c, chunks, hann, hw.symm, hc, rfl, ?_, ?_, ?_, ?_, hdigest⟩
  · rw [← hlen]
    exact (Nat.mod_eq_of_lt (by omega)).symm
  · have hle := Nat.mod_le x.maxBytes (2 ^ 64)
    exact hsize.trans hle
  · rw [heq, hbytes]
  · rw [hw]
    exact hflow

/-- Two bytes are announced, arrive in one chunk and are collected to the end. -/
def announcedThenSent : List Act :=
  let payload : Payload := ⟨.map [(.ofStr "kind", .ofStr "file"),
    (.ofStr "blob", attachmentValue ⟨2, 2, some (sampledDigest [7, 8]), 0⟩)]⟩
  [.receive (.control (.res 1 payload)), .receive (.streamData 2 0 [7, 8]),
    .receive (.control (.sEnd 2 .nil)), .stream (.hydrate payload 16),
    .stream (.hydrateRun 0), .stream (.hydrateRun 0)]

theorem attachment_as_promised_announcedThenSent :
    ∃ s, Run (Steps (Shared.step (.bare .dialer .msgpack))) (.start .default) announcedThenSent s ∧
      s.Collects (.bare .dialer .msgpack) 0 2 16 0 [7, 8] ∧
      ∃ p n, Announced (.bare .dialer .msgpack) .default announcedThenSent s p n ∧
        p.reference.size = 2 := by
  let s := (exec (Shared.step (.bare .dialer .msgpack)) (.start .default) announcedThenSent).get rfl
  have hrun : Run (Steps (Shared.step (.bare .dialer .msgpack))) (.start .default)
      announcedThenSent s := run_of_exec (Option.some_get _).symm
  have hcollects : s.Collects (.bare .dialer .msgpack) 0 2 16 0 [7, 8] :=
    ⟨_, _, _, _, _, rfl, rfl, rfl, rfl, rfl, rfl, rfl⟩
  obtain ⟨p, n, c, chunks, hann, -, -, -, hlen, -⟩ :=
    (attachment_as_promised hrun).2 0 2 16 0 [7, 8] hcollects (by decide)
  exact ⟨s, hrun, hcollects, p, n, hann, hlen.symm⟩

end Zyris.Core
