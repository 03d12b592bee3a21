import Mathlib.Data.List.Induction
import Zyris.Core.Equiv.Incoming

/-!
# Loss on a hop

A hop drops some of the chunks of a stream.  The receiver notices by the number of a chunk that
follows a lost one, so it is given an error exactly when the chunks that are left are not numbered
`0, 1, …` themselves.
-/

namespace Zyris.Core

open Proto

/-- The chunks that are left are numbered as if nothing had been lost. -/
def contiguous (kept : List (Nat × StreamEvent)) : Bool :=
  kept.map Prod.fst = (List.range kept.length).map (· % 2 ^ 32)

theorem isData_of_mem_numbered {chunks : List (List UInt8)} {p : Nat × StreamEvent}
    (h : p ∈ numbered chunks) : ∃ bytes, p.2 = .data bytes := by
  obtain ⟨i, hi, rfl⟩ := List.mem_mapIdx.mp h
  exact ⟨_, rfl⟩

theorem length_numbered (chunks : List (List UInt8)) :
    (numbered chunks).length = chunks.length := List.length_mapIdx

theorem contiguous_snoc (kept : List (Nat × StreamEvent)) (p : Nat × StreamEvent) :
    contiguous (kept ++ [p]) = true ↔ contiguous kept = true ∧ p.1 = kept.length % 2 ^ 32 := by
  simp only [contiguous, decide_eq_true_eq, List.map_append, List.map_cons, List.map_nil,
    List.length_append, List.length_singleton, List.range_succ]
  constructor
  · intro h
    obtain ⟨hkept, hp⟩ := List.append_inj h (by simp)
    exact ⟨hkept, List.singleton_inj.mp hp⟩
  · rintro ⟨hkept, hp⟩
    rw [hkept, hp]

theorem contiguous_numbered (chunks : List (List UInt8)) : contiguous (numbered chunks) = true := by
  induction chunks using List.reverseRecOn with
  | nil => rfl
  | append_singleton chunks bytes ih =>
    rw [numbered_snoc, contiguous_snoc, length_numbered]
    exact ⟨ih, rfl⟩

/-- Chunks that are numbered without a gap are a whole stream. -/
theorem eq_numbered_of_contiguous {kept : List (Nat × StreamEvent)}
    (hdata : ∀ p ∈ kept, ∃ bytes, p.2 = .data bytes) (h : contiguous kept = true) :
    ∃ chunks, kept = numbered chunks := by
  induction kept using List.reverseRecOn with
  | nil => exact ⟨[], rfl⟩
  | append_singleton kept p ih =>
    obtain ⟨hkept, hp⟩ := (contiguous_snoc kept p).mp h
    obtain ⟨chunks, rfl⟩ := ih (fun q hq => hdata q (List.mem_append_left _ hq)) hkept
    obtain ⟨bytes, hbytes⟩ := hdata p (by simp)
    refine ⟨chunks ++ [bytes], ?_⟩
    rw [numbered_snoc, ← length_numbered chunks, ← hp, ← hbytes]

/-! ### What the receiver makes of it -/

theorem contiguous_of_done {kept parts : List (Nat × StreamEvent)} {chunks : List (List UInt8)}
    (hdata : ∀ p ∈ kept, ∃ bytes, p.2 = .data bytes) (hparts : parts <+: kept ++ [(0, .done)])
    (h : Delivered parts chunks (some .done)) : contiguous kept = true := by
  cases h with
  | terminated seq _ _ hpre =>
    obtain ⟨rest, hrest⟩ := hpre.trans hparts
    -- the first terminator of what arrived is the `s_end` behind all the chunks
    have hlen : kept.length ≤ (numbered chunks).length := by
      by_contra hlt
      have hget := congrArg (·[(numbered chunks).length]?) hrest
      simp only [List.append_assoc, List.getElem?_append_right (Nat.le_refl _), Nat.sub_self,
        List.singleton_append, List.getElem?_cons_zero,
        List.getElem?_append_left (Nat.lt_of_not_le hlt)] at hget
      obtain ⟨bytes, hbytes⟩ := hdata _ (List.mem_of_getElem? hget.symm)
      cases hbytes
    have htotal := congrArg List.length hrest
    simp only [List.length_append, List.length_singleton] at htotal
    rw [List.append_assoc] at hrest
    obtain ⟨hkept, -⟩ := List.append_inj hrest (by omega)
    rw [← hkept]
    exact contiguous_numbered chunks

/-- Whatever an end has received of the chunks left and the `s_end` behind them, a consumer sees no
clean end; one that read to the end has seen an error, and once the `s_end` is there it need not
wait. -/
def LossSurfaces (kept : List (Nat × StreamEvent)) : Prop :=
  ∀ (cfg : Config) (served : Served) (as bs : List Act) (s₀ s₁ s : Shared) (a : Act) (x rx : Nat),
    Run (Steps (Shared.step cfg)) (.start served) as s₀ → s₀.step cfg a = some s₁ →
    ¬ s₀.client.streams.Registered x rx → s₁.client.streams.Registered x rx →
    Run (Steps (Shared.step cfg)) s₁ bs s →
    flow x (s.received.drop s₁.received.length) <+: kept ++ [(0, .done)] →
    ∀ k c, s.client.streams.consumers.get k = some c → c.rx = rx →
      StreamEvent.done ∉ c.seen ∧ (c.finished = true → ∃ e, StreamEvent.failed e ∈ c.seen) ∧
      (flow x (s.received.drop s₁.received.length) = kept ++ [(0, .done)] →
        (s.client.streams.next rx).isSome = true)

theorem lossSurfaces_of_not_contiguous {kept : List (Nat × StreamEvent)}
    (hdata : ∀ p ∈ kept, ∃ bytes, p.2 = .data bytes) (hgap : contiguous kept = false) :
    LossSurfaces kept := by
  intro cfg served as bs s₀ s₁ s a x rx h₀ ha hnew hreg h hparts k c hk hrx
  obtain ⟨hv, chunks, last, hr⟩ :=
    Shared.registration_of_run (Client.Channels.run h₀) ha hnew hreg h
  obtain ⟨chan, hchan, hx, hlog⟩ := hr.chan
  obtain ⟨chan', hchan', -, hsaw⟩ := hv.consumer k c hk
  rw [hrx] at hchan'
  obtain rfl := Option.mem_unique hchan hchan'
  have hnot : StreamEvent.done ∉ chan.log := by
    intro hmem
    rw [hlog] at hmem
    rcases List.mem_append.mp hmem with hm | hm
    · obtain ⟨bytes, -, hb⟩ := List.mem_map.mp hm
      cases hb
    · obtain rfl : last = some .done := Option.mem_toList.mp hm
      have := contiguous_of_done hdata hparts hr.delivered
      rw [hgap] at this
      cases this
  have hseen : StreamEvent.done ∉ c.seen := by
    rcases hsaw with ⟨hseen, -⟩ | ⟨-, hseen, -⟩
    · rw [hseen]
      exact fun hmem => hnot (List.mem_of_mem_take hmem)
    · rw [hseen]
      intro hmem
      rcases List.mem_append.mp hmem with hm | hm
      · exact hnot hm
      · cases List.mem_singleton.mp hm
  refine ⟨hseen, fun hfin => ?_, fun hall => ?_⟩
  · rcases hsaw with ⟨-, hiff⟩ | ⟨-, hlost, -⟩
    · -- a consumer finishes on an event that is no chunk
      have hno : ¬ AllData c.seen := fun hall => by
        rw [hiff.mpr hall] at hfin
        cases hfin
      unfold AllData at hno
      push Not at hno
      obtain ⟨ev, hmem, hev⟩ := hno
      cases ev with
      | data bytes => exact absurd rfl hev
      | done => exact absurd hmem hseen
      | failed e => exact ⟨e, hmem⟩
    · exact ⟨.connectionLost, by rw [hlost]; simp⟩
  · -- the `s_end` has closed the channel, so there is an event or the end of it
    have hclosed : ¬ s.client.streams.Registered x rx := by
      intro hreg'
      obtain ⟨-, hnum⟩ := hr.registered hreg'
      have hmem : ((0, .done) : Nat × StreamEvent) ∈ numbered chunks := by
        rw [← hnum, hall]
        simp
      obtain ⟨bytes, hb⟩ := isData_of_mem_numbered hmem
      cases hb
    have hopen : s.client.streams.isOpen rx chan = false := by
      unfold Streams.isOpen
      rw [hx]
      exact decide_eq_false fun heq => hclosed (Option.map_eq_some_iff.mp heq)
    unfold Streams.next
    rw [hchan]
    dsimp only
    split
    · rfl
    · rw [hopen]
      rfl

/-! ### A stream that loses its last chunks -/

/-- The dialer reads at once: the chunks so far were delivered to consumer `0` of the stream `1`. -/
structure Shared.Reading (s : Shared) (chunks : List (List UInt8)) : Prop where
  reader : s.serve.reader = .idle
  entry : s.client.streams.incoming.get 1 = some ⟨0, chunks.length % 2 ^ 32⟩
  chan : s.client.streams.chans.get 0 = some ⟨1, chunks.map .data, chunks.length⟩
  consumer : s.client.streams.consumers.get 0 = some ⟨1, 0, false, false, chunks.map .data⟩
  hydrations : s.client.hydrations.objects = []

namespace Shared.Reading

variable {s : Shared} {chunks : List (List UInt8)}

theorem next (h : s.Reading chunks) (f : Frame) {st : Streams} (ev : StreamEvent) (cfg : Config)
    (hclient : s.client.handle f = { s.client with streams := st })
    (hserve : s.serve.handle cfg f = s.serve)
    (hchan : st.chans.get 0 = some ⟨1, chunks.map .data ++ [ev], chunks.length⟩)
    (hcons : st.consumers = s.client.streams.consumers) :
    ∃ s', exec (Shared.step cfg) s [.receive f, .stream (.poll 0)] = some s' ∧
      s'.received = s.received ++ [f] ∧ s'.serve.reader = .idle ∧
      s'.client.streams.incoming = st.incoming ∧
      s'.client.streams.chans.get 0 =
        some ⟨1, chunks.map .data ++ [ev], chunks.length + 1⟩ ∧
      s'.client.streams.consumers.get 0 =
        some ⟨1, 0, !ev.isData, false, chunks.map .data ++ [ev]⟩ ∧
      s'.client.hydrations.objects = [] := by
  have hk : st.consumers.get 0 = some ⟨1, 0, false, false, chunks.map .data⟩ := by
    rw [hcons]
    exact h.consumer
  have hnext : st.next 0 = some ev := by
    unfold Streams.next
    rw [hchan]
    simp
  have hpoll : ({ s.client with streams := st } : Client).pollNext cfg 0 =
      some (ev, { s.client with streams := st.take 0 0 ev },
        .send (Client.creditFor cfg 1 ev)) := by
    unfold Client.pollNext
    rw [hk]
    simp [hnext]
  have hcollect : ({ s.client with streams := st } : Client).isCollecting 0 = false := by
    simp [Client.isCollecting, h.hydrations]
  have hreceive : s.step cfg (.receive f) = some (s.receive cfg f) := by
    simp only [Shared.step, h.reader]
  have hread : (s.receive cfg f).step cfg (.stream (.poll 0)) =
      some ((s.receive cfg f).withClient { s.client with streams := st.take 0 0 ev }
        (.send (Client.creditFor cfg 1 ev))) := by
    have hc : (s.receive cfg f).client = { s.client with streams := st } := hclient
    simp only [Shared.step, Client.streamStep, hc, hcollect, hpoll, Bool.false_eq_true, if_false]
  refine ⟨(s.receive cfg f).withClient { s.client with streams := st.take 0 0 ev }
    (.send (Client.creditFor cfg 1 ev)), ?_, rfl, ?_, rfl, ?_, ?_, h.hydrations⟩
  · simp only [exec, hreceive, Option.bind_some, hread]
  · show (s.serve.handle cfg f).reader = .idle
    rw [hserve, h.reader]
  · show (st.chans.update 0 _).get 0 = _
    rw [Arena.get_update_self hchan]
    simp
  · show (st.consumers.update 0 _).get 0 = _
    rw [Arena.get_update_self hk]

theorem chunk (h : s.Reading chunks) (cfg : Config) (bytes : List UInt8) :
    ∃ s', exec (Shared.step cfg) s
        [.receive (.streamData 1 (chunks.length % 2 ^ 32) bytes), .stream (.poll 0)] = some s' ∧
      s'.received = s.received ++ [.streamData 1 (chunks.length % 2 ^ 32) bytes] ∧
      s'.Reading (chunks ++ [bytes]) := by
  obtain ⟨s', hexec, hrec, hreader, hin, hchan, hcons, hhyd⟩ :=
    h.next (.streamData 1 (chunks.length % 2 ^ 32) bytes) (.data bytes) cfg rfl rfl
      (by simp only [Streams.data, h.entry, ne_eq, not_true_eq_false, if_false, Streams.send,
            Arena.get_update_self h.chan])
      (by simp only [Streams.data, h.entry, ne_eq, not_true_eq_false, if_false, Streams.send])
  refine ⟨s', hexec, hrec, hreader, ?_, by simpa using hchan, ?_, hhyd⟩
  rotate_left
  · simpa [StreamEvent.isData] using hcons
  rw [hin]
  simp only [Streams.data, h.entry, ne_eq, not_true_eq_false, if_false, Table.get_insert, if_true,
    List.length_append, List.length_singleton, Option.some.injEq, IncomingStreamEntry.mk.injEq,
    true_and]
  omega

theorem ended (h : s.Reading chunks) (cfg : Config) (trailer : Payload) :
    ∃ s', exec (Shared.step cfg) s
        [.receive (.control (.sEnd 1 trailer)), .stream (.poll 0)] = some s' ∧
      s'.received = s.received ++ [.control (.sEnd 1 trailer)] ∧
      s'.client.streams.consumers.get 0 =
        some ⟨1, 0, true, false, chunks.map .data ++ [.done]⟩ := by
  obtain ⟨s', hexec, hrec, -, -, -, hcons, -⟩ :=
    h.next (.control (.sEnd 1 trailer)) .done cfg rfl rfl
      (by simp only [Streams.finish, h.entry, Streams.send, Arena.get_update_self h.chan])
      (by simp only [Streams.finish, h.entry, Streams.send])
  exact ⟨s', hexec, hrec, hcons⟩

theorem more (cfg : Config) (rest : List (List UInt8)) (h : s.Reading chunks) :
    ∃ as s', Run (Steps (Shared.step cfg)) s as s' ∧ s'.Reading (chunks ++ rest) ∧
      ∃ fs, s'.received = s.received ++ fs ∧
        numbered chunks ++ flow 1 fs = numbered (chunks ++ rest) := by
  induction rest generalizing s chunks with
  | nil => exact ⟨[], s, .nil, by rwa [List.append_nil], [], by simp, by simp⟩
  | cons bytes rest ih =>
    obtain ⟨s₁, hexec, hrec, h₁⟩ := h.chunk cfg bytes
    obtain ⟨as, s', hrun, h', fs, hfs, hflow⟩ := ih h₁
    refine ⟨_, s', (run_of_exec hexec).append hrun, by simpa using h',
      .streamData 1 (chunks.length % 2 ^ 32) bytes :: fs, ?_, ?_⟩
    · rw [hfs, hrec, List.append_assoc, List.singleton_append]
    · rw [← List.singleton_append, flow_append, flow_singleton, ← List.append_assoc]
      simp only [Frame.part, if_true, Option.toList_some]
      rw [← numbered_snoc, hflow, List.append_assoc, List.singleton_append]

end Shared.Reading

/-- The call whose head has come back. -/
def untilHead : List Act :=
  [.call (.run 0), .call (.run 0), .call (.run 0), .receive (.control (.res 1 .nil)),
    .call (.run 0)]

theorem not_lossSurfaces_numbered (chunks : List (List UInt8)) :
    ¬ LossSurfaces (numbered chunks) := by
  intro hsurf
  let cfg : Config := .bare .dialer .msgpack
  obtain ⟨s₀, s₁, s₂, h₀, ha, hnew, hreg, h₂, hread, hrec₁, hnone⟩ : ∃ s₀ s₁ s₂ : Shared,
      exec (Shared.step cfg) (.start .default) [.call (.callStreaming "fs.tail" .nil)] = some s₀ ∧
      s₀.step cfg (.call (.run 0)) = some s₁ ∧ ¬ s₀.client.streams.Registered 1 0 ∧
      s₁.client.streams.Registered 1 0 ∧ exec (Shared.step cfg) s₁ untilHead = some s₂ ∧
      s₂.Reading [] ∧ s₁.received = [] ∧ flow 1 s₂.received = [] :=
    ⟨_, _, _, rfl, rfl, of_decide_eq_false rfl, ⟨_, rfl, rfl⟩, rfl, ⟨rfl, rfl, rfl, rfl, rfl⟩, rfl,
      rfl⟩
  obtain ⟨as, s₃, h₃, hread₃, fs, hfs, hflow⟩ := hread.more cfg chunks
  obtain ⟨s, h₄, hrec, hcons⟩ := hread₃.ended cfg .nil
  have hrun := ((run_of_exec h₂).append h₃).append (run_of_exec h₄)
  have hparts : flow 1 (s.received.drop s₁.received.length) = numbered chunks ++ [(0, .done)] := by
    rw [hrec₁, List.length_nil, List.drop_zero, hrec, hfs, flow_append, flow_append, hnone,
      List.nil_append, flow_singleton]
    simpa [Frame.part, numbered] using hflow
  have := (hsurf cfg .default _ _ s₀ s₁ s _ 1 0 (run_of_exec h₀) ha hnew hreg hrun
    (hparts ▸ List.prefix_refl _) 0 _ hcons rfl).1
  simp at this

/-- **Loss shows exactly if a chunk follows it.**  A sender emits `chunks` and a clean end, and a
hop leaves `kept` of the chunks, in order.  Every consumer of the stream, in every run, is kept from
seeing a clean end and given an error, if and only if the chunks left are not numbered `0, 1, …` as
a complete stream would be. -/
theorem loss_surfaces_iff {chunks : List (List UInt8)} {kept : List (Nat × StreamEvent)}
    (hsub : kept.Sublist (numbered chunks)) : LossSurfaces kept ↔ contiguous kept = false := by
  have hdata : ∀ p ∈ kept, ∃ bytes, p.2 = .data bytes :=
    fun p hp => isData_of_mem_numbered (hsub.subset hp)
  constructor
  · intro hsurf
    by_contra hcont
    obtain ⟨left, rfl⟩ := eq_numbered_of_contiguous hdata (by simpa using hcont)
    exact not_lossSurfaces_numbered left hsurf
  · exact lossSurfaces_of_not_contiguous hdata

/-- Of two chunks the first is lost. -/
theorem loss_surfaces_firstOfTwo : LossSurfaces [(1, .data [8])] := by
  have hsub : [(1, .data [8])].Sublist (numbered [[7], [8]]) := .cons _ (.refl _)
  exact (loss_surfaces_iff hsub).mpr rfl

/-- Of two chunks the second is lost: the consumer has seen the first and a clean end. -/
theorem clean_end_after_lost_suffix :
    [(0, .data [7])].Sublist (numbered [[7], [8]]) ∧
      ∃ s, Run (Steps (Shared.step (.bare .dialer .msgpack))) (.start .default)
        ([.call (.callStreaming "fs.tail" .nil), .call (.run 0)] ++ untilHead ++
        [.receive (.streamData 1 0 [7]), .receive (.control (.sEnd 1 .nil)), .stream (.poll 0),
          .stream (.poll 0)]) s ∧
      flow 1 s.received = [(0, .data [7]), (0, .done)] ∧
      (s.client.streams.consumers.get 0).map RawIncomingStream.seen =
        some [.data [7], .done] :=
  ⟨.cons_cons _ (.cons _ .slnil), _, run_of_exec rfl, rfl, rfl⟩

end Zyris.Core
