import Zyris.Core.Equiv.Client

/-!
# Calls on a closing connection

`shutdown` drains `pending` long before the writer takes its `Close`.  A call that enters `pending`
in between parks on a oneshot nobody drains (`call_hangs_after_drain`).  None is left hanging if
none pushes while some `shutdown` is past its drain (`pushesBeforeDrain`).
-/

namespace Zyris.Core

open Proto

/-! ### The oneshots of `pending` -/

def CallPc.entered : CallPc → Bool
  | .pushing => true
  | .parked => true
  | _ => false

namespace Requests

variable {r : Requests}

/-- A call that has entered `pending` and waits has its sender there. -/
def Tracked (r : Requests) : Prop :=
  ∀ i c, r.calls.get i = some c → c.pc.entered → c.slot = .waiting → r.pending.get c.id = some i

/-- No parked call has its sender in `pending`. -/
def NoneParked (r : Requests) : Prop :=
  ∀ i c, r.calls.get i = some c → c.pc = .parked → r.pending.get c.id ≠ some i

/-- A value was sent, or the sender dropped: the receiver no longer waits. -/
def Settles (f : Oneshot → Oneshot) : Prop := ∀ o, f o ≠ .waiting

theorem settles_send (result : Except WireError Payload) : Settles (.send result) := by
  intro o
  cases o <;> simp [Oneshot.send]

theorem settles_drop : Settles .drop := by
  intro o
  cases o <;> simp [Oneshot.drop]

variable {is : List Nat} {pending : Table Nat Nat} {i n : Nat} {f : Call → Call} {c : Call}

/-- Settling the oneshots whose senders are taken out of `pending` keeps the others tracked. -/
theorem Tracked.settle (h : r.Tracked) {f : Oneshot → Oneshot} (hf : Settles f)
    (hp : ∀ i c, r.calls.get i = some c → i ∉ is → c.pc.entered → c.slot = .waiting →
      r.pending.get c.id = some i → pending.get c.id = some i) :
    Tracked { r.settle is f with pending := pending } := by
  intro i c hc he hw
  simp only [Requests.settle, Arena.get_updateAll, Option.map_eq_some_iff] at hc
  obtain ⟨d, hd, rfl⟩ := hc
  split_ifs at he hw ⊢ with hi
  · exact absurd hw (hf d.slot)
  · exact hp i d hd hi he hw (h i d hd he hw)

theorem Tracked.take (h : r.Tracked) {f : Oneshot → Oneshot} (hf : Settles f) (id : Nat) :
    Tracked { r.settle (r.pending.get id).toList f with pending := r.pending.remove id } := by
  refine h.settle hf fun i c _ hi _ _ hp => ?_
  rw [Table.get_remove, if_neg ?_, hp]
  rintro rfl
  exact hi (by simp [hp])

theorem Tracked.drain (h : r.Tracked) : r.drain.Tracked := by
  refine h.settle (settles_send _) fun i c _ hi _ _ hp => absurd ?_ hi
  exact List.mem_map.mpr ⟨(c.id, i), (Table.mem_entries_iff _ _ _).mpr hp, rfl⟩

theorem Tracked.update (h : r.Tracked)
    (hf : ∀ c, r.calls.get i = some c → (f c).pc.entered → c.pc.entered ∧ (f c).id = c.id ∧
      (f c).slot = c.slot) :
    Tracked { r.update i f with nextReqId := n } := by
  refine Arena.forall_update h fun d hd he hw => ?_
  obtain ⟨he', hid, hslot⟩ := hf d hd he
  rw [hslot] at hw
  rw [hid]
  exact h i d hd he' hw

theorem Tracked.update_left (h : r.Tracked) (hf : ∀ c, (f c).pc.entered = false) :
    Tracked { r.update i f with nextReqId := n } :=
  h.update fun c _ he => absurd he (by simp [hf c])

theorem Tracked.alloc (h : r.Tracked) (hc : c.pc.entered = false) :
    Tracked { r with calls := r.calls.alloc c } :=
  Arena.forall_alloc h fun he => absurd he (by simp [hc])

theorem Tracked.insert (h : r.Tracked) (hc : r.calls.get i = some c) :
    ((r.update i ({ · with pc := .pushing })).insert c.id i).Tracked := by
  intro j d hd he hw
  simp only [Requests.insert, Requests.settle, Requests.update, Arena.get_updateAll,
    Arena.get_update, Option.map_eq_some_iff] at hd
  obtain ⟨d', hd', rfl⟩ := hd
  simp only [Requests.insert, Requests.update, Table.get_insert]
  split_ifs at hd' with hj
  · -- the entering call itself
    obtain rfl : { c with pc := CallPc.pushing } = d' := by simpa [hc] using hd'
    split_ifs <;> simp_all
  split_ifs at he hw ⊢ with h1 h2 h3
  · exact absurd hw (settles_drop d'.slot)
  · exact absurd hw (settles_drop d'.slot)
  · -- a waiting call of the same id would be the one that was dropped
    have := h j d' hd' he hw
    rw [h3] at this
    exact absurd (by simp [this]) h1
  · exact h j d' hd' he hw

theorem NoneParked.settle (h : r.NoneParked) {f : Oneshot → Oneshot}
    (hp : ∀ i c, r.calls.get i = some c → c.pc = .parked → pending.get c.id = some i →
      r.pending.get c.id = some i) :
    NoneParked { r.settle is f with pending := pending } := by
  intro i c hc hpc hpend
  simp only [Requests.settle, Arena.get_updateAll, Option.map_eq_some_iff] at hc
  obtain ⟨d, hd, rfl⟩ := hc
  split_ifs at hpc hpend
  · exact h i d hd hpc (hp i d hd hpc hpend)
  · exact h i d hd hpc (hp i d hd hpc hpend)

theorem NoneParked.take (h : r.NoneParked) {f : Oneshot → Oneshot} (id : Nat) :
    NoneParked { r.settle (r.pending.get id).toList f with pending := r.pending.remove id } := by
  refine h.settle fun i c _ _ hp => ?_
  rw [Table.get_remove] at hp
  split_ifs at hp
  exact hp

theorem noneParked_drain (r : Requests) : r.drain.NoneParked := by
  intro i c _ _ hp
  exact absurd hp (by simp [Requests.drain])

theorem NoneParked.update (h : r.NoneParked)
    (hf : ∀ c, r.calls.get i = some c → (f c).pc = .parked → r.pending.get (f c).id ≠ some i) :
    NoneParked { r.update i f with nextReqId := n } := Arena.forall_update h hf

theorem NoneParked.update_left (h : r.NoneParked) (hf : ∀ c, (f c).pc.entered = false) :
    NoneParked { r.update i f with nextReqId := n } := by
  refine h.update fun c _ hpc => ?_
  have := hf c
  rw [hpc] at this
  exact absurd this (by simp [CallPc.entered])

theorem NoneParked.alloc (h : r.NoneParked) (hc : c.pc ≠ .parked) :
    NoneParked { r with calls := r.calls.alloc c } :=
  Arena.forall_alloc h fun hpc => absurd hpc hc

theorem NoneParked.insert (h : r.NoneParked) (i id : Nat) :
    ((r.update i ({ · with pc := .pushing })).insert id i).NoneParked := by
  have hu : NoneParked (r.update i ({ · with pc := .pushing })) :=
    h.update (n := r.nextReqId) fun c _ hpc => absurd hpc (by simp)
  intro j c hc hpc hpend
  simp only [Requests.insert, Requests.settle, Arena.get_updateAll, Option.map_eq_some_iff] at hc
  obtain ⟨d, hd, rfl⟩ := hc
  simp only [Requests.insert, Table.get_insert] at hpend
  have hdpc : d.pc = .parked := by split_ifs at hpc <;> exact hpc
  have hdj : j ≠ i := by
    rintro rfl
    simp only [Requests.update, Arena.get_update, if_true, Option.map_eq_some_iff] at hd
    obtain ⟨d', _, rfl⟩ := hd
    exact absurd hdpc (by simp)
  split_ifs at hpend with h1 h2 h3
  · exact hdj (Option.some.inj hpend).symm
  · exact hu j d hd hdpc hpend
  · exact hdj (Option.some.inj hpend).symm
  · exact hu j d hd hdpc hpend

end Requests

/-- The call is parked on its oneshot, which nobody has sent to, and is in `pending`. -/
def Requests.hangs (r : Requests) (i : Nat) : Bool :=
  match r.calls.get i with
  | some { pc := .parked, slot := .waiting, id := id, .. } => r.pending.get id = some i
  | _ => false

def CallPc.isParked : CallPc → Bool
  | .parked => true
  | _ => false

theorem CallPc.eq_parked {pc : CallPc} (h : pc.isParked = true) : pc = .parked := by
  cases pc <;> simp_all [CallPc.isParked]

/-! ### What the halves do to `pending` -/

namespace Client

variable {cfg : Config} {env : Env} {v v' : Client} {e : Emit}

/-- Seen from `pending`, a call enters it, parks, leaves it, or moves where it does not matter. -/
theorem CallStep.requests {i : Nat} {c : Call} (h : CallStep cfg env v i c v' e) :
    (∃ f n, v'.requests = { v.requests.update i f with nextReqId := n } ∧
      ∀ c, (f c).pc.entered = false) ∨
    (c.pc = .inserting ∧
      v'.requests = (v.requests.update i ({ · with pc := .pushing })).insert c.id i) ∨
    (c.pc = .pushing ∧ env.live = true ∧
      v'.requests = v.requests.update i ({ · with pc := .parked })) ∨
    ∃ f, v'.requests = (v.requests.remove c.id).update i f ∧ ∀ c, (f c).pc.entered = false := by
  cases h with
  | numbered => exact .inl ⟨_, _, rfl, fun _ => rfl⟩
  | inserted hpc => exact .inr (.inl ⟨hpc, rfl⟩)
  | pushed hpc hlive => exact .inr (.inr (.inl ⟨hpc, hlive, rfl⟩))
  | unsentUnary | unsentStream => exact .inr (.inr (.inr ⟨_, rfl, fun _ => rfl⟩))
  | _ => exact .inl ⟨_, v.requests.nextReqId, rfl, fun _ => rfl⟩

theorem handle_requests (v : Client) (f : Frame) :
    (v.handle f).requests = v.requests ∨
      ∃ id result, (v.handle f).requests = v.requests.deliver id result := by
  unfold handle
  split
  · exact .inr ⟨_, _, rfl⟩
  · exact .inr ⟨_, _, rfl⟩
  all_goals exact .inl rfl

end Client

/-! ### The invariant -/

/-- The `shutdown` has drained `pending`. -/
def ShutdownPc.pastDrain : ShutdownPc → Bool
  | .takingGraceful => false
  | .drainingPending => false
  | _ => true

namespace Closing

/-- Some `shutdown` has drained `pending`. -/
def pastDrain (c : Closing) : Bool := c.shutdowns.objects.any fun x => x.pc.pastDrain

variable {c : Closing} {k : Nat} {g : Option String} {reason : Option CloseReason} {x : Shutdown}

theorem pastDrain_iff :
    c.pastDrain = true ↔ ∃ k x, c.shutdowns.get k = some x ∧ x.pc.pastDrain = true := by
  rw [pastDrain, List.any_eq_true]
  constructor
  · rintro ⟨x, hx, hp⟩
    obtain ⟨k, hk⟩ := Arena.mem_objects_iff.mp hx
    exact ⟨k, x, hk, hp⟩
  · rintro ⟨k, x, hk, hp⟩
    exact ⟨x, Arena.mem_objects_of_get hk, hp⟩

theorem pastDrain_begin (c : Closing) (reason : CloseReason) :
    (c.begin reason).pastDrain = c.pastDrain := by
  simp [pastDrain, Closing.begin, Arena.alloc, ShutdownPc.pastDrain]

theorem pastDrain_update {f : Shutdown → Shutdown}
    (hf : ∀ x, (f x).pc.pastDrain = true → c.pastDrain = true)
    (h : ({ graceful := g, closeReason := reason, shutdowns := c.shutdowns.update k f } :
      Closing).pastDrain = true) : c.pastDrain = true := by
  obtain ⟨j, x, hx, hp⟩ := pastDrain_iff.mp h
  rcases Arena.get_update_cases hx with ⟨-, y, -, rfl⟩ | ⟨-, hx⟩
  · exact hf y hp
  · exact pastDrain_iff.mpr ⟨j, x, hx, hp⟩

theorem pastDrain_move (hx : c.shutdowns.get k = some x) {pc : ShutdownPc}
    (hpc : pc.pastDrain = true) :
    ({ c.move k pc with graceful := g, closeReason := reason } : Closing).pastDrain = true :=
  pastDrain_iff.mpr ⟨k, { x with pc := pc }, by simp [Closing.move, hx], hpc⟩

theorem pastDrain_takeGraceful (c : Closing) (k : Nat) (hx : c.shutdowns.get k = some x)
    (hpc : x.pc.pastDrain = false) : (c.takeGraceful k).pastDrain = c.pastDrain := by
  rw [Bool.eq_iff_iff]
  refine ⟨pastDrain_update fun _ h => absurd h (by simp [ShutdownPc.pastDrain]), fun h => ?_⟩
  obtain ⟨j, y, hy, hp⟩ := pastDrain_iff.mp h
  have hj : j ≠ k := by
    rintro rfl
    obtain rfl := Option.mem_unique hx hy
    rw [hpc] at hp
    exact absurd hp (by simp)
  exact pastDrain_iff.mpr ⟨j, y, by simp [Closing.takeGraceful, hj, hy], hp⟩

end Closing

/-- No call in `pending` pushes onto a live `out` behind some `shutdown`'s drain of `pending`. -/
def pushesBeforeDrain (s : Shared) : Act → Bool
  | .call (.run i) =>
    match s.client.requests.calls.get i with
    | some c =>
      match c.pc with
      | .pushing =>
        !s.out.writer.live || s.client.requests.pending.get c.id ≠ some i || !s.closing.pastDrain
      | _ => true
    | none => true
  | _ => true

/-- Behind the drain no call is parked with its sender. -/
structure Shared.ClosingInv (s : Shared) : Prop where
  tracked : s.client.requests.Tracked
  late : s.closing.pastDrain = true → s.client.requests.NoneParked
  published : s.closing.closeReason.isSome = true → s.closing.pastDrain = true

theorem Shared.closingInv_start (served : Served) : (Shared.start served).ClosingInv where
  tracked i c hc := by simp [Shared.start, Requests.start] at hc
  late h := by simp [Shared.start, Closing.pastDrain, Arena.empty] at h
  published h := by simp [Shared.start] at h

theorem Shared.ClosingInv.congr {s s' : Shared} (hs : s.ClosingInv)
    (hr : s'.client.requests = s.client.requests)
    (hd : s'.closing.shutdowns = s.closing.shutdowns)
    (hc : s'.closing.closeReason = s.closing.closeReason) : s'.ClosingInv := by
  have hp : s'.closing.pastDrain = s.closing.pastDrain := by rw [Closing.pastDrain, hd]; rfl
  exact ⟨by rw [hr]; exact hs.tracked, by rw [hr, hp]; exact hs.late,
    by rw [hc, hp]; exact hs.published⟩

theorem Shared.ClosingInv.callStep {cfg : Config} {s : Shared} {a : CallAct} {v : Client} {e : Emit}
    (hs : s.ClosingInv) (hok : pushesBeforeDrain s (.call a) = true)
    (h : s.client.callStep cfg (s.env cfg) a = some (v, e)) : (s.withClient v e).ClosingInv := by
  obtain ⟨ht, hl, hp⟩ := hs
  suffices v.requests.Tracked ∧ (s.closing.pastDrain = true → v.requests.NoneParked) from
    ⟨this.1, this.2, hp⟩
  rcases Client.callStep_cases h with ⟨method, params, metadata, -, rfl, -⟩ |
    ⟨method, params, -, rfl, -⟩ | ⟨i, c, rfl, hc, hstep⟩ | ⟨i, c, -, -, -, rfl, -⟩
  · exact ⟨ht.alloc rfl, fun hd => (hl hd).alloc (by simp)⟩
  · exact ⟨ht.alloc rfl, fun hd => (hl hd).alloc (by simp)⟩
  · rcases hstep.requests with ⟨f, n, hr, hf⟩ | ⟨-, hr⟩ | ⟨hpc, hlive, hr⟩ | ⟨f, hr, hf⟩
    · rw [hr]
      exact ⟨ht.update_left hf, fun hd => (hl hd).update_left hf⟩
    · rw [hr]
      exact ⟨ht.insert hc, fun hd => (hl hd).insert i c.id⟩
    · rw [hr]
      refine ⟨ht.update (n := s.client.requests.nextReqId) fun d hd _ => ?_,
        fun hd => (hl hd).update (n := s.client.requests.nextReqId) fun d hd' _ hpend => ?_⟩
      · obtain rfl := Option.mem_unique hc hd
        exact ⟨by rw [hpc]; rfl, rfl, rfl⟩
      · -- the condition rules out a push with the sender in `pending` behind the drain
        obtain rfl := Option.mem_unique hc hd'
        have hlive' : s.out.writer.live = true := hlive
        simp only [pushesBeforeDrain, hc, hpc, hlive', hd, hpend] at hok
        exact absurd hok (by simp)
    · rw [hr]
      exact ⟨(ht.take Requests.settles_drop c.id).update_left (n := s.client.requests.nextReqId) hf,
        fun hd => ((hl hd).take c.id).update_left (n := s.client.requests.nextReqId) hf⟩
  · exact ⟨ht.update_left (n := s.client.requests.nextReqId) fun _ => rfl,
      fun hd => (hl hd).update_left (n := s.client.requests.nextReqId) fun _ => rfl⟩

theorem Shared.ClosingInv.shutdownRun {s s' : Shared} {k : Nat} {x : Shutdown} (hs : s.ClosingInv)
    (hx : s.closing.shutdowns.get k = some x) (h : s.shutdownRun k x = some s') :
    s'.ClosingInv := by
  obtain ⟨ht, hl, hp⟩ := hs
  -- past the drain, the step leaves the calls alone and the `shutdown` past it
  have past (hpc : x.pc.pastDrain = true) : s.client.requests.NoneParked :=
    hl (Closing.pastDrain_iff.mpr ⟨k, x, hx, hpc⟩)
  unfold Shared.shutdownRun at h
  split at h <;> rename_i hpc <;> cases h
  case h_1 =>
    have hd := s.closing.pastDrain_takeGraceful k hx (by rw [hpc]; rfl)
    exact ⟨ht, fun hd' => hl (hd ▸ hd'), fun hr => hd.trans (hp hr)⟩
  case h_2 =>
    exact ⟨ht.drain, fun _ => Requests.noneParked_drain _, fun _ => Closing.pastDrain_move hx rfl⟩
  case h_7 =>
    refine ⟨ht, fun _ => past (by rw [hpc]; rfl), fun _ => Closing.pastDrain_move hx ?_⟩
    split_ifs <;> rfl
  all_goals
    exact ⟨ht, fun _ => past (by rw [hpc]; rfl), fun _ => Closing.pastDrain_move hx rfl⟩

theorem Shared.closingInv_step {cfg : Config} {s s' : Shared} {a : Act} (hs : s.ClosingInv)
    (hok : pushesBeforeDrain s a = true) (h : s.step cfg a = some s') : s'.ClosingInv := by
  have hbegin {s' : Shared} {reason : CloseReason} (hc : s'.closing = s.closing.begin reason)
      (hr : s'.client.requests = s.client.requests) : s'.ClosingInv := by
    have hd := s.closing.pastDrain_begin reason
    exact ⟨hr ▸ hs.tracked, fun hd' => hr ▸ hs.late (hd ▸ hc ▸ hd'),
      fun hp => hc ▸ hd.trans (hs.published (by rwa [hc] at hp))⟩
  cases acts_of_step h with
  | call hstep => exact hs.callStep hok hstep
  | stream hstep => exact hs.congr (Client.streamStep_reads hstep).1 rfl rfl
  | announced =>
    exact ⟨hs.tracked.alloc rfl, fun hd => (hs.late hd).alloc (by simp), hs.published⟩
  | @receive f _ =>
    rcases Client.handle_requests s.client f with hr | ⟨id, result, hr⟩
    · exact hs.congr hr rfl rfl
    refine ⟨?_, fun hd => ?_, hs.published⟩
    · show (s.client.handle f).requests.Tracked
      rw [hr]
      exact hs.tracked.take (Requests.settles_send result) id
    · show (s.client.handle f).requests.NoneParked
      rw [hr]
      exact (hs.late hd).take id
  | shutdown reason => exact hbegin rfl rfl
  | shutdownRun hx hrun => exact hs.shutdownRun hx hrun
  | writer _ hclosing =>
    rcases hclosing with rfl | ⟨e, -, rfl⟩
    · exact hs.congr rfl rfl rfl
    · exact hbegin rfl rfl
  | serve | announceOver | notify | close => exact hs.congr rfl rfl rfl

/-- **No call is left hanging as long as none pushes behind the drain of `pending`.**  Whenever a
close reason has been published, whatever the other `shutdown`s and the writer are at, a parked call
has no sender in `pending`, and has been given a result or `connection_lost`. -/
theorem no_call_left_hanging {cfg : Config} {served : Served} {as : List Act} {s : Shared}
    (h : Run (Guarded (Steps (Shared.step cfg)) (pushesBeforeDrain · ·)) (.start served) as s)
    (hreason : s.closing.closeReason.isSome) {i : Nat} {c : Call}
    (hc : s.client.requests.calls.get i = some c) (hpc : c.pc = .parked) :
    s.client.requests.pending.get c.id ≠ some i ∧ ∃ result, c.slot.result = some result := by
  have hinv : s.ClosingInv := h.state_invariant (Shared.closingInv_start served)
    fun s a s' hs ⟨hstep, hok⟩ => Shared.closingInv_step hs hok hstep
  have hnone := hinv.late (hinv.published hreason) i c hc hpc
  refine ⟨hnone, ?_⟩
  cases hslot : c.slot with
  | waiting => exact absurd (hinv.tracked i c hc (by rw [hpc]; rfl) hslot) hnone
  | sent result => exact ⟨result, rfl⟩
  | dropped => exact ⟨.error .connectionLost, rfl⟩

/-- A call pushes, and then a `shutdown` runs through. -/
def pushThenShutdown : List Act :=
  [.call (.call "fs.read" .nil .nil), .call (.run 0), .call (.run 0), .call (.run 0),
    .closing (.shutdown (.transport "connection closed"))] ++
  List.replicate 9 (.closing (.shutdownRun 0))

theorem no_call_left_hanging_pushThenShutdown :
    ∃ s c, Run (Guarded (Steps (Shared.step (.bare .dialer .msgpack))) (pushesBeforeDrain · ·))
        (.start .default) pushThenShutdown s ∧ s.closing.closeReason.isSome ∧
      s.client.requests.calls.get 0 = some c ∧ c.pc = .parked ∧
      (s.client.requests.pending.get c.id ≠ some 0 ∧ ∃ result, c.slot.result = some result) := by
  obtain ⟨s, hrun, hreason, hpark⟩ := exists_run_of_execOk
    (Shared.step (.bare .dialer .msgpack)) pushesBeforeDrain (.start .default) pushThenShutdown
    (fun s => s.closing.closeReason.isSome ∧
      (s.client.requests.calls.get 0).any (·.pc.isParked)) rfl
  obtain ⟨c, hc, hpc⟩ := (Option.any_eq_true _ _).mp hpark
  have hpc := CallPc.eq_parked hpc
  exact ⟨s, c, hrun, hreason, hc, hpc, no_call_left_hanging hrun hreason hc hpc⟩

/-- A call enters `pending` behind the drain, and the writer takes its `req` before the `Close`: the
reason is published, the `shutdown` finished and the writer gone, and the call waits on a sender
that stays in `pending`. -/
theorem call_hangs_after_drain :
    ∃ s, Run (Steps (Shared.step (.bare .dialer .msgpack))) (.start .default)
        ([.call (.call "fs.read" .nil .nil), .call (.run 0),
          .closing (.shutdown (.transport "connection closed")), .closing (.shutdownRun 0),
          .closing (.shutdownRun 0), .call (.run 0), .call (.run 0)] ++
        List.replicate 7 (.closing (.shutdownRun 0)) ++
        [.writer .recv, .writer .sent, .writer .recv, .writer .exit]) s ∧
      s.closing.closeReason = some (.transport "connection closed") ∧
      (∀ x ∈ s.closing.shutdowns.objects, x.pc = .finished) ∧ s.out.writer.live = false ∧
      s.client.requests.hangs 0 = true :=
  exists_run_of_exec _ _ _ _ rfl

end Zyris.Core
