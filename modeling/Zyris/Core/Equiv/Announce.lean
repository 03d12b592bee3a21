import Zyris.Core.Equiv.Requests

/-!
# Announcements

`announce` reads the descriptors in one step and the request is queued later, so several may be
under way.  The newest one has what is served, and the peer keeps the last one it received.  These
are the same if announcements are queued in the order in which they were read, which the code does
not see to.
-/

/-! ### Announcements among the frames -/

namespace Zyris.Proto.Frame

open Zyris.Core

def isAnnounce : Frame → Bool
  | .control (.req _ method _ _ _) => method = METHOD_ANNOUNCE
  | _ => false

theorem reqId_of_isAnnounce {f : Frame} (h : f.isAnnounce = true) : ∃ id, f.reqId = some id := by
  unfold isAnnounce at h
  split at h
  · exact ⟨_, rfl⟩
  · cases h

end Zyris.Proto.Frame

namespace Zyris.Core

open Proto

def announces (fs : List Frame) : List Frame := fs.filter Frame.isAnnounce

@[simp] theorem announces_append (fs gs : List Frame) :
    announces (fs ++ gs) = announces fs ++ announces gs := List.filter_append ..

theorem announces_of_reqId {fs : List Frame} (h : ∀ f ∈ fs, f.reqId = none) :
    announces fs = [] := by
  refine List.filter_eq_nil_iff.mpr fun f hf ha => ?_
  obtain ⟨id, hid⟩ := Frame.reqId_of_isAnnounce ha
  rw [h f hf] at hid
  cases hid

/-- What an announcement leaves of what was kept before. -/
def Config.capsAfter (cfg : Config) (caps : List CapabilityDescriptor) :
    Frame → List CapabilityDescriptor
  | .control (.req _ _ params _ _) =>
    match cfg.toAnnounceParams params with
    | .ok capabilities => cfg.keptCaps capabilities
    | .error _ => caps
  | _ => caps

namespace Shared

variable {cfg : Config} {s s' : Shared} {a : Act}

theorem peerCapsFrom_eq (cfg : Config) (s : Shared) (f : Frame) :
    s.peerCapsFrom cfg f = (announces [f]).foldl cfg.capsAfter s.peerCaps := by
  unfold peerCapsFrom
  split
  · rename_i id method params stream metadata
    by_cases hm : method = METHOD_ANNOUNCE
    · have hone : announces [.control (.req id method params stream metadata)] =
          [.control (.req id method params stream metadata)] := by
        simp [announces, Frame.isAnnounce, hm]
      rw [if_pos hm, hone]
      rfl
    · simp [announces, Frame.isAnnounce, hm]
  · rename_i hne
    have hf : f.isAnnounce = false := by
      unfold Frame.isAnnounce
      split
      · exact absurd rfl (hne _ _ _ _ _)
      · rfl
    simp [announces, hf]

theorem peerCaps_of_step (h : s.step cfg a = some s') :
    (s'.peerCaps = s.peerCaps ∧ s'.received = s.received) ∨
      ∃ f, s' = s.receive cfg f := by
  cases acts_of_step h with
  | @receive f _ => exact .inr ⟨f, rfl⟩
  | shutdownRun _ hrun =>
    unfold shutdownRun at hrun
    split at hrun <;> cases hrun
    all_goals exact .inl ⟨rfl, rfl⟩
  | _ => exact .inl ⟨rfl, rfl⟩

/-- What an end keeps of its peer's announcements is what they leave, in the order received. -/
theorem peerCaps_of_run {s₀ : Shared} (h₀ : s₀.peerCaps = [] ∧ s₀.received = []) {as : List Act}
    (h : Run (Steps (Shared.step cfg)) s₀ as s) :
    s.peerCaps = (announces s.received).foldl cfg.capsAfter [] := by
  refine h.state_invariant
    (I := fun s => s.peerCaps = (announces s.received).foldl cfg.capsAfter []) ?_ ?_
  · rw [h₀.1, h₀.2]
    rfl
  · intro s a s' hs hstep
    rcases peerCaps_of_step hstep with ⟨hcaps, hrec⟩ | ⟨f, rfl⟩
    · rw [hcaps, hrec, hs]
    · show s.peerCapsFrom cfg f = (announces (s.received ++ [f])).foldl cfg.capsAfter []
      rw [announces_append, List.foldl_append, ← hs, peerCapsFrom_eq]

end Shared

/-! ### Announcements among the calls -/

def Call.isAnnounce (c : Call) : Bool := c.method = METHOD_ANNOUNCE

/-- The call is an announcement that comes to its push. -/
def Call.queuesAnnounce (c : Call) : Bool :=
  match c.pc with
  | .pushing => c.isAnnounce
  | _ => false

/-- No announcement read after the call `i` has been queued yet. -/
def Requests.isNewest (r : Requests) (i : Nat) : Bool :=
  (r.calls.objects.drop (i + 1)).all fun c => !(c.isAnnounce && c.pc.isPushed)

/-- No announcement is queued behind one that was read later, and the user makes none of its own. -/
def Shared.announcesInOrder (s : Shared) : Act → Bool
  | .call (.call method _ _) => method ≠ METHOD_ANNOUNCE
  | .call (.callStreaming method _) => method ≠ METHOD_ANNOUNCE
  | .call (.run i) =>
    !(s.client.requests.calls.get i).any Call.queuesAnnounce || s.client.requests.isNewest i
  | _ => true

/-- The same of one end of two. -/
def Duplex.announcesInOrder (side : Side) (d : Duplex) : DuplexAct → Bool
  | .act x a => x ≠ side || (d side).announcesInOrder a
  | .deliver _ => true

theorem Call.Continues.isAnnounce {received : List Frame} {c c' : Call}
    (h : c.Continues received c') : c'.isAnnounce = c.isAnnounce := by
  rw [Call.isAnnounce, Call.isAnnounce, (Envelope.req.inj h.envelope).2.1]

theorem Call.isAnnounce_envelope (c : Call) :
    (Frame.control c.envelope).isAnnounce = c.isAnnounce := rfl

namespace Requests

variable {r r' : Requests} {sent received fs : List Frame} {a : Act} {i j : Nat} {c : Call}
  {f : Frame} {params : Option Payload}

theorem le_of_isNewest {k : Nat} (h : r.isNewest i = true) (hk : r.calls.get k = some c)
    (hc : c.isAnnounce = true) (hpush : c.pc.isPushed = true) : k ≤ i := by
  by_contra hlt
  have hmem : c ∈ r.calls.objects.drop (i + 1) := by
    refine List.mem_of_getElem? (i := k - (i + 1)) ?_
    rw [List.getElem?_drop, show i + 1 + (k - (i + 1)) = k by omega]
    exact hk
  have hall := List.all_eq_true.mp h c hmem
  simp [hc, hpush] at hall

/-- The frame is the request of the call `i`. -/
def IsRequest (r : Requests) (i : Nat) (f : Frame) : Prop :=
  ∃ c, r.calls.get i = some c ∧ c.pc.isPushed = true ∧ f = .control c.envelope

/-- The announcements handed over are those of calls, in the order in which they were read. -/
def InOrder (r : Requests) (sent : List Frame) : Prop :=
  ∃ ps : List (Nat × Frame), ps.map Prod.snd = announces sent ∧ ps.Pairwise (·.1 < ·.1) ∧
    ∀ p ∈ ps, r.IsRequest p.1 p.2

theorem InOrder.mono (h : r.InOrder sent)
    (hr : ∀ i f, r.IsRequest i f → r'.IsRequest i f) : r'.InOrder sent := by
  obtain ⟨ps, hps, hsorted, hreq⟩ := h
  exact ⟨ps, hps, hsorted, fun p hp => hr p.1 p.2 (hreq p hp)⟩

theorem InOrder.alloc (h : r.InOrder sent) (c : Call) :
    ({ r with calls := r.calls.alloc c } : Requests).InOrder sent := by
  refine h.mono fun i f hf => ?_
  obtain ⟨e, he, hpush, hfe⟩ := hf
  exact ⟨e, Arena.get_alloc_of_get he c, hpush, hfe⟩

theorem InOrder.quiet (h : r.InOrder sent) (hfs : ∀ f ∈ fs, f.reqId = none) :
    r.InOrder (sent ++ fs) := by
  unfold InOrder
  rw [announces_append, announces_of_reqId hfs, List.append_nil]
  exact h

theorem IsRequest.ne (h : r.IsRequest i f) (hc : r.calls.get j = some c)
    (hpush : c.pc.isPushed = false) : i ≠ j := by
  obtain ⟨e, he, hp, -⟩ := h
  rintro rfl
  obtain rfl := Option.mem_unique hc he
  rw [hpush] at hp
  cases hp

theorem IsRequest.update (h : r.IsRequest i f) (hc : r.calls.get j = some c)
    (hpush : c.pc.isPushed = false) (g : Call → Call) : (r.update j g).IsRequest i f := by
  have hne := h.ne hc hpush
  obtain ⟨e, he, hp, hfe⟩ := h
  refine ⟨e, ?_, hp, hfe⟩
  show (r.calls.update j g).get i = some e
  rw [Arena.get_update, if_neg hne, he]

theorem InOrder.push (h : r.InOrder sent) (hc : r.calls.get i = some c) (hpc : c.pc = .pushing)
    (hnew : c.isAnnounce = true → r.isNewest i = true) :
    (r.update i ({ · with pc := .parked })).InOrder (sent ++ [.control c.envelope]) := by
  have hpush : c.pc.isPushed = false := by rw [hpc]; rfl
  obtain ⟨ps, hps, hsorted, hreq⟩ := h
  have hkeep (p : Nat × Frame) (hp : p ∈ ps) :=
    (hreq p hp).update hc hpush ({ · with pc := .parked })
  rcases ha : c.isAnnounce with _ | _
  · have hnone : announces [.control c.envelope] = [] := by
      simp [announces, c.isAnnounce_envelope, ha]
    refine ⟨ps, ?_, hsorted, hkeep⟩
    rw [announces_append, hnone, List.append_nil, hps]
  have hone : announces [.control c.envelope] = [.control c.envelope] := by
    simp [announces, c.isAnnounce_envelope, ha]
  refine ⟨ps ++ [(i, .control c.envelope)], ?_, ?_, ?_⟩
  · rw [announces_append, hone, List.map_append, hps]
    rfl
  · -- every announcement handed over before was read before
    refine List.pairwise_append.mpr ⟨hsorted, List.pairwise_singleton _ _, fun p hp q hq => ?_⟩
    obtain rfl := List.mem_singleton.mp hq
    have hmem : p.2 ∈ announces sent := hps ▸ List.mem_map_of_mem hp
    have hne := (hreq p hp).ne hc hpush
    obtain ⟨e, he, hep, hpe⟩ := hreq p hp
    have hea : e.isAnnounce = true := by
      rw [← e.isAnnounce_envelope, ← hpe]
      exact (List.mem_filter.mp hmem).2
    exact Nat.lt_of_le_of_ne (le_of_isNewest (hnew ha) he hea hep) hne
  · intro p hp
    rcases List.mem_append.mp hp with hp | hp
    · exact hkeep p hp
    · rw [List.mem_singleton.mp hp]
      exact ⟨_, Arena.get_update_self hc _, rfl, rfl⟩

theorem InOrder.change (h : r.InOrder sent) (hc : Change a r received r' fs)
    (hok : ∀ i c, a = .call (.run i) → r.calls.get i = some c → c.queuesAnnounce = true →
      r.isNewest i = true) : r'.InOrder (sent ++ fs) := by
  cases hc with
  | began c | announced n c =>
    rw [List.append_nil]
    exact h.alloc c
  | numbered i c hc hpc =>
    rw [List.append_nil]
    exact h.mono fun k f hk => hk.update hc (by rw [hpc]; rfl) _
  | pushed i c ha hc hpc =>
    refine h.push hc hpc fun hann => hok i c ha hc ?_
    rwa [Call.queuesAnnounce, hpc]
  | continued _ _ hcont hfs =>
    refine InOrder.quiet (h.mono fun i f hf => ?_) hfs
    obtain ⟨c, hc, hpush, rfl⟩ := hf
    obtain ⟨c', hc', hcc⟩ := hcont.calls.get_right hc
    exact ⟨c', hc', hcc.pushed hpush, by rw [hcc.envelope]⟩

/-! ### The newest announcement -/

/-- The newest announcement is the call `i`. -/
structure Newest (r : Requests) (i : Nat) (c : Call) : Prop where
  get : r.calls.get i = some c
  isAnnounce : c.isAnnounce = true
  last : ∀ j e, r.calls.get j = some e → e.isAnnounce = true → j ≤ i

/-- The newest announcement is of these parameters; none was made while they are `none`. -/
def Announced (r : Requests) (params : Option Payload) : Prop :=
  (params = none ∧ ∀ i c, r.calls.get i = some c → c.isAnnounce = false) ∨
    ∃ i c, r.Newest i c ∧ params = some c.params

theorem Announced.rel (h : r.Announced params)
    (hr : r.calls.Rel (fun c c' => c'.isAnnounce = c.isAnnounce ∧ c'.params = c.params) r'.calls) :
    r'.Announced params := by
  rcases h with ⟨hp, hnone⟩ | ⟨i, c, hnew, hp⟩
  · refine .inl ⟨hp, fun i c' hc' => ?_⟩
    obtain ⟨c, hc, hann, -⟩ := hr.get hc'
    exact hann.trans (hnone i c hc)
  obtain ⟨c', hc', hann, hparams⟩ := hr.get_right hnew.get
  refine .inr ⟨i, c', ⟨hc', hann.trans hnew.isAnnounce, fun j e' he' hea => ?_⟩, ?_⟩
  · obtain ⟨e, he, heann, -⟩ := hr.get he'
    exact hnew.last j e he (heann.symm.trans hea)
  · rw [hparams]
    exact hp

theorem Announced.alloc (h : r.Announced params) (hc : c.isAnnounce = false) :
    ({ r with calls := r.calls.alloc c } : Requests).Announced params := by
  rcases h with ⟨hp, hnone⟩ | ⟨i, e, hnew, hp⟩
  · exact .inl ⟨hp, Arena.forall_alloc hnone hc⟩
  have hget := Arena.get_alloc_of_get hnew.get c
  refine .inr ⟨i, e, ⟨hget, hnew.isAnnounce, Arena.forall_alloc hnew.last fun hxa => ?_⟩, hp⟩
  rw [hc] at hxa
  cases hxa

theorem announced_alloc (r : Requests) (hc : c.isAnnounce = true) :
    ({ r with calls := r.calls.alloc c } : Requests).Announced (some c.params) := by
  refine .inr ⟨r.calls.size, c, ⟨by simp, hc, fun j e he _ => ?_⟩, rfl⟩
  have hlt := Arena.lt_size_of_get he
  rw [Arena.size_alloc] at hlt
  omega

theorem Announced.change (h : r.Announced params) (hc : Change a r received r' fs)
    (hb : a.begins METHOD_ANNOUNCE = false) (ha : ∀ n, a ≠ .announce n) : r'.Announced params := by
  have hsame (c : Call) : c.isAnnounce = c.isAnnounce ∧ c.params = c.params := ⟨rfl, rfl⟩
  cases hc with
  | began c _ _ hbegins =>
    refine h.alloc (Bool.eq_false_iff.mpr fun hann => ?_)
    rw [of_decide_eq_true hann, hb] at hbegins
    cases hbegins
  | announced n c hn => exact absurd hn (ha n)
  | numbered i c | pushed i c => exact h.rel (Arena.rel_update hsame fun _ _ => ⟨rfl, rfl⟩)
  | continued _ _ hcont =>
    refine h.rel (hcont.calls.mono fun c c' hcc => ⟨hcc.isAnnounce, ?_⟩)
    exact (Envelope.req.inj hcc.envelope).2.2.1

end Requests

/-! ### What is served, and what was announced -/

/-- The `replace` has made its announcement. -/
def ReplacePc.isOver : ReplacePc → Bool
  | .awaiting _ => true
  | .finished => true
  | _ => false

/-- The announcement tells of these descriptors; without one there are none. -/
def Config.Tells (cfg : Config) (ds : List CapabilityDescriptor) : Option Payload → Prop
  | none => ds = []
  | some params => cfg.announceParams ds = .ok params

/-- Once every `replace` has made its announcement, the newest tells of what is served. -/
def Shared.Current (cfg : Config) (s : Shared) : Prop :=
  (∀ n x, s.serve.replaces.get n = some x → x.pc.isOver = true) →
    ∃ params, s.client.requests.Announced params ∧ cfg.Tells s.serve.served.descriptors params

/-- A `replace` on an open connection goes on to its announcement. -/
theorem Serve.ReplaceStep.not_isOver {cfg : Config} {v v' : Serve} {n : Nat} {x : Replace}
    {e : Emit} (h : ReplaceStep cfg false v n x v' e) (hx : v.replaces.get n = some x) :
    ∃ y, v'.replaces.get n = some y ∧ y.pc.isOver = false := by
  cases h with
  | checked pc hpc hor =>
    rcases hor with ⟨-, hclosed⟩ | ⟨rfl, -⟩
    · cases hclosed
    · exact ⟨_, Arena.get_update_self hx _, rfl⟩
  | late name w rest task pc hpc ht hrep hor =>
    rcases hor with ⟨stream, -, rfl⟩ | ⟨-, rfl⟩ <;> exact ⟨_, Arena.get_update_self hx _, rfl⟩
  | _ => exact ⟨_, Arena.get_update_self hx _, rfl⟩

theorem Serve.handle_served (cfg : Config) (v : Serve) (f : Frame) :
    (v.handle cfg f).served = v.served ∧ (v.handle cfg f).replaces = v.replaces := by
  unfold Serve.handle
  split
  · exact ⟨rfl, rfl⟩
  · unfold Serve.handleCancel
    split <;> exact ⟨rfl, rfl⟩
  all_goals exact ⟨rfl, rfl⟩

namespace Shared

variable {cfg : Config} {s s' : Shared} {a : Act}

theorem Current.keep (h : s.Current cfg) {fs : List Frame}
    (hc : Requests.Change a s.client.requests s'.received s'.client.requests fs)
    (hb : a.begins METHOD_ANNOUNCE = false) (ha : ∀ n, a ≠ .announce n)
    (hserved : s'.serve.served = s.serve.served)
    (hreplaces : s'.serve.replaces = s.serve.replaces) :
    s'.Current cfg := by
  intro hover
  rw [hreplaces] at hover
  obtain ⟨params, hann, htells⟩ := h hover
  refine ⟨params, hann.change hc hb ha, ?_⟩
  rwa [hserved]

theorem Current.serveStep (h : s.Current cfg) {b : ServeAct} {v : Serve} {e : Emit}
    (hstep : s.serve.step cfg (s.env cfg) false b = some (v, e)) :
    (s.withServe v e).Current cfg := by
  -- steps that change neither the set nor the `replace`s
  have keep (hserved : v.served = s.serve.served) (hreplaces : v.replaces = s.serve.replaces) :
      (s.withServe v e).Current cfg := by
    intro hover
    obtain ⟨params, hann, htells⟩ := h fun n x hx => hover n x (hreplaces ▸ hx)
    refine ⟨params, hann, ?_⟩
    show cfg.Tells v.served.descriptors params
    rwa [hserved]
  rcases Serve.step_cases hstep with ⟨t, task, ht, -, hs⟩ | ⟨k, x, hk, hs⟩ | ⟨-, hs⟩ |
    ⟨caller, capabilities, built, -, -, rfl, rfl⟩ | ⟨n, x, -, hx, hs⟩
  · cases hs <;> exact keep rfl rfl
  · cases hs <;> exact keep rfl rfl
  · cases hs <;> exact keep rfl rfl
  · -- the new `replace` has not announced yet
    intro hover
    have hnew := hover s.serve.replaces.size
      ⟨caller, s.serve.served.revokedBy built, .checking⟩ (by simp [withServe])
    cases hnew
  · intro hover
    obtain ⟨y, hy, hpc⟩ := hs.not_isOver hx
    rw [hover n y hy] at hpc
    cases hpc

theorem Current.announce (h : s.Current cfg) {n : Nat} (hstep : s.announce cfg n = some s')
    (hcodec : ∀ ds, ∃ params, cfg.announceParams ds = .ok params) : s'.Current cfg := by
  unfold Shared.announce at hstep
  split at hstep
  · obtain ⟨params, hparams⟩ := hcodec s.serve.served.descriptors
    rw [hparams] at hstep
    cases hstep
    intro _
    exact ⟨some params, Requests.announced_alloc _ rfl, hparams⟩
  · rename_i i hawaiting
    obtain ⟨x, hx, hpc⟩ := Option.map_eq_some_iff.mp hawaiting
    split at hstep <;> cases hstep
    intro hover
    refine h fun m y hy => ?_
    by_cases hm : m = n
    · subst hm
      obtain rfl := Option.mem_unique hx hy
      rw [hpc]
      rfl
    · exact hover m y (by simpa [Serve.replacePc, hm] using hy)
  · cases hstep

theorem Current.step (h : s.Current cfg) (hstep : s.step cfg a = some s') {fs : List Frame}
    (hc : Requests.Change a s.client.requests s'.received s'.client.requests fs)
    (hb : a.begins METHOD_ANNOUNCE = false) (hclose : s.closing.closeReason = none)
    (hopen : s.isOpen = true) (hcodec : ∀ ds, ∃ params, cfg.announceParams ds = .ok params) :
    s'.Current cfg := by
  cases acts_of_step hstep with
  | serve hserve =>
    rw [hclose] at hserve
    exact h.serveStep hserve
  | announced | announceOver => exact h.announce hstep hcodec
  | @receive f _ =>
    obtain ⟨hserved, hreplaces⟩ := s.serve.handle_served cfg f
    exact h.keep hc hb (fun n hn => by cases hn) hserved hreplaces
  | shutdownRun hk =>
    rw [Arena.get, (isOpen_iff.mp hopen).1] at hk
    cases hk
  | _ => exact h.keep hc hb (fun n hn => by cases hn) rfl rfl

/-! ### Along a run -/

/-- What an end that announces in order keeps. -/
structure Announcing (cfg : Config) (s : Shared) : Prop where
  orderly : s.Orderly
  inOrder : s.client.requests.InOrder s.sent
  current : s.Current cfg
  closeReason : s.closing.closeReason = none

theorem begins_of_announcesInOrder (h : s.announcesInOrder a = true) :
    a.begins METHOD_ANNOUNCE = false := by
  cases a with
  | call b =>
    cases b with
    | call method params metadata | callStreaming method params =>
      simpa [announcesInOrder, Act.begins] using h
    | _ => rfl
  | _ => rfl

theorem Announcing.step (h : s.Announcing cfg) (hstep : s.step cfg a = some s')
    (hok : s.announcesInOrder a = true)
    (hcodec : ∀ ds, ∃ params, cfg.announceParams ds = .ok params) (ho : s'.isOpen = true)
    (hsize : s'.client.requests.calls.size + 1 < 2 ^ 64) : s'.Announcing cfg := by
  obtain ⟨fs, hsent, hchange⟩ :=
    change_of_step hstep h.orderly.booked h.orderly.writes h.orderly.replies ho
  refine ⟨h.orderly.step hstep ho hsize, ?_, ?_, closeReason_of_step hstep ho h.closeReason⟩
  · rw [hsent]
    refine h.inOrder.change hchange ?_
    rintro i c rfl hc hq
    simpa [announcesInOrder, hc, hq] using hok
  · exact h.current.step hstep hchange (begins_of_announcesInOrder hok) h.closeReason
      (isOpen_of_step hstep ho) hcodec

theorem announcing_of_run {s₀ : Shared} (h₀ : s₀.Announcing cfg) {as : List Act}
    (h : Run (Guarded (Steps (Shared.step cfg)) fun s a => s.announcesInOrder a = true) s₀ as s)
    (hcodec : ∀ ds, ∃ params, cfg.announceParams ds = .ok params) (ho : s.isOpen = true)
    (hsize : s.client.requests.calls.size + 1 < 2 ^ 64) : s.Announcing cfg := by
  refine h.state_invariant
    (I := fun s => s.isOpen = true → s.client.requests.calls.size + 1 < 2 ^ 64 → s.Announcing cfg)
    (fun _ _ => h₀) ?_ ho hsize
  rintro s a s' hs ⟨hstep, hok⟩ ho' hsize'
  have hopen := isOpen_of_step hstep ho'
  have hle := size_calls_of_step hstep hopen
  exact (hs hopen (by omega)).step hstep hok hcodec ho' hsize'

theorem orderly_established (served : Served) : (established served).Orderly :=
  ⟨⟨rfl, rfl, Nat.le_refl 0⟩, trivial, Requests.Booked.start⟩

theorem announcing_established {served : Served}
    (hbuilt : Served.build served.capabilities = .ok served) :
    (established served).Announcing cfg := by
  have hordered := orderly_established served
  refine ⟨hordered, ⟨[], rfl, List.Pairwise.nil, nofun⟩, ?_, rfl⟩
  intro hover
  cases hcaps : served.capabilities with
  | nil =>
    refine ⟨none, .inl ⟨rfl, fun i c hc => by cases hc⟩, ?_⟩
    rw [hcaps] at hbuilt
    have hnone : served = Served.default := (Except.ok.inj hbuilt).symm
    show served.descriptors = []
    rw [hnone]
    rfl
  | cons c cs =>
    -- the first announcement is still to come
    have hfirst := hover 0 ⟨none, [], .announcing⟩
      (by simp [established, hcaps, Arena.get, Arena.alloc, Arena.empty])
    cases hfirst

end Shared

/-! ### Convergence -/

theorem Answers.established (served : Served) :
    Answers (Shared.established served).serve [] [] := by
  have hstart := Answers.start served
  refine ⟨hstart.tasks, trivial, fun r x hx => ?_, hstart.inflight⟩
  rw [Shared.replaces_established hx]
  exact ⟨trivial, nofun⟩

/-- Every `replace` has returned, and the first announcement. -/
def Shared.replacesReturned (s : Shared) : Bool :=
  s.serve.replaces.objects.all fun x => match x.pc with
    | .finished => true
    | _ => false

/-- Every announcement was answered with `Ok`. -/
def Shared.announcesAnswered (s : Shared) : Bool :=
  s.client.requests.calls.objects.all fun c => match c.pc with
    | .returned (.ok _) => true
    | _ => !c.isAnnounce

theorem Shared.isOver_of_replacesReturned {s : Shared} (h : s.replacesReturned = true) :
    ∀ n x, s.serve.replaces.get n = some x → x.pc.isOver = true := by
  intro n x hx
  have hfin := List.all_eq_true.mp h x (Arena.mem_objects_of_get hx)
  cases hpc : x.pc <;> simp_all [ReplacePc.isOver]

theorem Shared.hasOk_of_announcesAnswered {s : Shared} (h : s.announcesAnswered = true) {i : Nat}
    {c : Call} (hc : s.client.requests.calls.get i = some c) (ha : c.isAnnounce = true) :
    c.pc.isNumbered = true ∧ ∃ p, c.HasOk p := by
  have hans := List.all_eq_true.mp h c (Arena.mem_objects_of_get hc)
  split at hans
  · rename_i p hpc
    exact ⟨by rw [hpc]; rfl, p, .inr hpc⟩
  · rw [ha] at hans
    cases hans

namespace Duplex

variable {cfg : Side → Config} {d : Duplex}

theorem linked_established (served : Side → Served) : (Duplex.established served).Linked :=
  ⟨fun side => (Shared.orderly_established (served side)).writes, fun _ => List.prefix_rfl,
    fun _ => rfl⟩

/-- The peer has received the request of a call that has its answer. -/
theorem mem_received_of_hasOk {side : Side} (hlink : d.Linked) (hord : (d side).Orderly)
    (hans : Answers (d side.peer).serve (d side.peer).out.handed (d side.peer).reqIds) {i : Nat}
    {c : Call} (hc : (d side).client.requests.calls.get i = some c)
    (hnum : c.pc.isNumbered = true) {p : Payload} (hok : c.HasOk p) :
    Frame.control c.envelope ∈ (d side.peer).received := by
  have hres := (hlink.received_isPrefix side).subset (hord.booked.hasOk i c p hc hok)
  have hid : c.id ∈ (d side.peer).reqIds := by
    by_contra hnot
    have hzero := hans.tasks.unseen c.id hnot
    refine absurd hzero (Nat.ne_of_gt (List.countP_pos_iff.mpr ⟨_, mem_frames.mp hres, ?_⟩))
    simp [WriterCmd.finalId, Frame.finalId]
  obtain ⟨f, hf, hfid⟩ := List.mem_filterMap.mp hid
  have hsent := (hlink.received_isPrefix side.peer).subset hf
  rw [Side.peer_peer] at hsent
  rw [← (hord.booked.eq_of_mem hc hnum hsent hfid).2]
  exact hf

end Duplex

theorem Requests.InOrder.eq_concat {r : Requests} {sent received : List Frame} {i : Nat} {c : Call}
    (h : r.InOrder sent) (hr : r.Booked sent received) (hnew : r.Newest i c)
    (hnum : c.pc.isNumbered = true) (hmem : Frame.control c.envelope ∈ sent) :
    ∃ fs, announces sent = fs ++ [.control c.envelope] ∧ Frame.control c.envelope ∉ fs := by
  obtain ⟨ps, hps, hsorted, hreq⟩ := h
  have hindex (p : Nat × Frame) (hp : p ∈ ps) (hpf : p.2 = .control c.envelope) : p.1 = i := by
    obtain ⟨e, he, hpush, hpe⟩ := hreq p hp
    have henv : e.envelope = c.envelope := Frame.control.inj (hpe.symm.trans hpf)
    exact hr.id_inj p.1 i e c he hnew.get (CallPc.isNumbered_of_isPushed hpush) hnum
      (Envelope.req.inj henv).1
  have hle (p : Nat × Frame) (hp : p ∈ ps) : p.1 ≤ i := by
    obtain ⟨e, he, -, hpe⟩ := hreq p hp
    refine hnew.last p.1 e he ?_
    rw [← e.isAnnounce_envelope, ← hpe]
    exact (List.mem_filter.mp (hps ▸ List.mem_map_of_mem hp : p.2 ∈ announces sent)).2
  have hann : Frame.control c.envelope ∈ ps.map Prod.snd := by
    rw [hps]
    exact List.mem_filter.mpr ⟨hmem, hnew.isAnnounce⟩
  obtain ⟨p, hp, hpf⟩ := List.mem_map.mp hann
  obtain ⟨qs, rest, rfl⟩ := List.append_of_mem hp
  have hpi := hindex p hp hpf
  obtain ⟨-, htail, hbefore⟩ := List.pairwise_append.mp hsorted
  -- nothing comes after the newest
  obtain rfl : rest = [] := by
    refine List.eq_nil_iff_forall_not_mem.mpr fun q hq => ?_
    have hlt := (List.pairwise_cons.mp htail).1 q hq
    have := hle q (by simp [hq])
    omega
  refine ⟨qs.map Prod.snd, ?_, fun hin => ?_⟩
  · rw [← hps, List.map_append, ← hpf]
    rfl
  · obtain ⟨q, hq, hqf⟩ := List.mem_map.mp hin
    have hqi := hindex q (by simp [hq]) hqf
    have hlt := hbefore q hq p (List.mem_cons_self ..)
    omega

/-- **Announcements converge when they are queued in the order they were read in.**  Over an open
connection, once every `replace` has returned and every announcement was answered, the peer has what
is served now, but for the names it reserves. -/
theorem announcements_converge {cfg : Side → Config} {served : Side → Served} {side : Side}
    {as : List DuplexAct} {d : Duplex}
    (hcodec : ∀ ds, ∃ params, (cfg side).announceParams ds = .ok params ∧
      (ds = (d side).serve.served.descriptors →
        (cfg side.peer).toAnnounceParams params = .ok ds))
    (hbuilt : Served.build (served side).capabilities = .ok (served side))
    (h : Run (Guarded (Steps (Duplex.step cfg)) fun d a => d.announcesInOrder side a = true)
      (.established served) as d)
    (ho : d.isOpen) (hcalls : (d side).client.requests.calls.size + 1 < 2 ^ 64)
    (hreturned : (d side).replacesReturned = true)
    (hanswered : (d side).announcesAnswered = true) :
    (d side.peer).peerCaps = (cfg side.peer).keptCaps (d side).serve.served.descriptors := by
  have hlink := Duplex.linked_of_run (Duplex.linked_established served) h.of_guarded ho
  -- the announcing end
  obtain ⟨bs, hbs⟩ : ∃ bs, Run (Guarded (Steps (Shared.step (cfg side)))
      fun s a => s.announcesInOrder a = true) (Shared.established (served side)) bs (d side) :=
    Duplex.exists_guarded_run_side h (fun d a hok => by simpa [Duplex.announcesInOrder] using hok)
      fun _ _ => rfl
  have hwrites (ds) : ∃ params, (cfg side).announceParams ds = .ok params :=
    (hcodec ds).imp fun _ hp => hp.1
  have hann := Shared.announcing_of_run (Shared.announcing_established hbuilt) hbs hwrites (ho side)
    hcalls
  -- the end that is told
  obtain ⟨cs, hcs⟩ := Duplex.exists_run_side h.of_guarded side.peer
  have hcaps : (d side.peer).peerCaps =
      (announces (d side.peer).received).foldl (cfg side.peer).capsAfter [] :=
    Shared.peerCaps_of_run ⟨rfl, rfl⟩ hcs
  have hpre := hlink.received_isPrefix side.peer
  rw [Side.peer_peer] at hpre
  have hpreAnn : announces (d side.peer).received <+: announces (d side).sent :=
    hpre.filter _
  have hnodup : (d side.peer).reqIds.Nodup :=
    hann.orderly.booked.nodup.sublist (hpre.filterMap _).sublist
  have hanswers := Shared.answers_of_run (Answers.established _) hcs hnodup
  obtain ⟨params, hnewest, htells⟩ :=
    hann.current (Shared.isOver_of_replacesReturned hreturned)
  rw [hcaps]
  rcases hnewest with ⟨rfl, hnone⟩ | ⟨i, c, hnew, rfl⟩
  · -- nothing was served, and nothing announced
    have hempty : announces (d side).sent = [] := by
      refine List.filter_eq_nil_iff.mpr fun f hf ha => ?_
      obtain ⟨id, hid⟩ := Frame.reqId_of_isAnnounce ha
      obtain ⟨i, c, hc, -, rfl⟩ := hann.orderly.booked.call_of_mem f hf id hid
      rw [c.isAnnounce_envelope, hnone i c hc] at ha
      cases ha
    rw [hempty] at hpreAnn
    rw [List.prefix_nil.mp hpreAnn, show (d side).serve.served.descriptors = [] from htells]
    rfl
  · obtain ⟨hnum, p, hok⟩ := Shared.hasOk_of_announcesAnswered hanswered hnew.get hnew.isAnnounce
    have hrec := Duplex.mem_received_of_hasOk hlink hann.orderly hanswers hnew.get hnum hok
    obtain ⟨fs, hfs, hnot⟩ :=
      hann.inOrder.eq_concat hann.orderly.booked hnew hnum (hpre.subset hrec)
    have hlast : announces (d side.peer).received = fs ++ [.control c.envelope] := by
      rw [hfs] at hpreAnn
      rcases List.prefix_concat_iff.mp hpreAnn with heq | hshort
      · exact heq
      · exact absurd (hshort.subset (List.mem_filter.mpr ⟨hrec, hnew.isAnnounce⟩)) hnot
    rw [hlast, List.foldl_append]
    obtain ⟨params, hparams, hread⟩ := hcodec (d side).serve.served.descriptors
    obtain rfl : params = c.params := Except.ok.inj (hparams.symm.trans htells)
    show (cfg side.peer).capsAfter _ (.control c.envelope) = _
    simp only [Config.capsAfter, Call.envelope, hread rfl]

/-! ### Two announcements at once -/

/-- What `Payload::from_typed` makes of a descriptor without tools. -/
def writeDescriptor (d : CapabilityDescriptor) : Value :=
  .map [(.ofStr "name", .ofStr d.name),
    (.ofStr "version", .integer (.ofU64 (d.version % 2 ^ 32) (by omega))),
    (.ofStr "tools", .array [])]

def readDescriptor : Value → Option CapabilityDescriptor
  | .map [(_, .string (.valid name)), (_, .integer version), (_, .array [])] =>
    version.asU64.map fun version => ⟨name, version, []⟩
  | _ => none

/-- An end that writes and reads announcements of such descriptors. -/
def Config.plain (side : Side) : Config :=
  { Config.bare side .msgpack with
    announceParams := fun ds =>
      .ok ⟨.map [(.ofStr "capabilities", .array (ds.map writeDescriptor))]⟩
    toAnnounceParams := fun params => match params.value with
      | .map [(_, .array items)] => .ok (items.filterMap readDescriptor)
      | _ => .error (.invalidParams "announce") }

/-- The dialer serves `fs`, and the acceptor nothing. -/
def servesFs : Side → Served
  | .dialer => .one (.bare 0 "fs")
  | .acceptor => .default

def dials (a : Act) : DuplexAct := .act .dialer a

/-- The dialer has read `fs` for its first announcement and `net` for the second; both have their
ids. -/
def readBoth : List DuplexAct :=
  [dials (.announce 0), dials (.serve (.replace none [.bare 1 "net"])),
    dials (.serve (.replaceRun 1)), dials (.serve (.collect 1 [])), dials (.serve (.replaceRun 1)),
    dials (.serve (.replaceRun 1)), dials (.announce 1),
    dials (.call (.run 0)), dials (.call (.run 0)), dials (.call (.run 1)), dials (.call (.run 1))]

/-- A frame of the dialer crosses, is handled and answered, and the answer crosses. -/
def answersOne : List DuplexAct :=
  [dials (.writer .recv), dials (.writer .sent), .deliver .acceptor,
    .act .acceptor (.serve .readerRun), .act .acceptor (.writer .recv),
    .act .acceptor (.writer .sent), .deliver .dialer]

/-- Both announcements are answered and return. -/
def answersBoth : List DuplexAct :=
  answersOne ++ answersOne ++ [dials (.call (.run 0)), dials (.call (.run 1)), dials (.announce 0),
    dials (.announce 1)]

/-- The announcements are queued in the order in which they were read. -/
def queuedInOrder : List DuplexAct :=
  readBoth ++ [dials (.call (.run 0)), dials (.call (.run 1))] ++ answersBoth

/-- The second one is queued first. -/
def queuedOutOfOrder : List DuplexAct :=
  readBoth ++ [dials (.call (.run 1)), dials (.call (.run 0))] ++ answersBoth

theorem announcements_converge_queuedInOrder :
    ∃ d, Run (Guarded (Steps (Duplex.step Config.plain))
          fun d a => d.announcesInOrder .dialer a = true) (.established servesFs) queuedInOrder d ∧
      (d .dialer).serve.served.descriptors = [⟨"net", 1, []⟩] ∧
      (d .acceptor).peerCaps =
        (Config.plain .acceptor).keptCaps (d .dialer).serve.served.descriptors := by
  obtain ⟨d, hrun, ho, hcalls, hreturned, hanswered, hserved⟩ := exists_run_of_execOk
    (Duplex.step Config.plain) (fun d a => d.announcesInOrder .dialer a) (.established servesFs)
    queuedInOrder
    (fun d => d.isOpen ∧ (d .dialer).client.requests.calls.size + 1 < 2 ^ 64 ∧
      (d .dialer).replacesReturned = true ∧ (d .dialer).announcesAnswered = true ∧
      (d .dialer).serve.served.descriptors = [⟨"net", 1, []⟩]) rfl
  exact ⟨d, hrun, hserved, @announcements_converge Config.plain servesFs .dialer _ _
    (fun ds => ⟨_, rfl, fun hds => by rw [hds, hserved]; rfl⟩) rfl hrun ho hcalls hreturned
    hanswered⟩

/-- The peer is left with a set no longer served: what was read first was queued last. -/
theorem stale_announcement_last :
    ∃ d, Run (Steps (Duplex.step Config.plain)) (.established servesFs) queuedOutOfOrder d ∧
      d.isOpen ∧ (d .dialer).replacesReturned = true ∧ (d .dialer).announcesAnswered = true ∧
      (d .dialer).serve.served.descriptors = [⟨"net", 1, []⟩] ∧
      (d .acceptor).peerCaps = [⟨"fs", 1, []⟩] :=
  exists_run_of_exec (Duplex.step Config.plain) (.established servesFs) queuedOutOfOrder
    (fun d => d.isOpen ∧ (d .dialer).replacesReturned = true ∧
      (d .dialer).announcesAnswered = true ∧
      (d .dialer).serve.served.descriptors = [⟨"net", 1, []⟩] ∧
      (d .acceptor).peerCaps = [⟨"fs", 1, []⟩]) rfl

end Zyris.Core
