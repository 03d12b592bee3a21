import Zyris.Core.Equiv.Closing
import Zyris.Core.Equiv.Duplex

/-!
# The requests an end sends

Until `next_req_id` wraps every call has an id of its own: the `req`s of an end have distinct ids,
`pending` leads back from an id to its call, and a call returns `Ok` only with the `res` of its own
id (`Requests.Booked`).
-/

namespace Zyris.Core

open Proto

/-! ### Calls -/

def CallPc.isNumbered : CallPc → Bool
  | .opening => false
  | .numbering => false
  | _ => true

/-- The call has gone past its push. -/
def CallPc.isPushed : CallPc → Bool
  | .opening => false
  | .numbering => false
  | .inserting => false
  | .pushing => false
  | _ => true

variable {pc : CallPc} {received : List Frame} {c c' : Call}

theorem CallPc.isNumbered_of_isPushed (h : pc.isPushed = true) : pc.isNumbered = true := by
  cases pc <;> first | rfl | cases h

/-- What the call was answered with, as far as it knows. -/
def Call.HasOk (c : Call) (p : Payload) : Prop := c.slot = .sent (.ok p) ∨ c.pc = .returned (.ok p)

/-- The call goes on with the same request; what it learns of its answer was received. -/
structure Call.Continues (received : List Frame) (c c' : Call) : Prop where
  envelope : c'.envelope = c.envelope
  numbered : c'.pc.isNumbered = c.pc.isNumbered
  pushed : c.pc.isPushed = true → c'.pc.isPushed = true
  waiting : c.pc.isNumbered = false → c.slot = .waiting → c'.slot = .waiting
  hasOk : ∀ p, c'.HasOk p → c.HasOk p ∨ Frame.control (.res c.id p) ∈ received

theorem Call.continues_refl (received : List Frame) (c : Call) : c.Continues received c :=
  ⟨rfl, rfl, fun h => h, fun _ h => h, fun _ h => .inl h⟩

theorem Call.Continues.id_eq (h : c.Continues received c') : c'.id = c.id :=
  (Envelope.req.inj h.envelope).1

theorem Call.Continues.trans {c'' : Call} (h : c.Continues received c')
    (h' : c'.Continues received c'') : c.Continues received c'' where
  envelope := h'.envelope.trans h.envelope
  numbered := h'.numbered.trans h.numbered
  pushed hc := h'.pushed (h.pushed hc)
  waiting hn hw := h'.waiting (h.numbered.trans hn) (h.waiting hn hw)
  hasOk p hp := by
    rcases h'.hasOk p hp with hp | hp
    · exact h.hasOk p hp
    · exact .inr (h.id_eq ▸ hp)

theorem Call.continues_pc (hnum : pc.isNumbered = c.pc.isNumbered)
    (hpush : c.pc.isPushed = true → pc.isPushed = true)
    (hok : ∀ p, pc = .returned (.ok p) → c.slot = .sent (.ok p)) :
    c.Continues received { c with pc := pc } where
  envelope := rfl
  numbered := hnum
  pushed := hpush
  waiting _ h := h
  hasOk p h := by
    rcases h with h | h
    · exact .inl (.inl h)
    · exact .inl (.inl (hok p h))

theorem Call.continues_slot {f : Oneshot → Oneshot} (hnum : c.pc.isNumbered = true)
    (hok : ∀ p, f c.slot = .sent (.ok p) → c.slot = .sent (.ok p) ∨
      Frame.control (.res c.id p) ∈ received) :
    c.Continues received { c with slot := f c.slot } where
  envelope := rfl
  numbered := rfl
  pushed h := h
  waiting h := by
    rw [hnum] at h
    cases h
  hasOk p h := by
    rcases h with h | h
    · exact (hok p h).imp_left .inl
    · exact .inl (.inr h)

/-- The act is a call of this method by the user. -/
def Act.begins (method : String) : Act → Bool
  | .call (.call m _ _) => m = method
  | .call (.callStreaming m _) => m = method
  | _ => false

/-! ### The invariant -/

/-- One for a call that has its id. -/
def Call.count (c : Call) : Nat := if c.pc.isNumbered then 1 else 0

theorem Call.count_le (c : Call) : c.count ≤ 1 := by
  unfold Call.count
  split_ifs <;> omega

/-- The calls, their ids, and the requests among the frames handed over. -/
structure Requests.Booked (r : Requests) (sent received : List Frame) : Prop where
  next : r.nextReqId = r.calls.total Call.count + 1
  id_lt : ∀ i c, r.calls.get i = some c → c.pc.isNumbered = true → c.id < r.nextReqId
  id_inj : ∀ i j c c', r.calls.get i = some c → r.calls.get j = some c' →
    c.pc.isNumbered = true → c'.pc.isNumbered = true → c.id = c'.id → i = j
  pending : ∀ id i, r.pending.get id = some i →
    ∃ c, r.calls.get i = some c ∧ c.id = id ∧ c.pc.isNumbered = true
  waiting : ∀ i c, r.calls.get i = some c → c.pc.isNumbered = false → c.slot = .waiting
  call_of_mem : ∀ f ∈ sent, ∀ id, f.reqId = some id →
    ∃ i c, r.calls.get i = some c ∧ c.pc.isPushed = true ∧ f = .control c.envelope
  nodup : (sent.filterMap Frame.reqId).Nodup
  hasOk : ∀ i c p, r.calls.get i = some c → c.HasOk p → Frame.control (.res c.id p) ∈ received

namespace Requests

/-- The calls go on, and `pending` holds calls that have their ids. -/
structure Continued (received : List Frame) (r r' : Requests) : Prop where
  next : r'.nextReqId = r.nextReqId
  calls : r.calls.Rel (Call.Continues received) r'.calls
  pending : ∀ id i, r'.pending.get id = some i →
    ∃ c, r.calls.get i = some c ∧ c.id = id ∧ c.pc.isNumbered = true

namespace Booked

variable {r r' : Requests} {sent : List Frame}

theorem start : Requests.start.Booked [] [] where
  next := rfl
  id_lt i c h := by simp [Requests.start] at h
  id_inj i j c c' h := by simp [Requests.start] at h
  pending id i h := by simp [Requests.start] at h
  waiting i c h := by simp [Requests.start] at h
  call_of_mem f hf := by cases hf
  nodup := List.nodup_nil
  hasOk i c p h := by simp [Requests.start] at h

/-! ### The calls go on -/

theorem refl (h : r.Booked sent received) : r.Continued received r :=
  ⟨rfl, Arena.rel_refl (Call.continues_refl received) _, h.pending⟩

variable {i : Nat}

theorem update (h : r.Booked sent received) {f : Call → Call}
    (hf : ∀ c, r.calls.get i = some c → c.Continues received (f c)) :
    r.Continued received (r.update i f) :=
  ⟨rfl, Arena.rel_update (Call.continues_refl received) hf, h.pending⟩

theorem settle (h : r.Booked sent received) (id : Nat) {f : Oneshot → Oneshot}
    (hf : ∀ o p, f o = .sent (.ok p) → o = .sent (.ok p) ∨ Frame.control (.res id p) ∈ received) :
    r.calls.Rel (Call.Continues received) (r.settle (r.pending.get id).toList f).calls := by
  refine Arena.rel_updateAll_of_get (Call.continues_refl received) fun i hi c hc => ?_
  obtain ⟨c', hc', rfl, hnum⟩ := h.pending id i (Option.mem_toList.mp hi)
  obtain rfl := Option.mem_unique hc hc'
  exact Call.continues_slot hnum (hf c.slot)

variable {c : Call}

theorem insert (h : r.Booked sent received) (hc : r.calls.get i = some c)
    (hnum : c.pc.isNumbered = true) : r.Continued received (r.insert c.id i) := by
  refine ⟨rfl, h.settle c.id fun o p ho => .inl ?_,
    Table.forall_insert h.pending ⟨c, hc, rfl, hnum⟩⟩
  cases o <;> first | exact ho | cases ho

theorem remove (h : r.Booked sent received) (id : Nat) : r.Continued received (r.remove id) := by
  refine ⟨rfl, h.settle id fun o p ho => .inl ?_, fun id' j hj => ?_⟩
  · cases o <;> first | exact ho | cases ho
  · exact h.pending id' j (Table.get_of_get_remove hj).2

theorem deliver (h : r.Booked sent received) (id : Nat) {result : Except WireError Payload}
    (hres : ∀ p, result = .ok p → Frame.control (.res id p) ∈ received) :
    r.Continued received (r.deliver id result) := by
  refine ⟨rfl, h.settle id fun o p ho => ?_, fun id' j hj => ?_⟩
  · cases o with
    | waiting => exact .inr (hres p (Oneshot.sent.inj ho))
    | sent result' => exact .inl ho
    | dropped => cases ho
  · exact h.pending id' j (Table.get_of_get_remove hj).2

theorem goOn (h : r.Booked sent received) (hr : r.Continued received r') :
    r'.Booked sent received where
  next := by
    rw [hr.next, h.next,
      hr.calls.total_eq fun c c' hc => by rw [Call.count, hc.numbered, Call.count]]
  id_lt i c' hc' hnum := by
    obtain ⟨c, hc, hcc⟩ := hr.calls.get hc'
    rw [hcc.id_eq, hr.next]
    exact h.id_lt i c hc (hcc.numbered ▸ hnum)
  id_inj i j c₁ c₂ h₁ h₂ n₁ n₂ hid := by
    obtain ⟨c, hc, hcc⟩ := hr.calls.get h₁
    obtain ⟨e, he, hee⟩ := hr.calls.get h₂
    rw [hcc.id_eq, hee.id_eq] at hid
    exact h.id_inj i j c e hc he (hcc.numbered ▸ n₁) (hee.numbered ▸ n₂) hid
  pending id i hp := by
    obtain ⟨c, hc, hid, hnum⟩ := hr.pending id i hp
    obtain ⟨c', hc', hcc⟩ := hr.calls.get_right hc
    exact ⟨c', hc', hcc.id_eq.trans hid, hcc.numbered.trans hnum⟩
  waiting i c' hc' hnum := by
    obtain ⟨c, hc, hcc⟩ := hr.calls.get hc'
    have hnum' := hcc.numbered ▸ hnum
    exact hcc.waiting hnum' (h.waiting i c hc hnum')
  call_of_mem f hf id hid := by
    obtain ⟨i, c, hc, hpush, rfl⟩ := h.call_of_mem f hf id hid
    obtain ⟨c', hc', hcc⟩ := hr.calls.get_right hc
    exact ⟨i, c', hc', hcc.pushed hpush, by rw [hcc.envelope]⟩
  nodup := h.nodup
  hasOk i c' p hc' hok := by
    obtain ⟨c, hc, hcc⟩ := hr.calls.get hc'
    rw [hcc.id_eq]
    exact (hcc.hasOk p hok).elim (h.hasOk i c p hc) fun h => h

theorem trans {r'' : Requests} (h : r.Booked sent received) (hr : r.Continued received r')
    (hr' : r'.Booked sent received → r'.Continued received r'') : r.Continued received r'' := by
  obtain ⟨hnext, hcalls, hpending⟩ := hr' (h.goOn hr)
  refine ⟨hnext.trans hr.next, hr.calls.trans (fun _ _ _ => Call.Continues.trans) hcalls,
    fun id i hp => ?_⟩
  obtain ⟨c', hc', hid, hnum⟩ := hpending id i hp
  obtain ⟨c, hc, hcc⟩ := hr.calls.get hc'
  exact ⟨c, hc, hcc.id_eq.symm.trans hid, hcc.numbered.symm.trans hnum⟩

/-! ### The other steps -/

theorem alloc (h : r.Booked sent received) (hnum : c.pc.isNumbered = false)
    (hslot : c.slot = .waiting) :
    ({ r with calls := r.calls.alloc c } : Requests).Booked sent received where
  next := by
    have hc : c.count = 0 := by simp [Call.count, hnum]
    show r.nextReqId = (r.calls.alloc c).total Call.count + 1
    rw [Arena.total_alloc, hc, h.next]
  id_lt := Arena.forall_alloc h.id_lt fun hn => absurd hn (by simp [hnum])
  id_inj i j e e' he he' hn hn' hid := by
    rcases Arena.get_alloc_cases he with ⟨-, rfl⟩ | he
    · rw [hnum] at hn
      cases hn
    · rcases Arena.get_alloc_cases he' with ⟨-, rfl⟩ | he'
      · rw [hnum] at hn'
        cases hn'
      · exact h.id_inj i j e e' he he' hn hn' hid
  pending id i hp := by
    obtain ⟨e, he, hid, hn⟩ := h.pending id i hp
    exact ⟨e, Arena.get_alloc_of_get he c, hid, hn⟩
  waiting := Arena.forall_alloc h.waiting fun _ => hslot
  call_of_mem f hf id hid := by
    obtain ⟨i, e, he, hpush, hfe⟩ := h.call_of_mem f hf id hid
    exact ⟨i, e, Arena.get_alloc_of_get he c, hpush, hfe⟩
  nodup := h.nodup
  hasOk i e p he hok := by
    rcases Arena.get_alloc_cases he with ⟨-, rfl⟩ | he
    · rcases hok with hok | hok
      · rw [hslot] at hok
        cases hok
      · rw [hok] at hnum
        cases hnum
    · exact h.hasOk i e p he hok

theorem number (h : r.Booked sent received) (hc : r.calls.get i = some c)
    (hpc : c.pc = .numbering) (hsize : r.calls.size + 1 < 2 ^ 64) :
    ({ r.update i ({ · with id := r.nextReqId, pc := .inserting }) with
      nextReqId := (r.nextReqId + 1) % 2 ^ 64 } : Requests).Booked sent received := by
  have hnum : c.pc.isNumbered = false := by rw [hpc]; rfl
  have hcount : c.count = 0 := by simp [Call.count, hnum]
  have htotal := Arena.total_update hc ({ · with id := r.nextReqId, pc := .inserting }) Call.count
  have hone : Call.count { c with id := r.nextReqId, pc := .inserting } = 1 := rfl
  rw [hcount, hone, Nat.add_zero] at htotal
  have hle := Arena.total_le_size
    (r.calls.update i ({ · with id := r.nextReqId, pc := .inserting })) Call.count_le
  rw [Arena.size_update] at hle
  have hnext : (r.nextReqId + 1) % 2 ^ 64 = r.nextReqId + 1 := by
    refine Nat.mod_eq_of_lt ?_
    have := h.next
    omega
  rw [hnext]
  refine ⟨?_, fun j e he hn => ?_, fun j k e e' he he' hn hn' hid => ?_, fun id j hp => ?_,
    fun j e he hn => ?_, fun f hf id hid => ?_, h.nodup, fun j e p he hok => ?_⟩
  · exact congrArg (· + 1) (h.next.trans htotal.symm)
  · show e.id < r.nextReqId + 1
    rcases Arena.get_update_cases he with ⟨-, x, -, rfl⟩ | ⟨-, he⟩
    · exact Nat.lt_succ_self _
    · exact Nat.lt_succ_of_lt (h.id_lt j e he hn)
  · -- the new id is above all others
    rcases Arena.get_update_cases he with ⟨hj, x, -, rfl⟩ | ⟨-, hold⟩
    · rcases Arena.get_update_cases he' with ⟨hk, -⟩ | ⟨-, hold'⟩
      · exact hj.trans hk.symm
      · have hlt := h.id_lt k e' hold' hn'
        rw [← hid] at hlt
        exact absurd hlt (Nat.lt_irrefl _)
    · rcases Arena.get_update_cases he' with ⟨-, x', -, rfl⟩ | ⟨-, hold'⟩
      · have hlt := h.id_lt j e hold hn
        rw [hid] at hlt
        exact absurd hlt (Nat.lt_irrefl _)
      · exact h.id_inj j k e e' hold hold' hn hn' hid
  · obtain ⟨e, he, hid, hn⟩ := h.pending id j hp
    have hne : j ≠ i := by
      rintro rfl
      obtain rfl := Option.mem_unique hc he
      rw [hnum] at hn
      cases hn
    exact ⟨e, by simpa [Requests.update, hne] using he, hid, hn⟩
  · rcases Arena.get_update_cases he with ⟨-, x, -, rfl⟩ | ⟨-, he⟩
    · cases hn
    · exact h.waiting j e he hn
  · obtain ⟨j, e, he, hpush, hfe⟩ := h.call_of_mem f hf id hid
    have hne : j ≠ i := by
      rintro rfl
      obtain rfl := Option.mem_unique hc he
      rw [CallPc.isNumbered_of_isPushed hpush] at hnum
      cases hnum
    exact ⟨j, e, by simpa [Requests.update, hne] using he, hpush, hfe⟩
  · rcases Arena.get_update_known hc he with ⟨-, rfl⟩ | ⟨-, he⟩
    · have hwait := h.waiting i c hc hnum
      rcases hok with hok | hok
      · rw [show c.slot = .sent (.ok p) from hok] at hwait
        cases hwait
      · cases hok
    · exact h.hasOk j e p he hok

theorem quiet (h : r.Booked sent received) {fs : List Frame} (hfs : ∀ f ∈ fs, f.reqId = none) :
    r.Booked (sent ++ fs) received where
  next := h.next
  id_lt := h.id_lt
  id_inj := h.id_inj
  pending := h.pending
  waiting := h.waiting
  call_of_mem f hf id hid := by
    rcases List.mem_append.mp hf with hf | hf
    · exact h.call_of_mem f hf id hid
    · rw [hfs f hf] at hid
      cases hid
  nodup := by
    rw [List.filterMap_append, List.filterMap_eq_nil_iff.mpr hfs, List.append_nil]
    exact h.nodup
  hasOk := h.hasOk

theorem mono (h : r.Booked sent received) {received' : List Frame} (hr : received <+: received') :
    r.Booked sent received' where
  next := h.next
  id_lt := h.id_lt
  id_inj := h.id_inj
  pending := h.pending
  waiting := h.waiting
  call_of_mem := h.call_of_mem
  nodup := h.nodup
  hasOk i c p hc hok := hr.subset (h.hasOk i c p hc hok)

theorem eq_of_mem (h : r.Booked sent received) {f : Frame}
    (hc : r.calls.get i = some c) (hnum : c.pc.isNumbered = true) (hf : f ∈ sent)
    (hid : f.reqId = some c.id) : c.pc.isPushed = true ∧ f = .control c.envelope := by
  obtain ⟨j, e, he, hpush, rfl⟩ := h.call_of_mem f hf c.id hid
  obtain rfl := h.id_inj j i e c he hc (CallPc.isNumbered_of_isPushed hpush) hnum
    (Option.some.inj hid)
  obtain rfl := Option.mem_unique hc he
  exact ⟨hpush, rfl⟩

theorem push (h : r.Booked sent received) (hc : r.calls.get i = some c) (hpc : c.pc = .pushing) :
    (r.update i ({ · with pc := .parked })).Booked (sent ++ [.control c.envelope]) received := by
  have hnum : c.pc.isNumbered = true := by rw [hpc]; rfl
  have hup : (r.update i ({ · with pc := .parked })).Booked sent received := by
    refine h.goOn (h.update fun e he => ?_)
    obtain rfl := Option.mem_unique hc he
    exact Call.continues_pc (by rw [hpc]; rfl) (fun _ => rfl) nofun
  have hnew : c.id ∉ sent.filterMap Frame.reqId := by
    intro hmem
    obtain ⟨f, hf, hid⟩ := List.mem_filterMap.mp hmem
    have hpush := (h.eq_of_mem hc hnum hf hid).1
    rw [hpc] at hpush
    cases hpush
  refine ⟨hup.next, hup.id_lt, hup.id_inj, hup.pending, hup.waiting, fun f hf id hid => ?_, ?_,
    hup.hasOk⟩
  · rcases List.mem_append.mp hf with hf | hf
    · exact hup.call_of_mem f hf id hid
    · refine ⟨i, { c with pc := .parked }, Arena.get_update_self hc _, rfl, ?_⟩
      exact List.mem_singleton.mp hf
  · rw [List.filterMap_append]
    exact h.nodup.append (List.nodup_singleton _) (by simpa [Call.envelope, Frame.reqId] using hnew)

end Booked

/-! ### What a step does to the requests -/

/-- What the act `a` does to the requests, with the frames it hands over. -/
inductive Change (a : Act) (r : Requests) (received : List Frame) : Requests → List Frame → Prop
  | began (c : Call) : c.pc.isNumbered = false → c.slot = .waiting → a.begins c.method = true →
    Change a r received { r with calls := r.calls.alloc c } []
  | announced (n : Nat) (c : Call) : a = .announce n → c.pc.isNumbered = false →
    c.slot = .waiting → c.method = METHOD_ANNOUNCE →
    Change a r received { r with calls := r.calls.alloc c } []
  | numbered (i : Nat) (c : Call) : r.calls.get i = some c → c.pc = .numbering →
    Change a r received { r.update i ({ · with id := r.nextReqId, pc := .inserting }) with
      nextReqId := (r.nextReqId + 1) % 2 ^ 64 } []
  | pushed (i : Nat) (c : Call) : a = .call (.run i) → r.calls.get i = some c →
    c.pc = .pushing →
    Change a r received (r.update i ({ · with pc := .parked })) [.control c.envelope]
  | continued (r' : Requests) (fs : List Frame) : r.Continued received r' →
    (∀ f ∈ fs, f.reqId = none) → Change a r received r' fs

theorem Change.booked {a : Act} {r r' : Requests} {sent received fs : List Frame}
    (h : Change a r received r' fs) (hr : r.Booked sent received)
    (hsize : r'.calls.size + 1 < 2 ^ 64) : r'.Booked (sent ++ fs) received := by
  cases h with
  | began c hnum hslot | announced n c _ hnum hslot =>
    rw [List.append_nil]
    exact hr.alloc hnum hslot
  | numbered i c hc hpc =>
    rw [List.append_nil]
    refine hr.number hc hpc ?_
    simpa [Requests.update] using hsize
  | pushed i c _ hc hpc => exact hr.push hc hpc
  | continued _ _ hcont hfs => exact (hr.goOn hcont).quiet hfs

theorem get_remove_pc {r : Requests} {id i : Nat} {c c' : Call} (hc : r.calls.get i = some c)
    (hc' : (r.remove id).calls.get i = some c') : c'.pc = c.pc := by
  simp only [remove, settle, Arena.get_updateAll, hc, Option.map_some, Option.some.injEq] at hc'
  rw [← hc']
  split_ifs <;> rfl

end Requests

theorem Oneshot.eq_sent_of_result {o : Oneshot} {p : Payload} (h : o.result = some (.ok p)) :
    o = .sent (.ok p) := by
  cases o with
  | waiting => cases h
  | sent result =>
    obtain rfl := Option.some.inj h
    rfl
  | dropped => cases h

namespace Client

variable {cfg : Config} {env : Env} {v v' : Client} {e : Emit} {sent : List Frame}

theorem CallStep.change {i : Nat} {c : Call} (h : CallStep cfg env v i c v' e)
    (hr : v.requests.Booked sent received) (hc : v.requests.calls.get i = some c) :
    Requests.Change (.call (.run i)) v.requests received v'.requests (frames e.cmds) := by
  -- a step that moves the call only
  have moved {pc : CallPc} (hnum : pc.isNumbered = c.pc.isNumbered)
      (hpush : c.pc.isPushed = true → pc.isPushed = true)
      (hok : ∀ p, pc = .returned (.ok p) → c.slot = .sent (.ok p)) :
      v.requests.Continued received (v.requests.update i ({ · with pc := pc })) := by
    refine hr.update fun x hx => ?_
    obtain rfl := Option.mem_unique hc hx
    exact Call.continues_pc hnum hpush hok
  -- a call that could not push leaves `pending` first
  have left {pc : CallPc} {error : WireError} (hpc : c.pc = .unsent error)
      (hnum : pc.isNumbered = true) (hpush : pc.isPushed = true)
      (hok : ∀ p, pc ≠ .returned (.ok p)) :
      v.requests.Continued received
        ((v.requests.remove c.id).update i ({ · with pc := pc })) := by
    refine hr.trans (hr.remove c.id) fun hr' => hr'.update fun x hx => ?_
    have hx := (Requests.get_remove_pc hc hx).trans hpc
    refine Call.continues_pc ?_ (fun _ => hpush) fun p hp => absurd hp (hok p)
    rw [hx, hnum]
    rfl
  cases h with
  | opened streamId rx hpc =>
    refine .continued _ _ (moved ?_ ?_ nofun) nofun
    · rw [hpc]; rfl
    · rw [hpc]
      intro hp
      cases hp
  | numbered hpc => exact .numbered i c hc hpc
  | inserted hpc =>
    refine .continued _ _ ?_ nofun
    have hmoved := @moved .pushing (by rw [hpc]; rfl) (by rw [hpc]; exact fun h => h)
      nofun
    exact hr.trans hmoved fun hr' =>
      hr'.insert (c := { c with pc := .pushing }) (Arena.get_update_self hc _) rfl
  | pushed hpc =>
    rw [Emit.cmds_send, frames_encode]
    split_ifs
    · exact .pushed i c rfl hc hpc
    · refine .continued _ _ (moved ?_ (fun _ => rfl) nofun) ?_
      · rw [hpc]
        rfl
      · exact nofun
  | refused error hpc | streamFailed error streamId rx hpc | removed error streamId rx hpc =>
    refine .continued _ _ (moved ?_ (fun _ => rfl) nofun) nofun
    rw [hpc]
    rfl
  | unsentUnary error hpc | unsentStream error streamId rx hpc =>
    exact .continued _ _ (left hpc rfl rfl nofun) nofun
  | answered result hpc hres | headed head streamId rx hpc hres =>
    refine .continued _ _ (moved ?_ (fun _ => rfl) fun p hp => ?_) nofun
    · rw [hpc]
      rfl
    · cases hp
      exact Oneshot.eq_sent_of_result hres

theorem callStep_change {a : CallAct} (h : v.callStep cfg env a = some (v', e))
    (hr : v.requests.Booked sent received) :
    Requests.Change (.call a) v.requests received v'.requests (frames e.cmds) := by
  rcases callStep_cases h with ⟨method, params, metadata, rfl, rfl, rfl⟩ |
    ⟨method, params, rfl, rfl, rfl⟩ | ⟨i, c, rfl, hc, hstep⟩ | ⟨i, c, rfl, hc, hpc, rfl, rfl⟩
  · exact .began _ rfl rfl (by simp [Act.begins])
  · exact .began _ rfl rfl (by simp [Act.begins])
  · exact hstep.change hr hc
  · refine .continued _ _ (hr.update fun x hx => ?_) nofun
    obtain rfl := Option.mem_unique hc hx
    exact Call.continues_pc (by rw [hpc]; rfl) (fun _ => rfl) nofun

theorem callStep_size {a : CallAct} (h : v.callStep cfg env a = some (v', e)) :
    v.requests.calls.size ≤ v'.requests.calls.size := by
  rcases callStep_cases h with ⟨method, params, metadata, -, rfl, -⟩ | ⟨method, params, -, rfl, -⟩ |
    ⟨i, c, -, hc, hstep⟩ | ⟨i, c, -, -, -, rfl, -⟩
  · simp [beginCall]
  · simp [beginStreaming]
  · rcases hstep.requests with ⟨f, n, hr, -⟩ | ⟨-, hr⟩ | ⟨-, -, hr⟩ | ⟨f, hr, -⟩
    all_goals simp [hr, Requests.update, Requests.insert, Requests.remove, Requests.settle]
  · simp [callPc, updateCall, Requests.update]

end Client

/-! ### Open ends -/

/-- What the reader is about to hand over is no request. -/
def ReaderPc.Replies : ReaderPc → Prop
  | .pushing a => (WriterCmd.send (.control a)).Replies
  | _ => True

namespace Serve

variable {cfg : Config} {env : Env} {v v' : Serve} {e : Emit}

theorem handle_replies (f : Frame) (h : v.reader.Replies) :
    (v.handle cfg f).reader.Replies := by
  unfold handle
  split
  · rcases v.handleRequest_cases cfg _ _ _ _ _ with ⟨r, -, hr⟩ | ⟨a, ha, hr⟩
    · exact hr ▸ trivial
    · rw [hr]
      cases a with
      | res id p => exact .res id p
      | err id error => exact .err id error
      | _ => cases ha
  · unfold handleCancel
    split
    · trivial
    · exact h
  all_goals exact h

theorem step_replies {closed : Bool} {a : ServeAct} (h : v.step cfg env closed a = some (v', e))
    (hr : v.reader.Replies) : v'.reader.Replies := by
  rcases step_cases h with ⟨t, task, -, -, hs⟩ | ⟨k, x, -, hs⟩ | ⟨-, hs⟩ |
    ⟨caller, capabilities, built, -, -, -, rfl⟩ | ⟨r, x, -, -, hs⟩
  · rwa [hs.reply.1]
  · rwa [hs.reply.2.1]
  · cases hs with
    | cancelTaken => exact .err _ _
    | closedGate => exact .failed _ _
    | cancelLate id call task pc _ _ _ hor =>
      rcases hor with ⟨stream, -, rfl⟩ | ⟨-, rfl⟩ <;> trivial
    | _ => trivial
  · exact hr
  · rwa [hs.tasks.2.1]

end Serve

namespace Shared

variable {cfg : Config} {s s' : Shared} {a : Act}

def Booked (s : Shared) : Prop := s.client.requests.Booked s.sent s.received

theorem Booked.handle (h : s.Booked) (f : Frame) :
    s.client.requests.Continued (s.received ++ [f]) (s.client.handle f).requests := by
  have hr := Requests.Booked.mono h (List.prefix_append s.received [f])
  unfold Client.handle
  split
  · refine hr.deliver _ fun p hp => ?_
    cases hp
    exact List.mem_append_right _ (List.mem_singleton_self _)
  · exact hr.deliver _ nofun
  all_goals exact hr.refl

theorem reqId_of_grants {cmds : List WriterCmd} (h : ∀ c ∈ cmds, c.Grants) :
    ∀ f ∈ frames cmds, f.reqId = none := by
  intro f hf
  cases h _ (mem_frames.mp hf) <;> rfl

theorem change_of_step (h : s.step cfg a = some s') (hb : s.Booked) (hw : s.Writes)
    (hp : s.serve.reader.Replies) (ho : s'.isOpen = true) :
    ∃ fs, s'.sent = s.sent ++ fs ∧
      Requests.Change a s.client.requests s'.received s'.client.requests fs := by
  have none_req : ∀ f ∈ ([] : List Frame), f.reqId = none := nofun
  have hopen := isOpen_of_step h ho
  cases acts_of_step h with
  | call hstep => exact ⟨_, sent_hand hw.running _, Client.callStep_change hstep hb⟩
  | stream hstep =>
    obtain ⟨hreq, -, hreads⟩ := Client.streamStep_reads hstep
    refine ⟨_, sent_hand hw.running _, .continued _ _ ?_ (reqId_of_grants hreads.grants)⟩
    show s.client.requests.Continued s.received _
    rw [withClient, hreq]
    exact hb.refl
  | serve hstep =>
    refine ⟨_, sent_hand hw.running _, .continued _ _ hb.refl fun f hf => ?_⟩
    have hc : (WriterCmd.send f).Replies := by
      rcases Serve.replies_of_step hstep _ (mem_frames.mp hf) with hc | ⟨b, hr, hc⟩
      · exact hc
      · rw [hr] at hp
        exact hc ▸ hp
    cases hc <;> rfl
  | announced => exact ⟨[], (List.append_nil _).symm, .announced _ _ rfl rfl rfl rfl⟩
  | receive =>
    exact ⟨_, sent_hand hw.running _, .continued _ _ (hb.handle _)
      (reqId_of_grants (s.client.reaction_grants cfg _))⟩
  | shutdownRun hk =>
    rw [Arena.get, (isOpen_iff.mp hopen).1] at hk
    cases hk
  | notify method params =>
    refine ⟨_, sent_hand hw.running _, .continued _ _ hb.refl fun f hf => ?_⟩
    rw [mem_frames_encode hf]
    rfl
  | close reason => exact ⟨_, sent_hand hw.running _, .continued _ _ hb.refl none_req⟩
  | announceOver | shutdown =>
    exact ⟨[], (List.append_nil _).symm, .continued _ _ hb.refl none_req⟩
  | writer hout =>
    exact ⟨[], (congrArg frames hout).trans (List.append_nil _).symm,
      .continued _ _ hb.refl none_req⟩

theorem replies_of_step (h : s.step cfg a = some s') (hp : s.serve.reader.Replies) :
    s'.serve.reader.Replies := by
  rcases step_sides h with ⟨b, v, e, -, hserve, rfl⟩ | ⟨f, -, rfl⟩ | ⟨hout, -⟩
  · exact Serve.step_replies hserve hp
  · exact Serve.handle_replies f hp
  · rwa [hout.reader_eq]

/-- What an open end keeps along its run. -/
structure Orderly (s : Shared) : Prop where
  writes : s.Writes
  replies : s.serve.reader.Replies
  booked : s.Booked

theorem Orderly.step (h : s.Orderly) (hstep : s.step cfg a = some s') (ho : s'.isOpen = true)
    (hsize : s'.client.requests.calls.size + 1 < 2 ^ 64) : s'.Orderly := by
  obtain ⟨fs, hsent, hchange⟩ := change_of_step hstep h.booked h.writes h.replies ho
  refine ⟨?_, ?_, ?_⟩
  · rcases ha : a.isReceive with _ | _
    · exact h.writes.moves (moves_of_step hstep ha h.writes.running (isOpen_of_step hstep ho) ho)
    cases a with
    | receive f =>
      obtain rfl := eq_receive_of_step hstep
      exact h.writes.receive f
    | _ => cases ha
  · exact replies_of_step hstep h.replies
  · show s'.client.requests.Booked s'.sent s'.received
    rw [hsent]
    exact hchange.booked (h.booked.mono (received_isPrefix_of_step hstep)) hsize

theorem size_calls_of_step (h : s.step cfg a = some s') (ho : s.isOpen = true) :
    s.client.requests.calls.size ≤ s'.client.requests.calls.size := by
  cases acts_of_step h with
  | call hstep => exact Client.callStep_size hstep
  | stream hstep =>
    have hreq := (Client.streamStep_reads hstep).1
    exact Nat.le_of_eq (congrArg (·.calls.size) hreq.symm)
  | announced => simp [Client.beginCall]
  | @receive f _ =>
    show s.client.requests.calls.size ≤ (s.client.handle f).requests.calls.size
    rcases s.client.handle_requests f with hr | ⟨id, result, hr⟩
    · rw [hr]
    · simp [hr, Requests.deliver, Requests.settle]
  | shutdownRun hk =>
    rw [Arena.get, (isOpen_iff.mp ho).1] at hk
    cases hk
  | _ => exact Nat.le_refl _

end Shared

end Zyris.Core
