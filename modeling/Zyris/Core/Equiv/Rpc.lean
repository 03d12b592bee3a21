import Zyris.Core.Equiv.Announce

/-!
# A call and its answer

Both ends at once: the `res` a call returns was handed over by the peer, which had received the
call's `req` and answers a request once (`Answers`); and no other call has its id
(`Requests.Booked`).
-/

namespace Zyris.Core

open Proto

theorem Shared.orderly_of_run {cfg : Config} {served : Served} {as : List Act} {s : Shared}
    (h : Run (Steps (Shared.step cfg)) (.established served) as s) (ho : s.isOpen = true)
    (hsize : s.client.requests.calls.size + 1 < 2 ^ 64) : s.Orderly := by
  refine h.state_invariant
    (I := fun s => s.isOpen = true → s.client.requests.calls.size + 1 < 2 ^ 64 → s.Orderly)
    (fun _ _ => orderly_established served) ?_ ho hsize
  intro s a s' hs hstep ho' hsize'
  have hopen := isOpen_of_step hstep ho'
  have hle := size_calls_of_step hstep hopen
  exact (hs hopen (by omega)).step hstep ho' hsize'

/-- **A call returns the one answer to its own request.**  Whatever else is under way in both
directions of an open connection: if a call has returned `Ok`, the peer has received its request,
has answered it exactly once, and with that; no other call has the id, and no two handler tasks of
the peer serve it. -/
theorem call_has_its_answer {cfg : Side → Config} {served : Side → Served} {side : Side}
    {as : List DuplexAct} {d : Duplex} {i : Nat} {c : Call} {p : Payload}
    (h : Run (Steps (Duplex.step cfg)) (.established served) as d) (ho : d.isOpen)
    (hcalls : (d side).client.requests.calls.size + 1 < 2 ^ 64)
    (hc : (d side).client.requests.calls.get i = some c) (hpc : c.pc = .returned (.ok p)) :
    Frame.control c.envelope ∈ (d side.peer).received ∧
      Frame.control (.res c.id p) ∈ (d side.peer).sent ∧
      answers (d side.peer).out.handed c.id = 1 ∧
      (∀ j e, (d side).client.requests.calls.get j = some e → e.pc.isNumbered = true →
        e.id = c.id → j = i) ∧
      ∀ t u x y, (d side.peer).serve.tasks.get t = some x →
        (d side.peer).serve.tasks.get u = some y → x.id = c.id → y.id = c.id → t = u := by
  have hlink := Duplex.linked_of_run (Duplex.linked_established served) h ho
  obtain ⟨bs, hbs⟩ := Duplex.exists_run_side h side
  have horderly := Shared.orderly_of_run hbs (ho side) hcalls
  have hbooked := horderly.booked
  -- the peer's requests are those of this end, so their ids are distinct
  have hpre := hlink.received_isPrefix side.peer
  rw [Side.peer_peer] at hpre
  have hnodup : (d side.peer).reqIds.Nodup :=
    hbooked.nodup.sublist (hpre.filterMap _).sublist
  obtain ⟨cs, hcs⟩ := Duplex.exists_run_side h side.peer
  have hanswers := Shared.answers_of_run (Answers.established _) hcs hnodup
  have hnum : c.pc.isNumbered = true := by
    rw [hpc]
    rfl
  have hres := (hlink.received_isPrefix side).subset (hbooked.hasOk i c p hc (.inr hpc))
  have hpos : 0 < answers (d side.peer).out.handed c.id :=
    List.countP_pos_iff.mpr ⟨_, mem_frames.mp hres, by simp [WriterCmd.finalId, Frame.finalId]⟩
  have hmost := hanswers.tasks.atMost c.id
  refine ⟨Duplex.mem_received_of_hasOk hlink horderly hanswers hc hnum (.inr hpc), hres, by omega,
    fun j e he hnum' hid => hbooked.id_inj j i e c he hc hnum' hnum hid, ?_⟩
  intro t u x y hx hy hxc hyc
  exact hanswers.tasks.task_inj t u x y hx hy (hxc.trans hyc.symm)

/-- The first call has returned `Ok`. -/
def Shared.firstOk (s : Shared) : Bool :=
  match (s.client.requests.calls.get 0).map Call.pc with
  | some (.returned (.ok _)) => true
  | _ => false

theorem call_has_its_answer_queuedInOrder :
    ∃ d c, Run (Steps (Duplex.step Config.plain)) (.established servesFs) queuedInOrder d ∧
      (d .dialer).client.requests.calls.get 0 = some c ∧
      Frame.control c.envelope ∈ (d .acceptor).received ∧
      answers (d .acceptor).out.handed c.id = 1 := by
  obtain ⟨d, hrun, ho, hcalls, hok⟩ := exists_run_of_exec (Duplex.step Config.plain)
    (.established servesFs) queuedInOrder
    (fun d => d.isOpen ∧ (d .dialer).client.requests.calls.size + 1 < 2 ^ 64 ∧
      (d .dialer).firstOk = true) rfl
  unfold Shared.firstOk at hok
  split at hok
  · rename_i p hpc
    obtain ⟨c, hc, hpc⟩ := Option.map_eq_some_iff.mp hpc
    obtain ⟨hrec, -, hone, -⟩ := @call_has_its_answer _ _ .dialer _ _ _ _ _ hrun ho hcalls hc hpc
    exact ⟨d, c, hrun, hc, hrec, hone⟩
  · cases hok

end Zyris.Core
