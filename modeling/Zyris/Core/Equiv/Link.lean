import Zyris.Core.Link
import Mathlib.Tactic.SplitIfs

/-!
# When a link's ending reaches whoever asks

A tokio `watch::Sender::send` without a live receiver stores nothing, and `Link::start` drops the
receiver it was given.  So the ending is kept only if some `wait_closed` or `disconnect` has
subscribed and not yet returned (`ReceiverAtSend`).
-/

namespace Zyris.Core

/-! ### What a step can do -/

variable {l l' : Link} {a : LinkAct} {c c' : LinkCall} {first : Bool} {as : List LinkAct}
  {i : Nat}

theorem Link.step_cases (h : l.step a = some l') :
    (a ≠ .send ∧ l'.done = l.done ∧ l'.version = l.version ∧ l'.calls = l.calls ∧
      ∀ e, l'.maintain = .returned e ↔ l.maintain = .returned e) ∨
    (∃ e, a = .send ∧ l.maintain = .sending e ∧
      l' = { l.sendDone e with maintain := .returned e }) ∨
    (a ≠ .send ∧ l'.done = l.done ∧ l'.version = l.version ∧ l'.maintain = l.maintain ∧
      ∃ d, l'.calls = l.calls ++ [⟨d, .begun⟩]) ∨
    (∃ i c c', a = .call i ∧ l.calls[i]? = some c ∧ c.step l.done l.version = some c' ∧
      l' = { l with calls := l.calls.set i c' }) ∨
    ∃ i c, a = .dropCall i ∧ l.calls[i]? = some c ∧
      l' = { l with calls := l.calls.set i { c with pc := .dropped } } := by
  cases a with
  | send =>
    simp only [Link.step] at h
    split at h
    · rename_i e he
      exact .inr (.inl ⟨e, rfl, he, (Option.some.inj h).symm⟩)
    · exact absurd h (by simp)
  | waitClosed =>
    obtain rfl := Option.some.inj h
    exact .inr (.inr (.inl ⟨by simp, rfl, rfl, rfl, false, rfl⟩))
  | disconnect =>
    obtain rfl := Option.some.inj h
    refine .inr (.inr (.inl ⟨by simp, ?_, ?_, ?_, true, rfl⟩)) <;>
      simp only [Link.sendStop] <;> split <;> rfl
  | call i =>
    simp only [Link.step, Option.bind_eq_bind, Option.bind_eq_some_iff] at h
    obtain ⟨c, hc, c', hs, h⟩ := h
    exact .inr (.inr (.inr (.inl ⟨i, c, c', rfl, hc, hs, (Option.some.inj h).symm⟩)))
  | dropCall i =>
    simp only [Link.step, Option.bind_eq_bind, Option.bind_eq_some_iff] at h
    obtain ⟨c, hc, h⟩ := h
    split at h
    · exact absurd h (by simp)
    · exact .inr (.inr (.inr (.inr ⟨i, c, rfl, hc, (Option.some.inj h).symm⟩)))
  | dropLink =>
    obtain rfl := Option.some.inj h
    exact .inl ⟨by simp, rfl, rfl, rfl, fun _ => Iff.rfl⟩
  | timer | check | dialed _ | closed _ | graced | stopped =>
    -- the task moves between places where it has not returned
    left
    refine ⟨by simp, ?_⟩
    simp only [Link.step] at h
    grind [Link.widen]

/-! ### The invariant -/

/-- No receiver runs ahead of the channel, a parked call has seen version `0`, and one that returned
was given the stored ending. -/
def LinkCall.Agrees (done : Option Ending) (version : Nat) (c : LinkCall) : Prop :=
  match c.pc with
  | .looping seen => seen ≤ version
  | .parked seen => seen = 0
  | .returned r => ∃ e, done = some e ∧ r = c.result e
  | _ => True

/-- Nothing is stored at version `0`, an ending only at version `1` and once the task returned it;
the calls agree. -/
structure Link.Inv (l : Link) : Prop where
  version_eq : l.version = if l.done.isSome then 1 else 0
  returned : ∀ e, l.done = some e → l.maintain = .returned e
  agrees : ∀ c ∈ l.calls, c.Agrees l.done l.version

theorem Link.inv_start (first : Bool) : (Link.start first).Inv :=
  ⟨rfl, fun e h => by simp [Link.start] at h, by simp [Link.start]⟩

theorem LinkCall.agrees_step (hl : l.Inv) (h : c.step l.done l.version = some c')
    (hc : c.Agrees l.done l.version) : c'.Agrees l.done l.version := by
  have hv := hl.version_eq
  unfold LinkCall.step at h
  unfold LinkCall.Agrees at hc
  cases hpc : c.pc with
  | begun =>
    rw [hpc] at h
    obtain rfl := Option.some.inj h
    exact Nat.le_refl _
  | looping seen =>
    rw [hpc] at h hc
    cases hd : l.done with
    | some e =>
      rw [hd] at h
      obtain rfl := Option.some.inj h
      exact ⟨e, rfl, rfl⟩
    | none =>
      -- nothing stored yet, so the version seen is still `0`
      rw [hd] at h hv
      obtain rfl := Option.some.inj h
      simp only [Option.isSome_none, Bool.false_eq_true, ↓reduceIte] at hv
      show seen = 0
      omega
  | parked seen =>
    rw [hpc] at h
    simp only at h
    split_ifs at h
    obtain rfl := Option.some.inj h
    exact Nat.le_refl _
  | returned r | dropped => rw [hpc] at h; exact absurd h (by simp)

theorem LinkCall.agrees_send (h : c.Agrees none 0) (e : Ending) : c.Agrees (some e) 1 := by
  unfold LinkCall.Agrees at h ⊢
  cases hpc : c.pc with
  | looping seen => rw [hpc] at h; exact Nat.le_trans h (Nat.zero_le 1)
  | returned r =>
    rw [hpc] at h
    obtain ⟨e', he', _⟩ := h
    exact absurd he' (by simp)
  | begun => trivial
  | parked seen => rw [hpc] at h; exact h
  | dropped => trivial

theorem Link.inv_step (hl : l.Inv) (h : l.step a = some l') : l'.Inv := by
  obtain ⟨hv, hr, ha⟩ := hl
  rcases Link.step_cases h with ⟨-, hd, hv', hc, hm⟩ | ⟨e, -, hm, rfl⟩ | ⟨-, hd, hv', hm, d, hc⟩ |
    ⟨i, c, c', -, hc, hs, rfl⟩ | ⟨i, c, -, hc, rfl⟩
  · refine ⟨by rw [hv', hd, hv], fun e he => (hm e).mpr (hr e (by rw [← hd, he])), ?_⟩
    rw [hc, hd, hv']
    exact ha
  · -- the task is about to send, so nothing is stored yet
    have hd : l.done = none := by
      cases hd : l.done with
      | none => rfl
      | some e' => rw [hr e' hd] at hm; exact absurd hm (by simp)
    rw [hd] at hv ha
    simp only [Option.isSome_none, Bool.false_eq_true, ↓reduceIte] at hv
    rw [hv] at ha
    by_cases h0 : l.receivers = 0
    · rw [Link.sendDone, if_pos h0]
      exact ⟨by rw [hd, hv]; rfl, fun e' he' => absurd he' (by simp [hd]),
        by simpa only [hd, hv] using ha⟩
    · rw [Link.sendDone, if_neg h0]
      refine ⟨by rw [hv]; rfl, fun e' he' => by rw [Option.some.inj he'], fun c hc => ?_⟩
      simp only [hv]
      exact LinkCall.agrees_send (ha c hc) e
  · refine ⟨by rw [hv', hd, hv], fun e he => by rw [hm]; exact hr e (by rw [← hd, he]), ?_⟩
    rw [hc, hd, hv']
    intro c hc
    rcases List.mem_append.mp hc with hc | hc
    · exact ha c hc
    · rw [List.mem_singleton.mp hc]
      trivial
  · refine ⟨hv, hr, fun c₁ hc₁ => ?_⟩
    rcases List.mem_or_eq_of_mem_set hc₁ with h1 | rfl
    · exact ha c₁ h1
    · exact LinkCall.agrees_step (l := l) ⟨hv, hr, ha⟩ hs (ha c (List.mem_of_getElem? hc))
  · refine ⟨hv, hr, fun c₁ hc₁ => ?_⟩
    rcases List.mem_or_eq_of_mem_set hc₁ with h1 | rfl
    · exact ha c₁ h1
    · trivial

theorem Link.inv_of_run (h : Run (Steps Link.step) (Link.start first) as l) : l.Inv :=
  h.state_invariant (Link.inv_start first) fun _ _ _ => Link.inv_step

/-! ### Calls return once the ending is stored -/

/-- Left to itself, the call with index `i` returns `r` within three steps of its own. -/
def Link.Returns (l : Link) (i : Nat) (r : Option ConnectError) : Prop :=
  ∃ n ≤ 3, ∃ l', exec Link.step l (List.replicate n (.call i)) = some l' ∧
    (l'.calls[i]?).map LinkCall.pc = some (.returned r)

theorem Link.returns_of_step (hc : l.calls[i]? = some c) (hs : c.step l.done l.version = some c')
    {r : Option ConnectError} {n : Nat} (hn : n ≤ 2)
    (hl' : exec Link.step { l with calls := l.calls.set i c' } (List.replicate n (.call i)) =
      some l')
    (hr : (l'.calls[i]?).map LinkCall.pc = some (.returned r)) : l.Returns i r := by
  refine ⟨n + 1, by omega, l', ?_, hr⟩
  have : l.step (.call i) = some { l with calls := l.calls.set i c' } := by
    simp [Link.step, hc, hs]
  rw [List.replicate_succ, exec, this, Option.bind_some, hl']

theorem Link.returns_of_done (hl : l.Inv) {e : Ending} (hd : l.done = some e)
    (hc : l.calls[i]? = some c) (hdrop : c.pc ≠ .dropped) : l.Returns i (c.result e) := by
  have hv : l.version = 1 := by rw [hl.version_eq, hd]; rfl
  have hag := hl.agrees c (List.mem_of_getElem? hc)
  have hi : i < l.calls.length := (List.getElem?_eq_some_iff.mp hc).1
  -- from the head of its loop a call returns at once
  have looping (l₁ : Link) (hl₁ : l₁.done = some e) (c₁ : LinkCall) (hc₁ : l₁.calls[i]? = some c₁)
      (seen : Nat) (hpc : c₁.pc = .looping seen) (hres : c₁.result e = c.result e) :
      ∃ l', exec Link.step l₁ (List.replicate 1 (.call i)) = some l' ∧
        (l'.calls[i]?).map LinkCall.pc = some (.returned (c.result e)) := by
    have hi₁ : i < l₁.calls.length := (List.getElem?_eq_some_iff.mp hc₁).1
    refine ⟨{ l₁ with calls := l₁.calls.set i { c₁ with pc := .returned (c.result e) } }, ?_, ?_⟩
    · simp [exec, Link.step, hc₁, LinkCall.step, hpc, hl₁, hres]
    · simp [hi₁]
  -- and so does one that comes there next
  have enters (hs : c.step l.done l.version = some { c with pc := .looping l.version }) :
      l.Returns i (c.result e) := by
    obtain ⟨l', h1, h2⟩ := looping
      { l with calls := l.calls.set i { c with pc := .looping l.version } } hd
      { c with pc := .looping l.version } (by simp [hi]) l.version rfl rfl
    exact Link.returns_of_step hc hs (by omega) h1 h2
  cases hpc : c.pc with
  | begun =>
    apply enters
    simp [LinkCall.step, hpc]
  | looping seen =>
    obtain ⟨l', h1, h2⟩ := looping l hd c hc seen hpc rfl
    exact ⟨1, by omega, l', h1, h2⟩
  | parked seen =>
    -- the send moved the version past the one it parked on
    have h0 : seen = 0 := by simpa [LinkCall.Agrees, hpc] using hag
    apply enters
    simp [LinkCall.step, hpc, h0, hv]
  | returned r =>
    obtain ⟨e', he', hr⟩ : ∃ e', l.done = some e' ∧ r = c.result e' := by
      simpa [LinkCall.Agrees, hpc] using hag
    rw [hd] at he'
    obtain rfl := Option.some.inj he'
    exact ⟨0, by omega, l, rfl, by simp [hc, hpc, hr]⟩
  | dropped => exact absurd hpc hdrop

/-! ### The condition -/

/-- The send of the ending happens while some call holds a receiver of `done`. -/
def ReceiverAtSend (l : Link) (a : LinkAct) : Prop := a = .send → 0 < l.receivers

/-- The ending is stored, and every call on the link that was not dropped returns it. -/
def Link.Settled (l : Link) (e : Ending) : Prop :=
  l.done = some e ∧ ∀ i c, l.calls[i]? = some c → c.pc ≠ .dropped → l.Returns i (c.result e)

theorem done_of_guarded
    (h : Run (Guarded (Steps Link.step) ReceiverAtSend) (Link.start first) as l) (e : Ending)
    (he : l.maintain = .returned e) : l.done = some e := by
  refine h.state_invariant (I := fun l => ∀ e, l.maintain = .returned e → l.done = some e)
    (fun e he => by cases first <;> simp [Link.start] at he) ?_ e he
  intro l a l' hst ⟨hs, hok⟩ e he
  rcases Link.step_cases hs with ⟨-, hd, -, -, hm⟩ | ⟨e', rfl, -, rfl⟩ | ⟨-, hd, -, hm, -⟩ |
    ⟨i, c, c', -, -, -, rfl⟩ | ⟨i, c, -, -, rfl⟩
  · rw [hd, hst e ((hm e).mp he)]
  · simp only [Link.sendDone, if_neg (Nat.pos_iff_ne_zero.mp (hok rfl))]
    simpa using he
  · rw [hd, hst e (hm ▸ he)]
  · exact hst e he
  · exact hst e he

/-- Either every send so far found a receiver, or the task has returned with nothing stored. -/
theorem guarded_or_lost (h : Run (Steps Link.step) (Link.start first) as l) :
    Run (Guarded (Steps Link.step) ReceiverAtSend) (Link.start first) as l ∨
      (l.done = none ∧ ∃ e, l.maintain = .returned e) := by
  induction h with
  | nil => exact .inl .nil
  | @snoc as l l' a hr hs ih =>
    rcases ih with hg | ⟨hn, e, he⟩
    · by_cases ha : ReceiverAtSend l a
      · exact .inl (hg.snoc ⟨hs, ha⟩)
      -- the only way to break the condition is the send itself
      obtain ⟨rfl, h0⟩ : a = .send ∧ l.receivers = 0 := by
        simpa [ReceiverAtSend] using ha
      rcases Link.step_cases hs with ⟨ha, -⟩ | ⟨e, -, hm, rfl⟩ | ⟨ha, -⟩ | ⟨_, _, _, ha, -⟩ |
        ⟨_, _, ha, -⟩
      · exact absurd rfl ha
      · refine .inr ⟨?_, e, rfl⟩
        simp only [Link.sendDone, if_pos h0]
        cases hd : l.done with
        | none => rfl
        | some e' =>
          rw [(Link.inv_of_run hr).returned e' hd] at hm
          exact absurd hm (by simp)
      · exact absurd rfl ha
      · exact absurd ha (by simp)
      · exact absurd ha (by simp)
    · -- a task that has returned does not send again
      right
      rcases Link.step_cases hs with ⟨-, hd, -, -, hm⟩ | ⟨e', -, hm, -⟩ | ⟨-, hd, -, hm, -⟩ |
        ⟨i, c, c', -, -, -, rfl⟩ | ⟨i, c, -, -, rfl⟩
      · exact ⟨by rw [hd, hn], e, (hm e).mpr he⟩
      · rw [he] at hm
        exact absurd hm (by simp)
      · exact ⟨by rw [hd, hn], e, by rw [hm, he]⟩
      · exact ⟨hn, e, he⟩
      · exact ⟨hn, e, he⟩

/-- **A link's ending reaches whoever asks exactly when a call was subscribed at its send.**  In
every run in which the task returned with `e`: the ending is stored and every call, started before
or after, returns it, if and only if the send found a live receiver. -/
theorem settled_iff_receiverAtSend {first : Bool} {as : List LinkAct} {l : Link} {e : Ending}
    (h : Run (Steps Link.step) (Link.start first) as l) (he : l.maintain = .returned e) :
    l.Settled e ↔ Run (Guarded (Steps Link.step) ReceiverAtSend) (Link.start first) as l := by
  constructor
  · rintro ⟨hd, -⟩
    rcases guarded_or_lost h with hg | ⟨hn, -⟩
    · exact hg
    · rw [hn] at hd
      exact absurd hd (by simp)
  · intro hg
    have hd := done_of_guarded hg e he
    exact ⟨hd, fun i c hc hdrop => Link.returns_of_done (Link.inv_of_run h) hd hc hdrop⟩

/-- The eager dial fails, a call waits on the link, and the second dial is refused for good. -/
def refusedTrace : List LinkAct :=
  [.waitClosed, .call 0, .call 0, .timer, .check, .dialed (some .unauthorized), .send]

theorem settled_refusedTrace :
    ∃ l, Run (Steps Link.step) (Link.start false) refusedTrace l ∧
      l.maintain = .returned .unauthorized ∧
      (l.Settled .unauthorized ↔
        Run (Guarded (Steps Link.step) ReceiverAtSend) (Link.start false) refusedTrace l) :=
  ⟨_, run_of_exec rfl, rfl, settled_iff_receiverAtSend (run_of_exec rfl) rfl⟩

/-- With nobody subscribed the ending is dropped, and a later `wait_closed` parks on a channel that
stays empty. -/
theorem ending_lost_without_receiver :
    ∃ l, Run (Steps Link.step) (Link.start false)
        [.timer, .check, .dialed (some .unauthorized), .send, .waitClosed, .call 0, .call 0] l ∧
      l.maintain = .returned .unauthorized ∧ l.done = none ∧
      l.calls = [⟨false, .parked 0⟩] ∧ l.step (.call 0) = none :=
  ⟨_, run_of_exec rfl, rfl, rfl, rfl, rfl⟩

end Zyris.Core
