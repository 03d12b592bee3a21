import Zyris.Core.Equiv.Step

/-!
# Who writes the close reason

`shutdown` looks whether a reason is stored and then replaces it, in two steps.  Two calls that both
look first leave the reason of the later one, whatever a caller of `closed` has been shown by then.
-/

namespace Zyris.Core

namespace Closing

/-- The `shutdown`s between their look and their replacement. -/
def publishers (c : Closing) : Nat :=
  c.shutdowns.total fun x => if x.pc = .publishing then 1 else 0

/-- One call at most has written the reason or is about to. -/
def OneWriter (c : Closing) : Prop :=
  c.publishers + (if c.closeReason.isSome then 1 else 0) ≤ 1

variable {c c' : Closing} {k : Nat} {x : Shutdown}

theorem publishers_begin (c : Closing) (reason : CloseReason) :
    (c.begin reason).publishers = c.publishers := by
  simp [publishers, Closing.begin]

theorem publishers_update {d : Closing} (hx : c.shutdowns.get k = some x) {f : Shutdown → Shutdown}
    (hd : d.shutdowns = c.shutdowns.update k f) :
    d.publishers + (if x.pc = .publishing then 1 else 0) =
      c.publishers + if (f x).pc = .publishing then 1 else 0 := by
  unfold publishers
  rw [hd]
  exact Arena.total_update hx f _

/-- A `shutdown` looks, replaces, or is elsewhere. -/
inductive Advances (c : Closing) (k : Nat) (x : Shutdown) : Closing → Prop
  | found (reason : CloseReason) : x.pc = .checking → c.closeReason = some reason →
    Advances c k x (c.move k .pushingClose)
  | foundNone : x.pc = .checking → c.closeReason = none → Advances c k x (c.move k .publishing)
  | replaced : x.pc = .publishing →
    Advances c k x { c.move k .pushingClose with closeReason := some x.reason }
  | elsewhere (f : Shutdown → Shutdown) (c' : Closing) : x.pc ≠ .checking → x.pc ≠ .publishing →
    c'.closeReason = c.closeReason → c'.shutdowns = c.shutdowns.update k f →
    (f x).pc ≠ .publishing → Advances c k x c'

theorem Advances.size (h : Advances c k x c') : c'.shutdowns.size = c.shutdowns.size := by
  cases h with
  | elsewhere f c' hcheck hpub hreason hsh hf => rw [hsh, Arena.size_update]
  | _ => exact Arena.size_update _ _ _

theorem Advances.keeps (h : Advances c k x c') (hx : c.shutdowns.get k = some x)
    (hc : c.OneWriter) {reason : CloseReason} (hr : c.closeReason = some reason) :
    c'.closeReason = some reason := by
  cases h with
  | found reason' hpc hr' => exact hr
  | foundNone hpc hnone => exact hr
  | elsewhere f c' hcheck hpub hreason hsh hf => exact hreason.trans hr
  | replaced hpc =>
    -- its own place among the publishers and the stored reason are one too many
    have hpub := Arena.le_total_of_get hx fun x => if x.pc = .publishing then 1 else 0
    simp only [OneWriter, publishers, hr, hpc, if_true, Option.isSome_some] at hc hpub
    omega

theorem OneWriter.advances (hc : c.OneWriter) (h : Advances c k x c')
    (hx : c.shutdowns.get k = some x) (halone : x.pc = .checking → c.publishers = 0) :
    c'.OneWriter := by
  unfold OneWriter at hc ⊢
  cases h with
  | found reason hpc hr =>
    have hp := publishers_update hx (d := c.move k .pushingClose) rfl
    have hz := halone hpc
    simp only [hpc, reduceCtorEq, if_false] at hp
    simp only [Closing.move, hr, Option.isSome_some, if_true] at hp ⊢
    omega
  | foundNone hpc hnone =>
    have hp := publishers_update hx (d := c.move k .publishing) rfl
    have hz := halone hpc
    simp only [hpc, reduceCtorEq, if_false, if_true] at hp
    simp only [Closing.move, hnone, Option.isSome_none, Bool.false_eq_true, if_false] at hp ⊢
    omega
  | replaced hpc =>
    have hp := publishers_update hx
      (d := { c.move k .pushingClose with closeReason := some x.reason }) rfl
    simp only [hpc, reduceCtorEq, if_false, if_true] at hp
    simp only [Option.isSome_some, if_true]
    omega
  | elsewhere f c' hcheck hpub hreason hsh hf =>
    have hp := publishers_update hx hsh
    rw [if_neg hpub, if_neg hf] at hp
    rw [hreason]
    omega

end Closing

namespace Shared

variable {cfg : Config} {s s' : Shared}

theorem advances_of_shutdownRun {k : Nat} {x : Shutdown} (h : s.shutdownRun k x = some s') :
    Closing.Advances s.closing k x s'.closing := by
  unfold shutdownRun at h
  cases hpc : x.pc <;> rw [hpc] at h <;> cases h
  case takingGraceful =>
    exact .elsewhere _ _ (by simp [hpc]) (by simp [hpc]) rfl rfl (by simp)
  case checking =>
    cases hr : s.closing.closeReason with
    | none => exact .foundNone hpc hr
    | some reason => exact .found reason hpc hr
  case publishing => exact .replaced hpc
  all_goals exact .elsewhere _ _ (by simp [hpc]) (by simp [hpc]) rfl rfl (by simp)

theorem closing_cases {a : Act} (h : s.step cfg a = some s') :
    (s'.closing.closeReason = s.closing.closeReason ∧
      s'.closing.shutdowns = s.closing.shutdowns) ∨
    (∃ reason, s'.closing = s.closing.begin reason) ∨
    ∃ k x, a = .closing (.shutdownRun k) ∧ s.closing.shutdowns.get k = some x ∧
      Closing.Advances s.closing k x s'.closing := by
  cases acts_of_step h with
  | shutdown reason => exact .inr (.inl ⟨reason, rfl⟩)
  | shutdownRun hx hrun =>
    exact .inr (.inr ⟨_, _, rfl, hx, advances_of_shutdownRun hrun⟩)
  | writer _ hclosing =>
    rcases hclosing with rfl | ⟨e, -, rfl⟩
    · exact .inl ⟨rfl, rfl⟩
    · exact .inr (.inl ⟨_, rfl⟩)
  | _ => exact .inl ⟨rfl, rfl⟩

def NoShutdown (s : Shared) : Prop := s.closing.shutdowns.size = 0

/-- There is none to move on, and none goes away. -/
theorem NoShutdown.of_step {a : Act} (h : s.step cfg a = some s') (hs' : s'.NoShutdown) :
    s.NoShutdown ∧ ∀ k, a ≠ .closing (.shutdownRun k) := by
  have hget (k : Nat) (hs : s.NoShutdown) : s.closing.shutdowns.get k = none := by
    cases hk : s.closing.shutdowns.get k with
    | none => rfl
    | some x => exact absurd (Arena.lt_size_of_get hk) (by rw [hs]; exact Nat.not_lt_zero k)
  have hs : s.NoShutdown := by
    unfold NoShutdown at hs' ⊢
    rcases closing_cases h with ⟨-, hsame⟩ | ⟨reason, hbegin⟩ | ⟨k, x, -, hx, hadv⟩
    · rwa [hsame] at hs'
    · simp [hbegin, Closing.begin] at hs'
    · rwa [hadv.size] at hs'
  refine ⟨hs, ?_⟩
  rintro k rfl
  simp only [step, closingStep, hget k hs] at h
  cases h

end Shared

/-- No `shutdown` looks at the stored reason between another one's look and replacement. -/
def looksAlone (s : Shared) : Act → Bool
  | .closing (.shutdownRun k) =>
    match (s.closing.shutdowns.get k).map Shutdown.pc with
    | some .checking => s.closing.publishers = 0
    | _ => true
  | _ => true

/-- A step has one writer at most, and keeps a reason that is stored. -/
theorem Closing.OneWriter.step {cfg : Config} {s s' : Shared} {a : Act}
    (hs : s.closing.OneWriter) (hok : looksAlone s a = true) (h : s.step cfg a = some s') :
    s'.closing.OneWriter ∧ ∀ reason, s.closed = some reason → s'.closed = some reason := by
  rcases Shared.closing_cases h with ⟨hr, hsh⟩ | ⟨reason, hc⟩ | ⟨k, x, rfl, hx, hadv⟩
  · refine ⟨?_, fun reason hreason => hr.trans hreason⟩
    simpa only [OneWriter, publishers, hr, hsh] using hs
  · refine ⟨?_, fun _ hreason => ?_⟩
    · rw [OneWriter, hc, publishers_begin]
      exact hs
    · rw [Shared.closed, hc]
      exact hreason
  · have halone (hpc : x.pc = .checking) : s.closing.publishers = 0 := by
      simpa [looksAlone, hx, hpc] using hok
    exact ⟨hs.advances hadv hx halone, fun _ => hadv.keeps hx hs⟩

theorem Closing.OneWriter.run {cfg : Config} {s s' : Shared} {as : List Act}
    (hs : s.closing.OneWriter)
    (h : Run (Guarded (Steps (Shared.step cfg)) (looksAlone · ·)) s as s') :
    s'.closing.OneWriter ∧ ∀ reason, s.closed = some reason → s'.closed = some reason := by
  refine h.state_invariant (I := fun s' => s'.closing.OneWriter ∧
    ∀ reason, s.closed = some reason → s'.closed = some reason) ⟨hs, fun _ h => h⟩ ?_
  rintro s₁ a s₂ ⟨h₁, hkept⟩ ⟨hstep, hok⟩
  obtain ⟨h₂, hkept'⟩ := h₁.step hok hstep
  exact ⟨h₂, fun reason hreason => hkept' reason (hkept reason hreason)⟩

/-- **The close reason is written once as long as no two `shutdown`s look at the same time.**  A new
connection has none, and what a call of `closed` has found every call of `closed` finds from then
on. -/
theorem reason_kept {cfg : Config} {served : Served} {as bs : List Act} {s s' : Shared}
    (h : Run (Guarded (Steps (Shared.step cfg)) (looksAlone · ·)) (.start served) as s)
    (h' : Run (Guarded (Steps (Shared.step cfg)) (looksAlone · ·)) s bs s') :
    (Shared.start served).closed = none ∧
      ∀ reason, s.closed = some reason → s'.closed = some reason := by
  have hstart : (Shared.start served).closing.OneWriter := Nat.zero_le 1
  exact ⟨rfl, ((hstart.run h).1.run h').2⟩

/-- The reader ends, and then the watchdog fires while the reader is between its drains. -/
def readerThenWatchdog : List Act :=
  [.closing (.shutdown (.transport "connection closed")), .closing (.shutdownRun 0),
    .closing (.shutdown (.heartbeat "no frame from peer within the negotiated timeout"))] ++
  List.replicate 7 (.closing (.shutdownRun 0))

theorem reason_kept_readerThenWatchdog :
    ∃ s s', Run (Guarded (Steps (Shared.step (.bare .dialer .msgpack))) (looksAlone · ·))
        (.start .default) readerThenWatchdog s ∧
      Run (Guarded (Steps (Shared.step (.bare .dialer .msgpack))) (looksAlone · ·)) s
        (List.replicate 8 (.closing (.shutdownRun 1))) s' ∧
      s.closed = some (.transport "connection closed") ∧
      s'.closed = some (.transport "connection closed") := by
  let step := Shared.step (.bare .dialer .msgpack)
  obtain ⟨s, hrun, hclosed, hrest⟩ := exists_run_of_execOk step looksAlone (.start .default)
    readerThenWatchdog (fun s => s.closed = some (.transport "connection closed") ∧
      (execOk step looksAlone s (List.replicate 8 (.closing (.shutdownRun 1)))).isSome) rfl
  obtain ⟨s', hexec⟩ := Option.isSome_iff_exists.mp hrest
  have hrun' := run_of_execOk hexec
  exact ⟨s, s', hrun, hrun', hclosed, (reason_kept hrun hrun').2 _ hclosed⟩

/-- The reader's `shutdown` and the watchdog's both find no reason: the reader's replaces it, a
caller of `closed` is told, and then the watchdog's replaces it again. -/
theorem reason_overwritten :
    ∃ s s', Run (Steps (Shared.step (.bare .dialer .msgpack))) (.start .default)
        ([.closing (.shutdown (.transport "connection closed")),
          .closing (.shutdown (.heartbeat "no frame from peer within the negotiated timeout"))] ++
        List.replicate 7 (.closing (.shutdownRun 0)) ++
        List.replicate 7 (.closing (.shutdownRun 1)) ++ [.closing (.shutdownRun 0)]) s ∧
      Run (Steps (Shared.step (.bare .dialer .msgpack))) s [.closing (.shutdownRun 1)] s' ∧
      s.closed = some (.transport "connection closed") ∧
      s'.closed = some (.heartbeat "no frame from peer within the negotiated timeout") :=
  ⟨_, _, run_of_exec rfl, run_of_exec rfl, rfl, rfl⟩

end Zyris.Core
