import Zyris.Core.Gate

/-!
# Wake-ups and overflow at a credit gate

No wake-up is lost, as a `Notified` is older than the look that found too little credit.  The
counter is not safe: a grant is added to it unchecked, and one envelope is enough to break it
(`grant_overflows`).
-/

namespace Zyris.Core

open Proto

namespace GateState

variable {checks : Bool} {s s' : GateState}

/-! ### What a step can do -/

/-- A step of the acquiring task, of a call of `add` or `cancel`, or a notification. -/
inductive Does (checks : Bool) (s : GateState) : GateAct → GateState → Prop
  | acquires (n : Nat) : Does checks s (.acquire n) { s with pc := .creating n }
  | creates (n : Nat) : s.pc = .creating n →
    Does checks s .create { s with pc := .checking n s.notified }
  | finds (n seen : Nat) (pc : AcquirePc) (gate : CreditGate) : s.pc = .checking n seen →
    (∀ m old, pc ≠ .checking m old) → (∀ m old, pc ≠ .awaiting m old) →
    gate.available ≤ s.gate.available → gate.canceled = s.gate.canceled →
    Does checks s .check { s with gate := gate, pc := pc }
  | parks (n seen : Nat) : s.pc = .checking n seen → s.gate.canceled = false →
    s.gate.available < n → Does checks s .check { s with pc := .awaiting n seen }
  | wakes (n seen : Nat) : s.pc = .awaiting n seen →
    Does checks s .wake { s with pc := .creating n }
  | grants (n : Nat) (g : CreditGate) : s.poisoned = false → s.gate.add checks n = some g →
    Does checks s (.add n) { s with gate := g, partWay := s.partWay + 1 }
  | overflows (n : Nat) : s.poisoned = false → s.gate.add checks n = none →
    Does checks s (.add n) { s with poisoned := true }
  | cancels : s.poisoned = false →
    Does checks s .cancel
      { s with gate := { s.gate with canceled := true }, partWay := s.partWay + 1 }
  | fails (a : GateAct) : s.poisoned = true → Does checks s a s
  | notifies (k : Nat) : s.partWay = k + 1 →
    Does checks s .notify { s with notified := s.notified + 1, partWay := k }

theorem does_of_look {n seen : Nat} (hpc : s.pc = .checking n seen) :
    Does checks s .check (s.look n seen) := by
  unfold look
  split
  · exact .finds n seen .panicked s.gate hpc nofun nofun (Nat.le_refl _) rfl
  unfold CreditGate.acquire
  by_cases hc : s.gate.canceled = true
  · rw [if_pos hc]
    exact .finds n seen _ s.gate hpc nofun nofun (Nat.le_refl _) rfl
  rw [if_neg hc]
  by_cases hn : n ≤ s.gate.available
  · rw [if_pos hn]
    exact .finds n seen _ _ hpc nofun nofun (Nat.sub_le _ _) rfl
  · rw [if_neg hn]
    exact .parks n seen hpc (by simpa using hc) (by omega)

theorem does_of_step {a : GateAct} (h : s.step checks a = some s') : Does checks s a s' := by
  cases a with
  | acquire n =>
    simp only [step] at h
    split at h <;> cases h
    · exact .acquires n
    · exact .acquires n
  | create =>
    simp only [step] at h
    split at h <;> cases h
    exact .creates _ ‹_›
  | check =>
    simp only [step] at h
    split at h <;> cases h
    exact does_of_look ‹_›
  | wake =>
    simp only [step] at h
    repeat' split at h
    all_goals cases h
    exact .wakes _ _ ‹_›
  | add n =>
    cases h
    unfold change
    by_cases hp : s.poisoned = true
    · rw [if_pos hp]
      exact .fails _ hp
    · rw [if_neg hp]
      cases hg : s.gate.add checks n with
      | some g => exact .grants n g (by simpa using hp) hg
      | none => exact .overflows n (by simpa using hp) hg
  | cancel =>
    cases h
    unfold change
    by_cases hp : s.poisoned = true
    · rw [if_pos hp]
      exact .fails _ hp
    · rw [if_neg hp]
      exact .cancels (by simpa using hp)
  | notify =>
    simp only [step] at h
    split at h
    · next hpos =>
      cases h
      exact .notifies _ (by omega)
    · cases h

/-! ### Wake-ups -/

/-- The task's future is not from later on; one that parks without a wake-up under way has seen the
gate as it is. -/
structure Watches (s : GateState) : Prop where
  checking : ∀ n seen, s.pc = .checking n seen → seen ≤ s.notified
  awaiting : ∀ n seen, s.pc = .awaiting n seen → seen ≤ s.notified ∧
    (seen = s.notified → s.partWay = 0 → s.gate.canceled = false ∧ s.gate.available < n)

theorem Watches.does {a : GateAct} (h : s.Watches) (hd : Does checks s a s') : s'.Watches := by
  cases hd with
  | acquires n | wakes n seen hpc => exact ⟨nofun, nofun⟩
  | creates n hpc =>
    refine ⟨?_, nofun⟩
    rintro m seen ⟨⟩
    exact Nat.le_refl _
  | finds n seen pc gate hpc hchecking hawaiting =>
    exact ⟨fun m old hm => absurd hm (hchecking m old), fun m old hm => absurd hm (hawaiting m old)⟩
  | parks n seen hpc hcanceled hlt =>
    refine ⟨nofun, ?_⟩
    rintro m old ⟨⟩
    exact ⟨h.checking n seen hpc, fun _ _ => ⟨hcanceled, hlt⟩⟩
  | grants n g hp hg =>
    -- the gate has changed, and the notification for it is still to come
    exact ⟨h.checking, fun m seen hm => ⟨(h.awaiting m seen hm).1, fun _ hpart => nomatch hpart⟩⟩
  | overflows n hp hg => exact ⟨h.checking, h.awaiting⟩
  | cancels hp =>
    exact ⟨h.checking, fun m seen hm => ⟨(h.awaiting m seen hm).1, fun _ hpart => nomatch hpart⟩⟩
  | fails a hp => exact h
  | notifies k hk =>
    -- every future that is there now was created before this notification
    refine ⟨fun m seen hm => Nat.le_succ_of_le (h.checking m seen hm), fun m seen hm => ?_⟩
    have hle := (h.awaiting m seen hm).1
    refine ⟨Nat.le_succ_of_le hle, fun heq => ?_⟩
    simp only at heq
    omega

theorem watches_of_run {initial : Nat} {as : List GateAct}
    (h : Run (Steps (step checks)) (.new initial) as s) : s.Watches := by
  have hnew : (GateState.new initial).Watches := ⟨nofun, nofun⟩
  exact h.state_invariant hnew fun s a s' hs hstep => hs.does (does_of_step hstep)

end GateState

/-- **No credit wake-up is lost.**  Whatever calls of `add` and `cancel` come, the acquiring task is
never parked without a wake-up, with no call part-way and a gate that would let it through. -/
theorem no_lost_wakeup {checks : Bool} {initial : Nat} {as : List GateAct} {s : GateState}
    (h : Run (Steps (GateState.step checks)) (.new initial) as s) (n : Nat) :
    ¬ (s.isParked n ∧ s.partWay = 0 ∧ (s.gate.canceled = true ∨ n ≤ s.gate.available)) := by
  rintro ⟨hparked, hpart, hopen⟩
  obtain ⟨-, hfound⟩ := (GateState.watches_of_run h).awaiting n s.notified hparked
  obtain ⟨hcanceled, hlt⟩ := hfound rfl hpart
  rcases hopen with hopen | hopen
  · rw [hcanceled] at hopen
    cases hopen
  · omega

/-- The grant comes between the future and the look, its notification after the park. -/
def grantAcrossLook : List GateAct := [.acquire 5, .create, .add 2, .check, .notify]

theorem no_lost_wakeup_grantAcrossLook :
    ∃ s, Run (Steps (GateState.step true)) (.new 1) grantAcrossLook s ∧
      s.pc = .awaiting 5 0 ∧ s.notified = 1 ∧
      ¬ (s.isParked 5 ∧ s.partWay = 0 ∧ (s.gate.canceled = true ∨ 5 ≤ s.gate.available)) := by
  obtain ⟨s, hrun, hpc, hnotified⟩ : ∃ s, Run (Steps (GateState.step true)) (.new 1)
      grantAcrossLook s ∧ s.pc = .awaiting 5 0 ∧ s.notified = 1 :=
    ⟨_, run_of_exec rfl, rfl, rfl⟩
  exact ⟨s, hrun, hpc, hnotified, no_lost_wakeup hrun 5⟩

/-! ### Overflow -/

theorem CreditGate.available_of_add {checks : Bool} {g g' : CreditGate} {n : Nat}
    (h : g.add checks n = some g') : g'.available = (g.available + n) % 2 ^ 64 := by
  unfold CreditGate.add at h
  split at h
  · cases h
  · obtain rfl := Option.some.inj h
    rfl

theorem CreditGate.add_of_lt {checks : Bool} {g : CreditGate} {n : Nat}
    (h : g.available + n < 2 ^ 64) :
    g.add checks n = some { g with available := g.available + n } := by
  unfold CreditGate.add
  rw [if_neg (by omega), Nat.mod_eq_of_lt h]

theorem granted_concat (as : List GateAct) (a : GateAct) :
    granted (as ++ [a]) = granted as + granted [a] := by
  simp [granted]

namespace GateState

variable {checks : Bool} {s s' : GateState}

/-- While the grants are small the `u64` counts no more than they do. -/
structure Counts (initial : Nat) (as : List GateAct) (s : GateState) : Prop where
  lt : s.gate.available < 2 ^ 64
  le : initial + granted as < 2 ^ 64 →
    s.poisoned = false ∧ s.gate.available ≤ initial + granted as

theorem Counts.does {initial : Nat} {as : List GateAct} {a : GateAct} (h : Counts initial as s)
    (hd : Does checks s a s') : Counts initial (as ++ [a]) s' := by
  have hmono : initial + granted (as ++ [a]) < 2 ^ 64 → initial + granted as < 2 ^ 64 := by
    rw [granted_concat]
    omega
  have hsame (hg : s'.gate.available ≤ s.gate.available) (hp : s'.poisoned = s.poisoned) :
      Counts initial (as ++ [a]) s' := by
    refine ⟨Nat.lt_of_le_of_lt hg h.lt, fun hlt => ?_⟩
    obtain ⟨hpoisoned, hle⟩ := h.le (hmono hlt)
    rw [granted_concat]
    exact ⟨hp.trans hpoisoned, by omega⟩
  cases hd with
  | finds n seen pc gate hpc hchecking hawaiting hle => exact hsame hle rfl
  | grants n g hp hg =>
    refine ⟨?_, fun hlt => ?_⟩
    · rw [CreditGate.available_of_add hg]
      omega
    · obtain ⟨hpoisoned, hle⟩ := h.le (hmono hlt)
      have hone : granted [.add n] = n := by simp [granted]
      rw [granted_concat, hone] at hlt ⊢
      rw [CreditGate.available_of_add hg]
      exact ⟨hpoisoned, by omega⟩
  | overflows n hp hg =>
    refine ⟨h.lt, fun hlt => ?_⟩
    obtain ⟨-, hle⟩ := h.le (hmono hlt)
    have hone : granted [.add n] = n := by simp [granted]
    rw [granted_concat, hone] at hlt
    rw [CreditGate.add_of_lt (by omega)] at hg
    cases hg
  | _ => exact hsame (Nat.le_refl _) rfl

theorem counts_of_run {initial : Nat} (hinitial : initial < 2 ^ 64) {as : List GateAct}
    (h : Run (Steps (step checks)) (.new initial) as s) : Counts initial as s := by
  refine h.invariant (I := Counts initial) ⟨hinitial, fun _ => ⟨rfl, Nat.le_refl _⟩⟩ ?_
  intro as s a s' _ hs hstep
  exact hs.does (does_of_step hstep)

/-- The grant neither panics nor leaves less credit than before. -/
def Harmless (checks : Bool) (s : GateState) (n : Nat) : Prop :=
  s.poisoned = false ∧ ∃ g, s.gate.add checks n = some g ∧ s.gate.available ≤ g.available

theorem harmless_iff (hlt : s.gate.available < 2 ^ 64) {n : Nat} (hn : n < 2 ^ 64) :
    s.Harmless checks n ↔ s.poisoned = false ∧ s.gate.available + n < 2 ^ 64 := by
  constructor
  · rintro ⟨hp, g, hg, hle⟩
    refine ⟨hp, ?_⟩
    rw [CreditGate.available_of_add hg] at hle
    omega
  · rintro ⟨hp, hsum⟩
    exact ⟨hp, _, CreditGate.add_of_lt hsum, Nat.le_add_right _ _⟩

end GateState

/-- **A grant is harmless exactly when the sum fits.**  In every state a gate can reach, in builds
with and without overflow checks, a grant of `n` bytes neither panics nor leaves less credit if and
only if no earlier one has panicked and the sum fits a `u64`; it does when all bytes granted, these
included, do. -/
theorem grant_harmless_iff {checks : Bool} {initial : Nat} (hinitial : initial < 2 ^ 64)
    {as : List GateAct} {s : GateState}
    (h : Run (Steps (GateState.step checks)) (.new initial) as s) {n : Nat} (hn : n < 2 ^ 64) :
    (s.Harmless checks n ↔ s.poisoned = false ∧ s.gate.available + n < 2 ^ 64) ∧
    (initial + granted as + n < 2 ^ 64 → s.Harmless checks n) := by
  have hcounts := GateState.counts_of_run hinitial h
  have hiff : s.Harmless checks n ↔ _ := GateState.harmless_iff hcounts.lt hn
  refine ⟨hiff, fun hsum => ?_⟩
  obtain ⟨hpoisoned, hle⟩ := hcounts.le (by omega)
  exact hiff.mpr ⟨hpoisoned, by omega⟩

theorem grant_harmless_iff_grantAcrossLook :
    ∃ s, Run (Steps (GateState.step true)) (.new 1) grantAcrossLook s ∧ s.Harmless true 7 ∧
      s.poisoned = false ∧ s.gate.available + 7 < 2 ^ 64 := by
  obtain ⟨s, hrun⟩ : ∃ s, Run (Steps (GateState.step true)) (.new 1) grantAcrossLook s :=
    ⟨_, run_of_exec rfl⟩
  obtain ⟨hiff, hsum⟩ := grant_harmless_iff (by decide) hrun (by decide : 7 < 2 ^ 64)
  have hharmless := hsum (by decide)
  exact ⟨s, hrun, hharmless, hiff.mp hharmless⟩

/-- **One grant is enough**: the default credit and a grant of `2^64 - 1`.  A checked build panics
with the lock held, another one is left with less credit. -/
theorem grant_overflows :
    let initial := Limits.default.initialStreamCredit
    (∃ s, Run (Steps (GateState.step true)) (.new initial) [.add (2 ^ 64 - 1)] s ∧
      s.poisoned = true ∧ s.partWay = 0) ∧
    ∃ s, Run (Steps (GateState.step false)) (.new initial) [.add (2 ^ 64 - 1)] s ∧
      s.gate.available = initial - 1 :=
  ⟨⟨_, run_of_exec rfl, rfl, rfl⟩, ⟨_, run_of_exec rfl, rfl⟩⟩

end Zyris.Core
