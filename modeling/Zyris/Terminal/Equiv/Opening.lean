import Zyris.Terminal.Opening

/-!
# How many PTYs are open

A call that has counted the sessions and not yet put its own in is one the next count does not see
(`PtyPool.pending`).  The cap holds as long as each count that lets a call through leaves room for
those as well (`PtyPool.RoomLeft`).
-/

namespace Zyris.Terminal

/-- A call that has found room and may still insert a session. -/
def OpenPc.pending : OpenPc → Nat
  | .admitted | .spawning _ | .inserting _ _ => 1
  | .entered | .counting | .returned _ => 0

def PoolAct.isCount : PoolAct → Bool
  | .turn _ .count => true
  | _ => false

namespace PtyPool

variable {s s' : PtyPool} {pc pc' : OpenPc} {a : OpenAct}

/-- The calls that have found room and have not inserted yet. -/
def pending (s : PtyPool) : Nat := s.calls.total OpenPc.pending

/-- The sessions there are and those that are to come fit. -/
def Fits (s : PtyPool) : Prop := s.sessions.len + s.pending ≤ MAX_SESSIONS

/-- A count that finds room finds it for the calls that counted before, too. -/
def RoomLeft (s : PtyPool) (a : PoolAct) : Prop :=
  a.isCount = true → s.sessions.len < MAX_SESSIONS → s.sessions.len + s.pending < MAX_SESSIONS

instance (s : PtyPool) (a : PoolAct) : Decidable (s.RoomLeft a) :=
  inferInstanceAs (Decidable (_ → _))

/-- Only a count lets a call in, and a session takes the place of the call that inserts it. -/
theorem turn_len (h : s.turn pc a = some (s', pc')) :
    s'.sessions.len + pc'.pending ≤ s.sessions.len + pc.pending ∨
    a = .count ∧ s.sessions.len < MAX_SESSIONS ∧
      s'.sessions.len + pc'.pending = s.sessions.len + pc.pending + 1 := by
  unfold turn at h
  split at h
  · cases h
    exact .inl (Nat.le_refl _)
  · split_ifs at h with hfull
    · cases h
      exact .inl (Nat.le_refl _)
    · cases h
      exact .inr ⟨rfl, Nat.not_le.mp hfull, rfl⟩
  · cases h
    exact .inl (Nat.le_refl _)
  · cases h
    exact .inl (Nat.le_add_right _ _)
  · cases h
    exact .inl (Nat.le_refl _)
  next id now =>
    cases h
    exact .inl (s.sessions.len_insert_le id now)
  · cases h

theorem fits_turn {i : Nat} (hfits : s.Fits) (hroom : s.RoomLeft (.turn i a))
    (hpc : s.calls.get i = some pc) (h : s.turn pc a = some (s', pc')) :
    Fits { s' with calls := s.calls.update i fun _ => pc' } := by
  have hcalls := Arena.total_update hpc (fun _ => pc') OpenPc.pending
  show s'.sessions.len + (s.calls.update i fun _ => pc').total OpenPc.pending ≤ MAX_SESSIONS
  have hfits' : s.sessions.len + s.calls.total OpenPc.pending ≤ MAX_SESSIONS := hfits
  rcases turn_len h with hle | ⟨rfl, hlt, heq⟩
  · omega
  · have hroom' : s.sessions.len + s.calls.total OpenPc.pending < MAX_SESSIONS := hroom rfl hlt
    omega

theorem Fits.of_le {sessions : Table String Nat} (h : s.Fits)
    (hle : sessions.len ≤ s.sessions.len) : Fits { s with sessions := sessions } :=
  Nat.le_trans (Nat.add_le_add_right hle _) h

theorem Fits.step {idle : Nat} {a : PoolAct} (hfits : s.Fits) (hroom : s.RoomLeft a)
    (h : s.step idle a = some s') : s'.Fits := by
  unfold PtyPool.step at h
  cases a with
  | call =>
    cases h
    show s.sessions.len + (s.calls.alloc .entered).total OpenPc.pending ≤ MAX_SESSIONS
    rw [Arena.total_alloc]
    exact hfits
  | turn i a =>
    simp only [Option.bind_eq_bind, Option.bind_eq_some_iff] at h
    obtain ⟨pc, hpc, ⟨s₁, pc'⟩, hturn, hs'⟩ := h
    cases hs'
    exact fits_turn hfits hroom hpc hturn
  | touch id =>
    dsimp only at h
    cases hget : s.sessions.get id with
    | none =>
      rw [hget] at h
      cases h
      exact hfits
    | some touched =>
      rw [hget] at h
      cases h
      exact hfits.of_le (Nat.le_of_eq (Table.len_insert_of_get hget _))
  | close id =>
    cases h
    exact hfits.of_le (s.sessions.len_remove_le id)
  | sweep =>
    split_ifs at h
    cases h
    exact hfits.of_le (s.sessions.len_retain_le _)
  | elapse d =>
    cases h
    exact hfits

end PtyPool

/-- **The cap.**  If each count that lets a call through leaves room for the calls let through
before it, there are at most `MAX_SESSIONS` sessions. -/
theorem sessions_le_max {idle : Nat} {as : List PoolAct} {s : PtyPool}
    (h : Run (Guarded (Steps (PtyPool.step idle)) PtyPool.RoomLeft) .new as s) :
    s.sessions.len ≤ MAX_SESSIONS := by
  have hfits : s.Fits := by
    refine h.state_invariant (I := PtyPool.Fits) (Nat.zero_le _) ?_
    intro s a s' hfits hstep
    exact hfits.step hstep.2 hstep.1
  exact Nat.le_trans (Nat.le_add_right _ _) hfits

/-- A call of `new_session` from its first step to its last. -/
def oneOpen (i : Nat) : List PoolAct :=
  [.call, .turn i .ensureSweeper, .turn i .count, .turn i .fetchAdd, .turn i .spawned,
    .turn i .insert]

/-- Eight calls open a PTY each, one after the other, and a ninth finds no room. -/
def eightAndRefused : List PoolAct :=
  (List.range 8).flatMap oneOpen ++ [.call, .turn 8 .ensureSweeper, .turn 8 .count]

theorem sessions_le_max_eightAndRefused : ∃ s,
    Run (Guarded (Steps (PtyPool.step 600)) PtyPool.RoomLeft) .new eightAndRefused s ∧
    s.sessions.len = 8 ∧ s.pending = 0 ∧ s.sessions.len ≤ MAX_SESSIONS := by
  obtain ⟨s, hrun, hlen, hpending⟩ :=
    exists_run_of_execOk (PtyPool.step 600) (fun s a => decide (s.RoomLeft a)) .new
      eightAndRefused (fun s => s.sessions.len = 8 ∧ s.pending = 0) rfl
  have hrun' : Run (Guarded (Steps (PtyPool.step 600)) PtyPool.RoomLeft) .new eightAndRefused s :=
    hrun.mono fun s a s' hstep => ⟨hstep.1, of_decide_eq_true hstep.2⟩
  exact ⟨s, hrun', hlen, hpending, sessions_le_max hrun'⟩

/-- Nine calls count, and then all of them insert. -/
def nineAtOnce : List PoolAct :=
  (List.range 9).flatMap (fun i => (oneOpen i).take 3) ++
    (List.range 9).flatMap fun i => (oneOpen i).drop 3

/-- The ninth session. -/
theorem sessions_over_max : ∃ s,
    Run (Steps (PtyPool.step 600)) .new nineAtOnce s ∧ MAX_SESSIONS < s.sessions.len :=
  exists_run_of_exec (PtyPool.step 600) .new nineAtOnce (fun s => MAX_SESSIONS < s.sessions.len) rfl

end Zyris.Terminal
