import Zyris.Terminal.Poll

/-!
# A poll reports what happened

`push_capped` cuts again and again, which is the same as cutting all of the text once.  At the head
of the loop the variables are what the attempts so far make them (`PollState.Told`); the attempts
are the runs of the rounds gone through, one for each (`Attempted`).
-/

namespace Zyris.Terminal

variable {args : PollArgs} {deadline : Nat} {s : PollState}

/-! ### Capped accumulation -/

theorem takeTail_eq_drop (text : List Char) (max : Nat) :
    takeTail text max = text.drop (text.length - max) := by
  unfold takeTail
  split_ifs with h
  · rw [Nat.sub_eq_zero_of_le h, List.drop_zero]
  · rw [List.take_reverse, List.reverse_reverse]

theorem pushCapped_eq (accumulated fresh : List Char) (cap : Nat) :
    pushCapped accumulated fresh cap =
      (takeTail (accumulated ++ fresh) cap, decide (cap < (accumulated ++ fresh).length)) := by
  unfold pushCapped
  dsimp only
  split_ifs with h
  · rw [decide_eq_true h]
  · rw [decide_eq_false h, takeTail, if_pos (Nat.not_lt.mp h)]

theorem pushCapped_of_not_cut {accumulated fresh : List Char} {cap : Nat}
    (h : (pushCapped accumulated fresh cap).2 = false) :
    (pushCapped accumulated fresh cap).1 = accumulated ++ fresh := by
  rw [pushCapped_eq] at h ⊢
  exact if_pos (Nat.not_lt.mp (of_decide_eq_false h))

theorem takeTail_takeTail_append (text fresh : List Char) (cap : Nat) :
    takeTail (takeTail text cap ++ fresh) cap = takeTail (text ++ fresh) cap := by
  have hle : text.length - cap ≤ text.length := Nat.sub_le _ _
  simp only [takeTail_eq_drop]
  rw [← List.drop_append_of_le_length hle, List.drop_drop, List.length_drop, List.length_append]
  congr 1
  omega

/-- Texts pushed in order: what is kept, and whether any was reported cut. -/
def pushAllCapped (cap : Nat) (texts : List (List Char)) : List Char × Bool :=
  texts.foldl (fun (accumulated, dropped) fresh =>
    let (accumulated, cut) := pushCapped accumulated fresh cap
    (accumulated, dropped || cut)) ([], false)

/-- **Capped accumulation is cutting once.** -/
theorem capped_once (cap : Nat) (texts : List (List Char)) :
    (pushAllCapped cap texts).1 = takeTail texts.flatten cap ∧
      ((pushAllCapped cap texts).2 = true ↔ cap < texts.flatten.length) := by
  -- by what came before, from the last text back
  induction texts using List.reverseRecOn with
  | nil => exact ⟨rfl, by simp [pushAllCapped]⟩
  | append_singleton texts fresh ih =>
    obtain ⟨hkept, hdropped⟩ := ih
    have hlast : pushAllCapped cap (texts ++ [fresh]) =
        ((pushCapped (pushAllCapped cap texts).1 fresh cap).1,
          (pushAllCapped cap texts).2 || (pushCapped (pushAllCapped cap texts).1 fresh cap).2) := by
      unfold pushAllCapped
      rw [List.foldl_append]
      rfl
    have hlen : (takeTail texts.flatten cap).length = min cap texts.flatten.length := by
      rw [takeTail_eq_drop, List.length_drop]
      omega
    rw [hlast, List.flatten_append, List.flatten_singleton, hkept, pushCapped_eq]
    refine ⟨takeTail_takeTail_append _ fresh cap, ?_⟩
    rw [Bool.or_eq_true, hdropped, decide_eq_true_iff, List.length_append, hlen,
      List.length_append]
    omega

/-! ### The loop -/

/-- The headers of the attempts and their outputs, newline-terminated. -/
def transcript (attempts : List Attempt) : List Char :=
  (attempts.zipIdx 1).flatMap fun e => header e.2 e.1 ++ terminated e.1.full

theorem transcript_concat (attempts : List Attempt) (a : Attempt) :
    transcript (attempts ++ [a]) =
      transcript attempts ++ header (attempts ++ [a]).length a ++ terminated a.full := by
  simp [transcript, List.zipIdx_append, Nat.add_comm]

/-- The exit code of the last attempt that was not killed. -/
def lastExit (attempts : List Attempt) : Option Int :=
  ((attempts.filter fun a => !a.out.timedOut).getLast?).map fun a => a.out.exitCode

/-- Whether the last attempt was killed. -/
def lastTimedOut (attempts : List Attempt) : Bool :=
  (attempts.getLast?.map fun a => a.out.timedOut).getD false

/-- The variables of the loop are what the attempts so far make them. -/
structure PollState.Told (deadline : Nat) (s : PollState) : Prop where
  accumulated : s.dropped = false → s.accumulated = transcript s.attempts
  lastCompleted : s.lastCompleted = lastExit s.attempts
  timedOut : s.timedOut = lastTimedOut s.attempts
  started : ∀ a ∈ s.attempts, a.started < deadline

theorem met_record (a : Attempt) : (s.record args a).met = args.satisfied a := rfl

theorem PollState.Told.record (h : s.Told deadline) {a : Attempt} (ha : a.started < deadline) :
    (s.record args a).Told deadline where
  accumulated hkept := by
    simp only [PollState.record, Bool.or_eq_false_iff, decide_eq_false_iff_not] at hkept
    obtain ⟨⟨⟨hdropped, hcut⟩, hlong⟩, hcut'⟩ := hkept
    rw [if_neg hlong] at hcut'
    simp only [PollState.record, if_neg hlong]
    rw [pushCapped_of_not_cut hcut', pushCapped_of_not_cut hcut, h.accumulated hdropped,
      transcript_concat]
  lastCompleted := by
    simp only [PollState.record, lastExit, List.filter_append]
    cases htimed : a.out.timedOut with
    | true => simp [htimed, h.lastCompleted, lastExit]
    | false => simp [htimed]
  timedOut := by simp [PollState.record, lastTimedOut]
  started := by
    intro b hb
    rcases List.mem_append.mp hb with hb | hb
    · exact h.started b hb
    · rw [List.mem_singleton.mp hb]
      exact ha

/-- The condition is met exactly when the last attempt is the first to satisfy it. -/
def PollState.MetByLast (args : PollArgs) (s : PollState) : Prop :=
  s.met = true ↔ ∃ before last, s.attempts = before ++ [last] ∧ args.satisfied last = true ∧
    ∀ a ∈ before, args.satisfied a = false

theorem metByLast_of_unmet (hmet : s.met = false)
    (hnone : ∀ a ∈ s.attempts, args.satisfied a = false) : s.MetByLast args := by
  refine iff_of_false (by rw [hmet]; decide) ?_
  rintro ⟨before, last, heq, hlast, -⟩
  have := hnone last (by simp [heq])
  rw [this] at hlast
  cases hlast

/-- The attempt is what the command gave in the round. -/
def Round.Ran (r : Round) (a : Attempt) : Prop :=
  a.started = r.now ∧ a.elapsed = r.elapsed ∧ r.out = .ok a.out

/-- The attempts are the runs of the first rounds, one in each; there the condition was met, or the
time was up behind the last run or at the next round's head. -/
def Attempted (deadline : Nat) (rounds : List Round) (attempts : List Attempt) (met : Bool) :
    Prop :=
  ∃ done rest, rounds = done ++ rest ∧ List.Forall₂ Round.Ran done attempts ∧
    (met = true ∨ (∃ r ∈ done.getLast?, deadline ≤ r.behind) ∨ ∃ r ∈ rest.head?, deadline ≤ r.now)

/-- A round ends the loop without a run, or with one, or goes on to the next. -/
theorem pollLoop_cases {r : Round} {rounds : List Round} {s' : PollState}
    (h : pollLoop args deadline (r :: rounds) s = some (.ok s')) :
    (deadline ≤ r.now ∧ s' = s) ∨ ∃ a, r.Ran a ∧ a.started < deadline ∧
      ((args.satisfied a = true ∨ deadline ≤ r.behind) ∧ s' = s.record args a ∨
        args.satisfied a = false ∧ pollLoop args deadline rounds (s.record args a) =
          some (.ok s')) := by
  rw [pollLoop] at h
  by_cases hspent : deadline ≤ r.now
  · rw [if_pos hspent] at h
    cases h
    exact .inl ⟨hspent, rfl⟩
  rw [if_neg hspent] at h
  rcases hout : r.out with _ | out <;> rw [hout] at h
  · cases h
  refine .inr ⟨⟨r.now, r.elapsed, out⟩, ⟨rfl, rfl, hout⟩, Nat.not_le.mp hspent, ?_⟩
  cases hsat : args.satisfied ⟨r.now, r.elapsed, out⟩ with
  | true =>
    simp only [met_record, hsat, if_true] at h
    cases h
    exact .inl ⟨.inl rfl, rfl⟩
  | false =>
    simp only [met_record, hsat, Bool.false_eq_true, if_false] at h
    split_ifs at h with hbehind
    · cases h
      exact .inl ⟨.inr hbehind, rfl⟩
    · exact .inr ⟨rfl, h⟩

theorem of_pollLoop {rounds : List Round} {s' : PollState} (h : s.Told deadline)
    (hmet : s.met = false) (hnone : ∀ a ∈ s.attempts, args.satisfied a = false)
    (hloop : pollLoop args deadline rounds s = some (.ok s')) :
    s'.Told deadline ∧ s'.MetByLast args := by
  induction rounds generalizing s with
  | nil => cases hloop
  | cons r rounds ih =>
    obtain ⟨-, rfl⟩ | ⟨a, -, hstarted, hend⟩ := pollLoop_cases hloop
    · exact ⟨h, metByLast_of_unmet hmet hnone⟩
    have htold : (s.record args a).Told deadline := h.record hstarted
    cases hsat : args.satisfied a with
    | true =>
      obtain ⟨-, rfl⟩ | ⟨hnot, -⟩ := hend
      · exact ⟨htold, iff_of_true hsat ⟨s.attempts, a, rfl, hsat, hnone⟩⟩
      · rw [hsat] at hnot
        cases hnot
    | false =>
      have hall : ∀ b ∈ s.attempts ++ [a], args.satisfied b = false := by
        simpa [or_imp, forall_and] using ⟨hnone, hsat⟩
      obtain ⟨-, rfl⟩ | ⟨-, hloop⟩ := hend
      · exact ⟨htold, metByLast_of_unmet hsat hall⟩
      · exact ih htold hsat hall hloop

/-- The loop adds the runs of the rounds it goes through to the attempts it has. -/
theorem attempted_of_pollLoop {rounds : List Round} {s' : PollState}
    (h : pollLoop args deadline rounds s = some (.ok s')) :
    ∃ attempts, s'.attempts = s.attempts ++ attempts ∧
      Attempted deadline rounds attempts s'.met := by
  induction rounds generalizing s with
  | nil => cases h
  | cons r rounds ih =>
    obtain ⟨hspent, rfl⟩ | ⟨a, hran, -, ⟨hend, rfl⟩ | ⟨-, h⟩⟩ := pollLoop_cases h
    · exact ⟨[], (List.append_nil _).symm, [], r :: rounds, rfl, .nil, .inr (.inr ⟨r, rfl, hspent⟩)⟩
    · refine ⟨[a], rfl, [r], rounds, rfl, .cons hran .nil, ?_⟩
      exact hend.imp id fun hbehind => .inl ⟨r, rfl, hbehind⟩
    · obtain ⟨attempts, hattempts, done, rest, rfl, hruns, hend⟩ := ih h
      refine ⟨a :: attempts, by rw [hattempts]; exact (List.append_cons _ _ _).symm, r :: done,
        rest, rfl, .cons hran hruns, hend.imp id (Or.imp ?_ id)⟩
      rintro ⟨last, hlast, hbehind⟩
      exact ⟨last, by rw [List.getLast?_cons, Option.mem_def.mp hlast]; rfl, hbehind⟩

/-- **A poll reports what happened.**  The attempts are the runs of the first rounds, as many as it
reports, up to where the condition is met or the time is up.  `met` tells that the last one is the
first to satisfy the condition; the exit code is that of the last that was not killed, and
`timed_out` that of the last; all of them start before the deadline; and when nothing was truncated
the output is their transcript. -/
theorem poll_reports (command : Option (List Char)) (argv : Option (List String))
    (timeoutSecs : Option Nat) (successExitCode : Option Int) (contains : Option (List Char))
    (maxOutputChars : Option Nat) (start : Nat) (rounds : List Round) (elapsed : Nat)
    (result : PollResult) (attempts : List Attempt)
    (h : poll command argv (.new timeoutSecs successExitCode contains maxOutputChars) start rounds
      elapsed = some (.ok (result, attempts))) :
    Attempted (start + (PollArgs.new timeoutSecs successExitCode contains maxOutputChars).budget)
      rounds attempts result.met ∧
    result.attempts = attempts.length ∧
    (result.met = true ↔ ∃ before last, attempts = before ++ [last] ∧
      (PollArgs.new timeoutSecs successExitCode contains maxOutputChars).satisfied last = true ∧
      ∀ a ∈ before, (PollArgs.new timeoutSecs successExitCode contains
        maxOutputChars).satisfied a = false) ∧
    result.exitCode = (lastExit attempts).getD (-1) ∧
    result.timedOut = lastTimedOut attempts ∧
    (∀ a ∈ attempts, a.started < start +
      (PollArgs.new timeoutSecs successExitCode contains maxOutputChars).budget) ∧
    (result.outputTruncated = false → result.output = transcript attempts) := by
  generalize PollArgs.new timeoutSecs successExitCode contains maxOutputChars = args at h ⊢
  unfold poll at h
  split_ifs at h
  · cases h
  rcases hvalid : validateLaunch command argv with _ | _ <;> rw [hvalid] at h
  · cases h
  obtain ⟨ended, hloop, hended⟩ := Option.map_eq_some_iff.mp h
  rcases ended with _ | s
  · cases hended
  obtain ⟨htold, hmet⟩ := of_pollLoop
    ⟨fun _ => rfl, rfl, rfl, List.forall_mem_nil _⟩ rfl (List.forall_mem_nil _) hloop
  obtain ⟨attempts, hattempts, hran⟩ := attempted_of_pollLoop hloop
  obtain rfl : s.attempts = attempts := hattempts
  cases hended
  refine ⟨hran, rfl, hmet, congrArg (·.getD (-1)) htold.lastCompleted, htold.timedOut,
    htold.started, fun hkept => ?_⟩
  simp only [Bool.or_eq_false_iff, decide_eq_false_iff_not, Nat.not_lt] at hkept
  show tailChars s.accumulated args.maxChars = _
  rw [tailChars, if_pos hkept.2, htold.accumulated hkept.1]

/-- A check that fails once and then succeeds. -/
def failsOnce : List Round :=
  [⟨0, .ok ⟨1, false, ['n', 'o'], []⟩, 0, 1⟩,
    ⟨5000000000, .ok ⟨0, false, [], []⟩, 5000000000, 5000000000⟩]

theorem poll_reports_failsOnce :
    ∃ result attempts,
      poll (some ['x']) none (.new none none none none) 0 failsOnce 5000000000 =
        some (.ok (result, attempts)) ∧
      Attempted 300000000000 failsOnce attempts result.met ∧ result.attempts = 2 ∧
      result.met = true ∧ result.exitCode = 0 ∧ result.output = transcript attempts := by
  have h : poll (some ['x']) none (.new none none none none) 0 failsOnce 5000000000 =
      some (.ok (_, _)) := rfl
  obtain ⟨hran, hcount, -, hexit, -, -, houtput⟩ :=
    poll_reports (some ['x']) none none none none none 0 failsOnce 5000000000 _ _ h
  exact ⟨_, _, h, hran, hcount, rfl, hexit, houtput (by decide +kernel)⟩

end Zyris.Terminal
