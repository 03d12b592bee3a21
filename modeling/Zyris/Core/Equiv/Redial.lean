import Zyris.Core.Redial
import Mathlib.Tactic.SplitIfs

/-!
# The reconnect loop over whole runs

A link that was refused for good or is about to return does not dial (`Connecting.Over`).  One that
was asked to stop has a bounded number of dials and steps left (`Stopping`).  What is waited before
a dial is read off the labels (`Waited`, `waits`).
-/

namespace Zyris.Core

/-! ### What the task can do -/

/-- The labels that are steps of `maintain`. -/
def LinkAct.isTask : LinkAct → Bool
  | .timer | .stopped | .check | .dialed _ | .closed _ | .graced | .send => true
  | .waitClosed | .disconnect | .call _ | .dropCall _ | .dropLink => false

/-- The steps of `maintain`, one constructor for each way from one place to another. -/
inductive Link.Moves (l : Link) : LinkAct → Link → Prop
  | timer (h : l.maintain = .waiting) : Moves l .timer { l.widen with maintain := .top false }
  | stoppedWaiting (h : l.maintain = .waiting) :
    Moves l .stopped { l.widen with maintain := .sending .asked, stopChanged := false }
  | stoppedUp (h : l.maintain = .up) :
    Moves l .stopped { l with maintain := .closing, stopChanged := false }
  | checkStopped {held : Bool} (h : l.maintain = .top held) (hstop : l.stop = true) :
    Moves l .check { l with maintain := .sending .asked }
  | checkHeld (h : l.maintain = .top true) (hstop : l.stop = false) :
    Moves l .check { l with maintain := .up }
  | checkDial (h : l.maintain = .top false) (hstop : l.stop = false) :
    Moves l .check { l with maintain := .dialing }
  | dialedUp (h : l.maintain = .dialing) : Moves l (.dialed none) { l with maintain := .up }
  | dialedFatal {error : ConnectError} (h : l.maintain = .dialing)
      (hfatal : isFatal error = true) :
    Moves l (.dialed (some error)) { l with maintain := .sending (.of error) }
  | dialedFailed {error : ConnectError} (h : l.maintain = .dialing)
      (hfatal : isFatal error = false) :
    Moves l (.dialed (some error)) { l with maintain := .waiting }
  | closed {lifetime : Nat} (h : l.maintain = .up) :
    Moves l (.closed lifetime) { l with
      maintain := .waiting
      backoff := if STABLE_AFTER ≤ lifetime then BACKOFF_MIN else l.backoff }
  | graced (h : l.maintain = .closing) : Moves l .graced { l with maintain := .sending .asked }
  | send {e : Ending} (h : l.maintain = .sending e) :
    Moves l .send { l.sendDone e with maintain := .returned e }

variable {l l' : Link}

theorem Link.Moves.of_sending {a : LinkAct} {e : Ending} (he : l.maintain = .sending e)
    (h : l.Moves a l') : l'.maintain = .returned e := by
  cases h with
  | send h =>
    cases h.symm.trans he
    rfl
  | timer h | stoppedWaiting h | stoppedUp h | checkStopped h | checkHeld h | checkDial h
    | dialedUp h | dialedFatal h | dialedFailed h | closed h | graced h => cases h.symm.trans he

theorem Link.Moves.ne_returned {a : LinkAct} (h : l.Moves a l') (e : Ending) :
    l.maintain ≠ .returned e := by
  intro he
  cases h with
  | timer h | stoppedWaiting h | stoppedUp h | checkStopped h | checkHeld h | checkDial h
    | dialedUp h | dialedFatal h | dialedFailed h | closed h | graced h | send h =>
    cases h.symm.trans he

/-- What the other steps leave: the task where it is, and a stop that was asked for. -/
structure Link.Leaves (l l' : Link) : Prop where
  maintain : l'.maintain = l.maintain
  backoff : l'.backoff = l.backoff
  stop : l.stop = true → l'.stop = true
  changed : l.stopChanged = true → l'.stopChanged = true

theorem Link.moves_of_step {a : LinkAct} (h : l.step a = some l') (ha : a.isTask = true) :
    l.Moves a l' := by
  cases a with
  | timer =>
    simp only [Link.step] at h
    split at h <;> cases h
    exact .timer ‹_›
  | stopped =>
    simp only [Link.step] at h
    split_ifs at h with hchanged
    split at h <;> cases h
    · exact .stoppedWaiting ‹_›
    · exact .stoppedUp ‹_›
  | check =>
    simp only [Link.step] at h
    split at h
    next held hm =>
      split_ifs at h with hstop hheld
      · cases h
        exact .checkStopped hm hstop
      · cases h
        subst hheld
        exact .checkHeld hm (Bool.eq_false_iff.mpr hstop)
      · cases h
        obtain rfl : held = false := Bool.eq_false_iff.mpr hheld
        exact .checkDial hm (Bool.eq_false_iff.mpr hstop)
    · cases h
  | dialed error =>
    simp only [Link.step] at h
    split at h
    · cases h
      exact .dialedUp ‹_›
    · split_ifs at h with hfatal
      · cases h
        exact .dialedFatal ‹_› hfatal
      · cases h
        exact .dialedFailed ‹_› (Bool.eq_false_iff.mpr hfatal)
    · cases h
  | closed lifetime =>
    simp only [Link.step] at h
    split at h <;> cases h
    exact .closed ‹_›
  | graced =>
    simp only [Link.step] at h
    split at h <;> cases h
    exact .graced ‹_›
  | send =>
    simp only [Link.step] at h
    split at h <;> cases h
    exact .send ‹_›
  | waitClosed | disconnect | call _ | dropCall _ | dropLink => cases ha

theorem Link.leaves_of_step {a : LinkAct} (h : l.step a = some l') (ha : a.isTask = false) :
    l.Leaves l' := by
  cases a with
  | waitClosed =>
    cases h
    exact ⟨rfl, rfl, fun h => h, fun h => h⟩
  | disconnect =>
    cases h
    unfold Link.sendStop
    split
    · exact ⟨rfl, rfl, fun h => h, fun h => h⟩
    · exact ⟨rfl, rfl, fun _ => rfl, fun _ => rfl⟩
  | call i =>
    simp only [Link.step, Option.bind_eq_bind, Option.bind_eq_some_iff] at h
    obtain ⟨c, -, c', -, h⟩ := h
    cases h
    exact ⟨rfl, rfl, fun h => h, fun h => h⟩
  | dropCall i =>
    simp only [Link.step, Option.bind_eq_bind, Option.bind_eq_some_iff] at h
    obtain ⟨c, -, h⟩ := h
    split at h <;> cases h
    exact ⟨rfl, rfl, fun h => h, fun h => h⟩
  | dropLink =>
    cases h
    exact ⟨rfl, rfl, fun h => h, fun _ => rfl⟩
  | timer | stopped | check | dialed _ | closed _ | graced | send => cases ha

theorem Link.stopping_of_disconnect (h : l.step .disconnect = some l') :
    l'.stop = true ∧ l'.stopChanged = true ∨ ∃ e, l'.maintain = .returned e := by
  cases h
  unfold Link.sendStop
  split
  next e he => exact .inr ⟨e, he⟩
  · exact .inl ⟨rfl, rfl⟩

def LinkAct.isDialed : LinkAct → Bool
  | .dialed _ => true
  | _ => false

/-- Everything a step of the loop can do. -/
inductive Connecting.Goes : Connecting → ConnectAct → Connecting → Prop
  | eager (error : Option ConnectError) : Goes .eager (.eager error) (settle error)
  | dial {l : Link} (h : l.maintain = .dialing) : Goes (.linked l false) .dial (.linked l true)
  | moves {l l' : Link} {calling : Bool} {a : LinkAct} (h : l.Moves a l')
      (ha : a.isDialed = true → calling = true) :
    Goes (.linked l calling) (.link a) (.linked l' (calling && !a.isDialed))
  | leaves {l l' : Link} {calling : Bool} {a : LinkAct} (h : l.Leaves l')
      (ha : a.isTask = false) : Goes (.linked l calling) (.link a) (.linked l' calling)

theorem Connecting.goes_of_linkStep {calling : Bool} {a : LinkAct} {c' : Connecting}
    (h : linkStep l calling a = some c') : Goes (.linked l calling) (.link a) c' := by
  cases hdialed : a.isDialed with
  | true =>
    cases a with
    | dialed error =>
      simp only [linkStep] at h
      split_ifs at h with hcalling
      obtain ⟨l', hl', rfl⟩ := Option.map_eq_some_iff.mp h
      have hgoes := Goes.moves (Link.moves_of_step hl' rfl) fun _ => hcalling
      rwa [hdialed, Bool.not_true, Bool.and_false] at hgoes
    | _ => cases hdialed
  | false =>
    have hmap : linkStep l calling a = (l.step a).map fun l' => .linked l' calling := by
      cases a with
      | dialed error => cases hdialed
      | _ => rfl
    obtain ⟨l', hl', rfl⟩ := Option.map_eq_some_iff.mp (hmap.symm.trans h)
    rcases htask : a.isTask with _ | _
    · exact .leaves (Link.leaves_of_step hl' htask) htask
    have hcalling : a.isDialed = true → calling = true :=
      fun hd => absurd (hdialed.symm.trans hd) Bool.false_ne_true
    have hgoes := Goes.moves (Link.moves_of_step hl' htask) hcalling
    rwa [hdialed, Bool.not_false, Bool.and_true] at hgoes

theorem Connecting.goes_of_step {c c' : Connecting} {a : ConnectAct} (h : c.step a = some c') :
    Goes c a c' := by
  unfold step at h
  split at h
  · cases h
    exact .eager _
  · split_ifs at h with hdialing
    cases h
    exact .dial hdialing
  · exact goes_of_linkStep h
  · cases h

theorem Connecting.settle_cases (error : Option ConnectError) :
    (∃ e, settle error = .refused e) ∨ ∃ first, settle error = .linked (.start first) false := by
  rcases error with _ | error
  · exact .inr ⟨true, rfl⟩
  rw [settle]
  split_ifs
  · exact .inl ⟨error, rfl⟩
  · exact .inr ⟨false, rfl⟩

/-- A refusal no retry can fix. -/
def ConnectAct.refuses : ConnectAct → Bool
  | .eager (some error) => isFatal error
  | .link (.dialed (some error)) => isFatal error
  | _ => false

def ConnectAct.isTask : ConnectAct → Bool
  | .eager _ => false
  | .dial => true
  | .link a => a.isTask

/-- A step of the task that is no reaction to a closed connection and not the end of a wait. -/
def ConnectAct.isPrompt : ConnectAct → Bool
  | .dial => true
  | .link .stopped | .link .check | .link (.dialed _) | .link .graced | .link .send => true
  | _ => false

/-- The task is in its loop, with no ending in sight. -/
def Maintain.looping : Maintain → Bool
  | .waiting | .top _ | .dialing | .up => true
  | .closing | .sending _ | .returned _ => false

namespace Connecting

variable {c c' : Connecting} {a : ConnectAct} {as : List ConnectAct}

/-! ### After a refusal -/

/-- There is no link, or its task is about to return or has. -/
def Over : Connecting → Prop
  | .eager => False
  | .refused _ => True
  | .linked l _ => ∃ e, l.maintain = .sending e ∨ l.maintain = .returned e

theorem over_of_refuses (ha : a.refuses = true) (h : Goes c a c') : c'.Over := by
  cases h with
  | eager error =>
    cases error with
    | none => cases ha
    | some error =>
      have hfatal : isFatal error = true := ha
      rw [settle, if_pos hfatal]
      trivial
  | dial => cases ha
  | moves h =>
    cases h with
    | dialedFatal => exact ⟨_, .inl rfl⟩
    | dialedFailed _ hfatal => exact absurd (hfatal.symm.trans ha) Bool.false_ne_true
    | _ => cases ha
  | @leaves l l' calling a h htask => cases a <;> first | cases ha | cases htask

theorem Over.step (hc : c.Over) (h : Goes c a c') : c'.Over ∧ a ≠ .dial := by
  cases h with
  | eager => exact hc.elim
  | dial h =>
    obtain ⟨e, he | he⟩ := hc <;> cases h.symm.trans he
  | moves h =>
    refine ⟨?_, nofun⟩
    obtain ⟨e, he | he⟩ := hc
    · exact ⟨e, .inr (h.of_sending he)⟩
    · exact absurd he (h.ne_returned e)
  | leaves h =>
    obtain ⟨e, he⟩ := hc
    exact ⟨⟨e, h.maintain ▸ he⟩, nofun⟩

theorem Over.run (hc : c.Over) (h : Run (Steps Connecting.step) c as c') : .dial ∉ as := by
  have hinv : c'.Over ∧ .dial ∉ as := by
    refine h.invariant (I := fun as c => c.Over ∧ .dial ∉ as) ⟨hc, List.not_mem_nil⟩ ?_
    intro as c a c' _ hi hstep
    obtain ⟨hover, ha⟩ := hi.1.step (goes_of_step hstep)
    refine ⟨hover, fun hmem => ?_⟩
    rcases List.mem_append.mp hmem with hmem | hmem
    · exact hi.2 hmem
    · exact ha (List.mem_singleton.mp hmem).symm
  exact hinv.2

/-! ### After a stop -/

/-- The dials a task that was asked to stop may still start: it has looked at `stop` before. -/
def dialsLeft : Connecting → Nat
  | .linked l false => if l.maintain = .dialing then 1 else 0
  | _ => 0

def stepsLeft : Connecting → Nat
  | .linked l calling =>
    match l.maintain with
    | .dialing => if calling then 5 else 6
    | .up => 4
    | .waiting => 3
    | .top _ | .closing => 2
    | .sending _ => 1
    | .returned _ => 0
  | _ => 0

def Returned : Connecting → Prop
  | .linked l _ => ∃ e, l.maintain = .returned e
  | _ => False

/-- The task was asked to stop, and the select it is in or comes to next sees that. -/
inductive Stopping : Connecting → Prop
  | asked {l : Link} {calling : Bool} (hstop : l.stop = true)
      (hchanged : l.maintain.looping = true → l.stopChanged = true) : Stopping (.linked l calling)
  | returned {l : Link} {calling : Bool} {e : Ending} (h : l.maintain = .returned e) :
    Stopping (.linked l calling)

theorem stopping_of_disconnect (h : c.step (.link .disconnect) = some c') : c'.Stopping := by
  cases c with
  | eager => cases h
  | refused error => cases h
  | linked l calling =>
    have hmap : (l.step .disconnect).map (fun l' => .linked l' calling) = some c' := by
      cases calling <;> exact h
    obtain ⟨l', hl', rfl⟩ := Option.map_eq_some_iff.mp hmap
    rcases Link.stopping_of_disconnect hl' with ⟨hstop, hchanged⟩ | ⟨e, he⟩
    · exact .asked hstop fun _ => hchanged
    · exact .returned he

theorem Stopping.step (hc : c.Stopping) (h : Goes c a c') : c'.Stopping := by
  cases hc with
  | asked hstop hchanged =>
    cases h with
    | dial => exact .asked hstop hchanged
    | leaves h => exact .asked (h.stop hstop) fun hl => h.changed (hchanged (h.maintain ▸ hl))
    | moves h =>
      cases h with
      | timer h => exact .asked hstop fun _ => hchanged (by rw [h]; rfl)
      | stoppedWaiting | stoppedUp | checkStopped | dialedFatal | graced =>
        exact .asked hstop nofun
      | checkHeld _ hstop' | checkDial _ hstop' =>
        exact absurd (hstop'.symm.trans hstop) Bool.false_ne_true
      | dialedUp h | dialedFailed h | closed h =>
        exact .asked hstop fun _ => hchanged (by rw [h]; rfl)
      | send => exact .returned rfl
  | returned he =>
    cases h with
    | dial => exact .returned he
    | leaves h => exact .returned (h.maintain.trans he)
    | moves h => exact absurd he (h.ne_returned _)

theorem Stopping.spends (hc : c.Stopping) (h : Goes c a c') :
    c'.dialsLeft + [a].count .dial ≤ c.dialsLeft ∧
      c'.stepsLeft + [a].countP ConnectAct.isTask ≤ c.stepsLeft := by
  cases h with
  | eager => cases hc
  | dial h => simp [dialsLeft, stepsLeft, h, ConnectAct.isTask]
  | @leaves l l' calling a h ha =>
    cases calling <;> simp [dialsLeft, stepsLeft, h.maintain, ConnectAct.isTask, ha]
  | @moves l l' calling a h ha =>
    cases hc with
    | returned he => exact absurd he (h.ne_returned _)
    | asked hstop =>
      cases h with
      | checkHeld _ hstop' | checkDial _ hstop' =>
        exact absurd (hstop'.symm.trans hstop) Bool.false_ne_true
      | dialedUp h | dialedFatal h | dialedFailed h =>
        obtain rfl := ha rfl
        simp [dialsLeft, stepsLeft, h, ConnectAct.isTask, LinkAct.isTask, LinkAct.isDialed]
      | timer h | stoppedWaiting h | stoppedUp h | checkStopped h | closed h | graced h | send h =>
        cases calling <;>
          simp [dialsLeft, stepsLeft, h, ConnectAct.isTask, LinkAct.isTask, LinkAct.isDialed]

theorem Stopping.run (hc : c.Stopping) (h : Run (Steps Connecting.step) c as c') :
    c'.Stopping ∧ c'.dialsLeft + as.count .dial ≤ c.dialsLeft ∧
      c'.stepsLeft + as.countP ConnectAct.isTask ≤ c.stepsLeft := by
  refine h.invariant (I := fun as c' => c'.Stopping ∧
    c'.dialsLeft + as.count .dial ≤ c.dialsLeft ∧
    c'.stepsLeft + as.countP ConnectAct.isTask ≤ c.stepsLeft) ⟨hc, Nat.le_refl _, Nat.le_refl _⟩ ?_
  intro as c₁ a c₂ _ hi hstep
  obtain ⟨hstopping, hdials, hsteps⟩ := hi
  have hgoes := goes_of_step hstep
  obtain ⟨hdial, htask⟩ := hstopping.spends hgoes
  refine ⟨hstopping.step hgoes, ?_, ?_⟩
  · rw [List.count_append]
    omega
  · rw [List.countP_append]
    omega

theorem dialsLeft_le (c : Connecting) : c.dialsLeft ≤ 1 := by
  unfold dialsLeft
  split
  · split_ifs <;> omega
  · exact Nat.zero_le _

theorem stepsLeft_le (c : Connecting) : c.stepsLeft ≤ 6 := by
  unfold stepsLeft
  split
  · split
    · split_ifs <;> omega
    all_goals omega
  · exact Nat.zero_le _

/-- It waits neither for the server nor for the timer: until it has returned, a step is possible
that needs at most a dial to settle or the grace to pass. -/
theorem Stopping.returned_or_prompt (hc : c.Stopping) :
    c.Returned ∨ ∃ a : ConnectAct, a.isPrompt = true ∧ (c.step a).isSome = true := by
  cases hc with
  | returned he => exact .inl ⟨_, he⟩
  | @asked l calling hstop hchanged =>
    cases hm : l.maintain with
    | returned e => exact .inl ⟨e, hm⟩
    | dialing =>
      right
      cases calling with
      | false => exact ⟨.dial, rfl, by simp [Connecting.step, hm]⟩
      | true =>
        exact ⟨.link (.dialed none), rfl, by simp [Connecting.step, linkStep, Link.step, hm]⟩
    | waiting | up =>
      have hch := hchanged (by rw [hm]; rfl)
      exact .inr ⟨.link .stopped, rfl, by
        cases calling <;> simp [Connecting.step, linkStep, Link.step, hm, hch]⟩
    | top held =>
      exact .inr ⟨.link .check, rfl, by
        cases calling <;> simp [Connecting.step, linkStep, Link.step, hm, hstop]⟩
    | closing =>
      exact .inr ⟨.link .graced, rfl, by
        cases calling <;> simp [Connecting.step, linkStep, Link.step, hm]⟩
    | sending e =>
      exact .inr ⟨.link .send, rfl, by
        cases calling <;> simp [Connecting.step, linkStep, Link.step, hm]⟩

/-! ### The one send -/

/-- The sends that are still to come. -/
def sendsLeft : Connecting → Nat
  | .linked l _ => match l.maintain with
    | .returned _ => 0
    | _ => 1
  | _ => 1

theorem sendsLeft_step (h : Goes c a c') :
    c'.sendsLeft + [a].count (.link .send) ≤ c.sendsLeft := by
  cases h with
  | eager error =>
    rcases settle_cases error with ⟨e, heq⟩ | ⟨first, heq⟩
    · simp [heq, sendsLeft]
    · cases first <;> simp [heq, sendsLeft, Link.start]
  | dial h => simp [sendsLeft]
  | @leaves l l' calling a h ha =>
    have hne : a ≠ .send := by
      rintro rfl
      cases ha
    simp [sendsLeft, h.maintain, hne]
  | @moves l l' calling a h ha =>
    cases h with
    | send h => simp [sendsLeft, h]
    | timer h | stoppedWaiting h | stoppedUp h | checkStopped h | checkHeld h | checkDial h
      | dialedUp h | dialedFatal h | dialedFailed h | closed h | graced h => simp [sendsLeft, h]

theorem count_send_le (h : Run (Steps Connecting.step) .eager as c) :
    as.count (.link .send) ≤ 1 := by
  have hinv : c.sendsLeft + as.count (.link .send) ≤ 1 := by
    refine h.invariant (I := fun as c => c.sendsLeft + as.count (.link .send) ≤ 1)
      (Nat.le_refl 1) ?_
    intro as c a c' _ hi hstep
    have hsend := sendsLeft_step (goes_of_step hstep)
    rw [List.count_append]
    omega
  omega

/-! ### The wait before a dial -/

/-- A wait has passed since the last dial. -/
def Waited (as : List ConnectAct) : Prop :=
  ∃ bs cs, as = bs ++ .link .timer :: cs ∧ .dial ∉ cs

theorem Waited.snoc (h : Waited as) (ha : a ≠ .dial) : Waited (as ++ [a]) := by
  obtain ⟨bs, cs, rfl, hcs⟩ := h
  refine ⟨bs, cs ++ [a], by simp, fun hmem => ?_⟩
  rcases List.mem_append.mp hmem with hmem | hmem
  · exact hcs hmem
  · exact ha (List.mem_singleton.mp hmem).symm

def Dials : Connecting → Prop
  | .linked l calling => l.maintain = .top false ∨ l.maintain = .dialing ∧ calling = false
  | _ => False

theorem waited_step (h : Goes c a c') (hc : c.Dials → Waited as) (hc' : c'.Dials) :
    Waited (as ++ [a]) := by
  cases h with
  | eager error =>
    rcases settle_cases error with ⟨e, heq⟩ | ⟨first, heq⟩
    · rw [heq] at hc'
      exact hc'.elim
    · rw [heq] at hc'
      cases first <;> rcases hc' with h | ⟨h, -⟩ <;> cases h
  | dial h =>
    rcases hc' with h' | ⟨-, h'⟩
    · cases h.symm.trans h'
    · cases h'
  | leaves h =>
    refine (hc ?_).snoc (by simp)
    rcases hc' with h' | ⟨h', hcalling⟩
    · exact .inl (h.maintain.symm.trans h')
    · exact .inr ⟨h.maintain.symm.trans h', hcalling⟩
  | moves h =>
    cases h with
    | timer => exact ⟨as, [], rfl, List.not_mem_nil⟩
    | checkDial h => exact (hc (.inl h)).snoc (by simp)
    | _ => rcases hc' with h | ⟨h, -⟩ <;> cases h

theorem waited_of_run (h : Run (Steps Connecting.step) .eager as c) (hc : c.Dials) : Waited as :=
  h.invariant (I := fun as c => c.Dials → Waited as) (fun hc => hc.elim)
    (fun _ _ _ _ _ hi hstep hc' => waited_step (goes_of_step hstep) hi hc') hc

/-! ### How long a wait is -/

/-- The waits since the start, or since the last connection up for `STABLE_AFTER`, once more
happened. -/
def nextWaits (k : Nat) : ConnectAct → Nat
  | .link .timer => k + 1
  | .link (.closed lifetime) => if STABLE_AFTER ≤ lifetime then 0 else k
  | _ => k

def waits (as : List ConnectAct) : Nat := as.foldl nextWaits 0

theorem waits_snoc (as : List ConnectAct) (a : ConnectAct) :
    waits (as ++ [a]) = nextWaits (waits as) a := by
  rw [waits, List.foldl_append]
  rfl

/-- While the task is in its loop, `backoff` is the length of the next wait. -/
def Paced (as : List ConnectAct) : Connecting → Prop
  | .eager => waits as = 0
  | .refused _ => True
  | .linked l _ => l.maintain.looping = true → l.backoff = min 30 (2 ^ waits as)

theorem Paced.step (hc : Paced as c) (h : Goes c a c') : Paced (as ++ [a]) c' := by
  cases h with
  | eager error =>
    have hwaits : waits as = 0 := hc
    rcases settle_cases error with ⟨e, heq⟩ | ⟨first, heq⟩
    · rw [heq]
      trivial
    · rw [heq]
      intro _
      have hnext : nextWaits (waits as) (.eager error) = 0 := hwaits
      rw [waits_snoc, hnext]
      rfl
  | dial h =>
    intro hl
    rw [waits_snoc]
    exact hc hl
  | @leaves l l' calling a h ha =>
    intro hl
    have hwaits : nextWaits (waits as) (.link a) = waits as := by
      cases a <;> first | rfl | cases ha
    rw [waits_snoc, hwaits, h.backoff]
    exact hc (h.maintain ▸ hl)
  | moves h =>
    intro hl
    rw [waits_snoc]
    cases h with
    | timer h =>
      have hb : _ = min 30 (2 ^ waits as) := hc (by rw [h]; rfl)
      show min (_ * 2) 30 = min 30 (2 ^ (waits as + 1))
      omega
    | closed h =>
      have hb : _ = min 30 (2 ^ waits as) := hc (by rw [h]; rfl)
      show (if _ then BACKOFF_MIN else _) = min 30 (2 ^ (if _ then 0 else waits as))
      split_ifs
      · rfl
      · exact hb
    | checkHeld h | checkDial h | dialedUp h | dialedFailed h => exact hc (by rw [h]; rfl)
    | _ => cases hl

theorem paced_of_run (h : Run (Steps Connecting.step) .eager as c) : Paced as c := by
  have hstart : Paced [] .eager := rfl
  exact h.invariant (I := Paced) hstart fun _ _ _ _ _ hi hstep => hi.step (goes_of_step hstep)

end Connecting

open Connecting in
/-- **The reconnect loop.**  In every run of `Link::start` and the link: no dial follows a refusal
that no retry can fix; after `disconnect` at most one dial is started, the task takes at most six
more steps, and until it has returned one is possible that waits neither for the server nor for a
backoff; an ending is sent at most once; each dial of the task comes after a wait that ended since
the dial before; and a wait is `min 30 (2 ^ k)` seconds long, before jitter. -/
theorem reconnect_loop {as : List ConnectAct} {c : Connecting}
    (h : Run (Steps Connecting.step) .eager as c) :
    (∀ bs a cs, as = bs ++ a :: cs → a.refuses = true → .dial ∉ cs) ∧
    (∀ bs cs, as = bs ++ .link .disconnect :: cs →
      cs.count .dial ≤ 1 ∧ cs.countP ConnectAct.isTask ≤ 6 ∧
      (c.Returned ∨ ∃ a : ConnectAct, a.isPrompt = true ∧ (c.step a).isSome = true)) ∧
    as.count (.link .send) ≤ 1 ∧
    (∀ bs cs, as = bs ++ .dial :: cs → Waited bs) ∧
    (∀ l calling, c = .linked l calling → l.maintain = .waiting →
      l.backoff = min 30 (2 ^ waits as)) := by
  refine ⟨?_, ?_, count_send_le h, ?_, ?_⟩
  · rintro bs a cs rfl ha
    obtain ⟨t, -, hrest⟩ := h.exists_of_append
    obtain ⟨u, hstep, hcs⟩ := hrest.exists_of_cons
    exact (over_of_refuses ha (goes_of_step hstep)).run hcs
  · rintro bs cs rfl
    obtain ⟨t, -, hrest⟩ := h.exists_of_append
    obtain ⟨u, hstep, hcs⟩ := hrest.exists_of_cons
    obtain ⟨hstopping, hdials, hsteps⟩ := (stopping_of_disconnect hstep).run hcs
    have hdials' := u.dialsLeft_le
    have hsteps' := u.stepsLeft_le
    exact ⟨by omega, by omega, hstopping.returned_or_prompt⟩
  · rintro bs cs rfl
    obtain ⟨t, hbs, hrest⟩ := h.exists_of_append
    obtain ⟨u, hstep, -⟩ := hrest.exists_of_cons
    refine waited_of_run hbs ?_
    cases goes_of_step hstep with
    | dial hdialing => exact .inr ⟨hdialing, rfl⟩
  · rintro l calling rfl hwaiting
    exact paced_of_run h (by rw [hwaiting]; rfl)

/-- The eager dial fails, the next connection lives long, and the one after is made during a
disconnect. -/
def redialed : List ConnectAct :=
  [.eager (some (.unreachable .closed)), .link .timer, .link .check, .dial, .link (.dialed none),
    .link (.closed 60), .link .timer, .link .check, .link .disconnect, .dial,
    .link (.dialed none), .link .stopped, .link .graced, .link .send]

theorem reconnect_loop_redialed : ∃ c, Run (Steps Connecting.step) .eager redialed c ∧
    redialed.count .dial = 2 ∧ redialed.count (.link .send) = 1 ∧ Connecting.waits redialed = 1 ∧
    redialed.count (.link .send) ≤ 1 := by
  obtain ⟨c, hrun⟩ : ∃ c, Run (Steps Connecting.step) .eager redialed c := ⟨_, run_of_exec rfl⟩
  exact ⟨c, hrun, rfl, rfl, rfl, (reconnect_loop hrun).2.2.1⟩

end Zyris.Core
