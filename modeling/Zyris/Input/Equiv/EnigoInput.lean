import Zyris.Input.EnigoInput

/-!
# No modifier is left held

Each part of `key` adds its calls to those so far, and the result is the first failure among them
(`outcome`).  What is held are the keys of the presses that succeeded.
-/

namespace Zyris.Input

open Proto

def KeyCall.succeeded (c : KeyCall) : Bool := c.failure.isNone

def KeyCall.asked (c : KeyCall) : Key × Direction := (c.key, c.direction)

/-- The keys whose presses succeeded, in the order of the presses. -/
def heldBy (presses : List KeyCall) : List Key :=
  (presses.filter KeyCall.succeeded).map KeyCall.key

/-- The presses of the modifiers: one after the other, up to the first that fails. -/
inductive Presses : List Key → List KeyCall → Prop
  | nil : Presses [] []
  | failed (m : Key) (ms : List Key) (err : String) :
    Presses (m :: ms) [⟨m, .press, some err⟩]
  | pressed (m : Key) (ms : List Key) (presses : List KeyCall) : Presses ms presses →
    Presses (m :: ms) (⟨m, .press, none⟩ :: presses)

/-! ### The first failure -/

/-- What the calls come to: the first failure, if there is one. -/
def outcome (calls : List KeyCall) : Except WireError Unit :=
  match calls.findSome? KeyCall.failure with
  | none => .ok ()
  | some err => .error (inputErr err)

theorem isOk_outcome (calls : List KeyCall) :
    (outcome calls).isOk = calls.all KeyCall.succeeded := by
  unfold outcome
  induction calls with
  | nil => rfl
  | cons c calls ih =>
    rw [List.findSome?_cons, List.all_cons, KeyCall.succeeded]
    cases c.failure with
    | none => exact ih
    | some err => rfl

theorem outcome_append (calls calls' : List KeyCall) : outcome (calls ++ calls') =
    if (outcome calls).isOk then outcome calls' else outcome calls := by
  unfold outcome
  rw [List.findSome?_append]
  cases calls.findSome? KeyCall.failure <;> rfl

/-! ### The parts of `key` -/

def Enigo.after (enigo : Enigo) (calls : List KeyCall) : Enigo :=
  { enigo with calls := enigo.calls ++ calls }

theorem Enigo.after_after (enigo : Enigo) (calls calls' : List KeyCall) :
    (enigo.after calls).after calls' = enigo.after (calls ++ calls') := by
  simp [Enigo.after]

theorem Enigo.key_spec (enigo : Enigo) (key : Key) (direction : Direction) :
    ∃ failure, enigo.key key direction =
      (enigo.after [⟨key, direction, failure⟩], outcome [⟨key, direction, failure⟩]) := by
  refine ⟨enigo.answer enigo.calls key direction, ?_⟩
  unfold Enigo.key outcome
  cases enigo.answer enigo.calls key direction <;> rfl

theorem pressAll_spec (ms : List Key) (enigo : Enigo) (held : List Key) :
    ∃ presses, Presses ms presses ∧
      pressAll ms enigo held = (enigo.after presses, held ++ heldBy presses, outcome presses) := by
  induction ms generalizing enigo held with
  | nil => exact ⟨[], .nil, by simp [pressAll, heldBy, outcome, Enigo.after]⟩
  | cons m ms ih =>
    obtain ⟨failure, hkey⟩ := enigo.key_spec m .press
    rw [pressAll, hkey]
    cases failure with
    | some err => exact ⟨_, .failed m ms err, by simp [heldBy, outcome, KeyCall.succeeded]⟩
    | none =>
      obtain ⟨presses, hpresses, heq⟩ := ih (enigo.after [⟨m, .press, none⟩]) (held ++ [m])
      refine ⟨_, .pressed m ms presses hpresses, ?_⟩
      show pressAll ms _ (held ++ [m]) = _
      rw [heq, Enigo.after_after, List.append_assoc]
      rfl

theorem click_spec (presses : List KeyCall) (key : Key) (enigo : Enigo) :
    ∃ clicks : List KeyCall, clicks.map KeyCall.asked =
        (if presses.all KeyCall.succeeded then [(key, .click)] else []) ∧
      (if (outcome presses).isOk then enigo.key key .click else (enigo, outcome presses)) =
        (enigo.after clicks, outcome (presses ++ clicks)) := by
  obtain ⟨failure, hkey⟩ := enigo.key_spec key .click
  rw [isOk_outcome]
  cases hall : presses.all KeyCall.succeeded with
  | true =>
    refine ⟨[⟨key, .click, failure⟩], rfl, ?_⟩
    rw [outcome_append, isOk_outcome, hall]
    exact hkey
  | false => exact ⟨[], rfl, by simp [Enigo.after]⟩

theorem releaseAll_spec (held : List Key) (enigo : Enigo) (calls : List KeyCall) :
    ∃ releases : List KeyCall, releases.map KeyCall.asked = held.map (·, .release) ∧
      releaseAll held enigo (outcome calls) =
        (enigo.after releases, outcome (calls ++ releases)) := by
  induction held generalizing enigo calls with
  | nil => exact ⟨[], rfl, by simp [releaseAll, Enigo.after]⟩
  | cons m held ih =>
    obtain ⟨failure, hkey⟩ := enigo.key_spec m .release
    obtain ⟨releases, hreleases, heq⟩ :=
      ih (enigo.after [⟨m, .release, failure⟩]) (calls ++ [⟨m, .release, failure⟩])
    refine ⟨⟨m, .release, failure⟩ :: releases, by rw [List.map_cons, hreleases]; rfl, ?_⟩
    rw [releaseAll, hkey]
    dsimp only
    -- an earlier failure stays the result
    rw [← outcome_append, heq, Enigo.after_after, List.append_assoc]
    rfl

theorem pressChord_spec (modifiers : List Key) (key : Key) (enigo : Enigo) :
    ∃ presses clicks releases : List KeyCall, Presses modifiers presses ∧
      clicks.map KeyCall.asked =
        (if presses.all KeyCall.succeeded then [(key, .click)] else []) ∧
      releases.map KeyCall.asked = (heldBy presses).reverse.map (·, .release) ∧
      pressChord modifiers key enigo =
        (enigo.after (presses ++ clicks ++ releases), outcome (presses ++ clicks ++ releases)) := by
  obtain ⟨presses, hpresses, hpress⟩ := pressAll_spec modifiers enigo []
  obtain ⟨clicks, hclicks, hclick⟩ := click_spec presses key (enigo.after presses)
  obtain ⟨releases, hreleases, hrelease⟩ := releaseAll_spec (heldBy presses).reverse
    (enigo.after (presses ++ clicks)) (presses ++ clicks)
  refine ⟨presses, clicks, releases, hpresses, hclicks, hreleases, ?_⟩
  rw [pressChord, hpress]
  dsimp only
  rw [hclick, Enigo.after_after]
  rw [List.nil_append, hrelease, Enigo.after_after]

/-- **No modifier is left held.**  Whatever fails, the modifiers whose presses succeeded are
released, once for each press and from the last; the key is clicked in between, if no press failed;
and the result is the first failure. -/
theorem no_modifier_held (modifiers : List Key) (key : Key) (enigo : Enigo) :
    ∃ presses clicks releases : List KeyCall,
      (pressChord modifiers key enigo).1.calls =
        enigo.calls ++ (presses ++ clicks ++ releases) ∧
      Presses modifiers presses ∧
      clicks.map KeyCall.asked =
        (if presses.all KeyCall.succeeded then [(key, .click)] else []) ∧
      releases.map KeyCall.asked = (heldBy presses).reverse.map (·, .release) ∧
      ((pressChord modifiers key enigo).2.isOk = true ↔
        ∀ c ∈ presses ++ clicks ++ releases, c.succeeded = true) ∧
      (pressChord modifiers key enigo).2 = outcome (presses ++ clicks ++ releases) := by
  obtain ⟨presses, clicks, releases, hpresses, hclicks, hreleases, hchord⟩ :=
    pressChord_spec modifiers key enigo
  rw [hchord]
  refine ⟨presses, clicks, releases, rfl, hpresses, hclicks, hreleases, ?_, rfl⟩
  rw [isOk_outcome, List.all_eq_true]

/-! ### Chord after chord -/

/-- How much more a key is held after the call. -/
def KeyCall.delta (k : Key) (c : KeyCall) : Int :=
  match c.direction with
  | .press => if c.key = k ∧ c.succeeded then 1 else 0
  | .release => if c.key = k then -1 else 0
  | .click => 0

/-- The presses of a key that succeeded, less its releases. -/
def net (k : Key) (calls : List KeyCall) : Int := (calls.map (KeyCall.delta k)).sum

theorem net_cons (k : Key) (c : KeyCall) (calls : List KeyCall) :
    net k (c :: calls) = c.delta k + net k calls := by
  rw [net, List.map_cons, List.sum_cons, net]

theorem net_append (k : Key) (calls calls' : List KeyCall) :
    net k (calls ++ calls') = net k calls + net k calls' := by
  rw [net, List.map_append, List.sum_append, net, net]

variable {ms : List Key} {calls : List KeyCall}

theorem Presses.net_eq (h : Presses ms calls) (k : Key) : net k calls = (heldBy calls).count k := by
  induction h with
  | nil => rfl
  | failed m ms err => simp [net, heldBy, KeyCall.delta, KeyCall.succeeded]
  | pressed m ms presses _ ih =>
    show _ = ((m :: heldBy presses).count k : Int)
    rw [net_cons, ih]
    by_cases hm : m = k <;> simp [KeyCall.delta, KeyCall.succeeded, hm, Int.add_comm]

theorem net_releases (h : calls.map KeyCall.asked = ms.map (·, .release)) (k : Key) :
    net k calls = -(ms.count k : Int) := by
  induction ms generalizing calls with
  | nil =>
    obtain rfl := List.map_eq_nil_iff.mp h
    rfl
  | cons m ms ih =>
    obtain ⟨⟨key, direction, failure⟩, calls, rfl, hc, hcalls⟩ := List.map_eq_cons_iff.mp h
    obtain ⟨rfl, rfl⟩ := Prod.mk.inj hc
    rw [net_cons, ih hcalls]
    by_cases hm : key = k <;> simp [KeyCall.delta, hm, Int.add_comm]

theorem EnigoInput.net_key (input : EnigoInput) (chord : List Char) (k : Key) :
    net k (input.key chord).1.enigo.calls = net k input.enigo.calls := by
  unfold EnigoInput.key
  split
  · rfl
  next modifiers key _ =>
  split_ifs
  · rfl
  obtain ⟨presses, clicks, releases, hpresses, hclicks, hreleases, hchord⟩ :=
    pressChord_spec modifiers key input.enigo
  have hclick : net k clicks = 0 := by
    split_ifs at hclicks
    · obtain ⟨⟨_, direction, _⟩, rfl, hc⟩ := List.map_eq_singleton_iff.mp hclicks
      obtain ⟨rfl, rfl⟩ := Prod.mk.inj hc
      rfl
    · obtain rfl := List.map_eq_nil_iff.mp hclicks
      rfl
  rw [hchord]
  show net k (input.enigo.calls ++ _) = _
  rw [net_append, net_append, net_append, hpresses.net_eq, net_releases hreleases, hclick,
    List.count_reverse]
  omega

/-- Whatever chords are sent, every key is released as often as it was pressed. -/
theorem keys_balanced (input : EnigoInput) (chords : List (List Char)) (k : Key) :
    net k (chords.foldl (fun input chord => (input.key chord).1) input).enigo.calls =
      net k input.enigo.calls := by
  induction chords generalizing input with
  | nil => rfl
  | cons chord chords ih => rw [List.foldl_cons, ih, input.net_key]

end Zyris.Input
