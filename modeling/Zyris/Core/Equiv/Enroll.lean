import Mathlib.Data.List.Chain
import Zyris.Core.Enroll

/-!
# The cadence of enrollment

A call of `poll` leaves `next_poll` at least the interval behind the start of its request.  A hint
can be too small to slow anything down, a lifetime too long for the clocks, and a host may have the
name the search for the path looks for.
-/

namespace Zyris.Core.Enroll

/-! ### The interval -/

namespace PollState

variable (state : PollState) (response : ErrorResponse)

theorem le_adopt (secs : Int) : state.interval ≤ (state.adopt secs).interval := le_max_left _ _

theorem interval_widen :
    state.widen.interval = min (state.interval + SLOW_DOWN_STEP) MAX_POLL_INTERVAL := by
  have hmin := state.min_le
  simp only [widen, clamped, clampInterval, MIN_POLL_INTERVAL, MAX_POLL_INTERVAL,
    SLOW_DOWN_STEP] at *
  omega

theorem le_widen : state.interval ≤ state.widen.interval := by
  rw [interval_widen]
  exact le_min (Nat.le_add_right _ _) state.le_max

theorem onError_cases :
    (state.interval ≤ (state.onError response).1.interval ∧
      (state.onError response).2 = .keepWaiting (state.onError response).1.interval) ∨
    ((state.onError response).1 = state ∧
      ∀ interval, (state.onError response).2 ≠ .keepWaiting interval) := by
  unfold onError
  split_ifs
  · refine .inl ⟨?_, rfl⟩
    cases response.interval with
    | none => exact le_rfl
    | some secs => exact state.le_adopt secs
  · refine .inl ⟨?_, rfl⟩
    cases response.interval with
    | none => exact state.le_widen
    | some secs => exact state.le_adopt secs
  · exact .inr ⟨rfl, nofun⟩
  · exact .inr ⟨rfl, nofun⟩
  · exact .inl ⟨state.le_widen, rfl⟩
  · exact .inr ⟨rfl, nofun⟩

def after (responses : List ErrorResponse) : PollState :=
  responses.foldl (fun state response => (state.onError response).1) state

/-- **When slowing down works.**  In every state of a round, a `slow_down` widens an interval below
60 s unless it carries a hint that is not above it. -/
theorem slowDown_widens_iff (secs : Int) (responses : List ErrorResponse)
    (description : Option String) (hint : Option Int) (status : Option Nat) :
    (((new secs).after responses).interval <
        (((new secs).after responses).onError
          ⟨"slow_down", description, hint, status⟩).1.interval ∨
      ((new secs).after responses).interval = MAX_POLL_INTERVAL) ↔
    (∀ h, hint = some h →
        ((new secs).after responses).interval < clampInterval (max h 0).toNat) ∨
      ((new secs).after responses).interval = MAX_POLL_INTERVAL := by
  generalize (new secs).after responses = before
  cases hint with
  | none =>
    refine iff_of_true ?_ (.inl fun h hh => nomatch hh)
    show before.interval < before.widen.interval ∨ _
    have hle := before.le_max
    rw [interval_widen]
    simp only [SLOW_DOWN_STEP]
    omega
  | some h =>
    show before.interval < max before.interval (clampInterval (max h 0).toNat) ∨ _ ↔ _
    simp

/-- A hint of 5 s to a node that waits 5 s. -/
theorem slowDown_keeps_interval :
    ((new 5).onError ⟨"slow_down", none, some 5, some 400⟩).1.interval = 5 ∧
      (new 5).interval = 5 := by
  decide

end PollState

/-! ### The start of a round -/

theorem addSecs_eq_some_iff {time later : Int} {secs : Nat} :
    addSecs time secs = some later ↔
      time / NANOS + secs ≤ I64_MAX ∧ later = time + secs * NANOS := by
  unfold addSecs
  split_ifs with h
  · simp [h, eq_comm]
  · simp [h]

/-- **When a round begins.**  `Round::begin` returns, with a deadline not before now, a first poll
now and an interval in range, exactly when neither clock's seconds overflow. -/
theorem begin_iff (authorization : AuthorizeResponse) (systemNow now : Int) :
    (∃ round, Round.begin authorization systemNow now = some round ∧ now ≤ round.deadline ∧
      round.nextPoll = now ∧ 1 ≤ round.state.interval ∧ round.state.interval ≤ 60) ↔
    systemNow / NANOS + max authorization.expiresIn 0 ≤ I64_MAX ∧
      now / NANOS + max authorization.expiresIn 0 ≤ I64_MAX := by
  have hcast : ((max authorization.expiresIn 0).toNat : Int) = max authorization.expiresIn 0 :=
    Int.toNat_of_nonneg (le_max_right _ _)
  constructor
  · rintro ⟨round, hbegin, -⟩
    obtain ⟨expiresAt, hexpires, hbegin⟩ := Option.bind_eq_some_iff.mp hbegin
    obtain ⟨deadline, hdeadline, -⟩ := Option.bind_eq_some_iff.mp hbegin
    rw [addSecs_eq_some_iff, hcast] at hexpires hdeadline
    exact ⟨hexpires.1, hdeadline.1⟩
  · rintro ⟨hsystem, hnow⟩
    rw [← hcast] at hsystem hnow
    have hexpires := addSecs_eq_some_iff.mpr ⟨hsystem, rfl⟩
    have hdeadline := addSecs_eq_some_iff.mpr ⟨hnow, rfl⟩
    have hbegin : Round.begin authorization systemNow now = some _ :=
      Option.bind_eq_some_iff.mpr ⟨_, hexpires, Option.bind_eq_some_iff.mpr ⟨_, hdeadline, rfl⟩⟩
    refine ⟨_, hbegin, ?_, rfl, PollState.min_le _, PollState.le_max _⟩
    simp only [NANOS]
    omega

/-- A lifetime of `i64::MAX` seconds, one second after the epoch. -/
theorem begin_panics :
    Round.begin ⟨"device", "code", "uri", 9223372036854775807, 5⟩ 1000000000 1000000000 = none := by
  decide

/-! ### The spacing of the requests -/

variable {p : Poll}

/-- A call of `poll` does nothing past the deadline, or makes a request and moves `next_poll` the
interval away from its answer. -/
theorem poll_spaced (round : Round) (hanswered : p.started ≤ p.answered)
    (hhandled : p.answered ≤ p.handled) :
    (round.poll p = (round, .ok .lapsed, none)) ∨
    ((round.poll p).2.2 = some ⟨p.started, round.state.interval, p.response.isAnswer⟩ ∧
      round.state.interval ≤ (round.poll p).1.state.interval ∧
      (p.response.isAnswer = true →
        p.started + (round.poll p).1.state.interval * NANOS ≤ (round.poll p).1.nextPoll)) := by
  unfold Round.poll
  split_ifs
  · exact .inl rfl
  right
  cases p.response with
  | unanswered message => exact ⟨rfl, le_rfl, nofun⟩
  | granted credential | unreadable message => exact ⟨rfl, le_rfl, fun _ => by dsimp only; omega⟩
  | refused error =>
    dsimp only
    rcases round.state.onError_cases error with ⟨hle, houtcome⟩ | ⟨hsame, houtcome⟩
    · rw [houtcome]
      exact ⟨rfl, hle, fun _ => by dsimp only; omega⟩
    · rw [hsame]
      cases houtcome' : (round.state.onError error).2 with
      | keepWaiting interval => exact absurd houtcome' (houtcome interval)
      | expired | denied | fatal message => exact ⟨rfl, le_rfl, fun _ => by dsimp only; omega⟩

/-- The second of two requests has an interval not narrower, and starts that long after an answered
first. -/
def Request.Spaced (r r' : Request) : Prop :=
  r.interval ≤ r'.interval ∧ (r.answered = true → r.started + r'.interval * NANOS ≤ r'.started)

/-- The requests so far are spaced, and so will be the next one. -/
structure Polling.Paced (s : Polling) : Prop where
  inRange : ∀ r ∈ s.requests, 1 ≤ r.interval ∧ r.interval ≤ 60
  spaced : s.requests.IsChain Request.Spaced
  last : ∀ r ∈ s.requests.getLast?, r.interval ≤ s.round.state.interval ∧
    (r.answered = true → r.started + s.round.state.interval * NANOS ≤ s.round.nextPoll)

theorem Polling.Paced.step {s s' : Polling} (hI : s.Paced) (h : s.step p = some s') : s'.Paced := by
  unfold Polling.step at h
  split_ifs at h with hguard
  cases h
  obtain ⟨-, hnext, hstarted, hanswered, hhandled⟩ := hguard
  rcases poll_spaced s.round hanswered hhandled with hpoll | ⟨hrequest, hle, hafter⟩
  · rw [hpoll]
    exact ⟨by simpa using hI.inRange, by simpa using hI.spaced, by simpa using hI.last⟩
  refine ⟨?_, ?_, ?_⟩ <;> simp only [hrequest, Option.toList_some]
  · intro r hr
    rcases List.mem_append.mp hr with hr | hr
    · exact hI.inRange r hr
    · rw [List.mem_singleton.mp hr]
      exact ⟨s.round.state.min_le, s.round.state.le_max⟩
  · rw [List.isChain_append]
    refine ⟨hI.spaced, List.isChain_singleton _, fun r hr r' hr' => ?_⟩
    obtain ⟨hinterval, hspaced⟩ := hI.last r hr
    cases hr'
    -- the sleep was not over before `next_poll`
    exact ⟨hinterval, fun hr => (hspaced hr).trans (hnext.trans hstarted)⟩
  · intro r hr
    rw [List.getLast?_concat] at hr
    cases hr
    exact ⟨hle, hafter⟩

/-- **The token endpoint is polled at the agreed cadence.**  In every sequence of polls the interval
is between 1 s and 60 s and never decreases, and a request starts at least the interval after the
one before it, if that was answered. -/
theorem polled_at_cadence (round : Round) (now : Int) (ps : List Poll) (s : Polling)
    (h : Run (Steps Polling.step) ⟨round, now, []⟩ ps s) :
    (∀ r ∈ s.requests, 1 ≤ r.interval ∧ r.interval ≤ 60) ∧
      s.requests.IsChain fun r r' => r.interval ≤ r'.interval ∧
        (r.answered = true → r.started + r'.interval * NANOS ≤ r'.started) := by
  have hI : s.Paced := by
    refine h.state_invariant (I := Polling.Paced) ?_ fun s p s' hI hstep => hI.step hstep
    exact ⟨nofun, .nil, nofun⟩
  exact ⟨hI.inRange, hI.spaced⟩

/-- A round of a minute with an interval of 5 s. -/
def fiveSeconds : Round := ⟨"device", ⟨"code", "uri", 60 * NANOS⟩, .new 5, 60 * NANOS, 0⟩

/-- Two polls, the second as soon as it may be. -/
theorem polled_at_cadence_pending :
    ∃ s : Polling, s.requests = [⟨0, 5, true⟩, ⟨12 * NANOS, 10, true⟩] ∧
      s.requests.IsChain fun r r' => r.interval ≤ r'.interval ∧
        (r.answered = true → r.started + r'.interval * NANOS ≤ r'.started) := by
  let slowDown : Poll :=
    ⟨0, 0, .refused ⟨"slow_down", none, some 10, some 400⟩, NANOS, 2 * NANOS⟩
  let granted : Poll := ⟨12 * NANOS, 12 * NANOS, .granted "zc", 13 * NANOS, 13 * NANOS⟩
  obtain ⟨s, hrun, hrequests⟩ := exists_run_of_exec Polling.step ⟨fiveSeconds, 0, []⟩
    [slowDown, granted] (fun s => s.requests = [⟨0, 5, true⟩, ⟨12 * NANOS, 10, true⟩]) (by decide)
  exact ⟨s, hrequests, (polled_at_cadence fiveSeconds 0 _ s hrun).2⟩

/-- A request that fails, and the next one at the same moment. -/
theorem polled_again_at_once :
    ∃ ps s, Run (Steps Polling.step) ⟨fiveSeconds, 0, []⟩ ps s ∧
      s.requests = [⟨0, 5, false⟩, ⟨0, 5, true⟩] :=
  ⟨_, exists_run_of_exec Polling.step ⟨fiveSeconds, 0, []⟩
    [⟨0, 0, .unanswered "connection reset", 0, 0⟩, ⟨0, 0, .granted "zc", 0, 0⟩]
    (fun s => s.requests = [⟨0, 5, false⟩, ⟨0, 5, true⟩]) (by decide)⟩

/-! ### Where the endpoints are -/

/-- The scheme a node dials with, and that of its enrollment. -/
inductive Scheme
  | secure
  | plain

def Scheme.ws : Scheme → List Char
  | .secure => "wss".toList
  | .plain => "ws".toList

def Scheme.http : Scheme → List Char
  | .secure => "https".toList
  | .plain => "http".toList

/-- The URL of a scheme, an authority and a path. -/
def url (scheme authority path : List Char) : List Char :=
  scheme ++ "://".toList ++ authority ++ path

theorem httpBase_url (scheme : Scheme) (authority path : List Char) :
    httpBase (url scheme.ws authority path) =
      match find "/zyris/".toList (url scheme.http authority path) with
      | some index => (url scheme.http authority path).take index
      | none => (url scheme.http authority path).rdropWhile (· = '/') := by
  cases scheme <;> rfl

/-- Before the authority the name can match at one place, the slash in front of it. -/
theorem find_url (scheme : Scheme) (authority path : List Char) :
    find "/zyris/".toList (url scheme.http authority path) =
      (find "/zyris/".toList ('/' :: (authority ++ path))).map (· + (scheme.http.length + 2)) := by
  have hfront : '/' ∉ scheme.http ++ [':'] := by cases scheme <;> decide
  have hsplit : url scheme.http authority path =
      (scheme.http ++ [':']) ++ '/' :: '/' :: (authority ++ path) := by simp [url]
  have hslash : ¬ '/' :: "zyris/".toList <+: '/' :: '/' :: (authority ++ path) := by simp
  rw [hsplit]
  show find ('/' :: "zyris/".toList) _ = _
  rw [find_append_of_notMem hfront, find, if_neg hslash, Option.map_map]
  refine Option.map_congr fun index _ => ?_
  simp only [Function.comp_apply, List.length_append, List.length_singleton]
  omega

/-- Where the authority ends, the path begins. -/
theorem zyris_starts_iff {authority path : List Char} (hauthority : '/' ∉ authority)
    (hpath : ∃ rest, path = '/' :: rest) :
    "/zyris/".toList <+: '/' :: (authority ++ path) ↔ authority = "zyris".toList := by
  obtain ⟨rest, rfl⟩ := hpath
  constructor
  · rintro ⟨t, ht⟩
    have hname : "zyris".toList ++ '/' :: t = authority ++ '/' :: rest := (List.cons.inj ht).2
    have hfront := congrArg (List.takeWhile (· ≠ '/')) hname
    rw [List.takeWhile_append_of_pos (List.all_eq_true.mp rfl),
      List.takeWhile_append_of_pos (by grind)] at hfront
    simpa using hfront.symm
  · rintro rfl
    exact ⟨rest, rfl⟩

/-- **Enrollment talks to the deployment that is dialled**, unless its authority is `zyris`. -/
theorem httpBase_iff (scheme : Scheme) (authority before : List Char) (hauthority : '/' ∉ authority)
    (hbefore : before = [] ∨ ∃ rest, before = '/' :: rest)
    (hfirst : ∀ j < before.length,
      ¬ OccursAt "/zyris/".toList (before ++ "/zyris/v1/ws".toList) j) :
    httpBase (url scheme.ws authority (before ++ "/zyris/v1/ws".toList)) =
      url scheme.http authority before ↔ authority ≠ "zyris".toList := by
  have hpath : ∃ rest, before ++ "/zyris/v1/ws".toList = '/' :: rest := by
    rcases hbefore with rfl | ⟨rest, rfl⟩
    · exact ⟨_, rfl⟩
    · exact ⟨_, rfl⟩
  have hat : OccursAt "/zyris/".toList (before ++ "/zyris/v1/ws".toList) before.length := by
    rw [OccursAt, List.drop_left]
    decide
  have hname := zyris_starts_iff hauthority hpath
  rw [httpBase_url, find_url, find]
  by_cases hauthority' : authority = "zyris".toList
  · -- the cut is inside `://`
    rw [if_pos (hname.mpr hauthority')]
    refine iff_of_false (fun heq => ?_) (not_not_intro hauthority')
    have hlength := congrArg List.length heq
    simp only [Option.map_some, url, List.length_take, List.length_append, String.length_toList,
      hauthority'] at hlength
    have : "://".length = 3 := rfl
    omega
  · have hfind : find "/zyris/".toList (authority ++ (before ++ "/zyris/v1/ws".toList)) =
        some (before.length + authority.length) := by
      show find ('/' :: "zyris/".toList) _ = _
      rw [find_append_of_notMem hauthority]
      exact congrArg (Option.map _) (find_of_first hat hfirst)
    rw [if_neg fun h => hauthority' (hname.mp h), hfind]
    refine iff_of_true ?_ hauthority'
    have hsplit : url scheme.http authority (before ++ "/zyris/v1/ws".toList) =
        url scheme.http authority before ++ "/zyris/v1/ws".toList := by simp [url]
    rw [hsplit]
    refine List.take_left' ?_
    simp only [url, List.length_append, String.length_toList]
    have : "://".length = 3 := rfl
    omega

/-- The deployment of the documentation. -/
theorem httpBase_iff_attacca :
    httpBase "wss://attacca.cc/api/zyris/v1/ws".toList = "https://attacca.cc/api".toList :=
  (httpBase_iff .secure "attacca.cc".toList "/api".toList (by decide) (.inr ⟨_, rfl⟩)
    (by decide)).mpr (by decide)

/-- A host called `zyris` is lost: its enrollment asks for `/v1/device/authorize`. -/
theorem httpBase_cuts_scheme :
    httpBase (url Scheme.secure.ws "zyris".toList ([] ++ "/zyris/v1/ws".toList)) =
        "https:/".toList ∧
      "https:/".toList ≠ url Scheme.secure.http "zyris".toList [] := by
  decide

end Zyris.Core.Enroll
