import Mathlib.Data.List.DropRight
import Zyris.Lib.Matches
import Zyris.Lib.Run

/-!
# Enrolling a node

The state machine of `enroll/protocol.rs`, and of its driver `enroll/device.rs` what decides when
the token endpoint is asked.  Intervals are whole seconds, and the clocks count nanoseconds.  Of a
credential only its text is kept, and of an `EnrollError` its message.
-/

namespace Zyris.Core.Enroll

/-- One second. -/
def NANOS : Int := 1000000000

def I64_MAX : Int := 9223372036854775807

def MIN_POLL_INTERVAL : Nat := 1

def MAX_POLL_INTERVAL : Nat := 60

def SLOW_DOWN_STEP : Nat := 5

structure AuthorizeResponse where
  deviceCode : String
  userCode : String
  verificationUri : String
  expiresIn : Int
  interval : Int

structure ErrorResponse where
  error : String
  errorDescription : Option String
  interval : Option Int
  status : Option Nat

def ErrorResponse.isTransient (response : ErrorResponse) : Bool :=
  match response.status with
  | some status => status = 429 || (500 ≤ status && status < 600)
  | none => false

/-- What an answer to a poll means. -/
inductive PollOutcome
  | keepWaiting (interval : Nat)
  | expired
  | denied
  | fatal (message : String)

def clampInterval (interval : Nat) : Nat := max MIN_POLL_INTERVAL (min interval MAX_POLL_INTERVAL)

theorem min_le_clampInterval (interval : Nat) : MIN_POLL_INTERVAL ≤ clampInterval interval :=
  le_max_left _ _

theorem clampInterval_le_max (interval : Nat) : clampInterval interval ≤ MAX_POLL_INTERVAL :=
  max_le (by decide) (min_le_right _ _)

/-- `PollState`: the interval is always in range. -/
structure PollState where
  interval : Nat
  min_le : MIN_POLL_INTERVAL ≤ interval
  le_max : interval ≤ MAX_POLL_INTERVAL

namespace PollState

/-- A state whose interval is `clamp_interval` of what is proposed. -/
def clamped (interval : Nat) : PollState :=
  ⟨clampInterval interval, min_le_clampInterval interval, clampInterval_le_max interval⟩

def new (intervalSecs : Int) : PollState := clamped (max intervalSecs 0).toNat

def adopt (state : PollState) (intervalSecs : Int) : PollState :=
  let proposed := clamped (max intervalSecs 0).toNat
  ⟨max state.interval proposed.interval, state.min_le.trans (le_max_left _ _),
    max_le state.le_max proposed.le_max⟩

/-- Back off by `SLOW_DOWN_STEP`. -/
def widen (state : PollState) : PollState := clamped (state.interval + SLOW_DOWN_STEP)

def onError (state : PollState) (response : ErrorResponse) : PollState × PollOutcome :=
  if response.error = "authorization_pending" then
    let state := match response.interval with
      | some interval => state.adopt interval
      | none => state
    (state, .keepWaiting state.interval)
  else if response.error = "slow_down" then
    let state := match response.interval with
      | some interval => state.adopt interval
      | none => state.widen
    (state, .keepWaiting state.interval)
  else if response.error = "expired_token" then (state, .expired)
  else if response.error = "access_denied" then (state, .denied)
  else if response.isTransient then (state.widen, .keepWaiting state.widen.interval)
  else
    (state, .fatal (match response.errorDescription with
      | some description => response.error ++ ": " ++ description
      | none => response.error))

end PollState

/-! ### The round of one code -/

structure Code where
  userCode : String
  verificationUri : String
  expiresAt : Int

/-- The polling for one code. -/
structure Round where
  deviceCode : String
  code : Code
  state : PollState
  deadline : Int
  nextPoll : Int

/-- An `Instant` or a `SystemTime` plus whole seconds; none is the panic of an overflow. -/
def addSecs (time : Int) (secs : Nat) : Option Int :=
  if time / NANOS + secs ≤ I64_MAX then some (time + secs * NANOS) else none

/-- `Round::begin`, when the two clocks show `systemNow` and `now`. -/
def Round.begin (authorization : AuthorizeResponse) (systemNow now : Int) : Option Round := do
  let lifetime := (max authorization.expiresIn 0).toNat
  let expiresAt ← addSecs systemNow lifetime
  let deadline ← addSecs now lifetime
  some {
    deviceCode := authorization.deviceCode
    code := ⟨authorization.userCode, authorization.verificationUri, expiresAt⟩
    state := PollState.new authorization.interval
    deadline := deadline
    nextPoll := now }

/-- What a poll of the token endpoint came to. -/
inductive Response
  -- `post` fails
  | unanswered (message : String)
  | granted (credential : String)
  -- a success whose body cannot be read
  | unreadable (message : String)
  -- an error, as `parse_error` reads it
  | refused (error : ErrorResponse)

def Response.isAnswer : Response → Bool
  | .unanswered _ => false
  | _ => true

/-- What a poll reports. -/
inductive Progress
  | waiting (remaining : Int)
  | granted (credential : String)
  | lapsed
  | denied

/-- A call of `poll`: when its sleep is over, when the request starts, the response and when it is
there, and when it was handled. -/
structure Poll where
  woken : Int
  started : Int
  response : Response
  answered : Int
  handled : Int

/-- A token request, with the interval in force when it starts. -/
structure Request where
  started : Int
  interval : Nat
  answered : Bool
  deriving DecidableEq

/-- `Enrollment::poll` behind its sleep: the round left, its result and its request. -/
def Round.poll (round : Round) (p : Poll) : Round × Except String Progress × Option Request :=
  if round.deadline ≤ p.woken then (round, .ok .lapsed, none)
  else
    let request := ⟨p.started, round.state.interval, p.response.isAnswer⟩
    let answered := { round with nextPoll := p.answered + round.state.interval * NANOS }
    match p.response with
    | .unanswered message => (round, .error message, some request)
    | .granted credential => (answered, .ok (.granted credential), some request)
    | .unreadable message => (answered, .error message, some request)
    | .refused error =>
      let (state, outcome) := round.state.onError error
      match outcome with
      | .keepWaiting interval =>
        ({ answered with state := state, nextPoll := p.handled + interval * NANOS },
          .ok (.waiting (max 0 (round.deadline - p.handled))), some request)
      | .expired => ({ answered with state := state }, .ok .lapsed, some request)
      | .denied => ({ answered with state := state }, .ok .denied, some request)
      | .fatal message => ({ answered with state := state }, .error message, some request)

/-- A round, the time, and the token requests made so far. -/
structure Polling where
  round : Round
  now : Int
  requests : List Request

/-- One call of `poll`; its sleep lasts to `next_poll`, and time does not go back. -/
def Polling.step (s : Polling) (p : Poll) : Option Polling :=
  if s.now ≤ p.woken ∧ s.round.nextPoll ≤ p.woken ∧ p.woken ≤ p.started ∧
      p.started ≤ p.answered ∧ p.answered ≤ p.handled then
    some {
      round := (s.round.poll p).1
      now := p.handled
      requests := s.requests ++ (s.round.poll p).2.2.toList }
  else none

/-! ### Where the endpoints are -/

/-- `str::strip_prefix`. -/
def stripped (start text : List Char) : Option (List Char) :=
  if start <+: text then some (text.drop start.length) else none

def httpBase (serverUrl : List Char) : List Char :=
  let withoutScheme :=
    match stripped "wss://".toList serverUrl with
    | some rest => "https://".toList ++ rest
    | none =>
      match stripped "ws://".toList serverUrl with
      | some rest => "http://".toList ++ rest
      | none => serverUrl
  match find "/zyris/".toList withoutScheme with
  | some index => withoutScheme.take index
  | none => withoutScheme.rdropWhile (· = '/')

end Zyris.Core.Enroll
