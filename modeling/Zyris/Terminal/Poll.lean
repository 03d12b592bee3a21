import Mathlib.Data.List.Infix
import Zyris.Proto.Error
import Zyris.Transfer.Name

/-!
# Polling a command

`PtyTerminal::poll` of `mod.rs`.  One round of the loop has the clock at its head, the result of the
run, the time that goes into the header, and the clock behind the run.  Times are nanoseconds, and
the attempts made are recorded on the way.
-/

namespace Zyris.Terminal

open Proto

def POLL_DEFAULT_TIMEOUT_SECS : Nat := 300

def POLL_MAX_TIMEOUT_SECS : Nat := 600

def POLL_MAX_OUTPUT_CHARS : Nat := 40000

def POLL_ATTEMPT_OUTPUT_CHARS : Nat := POLL_MAX_OUTPUT_CHARS

def POLL_ACCUMULATED_CAP : Nat := 200000

def POLL_DEFAULT_OUTPUT_CHARS : Nat := 4000

def validateLaunch (command : Option (List Char)) (argv : Option (List String)) :
    Except WireError Unit :=
  let hasCommand := command.any fun c => !(Transfer.trim c).isEmpty
  match hasCommand, argv.isSome with
  | false, false => .error (.invalidParams "give `command` or `argv`, not neither")
  | true, true => .error (.invalidParams "give `command` or `argv`, not both")
  | _, _ => .ok ()

def takeTail (text : List Char) (max : Nat) : List Char :=
  if text.length ≤ max then text else (text.reverse.take max).reverse

def tailChars (text : List Char) (max : Nat) : List Char :=
  if text.length ≤ max then text
  else "…[earlier output truncated]\n".toList ++ takeTail text max

def pushCapped (accumulated fresh : List Char) (cap : Nat) : List Char × Bool :=
  let accumulated := accumulated ++ fresh
  if accumulated.length > cap then (takeTail accumulated cap, true) else (accumulated, false)

/-- What of an `ExecOutput` is looked at. -/
structure ExecOutput where
  exitCode : Int
  timedOut : Bool
  stdout : List Char
  stderr : List Char

/-- An attempt: the clock when it starts, the time since the poll's start when it is over, and what
it gave. -/
structure Attempt where
  started : Nat
  elapsed : Nat
  out : ExecOutput

/-- The arguments, with their defaults and bounds. -/
structure PollArgs where
  budget : Nat
  successExit : Int
  maxChars : Nat
  needle : Option (List Char)

def PollArgs.new (timeoutSecs : Option Nat) (successExitCode : Option Int)
    (successOutputContains : Option (List Char)) (maxOutputChars : Option Nat) : PollArgs where
  budget := max 1 (min (timeoutSecs.getD POLL_DEFAULT_TIMEOUT_SECS) POLL_MAX_TIMEOUT_SECS) *
    1000000000
  successExit := successExitCode.getD 0
  maxChars := max 200 (min (maxOutputChars.getD POLL_DEFAULT_OUTPUT_CHARS) POLL_MAX_OUTPUT_CHARS)
  needle := successOutputContains.filter (· ≠ [])

structure PollState where
  attempts : List Attempt
  accumulated : List Char
  dropped : Bool
  lastCompleted : Option Int
  timedOut : Bool
  met : Bool

/-- The line in front of an attempt's output. -/
def header (number : Nat) (a : Attempt) : List Char :=
  ("--- attempt " ++ toString number ++ "  t=" ++ toString (a.elapsed / 1000000000) ++ "s  exit " ++
    toString a.out.exitCode ++ (if a.out.timedOut then "  timed out" else "") ++ " ---\n").toList

/-- Both streams of an attempt. -/
def Attempt.full (a : Attempt) : List Char := a.out.stdout ++ a.out.stderr

/-- A body that is not empty ends in a newline. -/
def terminated (body : List Char) : List Char :=
  if body ≠ [] ∧ body.getLast? ≠ some '\n' then body ++ ['\n'] else body

def PollArgs.satisfied (args : PollArgs) (a : Attempt) : Bool :=
  (!a.out.timedOut && a.out.exitCode = args.successExit) ||
    args.needle.any fun needle => needle <:+: a.full

/-- What the loop does with an attempt. -/
def PollState.record (args : PollArgs) (s : PollState) (a : Attempt) : PollState :=
  let attempts := s.attempts ++ [a]
  let (accumulated, cut) :=
    pushCapped s.accumulated (header attempts.length a) POLL_ACCUMULATED_CAP
  let long := a.full.length > POLL_ATTEMPT_OUTPUT_CHARS
  let body := if long then takeTail a.full POLL_ATTEMPT_OUTPUT_CHARS else a.full
  let (accumulated, cut') := pushCapped accumulated (terminated body) POLL_ACCUMULATED_CAP
  { attempts := attempts
    accumulated := accumulated
    dropped := s.dropped || cut || long || cut'
    lastCompleted := if a.out.timedOut then s.lastCompleted else some a.out.exitCode
    timedOut := a.out.timedOut
    met := args.satisfied a }

/-- A round of the loop: the clock at its head, what `run` returns, the time since the start, the
clock after. -/
structure Round where
  now : Nat
  out : Except WireError ExecOutput
  elapsed : Nat
  behind : Nat

/-- The loop, over the rounds there are; none when it goes on behind them. -/
def pollLoop (args : PollArgs) (deadline : Nat) :
    List Round → PollState → Option (Except WireError PollState)
  | [], _ => none
  | r :: rounds, s =>
    if deadline ≤ r.now then some (.ok s)
    else
      match r.out with
      | .error e => some (.error e)
      | .ok out =>
        let s := s.record args ⟨r.now, r.elapsed, out⟩
        if s.met then some (.ok s)
        else if deadline ≤ r.behind then some (.ok s)
        else pollLoop args deadline rounds s

structure PollResult where
  met : Bool
  attempts : Nat
  elapsedMs : Nat
  exitCode : Int
  timedOut : Bool
  output : List Char
  outputTruncated : Bool

/-- `PtyTerminal::poll`, started at `start`; the result and the attempts it is about. -/
def poll (command : Option (List Char)) (argv : Option (List String)) (args : PollArgs)
    (start : Nat) (rounds : List Round) (elapsed : Nat) :
    Option (Except WireError (PollResult × List Attempt)) :=
  if argv = some [] then some (.error (.invalidParams "argv must not be empty"))
  else
    match validateLaunch command argv with
    | .error e => some (.error e)
    | .ok () =>
      (pollLoop args (start + args.budget) rounds ⟨[], [], false, none, false, false⟩).map
        fun ended => ended.map fun s =>
          ({ met := s.met
             attempts := s.attempts.length
             elapsedMs := elapsed / 1000000
             exitCode := s.lastCompleted.getD (-1)
             timedOut := s.timedOut
             output := tailChars s.accumulated args.maxChars
             outputTruncated := s.dropped || s.accumulated.length > args.maxChars }, s.attempts)

end Zyris.Terminal
