import Zyris.Core.Link

/-!
# The dials of a link

`Link::start` dials once, eagerly, before there is a link; after that only `maintain` dials.  Here
the two are put together, and the moment the task calls `redial` is a step of its own: between its
look at `stop` and that call another thread may ask the link to stop.
-/

namespace Zyris.Core

/-- `Link::start` and then the link. -/
inductive Connecting
  -- in the eager dial
  | eager
  -- `Link::start` returned `Err(error)`
  | refused (error : ConnectError)
  -- `calling`: the task has called `redial` and awaits it
  | linked (l : Link) (calling : Bool)

inductive ConnectAct
  -- the eager dial settles; `none` for a connection
  | eager (error : Option ConnectError)
  -- the task calls `redial`
  | dial
  | link (a : LinkAct)
  deriving DecidableEq

namespace Connecting

/-- What `Link::start` makes of the eager dial. -/
def settle : Option ConnectError → Connecting
  | none => .linked (.start true) false
  | some error => if isFatal error then .refused error else .linked (.start false) false

/-- A step of the link; a dial that was not started does not settle. -/
def linkStep (l : Link) (calling : Bool) : LinkAct → Option Connecting
  | .dialed error =>
    if calling then (l.step (.dialed error)).map fun l' => .linked l' false else none
  | a => (l.step a).map fun l' => .linked l' calling

def step : Connecting → ConnectAct → Option Connecting
  | .eager, .eager error => some (settle error)
  | .linked l false, .dial => if l.maintain = .dialing then some (.linked l true) else none
  | .linked l calling, .link a => linkStep l calling a
  | _, _ => none

end Connecting

end Zyris.Core
