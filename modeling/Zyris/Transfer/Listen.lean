import Zyris.Transfer.Trust

/-!
# The cached node list

`PeerCache` of `crates/zyris-capkit/src/transfer/listen.rs`: a call reads the clock up to four
times, and a fetch may take as long as it likes.  `Transfer.PeerCache` is the cache `serve_peers`
makes, with its defaults and calls that take no time.
-/

namespace Zyris.Transfer.Listen

open Proto

/-- The node list by endpoint, and how old it is. -/
structure PeerCache where
  ttl : Nat
  refreshInterval : Nat
  byEndpoint : Table String PeerEntry
  -- when the list last came back
  fetched : Option Nat
  -- when a fetch was last attempted
  attempted : Option Nat

/-- The clock in the check for freshness, in `may_attempt`, before the fetch and after it. -/
structure Readings where
  fresh : Nat
  may : Nat
  start : Nat
  stop : Nat
  fresh_le : fresh ≤ may
  may_le : may ≤ start
  start_le : start ≤ stop

/-- A call of `directory.peers()`. -/
structure Fetch where
  start : Nat
  stop : Nat
  result : Except WireError (List PeerEntry)

/-- What a call of `find` returns, what the clock showed last, and the fetch it made. -/
structure Lookup where
  entry : Option PeerEntry
  returned : Nat
  fetch : Option Fetch

namespace PeerCache

def new (ttl refreshInterval : Nat) : PeerCache := ⟨ttl, refreshInterval, .empty, none, none⟩

def mayAttempt (cache : PeerCache) (now : Nat) : Bool :=
  cache.attempted.all fun instant => cache.refreshInterval ≤ now - instant

def refresh (cache : PeerCache) (fetch : Fetch) : PeerCache :=
  let cache := { cache with attempted := some fetch.start }
  match fetch.result with
  | .ok entries =>
    { cache with
      byEndpoint := entries.foldl (fun table entry => table.insert entry.endpointId entry) .empty
      fetched := some fetch.stop }
  | .error _ => cache

/-- `find`; `answer` is what the directory answers when it is asked. -/
def find (cache : PeerCache) (now : Readings) (endpointId : String)
    (answer : Except WireError (List PeerEntry)) : PeerCache × Lookup :=
  let fresh := cache.fetched.any fun instant => now.fresh - instant < cache.ttl
  if fresh && (cache.byEndpoint.get endpointId).isSome then
    (cache, ⟨cache.byEndpoint.get endpointId, now.fresh, none⟩)
  else if cache.mayAttempt now.may then
    let fetch : Fetch := ⟨now.start, now.stop, answer⟩
    let cache := cache.refresh fetch
    (cache, ⟨cache.byEndpoint.get endpointId, now.stop, some fetch⟩)
  else (cache, ⟨cache.byEndpoint.get endpointId, now.may, none⟩)

end PeerCache

/-! ### Calls one after the other -/

structure Call where
  now : Readings
  endpointId : String
  answer : Except WireError (List PeerEntry)

/-- The cache and what the clock showed last. -/
structure Listener where
  cache : PeerCache
  clock : Nat

def Listener.new (ttl refreshInterval : Nat) : Listener := ⟨.new ttl refreshInterval, 0⟩

/-- A call and what it returns; the clock does not go back. -/
def Listener.Performs (s : Listener) (l : Call × Lookup) (s' : Listener) : Prop :=
  s.clock ≤ l.1.now.fresh ∧ s.cache.find l.1.now l.1.endpointId l.1.answer = (s'.cache, l.2) ∧
    s'.clock = l.2.returned

end Zyris.Transfer.Listen
