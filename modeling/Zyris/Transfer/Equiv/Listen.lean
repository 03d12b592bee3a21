import Mathlib.Data.List.Induction
import Zyris.Transfer.Listen

/-!
# Strangers cannot amplify directory lookups

A call answers from a fresh list, from an old one since the last attempt is too recent, or fetches
(`find_cases`).  So the cache is what the fetches so far make it (`Follows`).
-/

namespace Zyris.Transfer.Listen

open Proto

/-! ### One call -/

/-- The node with an id in a list: `collect` keeps the last one. -/
def lookup (entries : List PeerEntry) (endpointId : String) : Option PeerEntry :=
  entries.reverse.find? fun entry => entry.endpointId = endpointId

variable {endpointId : String} {entry : PeerEntry} {cache : PeerCache} {l : Call × Lookup}

theorem mem_of_lookup {entries : List PeerEntry} (h : lookup entries endpointId = some entry) :
    entry ∈ entries ∧ entry.endpointId = endpointId :=
  ⟨List.mem_reverse.mp (List.mem_of_find?_eq_some h), by simpa using List.find?_some h⟩

theorem get_foldl_insert (entries : List PeerEntry) (endpointId : String) :
    (entries.foldl (fun table entry => table.insert entry.endpointId entry)
      (Table.empty : Table String PeerEntry)).get endpointId = lookup entries endpointId := by
  induction entries using List.reverseRecOn with
  | nil => rfl
  | append_singleton entries entry ih =>
    rw [List.foldl_append, List.foldl_cons, List.foldl_nil, Table.get_insert, ih]
    unfold lookup
    rw [List.reverse_append, List.reverse_singleton, List.singleton_append]
    by_cases h : endpointId = entry.endpointId
    · rw [if_pos h, List.find?_cons_of_pos (by simpa using h.symm)]
    · rw [if_neg h, List.find?_cons_of_neg (by simpa using Ne.symm h)]

inductive PeerCache.Finds (cache : PeerCache) (now : Readings) (endpointId : String)
    (answer : Except WireError (List PeerEntry)) : PeerCache → Lookup → Prop
  -- a fresh list has the node
  | hit (instant : Nat) (entry : PeerEntry) : cache.fetched = some instant →
    now.fresh < instant + cache.ttl → cache.byEndpoint.get endpointId = some entry →
    Finds cache now endpointId answer cache ⟨some entry, now.fresh, none⟩
  -- the last attempt is too recent
  | held (instant : Nat) : cache.attempted = some instant →
    now.may < instant + cache.refreshInterval →
    Finds cache now endpointId answer cache ⟨cache.byEndpoint.get endpointId, now.may, none⟩
  -- the list is fetched
  | asked : (∀ instant, cache.attempted = some instant →
      cache.refreshInterval ≤ now.may - instant) →
    Finds cache now endpointId answer (cache.refresh ⟨now.start, now.stop, answer⟩)
      ⟨(cache.refresh ⟨now.start, now.stop, answer⟩).byEndpoint.get endpointId, now.stop,
        some ⟨now.start, now.stop, answer⟩⟩

theorem PeerCache.find_cases {cache' : PeerCache} {now : Readings}
    {answer : Except WireError (List PeerEntry)} {result : Lookup}
    (h : cache.find now endpointId answer = (cache', result)) :
    cache.Finds now endpointId answer cache' result := by
  unfold find at h
  simp only at h
  split_ifs at h with hfresh hmay
  · cases h
    rw [Bool.and_eq_true] at hfresh
    obtain ⟨instant, hfetched, hlt⟩ := (Option.any_eq_true _ _).mp hfresh.1
    obtain ⟨entry, hentry⟩ := Option.isSome_iff_exists.mp hfresh.2
    have hlt := of_decide_eq_true hlt
    rw [hentry]
    exact .hit instant entry hfetched (by omega) hentry
  · cases h
    refine .asked fun instant hattempted => ?_
    rw [mayAttempt, hattempted] at hmay
    exact of_decide_eq_true hmay
  · cases h
    cases hattempted : cache.attempted with
    | none =>
      rw [mayAttempt, hattempted] at hmay
      exact absurd rfl hmay
    | some instant =>
      rw [mayAttempt, hattempted, Option.all_some, decide_eq_true_eq] at hmay
      exact .held instant hattempted (by omega)

theorem PeerCache.refresh_limits (cache : PeerCache) (fetch : Fetch) :
    (cache.refresh fetch).ttl = cache.ttl ∧
      (cache.refresh fetch).refreshInterval = cache.refreshInterval ∧
      (cache.refresh fetch).attempted = some fetch.start := by
  obtain ⟨start, stop, result⟩ := fetch
  cases result <;> exact ⟨rfl, rfl, rfl⟩

/-! ### The fetches of a run -/

def fetches (ls : List (Call × Lookup)) : List Fetch := ls.filterMap fun l => l.2.fetch

/-- The list that a fetch brought back, and when. -/
def Fetch.list (fetch : Fetch) : Option (Nat × List PeerEntry) :=
  match fetch.result with
  | .ok entries => some (fetch.stop, entries)
  | .error _ => none

/-- The list of the last fetch that succeeded, and when it came back. -/
def lastList (ls : List (Call × Lookup)) : Option (Nat × List PeerEntry) :=
  ((fetches ls).filterMap Fetch.list).getLast?

theorem fetches_snoc (ls : List (Call × Lookup)) (l : Call × Lookup) :
    fetches (ls ++ [l]) = fetches ls ++ l.2.fetch.toList := by
  rw [fetches, List.filterMap_append]
  rfl

theorem lastList_snoc (ls : List (Call × Lookup)) (l : Call × Lookup) :
    lastList (ls ++ [l]) = (l.2.fetch.bind Fetch.list).or (lastList ls) := by
  rw [lastList, fetches_snoc, List.filterMap_append]
  cases hfetch : l.2.fetch with
  | none => simp [lastList]
  | some fetch =>
    cases hlist : fetch.list with
    | none => simp [lastList, hlist]
    | some list => simp [hlist]

/-- What the calls so far make of the cache. -/
structure Follows (ttl refreshInterval : Nat) (s : Listener) (ls : List (Call × Lookup)) :
    Prop where
  ttl : s.cache.ttl = ttl
  interval : s.cache.refreshInterval = refreshInterval
  fetched : s.cache.fetched = (lastList ls).map Prod.fst
  entries : ∀ endpointId, s.cache.byEndpoint.get endpointId =
    (lastList ls).bind fun list => lookup list.2 endpointId
  attempted : s.cache.attempted = (fetches ls).getLast?.map Fetch.start
  past : ∀ fetch ∈ fetches ls, fetch.start ≤ s.clock
  spaced : (fetches ls).Pairwise fun f g => f.start + refreshInterval ≤ g.start

namespace Follows

variable {ttl refreshInterval : Nat} {s s' : Listener} {ls : List (Call × Lookup)}

theorem new (ttl refreshInterval : Nat) :
    Follows ttl refreshInterval (.new ttl refreshInterval) [] where
  ttl := rfl
  interval := rfl
  fetched := rfl
  entries := fun _ => rfl
  attempted := rfl
  past := by simp [fetches]
  spaced := .nil

theorem of_quiet (h : Follows ttl refreshInterval s ls) {l : Call × Lookup}
    (hcache : s'.cache = s.cache) (hclock : s.clock ≤ s'.clock) (hfetch : l.2.fetch = none) :
    Follows ttl refreshInterval s' (ls ++ [l]) := by
  have hfetches : fetches (ls ++ [l]) = fetches ls := by
    rw [fetches_snoc, hfetch]
    exact List.append_nil _
  have hlist : lastList (ls ++ [l]) = lastList ls := by
    rw [lastList, hfetches]
    rfl
  constructor
  · rw [hcache, h.ttl]
  · rw [hcache, h.interval]
  · rw [hcache, hlist, h.fetched]
  · rw [hcache, hlist]
    exact h.entries
  · rw [hcache, hfetches, h.attempted]
  · rw [hfetches]
    intro fetch hmem
    exact Nat.le_trans (h.past fetch hmem) hclock
  · rw [hfetches]
    exact h.spaced

theorem attempted_le (h : Follows ttl refreshInterval s ls) {instant : Nat}
    (hattempted : s.cache.attempted = some instant) : instant ≤ s.clock := by
  rw [h.attempted] at hattempted
  obtain ⟨fetch, hlast, rfl⟩ := Option.map_eq_some_iff.mp hattempted
  exact h.past fetch (List.mem_of_getLast? hlast)

theorem start_add_le (h : Follows ttl refreshInterval s ls) {start : Nat}
    (hlast : ∀ instant, s.cache.attempted = some instant → instant + refreshInterval ≤ start) :
    ∀ fetch ∈ fetches ls, fetch.start + refreshInterval ≤ start := by
  intro fetch hmem
  have hspaced := h.spaced
  rcases List.eq_nil_or_concat (fetches ls) with hnil | ⟨before, last, hconcat⟩
  · rw [hnil] at hmem
    cases hmem
  have hattempted := hlast last.start (by rw [h.attempted, hconcat]; simp)
  rw [hconcat, List.concat_eq_append] at hmem hspaced
  rcases List.mem_append.mp hmem with hmem | hmem
  · have hbefore := (List.pairwise_append.mp hspaced).2.2 fetch hmem last (by simp)
    omega
  · rw [List.mem_singleton.mp hmem]
    exact hattempted

theorem of_fetch (h : Follows ttl refreshInterval s ls) {l : Call × Lookup} {fetch : Fetch}
    (hcache : s'.cache = s.cache.refresh fetch) (hfetch : l.2.fetch = some fetch)
    (hspaced : ∀ f ∈ fetches ls, f.start + refreshInterval ≤ fetch.start)
    (hclock : fetch.start ≤ s'.clock) : Follows ttl refreshInterval s' (ls ++ [l]) := by
  obtain ⟨httl, hinterval, hattempted⟩ := s.cache.refresh_limits fetch
  have hfetches : fetches (ls ++ [l]) = fetches ls ++ [fetch] := by
    rw [fetches_snoc, hfetch]
    rfl
  have hlist : lastList (ls ++ [l]) = fetch.list.or (lastList ls) := by
    rw [lastList_snoc, hfetch]
    rfl
  constructor
  · rw [hcache, httl, h.ttl]
  · rw [hcache, hinterval, h.interval]
  · rw [hcache, hlist]
    obtain ⟨start, stop, result⟩ := fetch
    cases result with
    | ok entries => rfl
    | error e => exact h.fetched
  · intro endpointId
    rw [hcache, hlist]
    obtain ⟨start, stop, result⟩ := fetch
    cases result with
    | ok entries => exact get_foldl_insert entries endpointId
    | error e => exact h.entries endpointId
  · rw [hcache, hattempted, hfetches]
    simp
  · rw [hfetches, List.forall_mem_append]
    refine ⟨fun f hmem => ?_, by simpa using hclock⟩
    have := hspaced f hmem
    omega
  · rw [hfetches, List.pairwise_append]
    refine ⟨h.spaced, List.pairwise_singleton _ _, ?_⟩
    intro f hmem g hg
    rw [List.mem_singleton.mp hg]
    exact hspaced f hmem

end Follows

variable {ttl refreshInterval : Nat} {s s' : Listener} {ls : List (Call × Lookup)}

theorem Listener.Performs.follows (hstep : s.Performs l s') (h : Follows ttl refreshInterval s ls) :
    Follows ttl refreshInterval s' (ls ++ [l]) := by
  obtain ⟨⟨now, endpointId, answer⟩, result⟩ := l
  obtain ⟨hclock, hfind, hreturned⟩ := hstep
  simp only at hclock hfind hreturned
  have hmay := now.fresh_le
  have hstart := now.may_le
  have hstop := now.start_le
  generalize hcache : s'.cache = cache' at hfind
  cases PeerCache.find_cases hfind with
  | hit instant entry =>
    exact h.of_quiet hcache (by rw [hreturned]; exact hclock) rfl
  | held instant =>
    exact h.of_quiet hcache (by rw [hreturned]; exact Nat.le_trans hclock hmay) rfl
  | asked hlong =>
    refine h.of_fetch hcache rfl (h.start_add_le ?_) ?_
    · intro instant hattempted
      have hle := h.attempted_le hattempted
      have hwait := hlong instant hattempted
      rw [h.interval] at hwait
      show instant + refreshInterval ≤ now.start
      omega
    · rw [hreturned]
      exact hstop

theorem follows_of_run (hrun : Run Listener.Performs (.new ttl refreshInterval) ls s) :
    Follows ttl refreshInterval s ls :=
  hrun.invariant (I := fun ls s => Follows ttl refreshInterval s ls) (.new ttl refreshInterval)
    fun _ _ _ _ _ h hstep => hstep.follows h

/-! ### What a call returns -/

/-- An answer is that of the last list that came back. -/
theorem Listener.Performs.entry_eq (hstep : s.Performs l s')
    (h : Follows ttl refreshInterval s ls) :
    l.2.entry = (lastList (ls ++ [l])).bind fun list => lookup list.2 l.1.endpointId := by
  have hget := (hstep.follows h).entries l.1.endpointId
  obtain ⟨⟨now, endpointId, answer⟩, result⟩ := l
  obtain ⟨-, hfind, -⟩ := hstep
  simp only at hfind hget ⊢
  rw [← hget]
  generalize s'.cache = cache' at hfind
  cases PeerCache.find_cases hfind with
  | hit instant entry _ _ hentry => exact hentry.symm
  | held instant => rfl
  | asked hlong => rfl

/-- The fetch succeeds and takes no time. -/
def Fetch.Instant (fetch : Fetch) : Prop := fetch.result.isOk = true ∧ fetch.stop = fetch.start

theorem map_list_of_instant {fs : List Fetch} (h : ∀ fetch ∈ fs, fetch.Instant) :
    (fs.filterMap Fetch.list).map Prod.fst = fs.map Fetch.start := by
  induction fs with
  | nil => rfl
  | cons fetch fs ih =>
    rw [List.forall_mem_cons] at h
    obtain ⟨⟨hok, hstop⟩, hrest⟩ := h
    obtain ⟨start, stop, result⟩ := fetch
    cases result with
    | error e => cases hok
    | ok entries =>
      obtain rfl : stop = start := hstop
      exact congrArg (stop :: ·) (ih hrest)

theorem Listener.Performs.recent (hstep : s.Performs l s') (h : Follows ttl refreshInterval s ls)
    (hinstant : ∀ fetch ∈ fetches (ls ++ [l]), fetch.Instant) (hentry : l.2.entry = some entry) :
    ∃ instant entries, lastList (ls ++ [l]) = some (instant, entries) ∧ entry ∈ entries ∧
      (instant = l.2.returned ∨ l.2.returned < instant + max ttl refreshInterval) := by
  have heq := hstep.entry_eq h
  rw [hentry] at heq
  obtain ⟨⟨instant, entries⟩, hlist, hlookup⟩ := Option.bind_eq_some_iff.mp heq.symm
  refine ⟨instant, entries, hlist, (mem_of_lookup hlookup).1, ?_⟩
  -- the list came back at the last attempt, which may be this call's
  have hafter := hstep.follows h
  have hfetched : s'.cache.fetched = some instant := by
    rw [hafter.fetched, hlist]
    rfl
  have hattempted : s'.cache.attempted = some instant := by
    rw [hafter.attempted, ← List.getLast?_map, ← map_list_of_instant hinstant, List.getLast?_map,
      ← lastList, hlist]
    rfl
  rw [fetches_snoc, List.forall_mem_append] at hinstant
  obtain ⟨⟨now, endpointId, answer⟩, result⟩ := l
  obtain ⟨-, hfind, -⟩ := hstep
  simp only at hfind hinstant ⊢
  generalize s'.cache = cache' at hfind hfetched hattempted
  cases PeerCache.find_cases hfind with
  | hit instant' entry' hfetched' hlt _ =>
    right
    rw [hfetched, Option.some.injEq] at hfetched'
    rw [h.ttl] at hlt
    show now.fresh < instant + max ttl refreshInterval
    omega
  | held instant' hattempted' hlt =>
    right
    rw [hattempted, Option.some.injEq] at hattempted'
    rw [h.interval] at hlt
    show now.may < instant + max ttl refreshInterval
    omega
  | asked hlong =>
    left
    have hstop : now.stop = now.start :=
      (hinstant.2 ⟨now.start, now.stop, answer⟩ (List.mem_singleton_self _)).2
    rw [(s.cache.refresh_limits _).2.2, Option.some.injEq] at hattempted
    exact hattempted.symm.trans hstop.symm

/-- **Strangers cannot amplify directory lookups.**  In every run of calls, however long the fetches
take: the starts of two fetches are at least `refresh_interval` apart; an answer is the lookup of
its id in the list of the last fetch that succeeded, so that an id not in that list is not found;
and where every fetch succeeds and takes no time, an entry is from a list that came back at that
instant, or less than the larger of the two limits before it. -/
theorem lookups_bounded (ttl refreshInterval : Nat) (ls : List (Call × Lookup)) (s : Listener)
    (hrun : Run Listener.Performs (.new ttl refreshInterval) ls s) :
    ((fetches ls).Pairwise fun f g => f.start + refreshInterval ≤ g.start) ∧
    ∀ before l after, ls = before ++ l :: after →
      (l.2.entry = (lastList (before ++ [l])).bind fun list => lookup list.2 l.1.endpointId) ∧
      ((∀ list, lastList (before ++ [l]) = some list →
        ∀ entry ∈ list.2, entry.endpointId ≠ l.1.endpointId) → l.2.entry = none) ∧
      ((∀ fetch ∈ fetches (before ++ [l]), fetch.Instant) → ∀ entry, l.2.entry = some entry →
        ∃ instant entries, lastList (before ++ [l]) = some (instant, entries) ∧ entry ∈ entries ∧
          (instant = l.2.returned ∨ l.2.returned < instant + max ttl refreshInterval)) := by
  refine ⟨(follows_of_run hrun).spaced, ?_⟩
  intro before l after hls
  rw [hls] at hrun
  obtain ⟨t, hbefore, hrest⟩ := hrun.exists_of_append
  obtain ⟨t', hstep, -⟩ := hrest.exists_of_cons
  have hfollows := follows_of_run hbefore
  have hentry := hstep.entry_eq hfollows
  refine ⟨hentry, fun habsent => ?_, fun hinstant entry => hstep.recent hfollows hinstant⟩
  rw [hentry, Option.eq_none_iff_forall_ne_some]
  intro entry hsome
  obtain ⟨list, hlist, hlookup⟩ := Option.bind_eq_some_iff.mp hsome
  obtain ⟨hmem, hid⟩ := mem_of_lookup hlookup
  exact habsent list hlist entry hmem hid

/-- A call that takes no time. -/
def Readings.at (now : Nat) : Readings :=
  ⟨now, now, now, now, Nat.le_refl _, Nat.le_refl _, Nat.le_refl _⟩

def Call.at (now : Nat) (endpointId : String) (entries : List PeerEntry) : Call :=
  ⟨.at now, endpointId, .ok entries⟩

/-- A node is found, and an early stranger looked up in the list there is; later it is fetched anew,
and looked up while fresh. -/
def fetchedTwice : List (Call × Lookup) :=
  let first : List PeerEntry := [⟨"s/p/n", "k"⟩]
  let second : List PeerEntry := [⟨"s/p/m", "k"⟩]
  [(.at 5 "k" first, ⟨some ⟨"s/p/n", "k"⟩, 5, some ⟨5, 5, .ok first⟩⟩),
    (.at 14 "x" [], ⟨none, 14, none⟩),
    (.at 70 "k" second, ⟨some ⟨"s/p/m", "k"⟩, 70, some ⟨70, 70, .ok second⟩⟩),
    (.at 90 "k" [], ⟨some ⟨"s/p/m", "k"⟩, 90, none⟩)]

theorem lookups_bounded_fetchedTwice : ∃ s,
    Run Listener.Performs (.new 60 10) fetchedTwice s ∧
    ((fetches fetchedTwice).Pairwise fun f g => f.start + 10 ≤ g.start) ∧
    some ⟨"s/p/m", "k"⟩ = ((lastList fetchedTwice).bind fun list => lookup list.2 "k") ∧
    ∃ instant entries, lastList fetchedTwice = some (instant, entries) ∧
      ⟨"s/p/m", "k"⟩ ∈ entries ∧ (instant = 90 ∨ 90 < instant + max 60 10) := by
  have hrun : Run Listener.Performs (.new 60 10) fetchedTwice ⟨_, 90⟩ :=
    .cons (t := ⟨_, 5⟩) ⟨by decide, rfl, rfl⟩ (.cons (t := ⟨_, 14⟩) ⟨by decide, rfl, rfl⟩
      (.cons (t := ⟨_, 70⟩) ⟨by decide, rfl, rfl⟩ (.single ⟨by decide, rfl, rfl⟩)))
  obtain ⟨hspaced, hanswers⟩ := lookups_bounded 60 10 fetchedTwice _ hrun
  obtain ⟨hentry, -, hrecent⟩ := hanswers (fetchedTwice.take 3) _ [] rfl
  refine ⟨_, hrun, hspaced, hentry, hrecent (fun fetch hfetch => ?_) _ rfl⟩
  rcases List.mem_pair.mp hfetch with rfl | rfl <;> exact ⟨rfl, rfl⟩

/-- With limits of zero every call fetches, and its list is as old as they allow. -/
theorem list_at_limit : ∃ s l entry entries,
    Run Listener.Performs (.new 0 0) [l] s ∧ (∀ fetch ∈ fetches [l], fetch.Instant) ∧
      l.2.entry = some entry ∧ lastList [l] = some (l.2.returned, entries) ∧
      ¬ l.2.returned < l.2.returned + max 0 0 := by
  have hrun : Run Listener.Performs (.new 0 0)
      [(.at 5 "k" [⟨"s/p/n", "k"⟩],
        ⟨some ⟨"s/p/n", "k"⟩, 5, some ⟨5, 5, .ok [⟨"s/p/n", "k"⟩]⟩⟩)] ⟨_, 5⟩ :=
    .single ⟨by decide, rfl, rfl⟩
  refine ⟨_, _, _, _, hrun, ?_, rfl, rfl, Nat.lt_irrefl 5⟩
  intro fetch hfetch
  obtain rfl := List.mem_singleton.mp hfetch
  exact ⟨rfl, rfl⟩

/-! ### The cache of `serve_peers` -/

/-- The cache with the limits left out. -/
def PeerCache.erase (cache : PeerCache) : Transfer.PeerCache :=
  ⟨cache.byEndpoint, cache.fetched, cache.attempted⟩

/-- **With the defaults and instant calls** this is the cache of the receiving side. -/
theorem PeerCache.find_at (httl : cache.ttl = DEFAULT_DIRECTORY_TTL)
    (hinterval : cache.refreshInterval = DEFAULT_REFRESH_INTERVAL) (now : Nat)
    (endpointId : String) (answer : Except WireError (List PeerEntry)) :
    cache.erase.find now endpointId answer =
      ((cache.find (.at now) endpointId answer).1.erase,
        (cache.find (.at now) endpointId answer).2.entry) := by
  have hmay : cache.erase.mayAttempt now = cache.mayAttempt now := by
    rw [mayAttempt, hinterval]
    rfl
  have hrefresh : (cache.refresh ⟨now, now, answer⟩).erase = cache.erase.refresh now answer := by
    cases answer <;> rfl
  have hfields : cache.erase.fetched = cache.fetched ∧ cache.erase.byEndpoint = cache.byEndpoint :=
    ⟨rfl, rfl⟩
  unfold Transfer.PeerCache.find find
  cases hasked : cache.mayAttempt now <;>
    simp only [httl, Readings.at, hmay, ← hrefresh, hfields, hasked, Bool.false_eq_true, if_false,
      if_true]
  · split_ifs <;> rfl
  · split_ifs <;> rfl

end Zyris.Transfer.Listen
