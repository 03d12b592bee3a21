import Zyris.P2p.Tofu

/-!
# Reading back what was written

A ledger that was read has its keys in canonical form, and such a ledger is read as it is.  The
order in which a read walks the entries decides nothing but the error (`read_of_order`).
-/

namespace Zyris.P2p

variable {keys : Keys} {path : String} {order : WalkOrder}

namespace Keys

theorem canonicalEndpointId_display (k : keys.Key) :
    keys.canonicalEndpointId (keys.display k) = .ok (keys.display k) := by
  simp only [canonicalEndpointId, parse, keys.fromStr_display]

theorem parse_of_canonicalEndpointId {s t : String} (h : keys.canonicalEndpointId s = .ok t) :
    ∃ key, keys.parse s = .ok key ∧ keys.display key = t := by
  unfold canonicalEndpointId at h
  split at h
  · next key hkey => exact ⟨key, hkey, Except.ok.inj h⟩
  · cases h

theorem canonicalEndpointId_of_eq {s t : String} (h : keys.canonicalEndpointId s = .ok t) :
    keys.canonicalEndpointId t = .ok t := by
  obtain ⟨key, _, rfl⟩ := parse_of_canonicalEndpointId h
  exact keys.canonicalEndpointId_display key

def IsCanonical (keys : Keys) (ledger : Ledger) : Prop :=
  ∀ slug entry, ledger.get slug = some entry →
    keys.canonicalEndpointId entry.endpointId = .ok entry.endpointId

theorem isCanonical_empty : keys.IsCanonical .empty := by
  intro slug entry h
  cases h

variable {ledger : Ledger}

theorem isCanonical_insert {slug : String} {entry : LedgerEntry} (h : keys.IsCanonical ledger)
    (he : keys.canonicalEndpointId entry.endpointId = .ok entry.endpointId) :
    keys.IsCanonical (ledger.insert slug entry) := Table.forall_insert h he

theorem isCanonical_remove {slug : String} (h : keys.IsCanonical ledger) :
    keys.IsCanonical (ledger.remove slug) := by
  intro slug' entry' hget
  exact h slug' entry' (Table.get_of_get_remove hget).2

theorem canonicalEntry_of_eq {entry : LedgerEntry}
    (h : keys.canonicalEndpointId entry.endpointId = .ok entry.endpointId) :
    keys.canonicalEntry entry = entry := by
  obtain ⟨key, hkey, hdisplay⟩ := parse_of_canonicalEndpointId h
  simp only [canonicalEntry, hkey, hdisplay]

theorem badEntry_eq_none_iff {e : String × LedgerEntry} :
    keys.badEntry e = none ↔ ∃ key, keys.parse e.2.endpointId = .ok key := by
  unfold badEntry
  cases keys.parse e.2.endpointId <;> simp

/-- The entries are read when every key parses, in whatever order they are walked. -/
theorem canonicalizeLedgerEntries_eq_ok_iff {peers : Ledger} :
    keys.canonicalizeLedgerEntries path order peers = .ok ledger ↔
      (∀ e ∈ peers.entries, keys.badEntry e = none) ∧ peers.map keys.canonicalEntry = ledger := by
  unfold canonicalizeLedgerEntries
  cases hfound : (order.walk peers.entries).findSome? keys.badEntry with
  | some found =>
    obtain ⟨e, he, hbad⟩ := List.exists_of_findSome?_eq_some hfound
    refine ⟨nofun, fun h => ?_⟩
    cases hbad.symm.trans (h.1 e ((order.perm _).mem_iff.mp he))
  | none =>
    have hnone := List.findSome?_eq_none_iff.mp hfound
    refine ⟨fun h => ⟨fun e he => ?_, Except.ok.inj h⟩, fun h => congrArg Except.ok h.2⟩
    exact hnone e ((order.perm _).mem_iff.mpr he)

variable {file : Option LedgerFile}

theorem read_of_order (h : keys.read path order file = .ok ledger) (order' : WalkOrder) :
    keys.read path order' file = .ok ledger := by
  rcases file with _ | ⟨peers | reason⟩
  · exact h
  · exact canonicalizeLedgerEntries_eq_ok_iff.mpr (canonicalizeLedgerEntries_eq_ok_iff.mp h)
  · cases h

theorem isCanonical_of_read
    (h : keys.read path order file = .ok ledger) : keys.IsCanonical ledger := by
  rcases file with _ | ⟨peers | reason⟩
  · cases h
    exact isCanonical_empty
  · obtain ⟨hnone, rfl⟩ := canonicalizeLedgerEntries_eq_ok_iff.mp h
    intro slug entry hget
    rw [Table.get_map] at hget
    obtain ⟨entry₀, hget₀, rfl⟩ := Option.map_eq_some_iff.mp hget
    -- no entry failed to parse, so neither did this one
    obtain ⟨key, hkey⟩ := badEntry_eq_none_iff.mp
      (hnone (slug, entry₀) ((peers.mem_entries_iff slug entry₀).mpr hget₀))
    simp only [canonicalEntry, hkey]
    exact keys.canonicalEndpointId_display key
  · cases h

theorem read_of_isCanonical (h : keys.IsCanonical ledger) :
    keys.read path order (some (.ledger ledger)) = .ok ledger := by
  have hentries : ∀ e ∈ ledger.entries,
      keys.canonicalEndpointId e.2.endpointId = .ok e.2.endpointId :=
    fun e he => h e.1 e.2 ((ledger.mem_entries_iff e.1 e.2).mp he)
  have hmap : ledger.map keys.canonicalEntry = ledger := by
    obtain ⟨entries, hnodup⟩ := ledger
    simp only [Table.map, Table.mk.injEq]
    refine (List.map_congr_left fun e he => ?_).trans (List.map_id entries)
    rw [canonicalEntry_of_eq (hentries e he), id_eq]
  refine canonicalizeLedgerEntries_eq_ok_iff.mpr ⟨fun e he => badEntry_eq_none_iff.mpr ?_, hmap⟩
  obtain ⟨key, hkey, _⟩ := parse_of_canonicalEndpointId (hentries e he)
  exact ⟨key, hkey⟩

/-- The entry under a name; none when the file cannot be read. -/
def entry (keys : Keys) (path : String) (file : Option LedgerFile) (slug : String) :
    Option LedgerEntry :=
  match keys.read path .stored file with
  | .ok ledger => ledger.get slug
  | .error _ => none

theorem entry_of_read (h : keys.read path order file = .ok ledger) (slug : String) :
    keys.entry path file slug = ledger.get slug := by
  rw [entry, read_of_order h .stored]

/-- The public keys of the seeds of 32 zeros and of 32 ones. -/
def idZero : String := "3b6a27bcceb6a42d62a3a8d02a6f0d73653215771de243a63ac048a18b59da29"
def idOne : String := "8a88e3dd7409f195fd52db2d3cba5d72ca6709bf1d94121bf3748801b40f6f5c"

/-- The first of them in base 32. -/
def idZeroBase32 : String := "HNVCPPGOW2SC2YVDVDICU3YNONSTEFLXDXREHJR2YBEKDC2Z3IUQ"

/-- What `iroh` makes of these spellings, and of a string too short for a key. -/
def sampled : Keys where
  Key := Bool
  fromStr s :=
    if s = idZero ∨ s = idZeroBase32 then .ok false
    else if s = idOne then .ok true
    else .error "invalid length"
  display key := if key then idOne else idZero
  render key :=
    if key then "3475 0F98 BD59 FCFC 946D A45A AABE 933B"
    else "139E 3940 E64B 5491 7220 88D9 A0D7 4162"
  fromStr_display key := by cases key <;> decide

end Keys

theorem Op.of_plan_write {op : Op} {nowMs : Nat} {ledger ledger' : Ledger} {outcome : Outcome}
    (h : op.plan nowMs ledger = .write ledger' outcome) :
    (∃ slug endpointId, op = .pin slug endpointId ∧ outcome = .pinned ∧ ledger.get slug = none ∧
      ledger' = ledger.insert slug ⟨endpointId, nowMs⟩) ∨
    (∃ slug, op = .forget slug ∧ outcome = .forgot true ∧ ledger' = ledger.remove slug) := by
  cases op with
  | pin slug endpointId =>
    simp only [plan] at h
    split at h
    · split_ifs at h
    · next hnone =>
      cases h
      exact .inl ⟨slug, endpointId, rfl, rfl, hnone, rfl⟩
  | forget slug =>
    simp only [plan] at h
    split at h <;> cases h
    exact .inr ⟨slug, rfl, rfl, rfl⟩

theorem Op.of_plan_done {op : Op} {nowMs : Nat} {ledger : Ledger} {outcome : Outcome}
    (h : op.plan nowMs ledger = .done (.ok outcome)) :
    (∃ slug endpointId entry, op = .pin slug endpointId ∧ outcome = .pinned ∧
      ledger.get slug = some entry ∧ entry.endpointId = endpointId) ∨
    (∃ slug, op = .forget slug ∧ outcome = .forgot false ∧ ledger.get slug = none) := by
  cases op with
  | pin slug endpointId =>
    simp only [plan] at h
    split at h
    · next entry hentry =>
      split_ifs at h with heq <;> cases h
      exact .inl ⟨slug, endpointId, entry, rfl, rfl, hentry, heq⟩
    · cases h
  | forget slug =>
    simp only [plan] at h
    split at h <;> cases h
    next hnone => exact .inr ⟨slug, rfl, rfl, hnone⟩

end Zyris.P2p
