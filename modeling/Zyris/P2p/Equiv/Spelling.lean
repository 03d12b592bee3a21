import Mathlib.Data.List.Forall2
import Zyris.P2p.Authorize
import Zyris.P2p.Equiv.Tofu

/-!
# The spelling of a key does not matter

A call sees the key it is given through `canonical_endpoint_id` and the file through `read`, and
both give one form for all spellings of a key.  A file with several keys that do not parse is
refused by every call, but each names the one that its own walk comes to first.
-/

namespace Zyris.P2p

namespace Keys

variable {keys : Keys} {path : String} {order order' : WalkOrder}

def SameKey (keys : Keys) (s t : String) : Prop :=
  ∃ key, keys.parse s = .ok key ∧ keys.parse t = .ok key

theorem canonicalEndpointId_of_sameKey {s t : String} (h : keys.SameKey s t) :
    keys.canonicalEndpointId s = keys.canonicalEndpointId t := by
  obtain ⟨key, hs, ht⟩ := h
  simp only [canonicalEndpointId, hs, ht]

/-- An entry as it was, or with its key spelled in another way. -/
def RespelledEntry (keys : Keys) (e e' : String × LedgerEntry) : Prop :=
  e' = e ∨ ∃ s, e' = (e.1, { e.2 with endpointId := s }) ∧ keys.SameKey e.2.endpointId s

/-- A file whose entries are those of another, up to the spelling of their keys. -/
inductive Respelled (keys : Keys) : Option LedgerFile → Option LedgerFile → Prop
  | same (file : Option LedgerFile) : Respelled keys file file
  | ledger (peers peers' : Ledger) :
    List.Forall₂ (RespelledEntry keys) peers.entries peers'.entries →
    Respelled keys (some (.ledger peers)) (some (.ledger peers'))

theorem RespelledEntry.canonicalEntry {e e' : String × LedgerEntry}
    (h : keys.RespelledEntry e e') :
    (e'.1, keys.canonicalEntry e'.2) = (e.1, keys.canonicalEntry e.2) := by
  rcases h with rfl | ⟨s, rfl, key, hold, hnew⟩
  · rfl
  · simp only [Keys.canonicalEntry, hold, hnew]

theorem map_canonicalEntry {es es' : List (String × LedgerEntry)}
    (h : List.Forall₂ keys.RespelledEntry es es') :
    es'.map (fun e => (e.1, keys.canonicalEntry e.2)) =
      es.map fun e => (e.1, keys.canonicalEntry e.2) := by
  induction h with
  | nil => rfl
  | cons he _ ih => rw [List.map_cons, List.map_cons, he.canonicalEntry, ih]

/-- A key that does not parse has no other spelling. -/
theorem mem_bad_iff {es es' : List (String × LedgerEntry)} {e : String × LedgerEntry}
    (h : List.Forall₂ keys.RespelledEntry es es') (hbad : keys.badEntry e ≠ none) :
    e ∈ es' ↔ e ∈ es := by
  induction h with
  | nil => rfl
  | @cons d d' _ _ hd _ ih =>
    have hhead : e = d' ↔ e = d := by
      rcases hd with rfl | ⟨s, rfl, key, hold, hnew⟩
      · rfl
      · constructor <;> rintro rfl <;> refine absurd ?_ hbad
        · exact badEntry_eq_none_iff.mpr ⟨key, hnew⟩
        · exact badEntry_eq_none_iff.mpr ⟨key, hold⟩
    rw [List.mem_cons, List.mem_cons, hhead, ih]

/-! ### Results that agree -/

/-- The error names an entry of the file whose key does not parse. -/
def NamesBad (keys : Keys) (path : String) (file : Option LedgerFile) (failure : TofuError) :
    Prop :=
  ∃ peers e err, file = some (.ledger peers) ∧ e ∈ peers.entries ∧
    keys.parse e.2.endpointId = .error err ∧
    failure = .malformed path ("entry " ++ debug e.1 ++ ": " ++ err.display)

/-- Two results are the same, or errors that each name an entry whose key does not parse. -/
def Agree {α : Type} (keys : Keys) (path : String) (file : Option LedgerFile)
    (result result' : Except TofuError α) : Prop :=
  result' = result ∨ ∃ failure failure', result = .error failure ∧ result' = .error failure' ∧
    keys.NamesBad path file failure ∧ keys.NamesBad path file failure'

theorem canonicalizeLedgerEntries_of_bad {peers : Ledger} {e : String × LedgerEntry}
    (he : e ∈ peers.entries) (hbad : keys.badEntry e ≠ none) :
    ∃ failure, keys.canonicalizeLedgerEntries path order peers = .error failure ∧
      keys.NamesBad path (some (.ledger peers)) failure := by
  cases hcanon : keys.canonicalizeLedgerEntries path order peers with
  | ok ledger => exact absurd ((canonicalizeLedgerEntries_eq_ok_iff.mp hcanon).1 e he) hbad
  | error failure =>
    refine ⟨failure, rfl, ?_⟩
    unfold canonicalizeLedgerEntries at hcanon
    split at hcanon <;> cases hcanon
    next slug err hfound =>
    obtain ⟨d, hd, hsome⟩ := List.exists_of_findSome?_eq_some hfound
    unfold badEntry at hsome
    split at hsome <;> cases hsome
    next hparse => exact ⟨peers, d, err, rfl, (order.perm _).mem_iff.mp hd, hparse, rfl⟩

theorem canonicalizeLedgerEntries_agree {peers peers' : Ledger}
    (h : List.Forall₂ keys.RespelledEntry peers.entries peers'.entries) :
    keys.Agree path (some (.ledger peers)) (keys.canonicalizeLedgerEntries path order peers)
      (keys.canonicalizeLedgerEntries path order' peers') := by
  by_cases hbad : ∃ e ∈ peers.entries, keys.badEntry e ≠ none
  · obtain ⟨e, he, hbad⟩ := hbad
    obtain ⟨failure, hfail, hnames⟩ := canonicalizeLedgerEntries_of_bad he hbad
    obtain ⟨failure', hfail', peers₀, d, err, hpeers, hd, hparse, htext⟩ :=
      canonicalizeLedgerEntries_of_bad ((mem_bad_iff h hbad).mpr he) hbad
    cases hpeers
    have hbad' : keys.badEntry d ≠ none := by
      simp [badEntry, hparse]
    exact .inr ⟨failure, failure', hfail, hfail', hnames, peers, d, err, rfl,
      (mem_bad_iff h hbad').mp hd, hparse, htext⟩
  · push Not at hbad
    have hbad' : ∀ e ∈ peers'.entries, keys.badEntry e = none := by
      intro e he
      by_contra hne
      exact hne (hbad e ((mem_bad_iff h hne).mp he))
    have hmap : peers'.map keys.canonicalEntry = peers.map keys.canonicalEntry := by
      simp only [Table.map, map_canonicalEntry h]
    refine .inl ?_
    rw [canonicalizeLedgerEntries_eq_ok_iff.mpr ⟨hbad, rfl⟩]
    exact canonicalizeLedgerEntries_eq_ok_iff.mpr ⟨hbad', hmap⟩

/-- **Reading a file in another spelling and another order.** -/
theorem read_agree (path : String) (order order' : WalkOrder) {file file' : Option LedgerFile}
    (h : keys.Respelled file file') :
    keys.Agree path file (keys.read path order file) (keys.read path order' file') := by
  cases h with
  | same =>
    rcases file with _ | ⟨peers | reason⟩
    · exact .inl rfl
    · exact canonicalizeLedgerEntries_agree (List.forall₂_same.mpr fun _ _ => .inl rfl)
    · exact .inl rfl
  | ledger peers peers' h => exact canonicalizeLedgerEntries_agree h

end Keys

/-! ### Two runs of a call -/

/-- A file without its time stamps. -/
def LedgerFile.untimed : LedgerFile → LedgerFile
  | .ledger peers => .ledger (peers.map fun entry => { entry with firstSeenMs := 0 })
  | .malformed reason => .malformed reason

namespace Keys

variable {keys : Keys} {path : String} {order order' : WalkOrder}

/-- Two runs of a call, at `t` over `file` and `t'` over `file'`: each leaves its file as it was, or
both leave one ledger, up to the time. -/
structure Alike {α : Type} (keys : Keys) (path : String) (file file' : Option LedgerFile)
    (t t' : Nat) (done done' : Option LedgerFile × Except TofuError α) : Prop where
  result : keys.Agree path file done.2 done'.2
  left : done.1 = file ∧ done'.1 = file' ∨
    done'.1.map LedgerFile.untimed = done.1.map LedgerFile.untimed ∧ (t' = t → done'.1 = done.1)

variable {s s' slug : String} {file file' later later' : Option LedgerFile} {t t' : Nat}

theorem alike_unchanged {α : Type} {result result' : Except TofuError α}
    (h : keys.Agree path file result result') :
    keys.Alike path file file' t t' (file, result) (file', result') :=
  ⟨h, .inl ⟨rfl, rfl⟩⟩

theorem lookup_agree (h : keys.Respelled file file') (slug : String) :
    keys.Agree path file (keys.lookup path order file slug)
      (keys.lookup path order' file' slug) := by
  unfold lookup
  rcases read_agree path order order' h with heq | ⟨e, e', hread, hread', hbad, hbad'⟩
  · rw [heq]
    exact .inl rfl
  · rw [hread, hread']
    exact .inr ⟨e, e', rfl, rfl, hbad, hbad'⟩

theorem check_agree (h : keys.Respelled file file')
    (hkey : keys.canonicalEndpointId s = keys.canonicalEndpointId s') :
    keys.Agree path file (keys.check path order file slug s)
      (keys.check path order' file' slug s') := by
  unfold check
  rw [← hkey]
  rcases keys.canonicalEndpointId s with _ | _
  · exact .inl rfl
  rcases lookup_agree h slug with heq | ⟨e, e', hlook, hlook', hbad, hbad'⟩
  · rw [heq]
    exact .inl rfl
  · rw [hlook, hlook']
    exact .inr ⟨e, e', rfl, rfl, hbad, hbad'⟩

theorem pinPreapproved_alike (h : keys.Respelled file file')
    (hkey : keys.canonicalEndpointId s = keys.canonicalEndpointId s') :
    keys.Alike path file file' t t' (keys.pinPreapproved path order file slug s t)
      (keys.pinPreapproved path order' file' slug s' t') := by
  unfold pinPreapproved
  rw [← hkey]
  rcases keys.canonicalEndpointId s with _ | _
  · exact alike_unchanged (.inl rfl)
  rcases read_agree path order order' h with heq | ⟨e, e', hread, hread', hbad, hbad'⟩
  · rw [heq]
    rcases keys.read path order file with _ | ledger
    · exact alike_unchanged (.inl rfl)
    simp only [Op.plan]
    cases ledger.get slug with
    | none =>
      -- both add the entry, each with its own time
      exact ⟨.inl rfl, .inr ⟨rfl, fun ht => by rw [ht]⟩⟩
    | some entry =>
      dsimp only
      split_ifs <;> exact alike_unchanged (.inl rfl)
  · rw [hread, hread']
    exact alike_unchanged (.inr ⟨e, e', rfl, rfl, hbad, hbad'⟩)

theorem forget_alike (h : keys.Respelled file file') :
    keys.Alike path file file' t t' (keys.forget path order file slug)
      (keys.forget path order' file' slug) := by
  unfold forget
  rcases read_agree path order order' h with heq | ⟨e, e', hread, hread', hbad, hbad'⟩
  · rw [heq]
    rcases keys.read path order file with _ | ledger
    · exact alike_unchanged (.inl rfl)
    dsimp only
    cases ledger.get slug with
    | none => exact alike_unchanged (.inl rfl)
    | some entry => exact ⟨.inl rfl, .inr ⟨rfl, fun _ => rfl⟩⟩
  · rw [hread, hread']
    exact alike_unchanged (.inr ⟨e, e', rfl, rfl, hbad, hbad'⟩)

variable {p p' : WalkOrder} {confirm : String → String → Bool}

theorem authorize_alike (h : keys.Respelled file file') (hlater : keys.Respelled later later')
    (hkey : keys.canonicalEndpointId s = keys.canonicalEndpointId s') :
    keys.Alike path file file' t t'
        (keys.authorize path order p confirm file later slug s t)
        (keys.authorize path order' p' confirm file' later' slug s' t') ∨
      keys.Alike path later later' t t'
        (keys.authorize path order p confirm file later slug s t)
        (keys.authorize path order' p' confirm file' later' slug s' t') := by
  unfold authorize
  rw [← hkey]
  rcases keys.canonicalEndpointId s with _ | key
  · exact .inl (alike_unchanged (.inl rfl))
  rcases lookup_agree h slug with heq | ⟨e, e', hlook, hlook', hbad, hbad'⟩
  · rw [heq]
    rcases keys.lookup path order file slug with _ | found
    · exact .inl (alike_unchanged (.inl rfl))
    cases found with
    | some entry =>
      dsimp only
      split_ifs <;> exact .inl (alike_unchanged (.inl rfl))
    | none =>
      dsimp only
      rcases keys.fingerprint key with _ | _
      · exact .inl (alike_unchanged (.inl rfl))
      dsimp only
      split_ifs
      · exact .inr (pinPreapproved_alike hlater rfl)
      · exact .inr (alike_unchanged (.inl rfl))
  · rw [hlook, hlook']
    exact .inl (alike_unchanged (.inr ⟨e, e', rfl, rfl, hbad, hbad'⟩))

/-- **The spelling of a key never matters**, but for which bad entry an error names.  Called with
two spellings of a key, over files that differ in the spellings of their keys, walked in any orders,
`check`, `authorize`, `pin_preapproved` and `forget` return and leave alike; and over a file with a
key that does not parse, every call fails, names such an entry and leaves the file. -/
theorem spelling_never_matters (keys : Keys) (path : String) (file later : Option LedgerFile)
    (confirm : String → String → Bool) (slug : String) :
    (∀ file' later' s s', keys.Respelled file file' → keys.Respelled later later' →
      (keys.SameKey s s' ∨ s = s') → ∀ (o p o' p' : WalkOrder) t t',
      keys.Agree path file (keys.check path o file slug s) (keys.check path o' file' slug s') ∧
      (keys.Alike path file file' t t' (keys.authorize path o p confirm file later slug s t)
          (keys.authorize path o' p' confirm file' later' slug s' t') ∨
        keys.Alike path later later' t t' (keys.authorize path o p confirm file later slug s t)
          (keys.authorize path o' p' confirm file' later' slug s' t')) ∧
      keys.Alike path file file' t t' (keys.pinPreapproved path o file slug s t)
        (keys.pinPreapproved path o' file' slug s' t') ∧
      keys.Alike path file file' t t' (keys.forget path o file slug)
        (keys.forget path o' file' slug)) ∧
    ∀ peers e err, file = some (.ledger peers) → e ∈ peers.entries →
      keys.parse e.2.endpointId = .error err → ∀ (o p : WalkOrder) s key t,
      keys.parse s = .ok key → ∃ failure, keys.NamesBad path file failure ∧
        keys.check path o file slug s = .error failure ∧
        keys.authorize path o p confirm file later slug s t = (file, .error failure) ∧
        keys.pinPreapproved path o file slug s t = (file, .error failure) ∧
        keys.forget path o file slug = (file, .error failure) := by
  refine ⟨?_, ?_⟩
  · intro file' later' s s' hfile hlater hsame o p o' p' t t'
    have hkey : keys.canonicalEndpointId s = keys.canonicalEndpointId s' := by
      rcases hsame with hsame | rfl
      · exact canonicalEndpointId_of_sameKey hsame
      · rfl
    exact ⟨check_agree hfile hkey, authorize_alike hfile hlater hkey,
      pinPreapproved_alike hfile hkey, forget_alike hfile⟩
  · rintro peers e err rfl he hparse o p s key t hkey
    have hbad : keys.badEntry e ≠ none := by
      simp [badEntry, hparse]
    obtain ⟨failure, hread, hnames⟩ : ∃ failure,
        keys.read path o (some (.ledger peers)) = .error failure ∧ _ :=
      canonicalizeLedgerEntries_of_bad he hbad
    have hcanonical : keys.canonicalEndpointId s = .ok (keys.display key) := by
      simp only [canonicalEndpointId, hkey]
    have hlookup : keys.lookup path o (some (.ledger peers)) slug = .error failure := by
      rw [lookup, hread]
    refine ⟨failure, hnames, ?_, ?_, ?_, ?_⟩
    · rw [check, hcanonical]
      simp only [hlookup]
    · rw [authorize, hcanonical]
      simp only [hlookup]
    · rw [pinPreapproved, hcanonical]
      simp only [hread]
    · rw [forget, hread]

def pinned (slug endpointId : String) : Ledger :=
  ⟨[(slug, ⟨endpointId, 7⟩)], List.nodup_singleton slug⟩

/-- `check` with both spellings over an entry in base 32; and over one that does not parse. -/
theorem spelling_never_matters_base32 :
    sampled.Agree "pins" (some (.ledger (pinned "laptop" idZeroBase32)))
        (sampled.check "pins" .stored (some (.ledger (pinned "laptop" idZeroBase32))) "laptop"
          idZero)
        (sampled.check "pins" .stored (some (.ledger (pinned "laptop" idZero))) "laptop"
          idZeroBase32) ∧
      ∃ failure, sampled.check "pins" .stored (some (.ledger (pinned "phone" "?"))) "laptop"
        idZero = .error failure := by
  constructor
  · have h := spelling_never_matters sampled "pins"
      (some (.ledger (pinned "laptop" idZeroBase32))) none (fun _ _ => true) "laptop"
    exact (h.1 (some (.ledger (pinned "laptop" idZero))) none idZero idZeroBase32
      (.ledger _ _ (.cons (.inr ⟨idZero, rfl, false, rfl, rfl⟩) .nil)) (.same none)
      (.inl ⟨false, rfl, rfl⟩) .stored .stored .stored .stored 0 0).1
  · have h := spelling_never_matters sampled "pins" (some (.ledger (pinned "phone" "?"))) none
      (fun _ _ => true) "laptop"
    obtain ⟨failure, -, hcheck, -⟩ := h.2 (pinned "phone" "?") ("phone", ⟨"?", 7⟩)
      ⟨"?", "invalid length"⟩ rfl (List.mem_singleton_self _) rfl .stored .stored idZero false 0 rfl
    exact ⟨failure, hcheck⟩

/-- A walk that starts at the other end. -/
def reversed : WalkOrder := ⟨List.reverse, List.reverse_perm⟩

/-- Two entries whose keys do not parse. -/
def twoBad : Ledger := ⟨[("phone", ⟨"?", 7⟩), ("tablet", ⟨"!", 8⟩)], by decide⟩

/-- Two calls over one file name different entries. -/
theorem bad_entries_named_differently :
    sampled.check "pins" .stored (some (.ledger twoBad)) "laptop" idZero =
        .error (.malformed "pins"
          "entry \"phone\": \"?\" is not a valid endpoint id: invalid length") ∧
      sampled.check "pins" reversed (some (.ledger twoBad)) "laptop" idZero =
        .error (.malformed "pins"
          "entry \"tablet\": \"!\" is not a valid endpoint id: invalid length") := by
  constructor <;> decide +kernel

end Keys

end Zyris.P2p
