import Zyris.Proto.Attach
import Zyris.Proto.Envelope

/-!
# Which payloads have a JSON form

A value has one unless an extension value, or a map key other than a string or an integer, stands
somewhere in it (`jsonable`).  Moving blobs out of a value changes nothing about that.
-/

namespace Zyris.Proto

/-- The key of a map that JSON can write. -/
def jsonableKey : Value → Bool
  | .string _ => true
  | .integer _ => true
  | _ => false

mutual

/-- No extension value and no other key anywhere. -/
def jsonable : Value → Bool
  | .array items => jsonableItems items
  | .map entries => jsonableEntries entries
  | .ext _ _ => false
  | _ => true

def jsonableItems : List Value → Bool
  | [] => true
  | v :: items => jsonable v && jsonableItems items

def jsonableEntries : List (Value × Value) → Bool
  | [] => true
  | (k, v) :: entries => jsonableKey k && jsonable v && jsonableEntries entries

end

/-- An integer is in range for one of the two kinds of JSON number. -/
theorem Integer.asI64_or_asU64 (i : Integer) : i.asI64.isSome ∨ i.asU64.isSome := by
  unfold Integer.asI64 Integer.asU64
  split_ifs with h₁ h₂
  · exact .inl rfl
  · exact .inl rfl
  · exact .inr rfl
  · omega

theorem jsonKey_isOk (k : Value) : (jsonKey k).isOk = jsonableKey k := by
  cases k <;> rfl

theorem isOk_bind {ε α β : Type} (x : Except ε α) (f : α → Except ε β) (b : Bool)
    (h : ∀ a, (f a).isOk = b) : (x >>= f).isOk = (x.isOk && b) := by
  cases x with
  | error e => rfl
  | ok a => exact h a

theorem isOk_map {ε α β : Type} (x : Except ε α) (f : α → β) : (x.map f).isOk = x.isOk := by
  cases x <;> rfl

mutual

/-- `rmpv_to_json` succeeds exactly on these values. -/
theorem rmpvToJson_isOk : (v : Value) → (rmpvToJson v).isOk = jsonable v
  | .nil | .boolean _ | .f32 _ | .f64 _ | .string _ | .binary _ | .ext _ _ => rfl
  | .integer i => by
    unfold rmpvToJson jsonable
    split
    · rfl
    · rfl
    · have := i.asI64_or_asU64
      simp_all
  | .array items => by
    rw [rmpvToJson, isOk_map, rmpvToJsonItems_isOk, jsonable]
  | .map entries => by
    rw [rmpvToJson, isOk_map, rmpvToJsonEntries_isOk, jsonable]

theorem rmpvToJsonItems_isOk : (items : List Value) →
    (rmpvToJsonItems items).isOk = jsonableItems items
  | [] => rfl
  | v :: items => by
    rw [rmpvToJsonItems, isOk_bind _ _ (jsonableItems items), rmpvToJson_isOk, jsonableItems]
    intro j
    rw [isOk_bind _ _ true, rmpvToJsonItems_isOk, Bool.and_true]
    exact fun _ => rfl

theorem rmpvToJsonEntries_isOk : (entries : List (Value × Value)) →
    (fields : List (String × Json)) →
    (rmpvToJsonEntries entries fields).isOk = jsonableEntries entries
  | [], _ => rfl
  | (k, v) :: entries, fields => by
    rw [rmpvToJsonEntries, isOk_bind _ _ (jsonable v && jsonableEntries entries), jsonKey_isOk,
      jsonableEntries, Bool.and_assoc]
    intro key
    rw [isOk_bind _ _ (jsonableEntries entries), rmpvToJson_isOk]
    exact fun j => rmpvToJsonEntries_isOk entries _

end

/-- A payload can be written in MessagePack always, and in JSON if it has a JSON form. -/
theorem Payload.encodes_eq (ser : Serialization) (p : Payload) :
    p.encodes ser = (ser = .msgpack || jsonable p.value) := by
  cases ser with
  | msgpack => rfl
  | json =>
    rw [← rmpvToJson_isOk]
    unfold Payload.encodes
    cases rmpvToJson p.value <;> rfl

/-! ### Moving blobs out -/

theorem jsonable_attachmentValue (reference : AttachmentRef) :
    jsonable (attachmentValue reference) = true := by
  unfold attachmentValue
  cases reference.sha256 <;> rfl

theorem jsonableEntries_setEntry {key : String} {v w : Value} (hv : jsonable v = true)
    (hw : jsonable w = true) : ∀ {entries : List (Value × Value)}, entry entries key = some w →
    jsonableEntries (setEntry key v entries) = jsonableEntries entries
  | [], h => by simp [entry] at h
  | (k, u) :: entries, h => by
    unfold setEntry
    rw [entry_cons] at h
    split_ifs at h ⊢ with hk
    · obtain rfl := Option.some.inj h
      rw [jsonableEntries, jsonableEntries, hv, hw]
    · rw [jsonableEntries, jsonableEntries, jsonableEntries_setEntry hv hw h]

theorem entry_blob_of_movableBlob {threshold : Nat} {entries : List (Value × Value)}
    {bytes : List UInt8} (h : movableBlob threshold entries = some bytes) :
    isDatum entries = true ∧ entry entries "blob" = some (.binary bytes) ∧
      threshold < bytes.length := by
  unfold movableBlob at h
  split_ifs at h with hd
  split at h
  · split_ifs at h with hlt
    cases h
    exact ⟨hd, ‹_›, hlt⟩
  · cases h

variable (digest : List UInt8 → String) (threshold : Nat)

mutual

theorem jsonable_walkDetach : (v : Value) → (ids : List Nat) →
    jsonable (walkDetach digest threshold v ids).1 = jsonable v
  | .nil, _ | .boolean _, _ | .integer _, _ | .f32 _, _ | .f64 _, _ | .string _, _ | .binary _, _
  | .ext _ _, _ => rfl
  | .map entries, ids => by
    unfold walkDetach
    split
    · exact jsonableEntries_setEntry (jsonable_attachmentValue _) rfl
        (entry_blob_of_movableBlob ‹_›).2.1
    · exact jsonable_walkDetachEntries entries ids
  | .array items, ids => by
    exact jsonable_walkDetachItems items ids

theorem jsonable_walkDetachEntries : (entries : List (Value × Value)) → (ids : List Nat) →
    jsonableEntries (walkDetachEntries digest threshold entries ids).1 = jsonableEntries entries
  | [], _ => rfl
  | (k, v) :: entries, ids => by
    simp only [walkDetachEntries, jsonableEntries, jsonable_walkDetach v,
      jsonable_walkDetachEntries entries]

theorem jsonable_walkDetachItems : (items : List Value) → (ids : List Nat) →
    jsonableItems (walkDetachItems digest threshold items ids).1 = jsonableItems items
  | [], _ => rfl
  | v :: items, ids => by
    simp only [walkDetachItems, jsonableItems, jsonable_walkDetach v,
      jsonable_walkDetachItems items]

end

/-- The payload that is left of a detached one can be written whenever that one can. -/
theorem Payload.encodes_detach (ser : Serialization) (p : Payload) (ids : List Nat) :
    Payload.encodes ser ⟨(detach digest threshold p.value ids).1⟩ = p.encodes ser := by
  rw [Payload.encodes_eq, Payload.encodes_eq]
  congr 1
  exact jsonable_walkDetach digest threshold p.value ids

end Zyris.Proto
