import Mathlib.Data.List.Forall2
import Zyris.Proto.Equiv.Payload

/-!
# What `detach` moves out

`detach` moves the blobs of a value out in walk order, one id each, and `refs` of what is left lists
them in the same order.  The value has no references of its own: `splice` could not tell them from
those of `detach`.
-/

namespace Zyris.Proto

/-! ### Entries -/

variable {key : String} {v w : Value} {n : Nat} {es es' : List (Value × Value)} {ids : List Nat}

theorem entry_setEntry_self : ∀ {entries : List (Value × Value)},
    entry entries key = some w → entry (setEntry key v entries) key = some v
  | [], h => by simp [entry] at h
  | (k, u) :: entries, h => by
    rw [entry_cons] at h
    unfold setEntry
    split_ifs at h ⊢ with hk
    · rw [entry_cons, if_pos hk]
    · rw [entry_cons, if_neg hk]
      exact entry_setEntry_self h

theorem entry_setEntry_of_ne {key' : String} (hne : key' ≠ key) (v : Value) :
    ∀ entries : List (Value × Value), entry (setEntry key v entries) key' = entry entries key'
  | [] => rfl
  | (k, u) :: entries => by
    unfold setEntry
    split_ifs with hk
    · have hk' : asStr k ≠ some key' := fun h => hne (Option.mem_unique h hk)
      rw [entry_cons, entry_cons, if_neg hk', if_neg hk']
    · rw [entry_cons, entry_cons, entry_setEntry_of_ne hne v entries]

theorem setEntry_setEntry : ∀ {entries : List (Value × Value)},
    entry entries key = some w → setEntry key w (setEntry key v entries) = entries
  | [], h => by simp [entry] at h
  | (k, u) :: entries, h => by
    rw [entry_cons] at h
    by_cases hk : asStr k = some key
    · rw [if_pos hk] at h
      obtain rfl := Option.some.inj h
      simp only [setEntry, if_pos hk]
    · rw [if_neg hk] at h
      simp only [setEntry, if_neg hk, setEntry_setEntry h]

theorem isDatum_setEntry_blob (v : Value) (entries : List (Value × Value)) :
    isDatum (setEntry "blob" v entries) = isDatum entries := by
  unfold isDatum
  rw [entry_setEntry_of_ne (by decide)]

theorem asU64_ofNat (n : Nat) : asU64 (.ofNat n) = some (n % 2 ^ 64) := by
  simp [asU64, Value.ofNat]

/-- A reference is read back as it was written. -/
theorem parseAttachment_attachmentValue {r : AttachmentRef} {sha256 : String}
    (hstream : r.stream < 2 ^ 32) (hsize : r.size < 2 ^ 64)
    (hsha : r.sha256 = some sha256) (hoffset : r.offset = 0) :
    parseAttachment (attachmentValue r) = some r := by
  obtain ⟨stream, size, sha, offset⟩ := r
  subst hsha hoffset
  simpa [parseAttachment, attachmentValue, entry_cons, asStr, Value.ofStr, Utf8String.asStr,
    asU64_ofNat] using And.intro hstream hsize

/-! ### Values that differ in blobs only -/

/-- The values look the same to `as_str` and `as_u64`, and so, to depth `n`, do those under keys
other than `blob`. -/
def Alike : Nat → Value → Value → Prop
  | 0, v, w => asStr w = asStr v ∧ asU64 w = asU64 v
  | n + 1, v, w => (asStr w = asStr v ∧ asU64 w = asU64 v) ∧ match v, w with
    | .map es, .map es' => ∀ key, key ≠ "blob" →
      (entry es key = none ∧ entry es' key = none) ∨
      ∃ u u', entry es key = some u ∧ entry es' key = some u' ∧ Alike n u u'
    | .map _, _ => False
    | _, .map _ => False
    | _, _ => True

theorem Alike.scalars (h : Alike n v w) : asStr w = asStr v ∧ asU64 w = asU64 v := by
  cases n with
  | zero => exact h
  | succ n => exact h.1

theorem alike_refl (n : Nat) (v : Value) : Alike n v v := by
  induction n generalizing v with
  | zero => exact ⟨rfl, rfl⟩
  | succ n ih =>
    refine ⟨⟨rfl, rfl⟩, ?_⟩
    cases v with
    | map es =>
      intro key _
      cases h : entry es key with
      | none => exact .inl ⟨rfl, rfl⟩
      | some u => exact .inr ⟨u, u, rfl, rfl, ih u⟩
    | _ => trivial

theorem alike_setEntry_blob (n : Nat) (b : Value) (es : List (Value × Value)) :
    Alike n (.map es) (.map (setEntry "blob" b es)) := by
  cases n with
  | zero => exact ⟨rfl, rfl⟩
  | succ n =>
    refine ⟨⟨rfl, rfl⟩, fun key hkey => ?_⟩
    rw [entry_setEntry_of_ne hkey]
    exact (alike_refl (n + 1) (.map es)).2 key hkey

theorem bind_eq_of_alike {o o' : Option Value}
    (h : (o = none ∧ o' = none) ∨ ∃ u u', o = some u ∧ o' = some u' ∧ Alike n u u') :
    o'.bind asStr = o.bind asStr ∧ o'.bind asU64 = o.bind asU64 := by
  rcases h with ⟨rfl, rfl⟩ | ⟨u, u', rfl, rfl, hu⟩
  · exact ⟨rfl, rfl⟩
  · exact hu.scalars

/-- The reference a value stands for does not depend on blobs. -/
theorem parseAttachment_of_alike (h : Alike 2 v w) : parseAttachment w = parseAttachment v := by
  cases v with
  | map es =>
    cases w with
    | map es' =>
      simp only [parseAttachment]
      rcases h.2 "attachment" (by decide) with ⟨h₁, h₂⟩ | ⟨u, u', h₁, h₂, hu⟩
      · rw [h₁, h₂]
      rw [h₁, h₂]
      cases u with
      | map inner =>
        cases u' with
        | map inner' =>
          dsimp only
          have key (k : String) (hk : k ≠ "blob") := bind_eq_of_alike (hu.2 k hk)
          rw [(key "stream" (by decide)).2, (key "size" (by decide)).2,
            (key "sha256" (by decide)).1, (key "offset" (by decide)).2]
        | _ => exact absurd hu.2 (by simp)
      | _ =>
        cases u' with
        | map inner' => exact absurd hu.2 (by simp)
        | _ => rfl
    | _ => exact absurd h.2 (by simp)
  | _ =>
    cases w with
    | map es' => exact absurd h.2 (by simp)
    | _ => rfl

/-- The entries of two maps have the same keys in the same order and alike values. -/
def EntriesAlike : List (Value × Value) → List (Value × Value) → Prop :=
  List.Forall₂ fun e e' => e'.1 = e.1 ∧ ∀ n, Alike n e.2 e'.2

theorem EntriesAlike.entry (h : EntriesAlike es es') (key : String) :
    (entry es key = none ∧ entry es' key = none) ∨
      ∃ u u', entry es key = some u ∧ entry es' key = some u' ∧ ∀ n, Alike n u u' := by
  induction h with
  | nil => exact .inl ⟨rfl, rfl⟩
  | @cons e e' es es' he _ ih =>
    obtain ⟨k, u⟩ := e
    obtain ⟨k', u'⟩ := e'
    obtain ⟨hk, hu⟩ := he
    obtain rfl : k' = k := hk
    rw [entry_cons, entry_cons]
    split_ifs
    · exact .inr ⟨u, u', rfl, rfl, hu⟩
    · exact ih

theorem EntriesAlike.map (h : EntriesAlike es es') (n : Nat) : Alike n (.map es) (.map es') := by
  rcases n with _ | n
  · exact ⟨rfl, rfl⟩
  refine ⟨⟨rfl, rfl⟩, fun key _ => ?_⟩
  rcases h.entry key with hnone | ⟨u, u', hu, hu', halike⟩
  · exact .inl hnone
  · exact .inr ⟨u, u', hu, hu', halike n⟩

theorem EntriesAlike.isDatum (h : EntriesAlike es es') : isDatum es' = isDatum es := by
  have hkind : (Proto.entry es' "kind").bind asStr = (Proto.entry es "kind").bind asStr := by
    rcases h.entry "kind" with ⟨hnone, hnone'⟩ | ⟨u, u', hu, hu', halike⟩
    · rw [hnone, hnone']
    · rw [hu, hu']
      exact (halike 0).scalars.1
  unfold Proto.isDatum
  rw [hkind]

theorem EntriesAlike.datumRef (h : EntriesAlike es es') : datumRef es' = datumRef es := by
  have hblob : (Proto.entry es' "blob").bind parseAttachment =
      (Proto.entry es "blob").bind parseAttachment := by
    rcases h.entry "blob" with ⟨hnone, hnone'⟩ | ⟨u, u', hu, hu', halike⟩
    · rw [hnone, hnone']
    · rw [hu, hu']
      exact parseAttachment_of_alike (halike 2)
  unfold Proto.datumRef
  rw [h.isDatum, hblob]

variable (digest : List UInt8 → String) (threshold : Nat)

mutual

theorem alike_walkDetach : (v : Value) → (ids : List Nat) → (n : Nat) →
    Alike n v (walkDetach digest threshold v ids).1
  | .nil, _, n | .boolean _, _, n | .integer _, _, n | .f32 _, _, n | .f64 _, _, n
  | .string _, _, n | .binary _, _, n | .ext _ _, _, n => alike_refl n _
  | .array items, ids, n => by
    cases n with
    | zero => exact ⟨rfl, rfl⟩
    | succ n => exact ⟨⟨rfl, rfl⟩, trivial⟩
  | .map es, ids, n => by
    unfold walkDetach
    split
    · exact alike_setEntry_blob n _ es
    · exact (entriesAlike_walkDetachEntries es ids).map n

theorem entriesAlike_walkDetachEntries : (es : List (Value × Value)) → (ids : List Nat) →
    EntriesAlike es (walkDetachEntries digest threshold es ids).1
  | [], _ => .nil
  | (_, v) :: es, ids =>
    .cons ⟨rfl, alike_walkDetach v ids⟩ (entriesAlike_walkDetachEntries es _)

end

/-! ### Induction over a value -/

/-- A value that holds no others. -/
def Value.isLeaf : Value → Bool
  | .array _ => false
  | .map _ => false
  | _ => true

/-- The walks take the values of a map that is no datum as the items of an array. -/
@[elab_as_elim]
theorem Value.induction {P : Value → Prop} (leaf : ∀ v : Value, v.isLeaf = true → P v)
    (nil : P (.array [])) (cons : ∀ v items, P v → P (.array items) → P (.array (v :: items)))
    (map : ∀ es : List (Value × Value), P (.array (es.map Prod.snd)) → P (.map es))
    (v : Value) : P v :=
  @Value.rec P (fun items => P (.array items)) (fun es => P (.array (es.map Prod.snd)))
    (fun e => P e.2) (leaf _ rfl) (fun _ => leaf _ rfl) (fun _ => leaf _ rfl)
    (fun _ => leaf _ rfl) (fun _ => leaf _ rfl) (fun _ => leaf _ rfl) (fun _ => leaf _ rfl)
    (fun _ h => h) map (fun _ _ => leaf _ rfl) nil cons nil
    (fun e es => cons e.2 (es.map Prod.snd)) (fun _ _ _ h => h) v

theorem refs_leaf (h : v.isLeaf = true) : refs v = [] := by
  cases v with
  | array | map => cases h
  | _ => rfl

theorem blobs_leaf (h : v.isLeaf = true) : blobs threshold v = [] := by
  cases v with
  | array | map => cases h
  | _ => rfl

theorem walkDetach_leaf (h : v.isLeaf = true) (ids : List Nat) :
    walkDetach digest threshold v ids = (v, ids, []) := by
  cases v with
  | array | map => cases h
  | _ => rfl

theorem blobs_cons (v : Value) (items : List Value) :
    blobs threshold (.array (v :: items)) = blobs threshold v ++ blobs threshold (.array items) :=
  rfl

theorem walkDetach_cons_snd (v : Value) (items : List Value) (ids : List Nat) :
    (walkDetach digest threshold (.array (v :: items)) ids).2 =
      let (_, ids', out) := walkDetach digest threshold v ids
      let (_, ids'', out') := walkDetach digest threshold (.array items) ids'
      (ids'', out ++ out') := rfl

theorem refs_walkDetach_cons (v : Value) (items : List Value) (ids : List Nat) :
    refs (walkDetach digest threshold (.array (v :: items)) ids).1 =
      refs (walkDetach digest threshold v ids).1 ++
        refs (walkDetach digest threshold (.array items)
          (walkDetach digest threshold v ids).2.1).1 := rfl

theorem refsEntries_eq (es : List (Value × Value)) :
    refsEntries es = refs (.array (es.map Prod.snd)) := by
  induction es with
  | nil => rfl
  | cons e es ih => exact congrArg (refs e.2 ++ ·) ih

theorem blobsEntries_eq (es : List (Value × Value)) :
    blobsEntries threshold es = blobs threshold (.array (es.map Prod.snd)) := by
  induction es with
  | nil => rfl
  | cons e es ih => exact congrArg (blobs threshold e.2 ++ ·) ih

/-- The entries with other values. -/
def rekey (es : List (Value × Value)) (items : List Value) : List (Value × Value) :=
  List.zipWith (fun e v => (e.1, v)) es items

theorem rekey_map_snd (es : List (Value × Value)) : rekey es (es.map Prod.snd) = es := by
  induction es with
  | nil => rfl
  | cons e es ih => exact congrArg (e :: ·) ih

theorem walkDetachEntries_eq (es : List (Value × Value)) (ids : List Nat) :
    walkDetachEntries digest threshold es ids =
      (rekey es (walkDetachItems digest threshold (es.map Prod.snd) ids).1,
        (walkDetachItems digest threshold (es.map Prod.snd) ids).2) := by
  induction es generalizing ids with
  | nil => rfl
  | cons e es ih =>
    simp only [walkDetachEntries, ih]
    rfl

theorem map_snd_walkDetachEntries (es : List (Value × Value)) (ids : List Nat) :
    (walkDetachEntries digest threshold es ids).1.map Prod.snd =
      (walkDetachItems digest threshold (es.map Prod.snd) ids).1 := by
  induction es generalizing ids with
  | nil => rfl
  | cons e es ih => exact congrArg (_ :: ·) (ih _)

/-! ### The ids and the blobs -/

/-- The detached blobs: the blobs of the value, each under the next id. -/
def detachedAs (ids : List Nat) (bs : List (List UInt8)) : List Detached :=
  List.zipWith (fun id b => ⟨id, b, digest b⟩) ids bs

theorem zipWith_append_right {α β γ : Type} (f : α → β → γ) (ids : List α) (bs bs' : List β) :
    List.zipWith f ids (bs ++ bs') =
      List.zipWith f ids bs ++ List.zipWith f (ids.drop bs.length) bs' := by
  induction bs generalizing ids with
  | nil => simp
  | cons b bs ih =>
    cases ids with
    | nil => rfl
    | cons id ids => exact congrArg (_ :: ·) (ih ids)

theorem detachedAs_append (ids : List Nat) (bs bs' : List (List UInt8)) :
    detachedAs digest ids (bs ++ bs') =
      detachedAs digest ids bs ++ detachedAs digest (ids.drop bs.length) bs' :=
  zipWith_append_right _ ids bs bs'

theorem walkDetach_out (v : Value) (ids : List Nat) (h : (blobs threshold v).length ≤ ids.length) :
    (walkDetach digest threshold v ids).2 =
      (ids.drop (blobs threshold v).length, detachedAs digest ids (blobs threshold v)) := by
  induction v using Value.induction generalizing ids with
  | leaf v hv => simp [walkDetach_leaf digest threshold hv, blobs_leaf threshold hv, detachedAs]
  | nil => cases ids <;> rfl
  | cons v items hv hitems =>
    rw [blobs_cons, List.length_append] at h
    have hv := hv ids (by omega)
    have hitems := hitems (ids.drop (blobs threshold v).length) (by rw [List.length_drop]; omega)
    simp only [walkDetach_cons_snd, hv, hitems, blobs_cons, detachedAs_append, List.drop_drop,
      List.length_append]
  | map es ih =>
    unfold blobs at h ⊢
    unfold walkDetach
    rcases hb : movableBlob threshold es with _ | _ <;> rw [hb] at h
    · simp only [walkDetachEntries_eq, blobsEntries_eq] at h ⊢
      exact ih ids h
    cases ids with
    | nil => simp at h
    | cons id ids => simp [detachedAs]

theorem detach_snd (h : (blobs threshold v).length ≤ ids.length) :
    (detach digest threshold v ids).2 = detachedAs digest ids (blobs threshold v) :=
  congrArg Prod.snd (walkDetach_out digest threshold v ids h)

theorem map_stream_detachedAs {bs : List (List UInt8)} (h : bs.length ≤ ids.length) :
    (detachedAs digest ids bs).map (·.stream) = ids.take bs.length := by
  induction bs generalizing ids with
  | nil => simp [detachedAs]
  | cons b bs ih =>
    cases ids with
    | nil => cases h
    | cons id ids => exact congrArg (id :: ·) (ih (Nat.le_of_succ_le_succ h))

/-! ### The references that are left -/

def Detached.ref (d : Detached) : AttachmentRef := blobRef digest d.stream d.bytes

theorem refs_map_eq_nil : refs (.map es) = [] ↔ datumRef es = none ∧ refsEntries es = [] := by
  unfold refs
  cases datumRef es <;> simp

theorem datumRef_setEntry_blob {bytes : List UInt8} {id : Nat}
    (h : movableBlob threshold es = some bytes) (hid : id < 2 ^ 32) :
    datumRef (setEntry "blob" (attachmentValue (blobRef digest id bytes)) es) =
      some (blobRef digest id bytes) := by
  obtain ⟨hdatum, hblob, -⟩ := entry_blob_of_movableBlob h
  have hparse := parseAttachment_attachmentValue (r := blobRef digest id bytes) hid
    (Nat.mod_lt _ (by decide)) rfl rfl
  rw [datumRef, isDatum_setEntry_blob, if_pos hdatum, entry_setEntry_self hblob]
  exact hparse

theorem mem_of_mem_drop_lt {b : Nat} (h : ∀ id ∈ ids, id < b) :
    ∀ id ∈ ids.drop n, id < b := fun id hid => h id (List.mem_of_mem_drop hid)

/-- `refs` of what `detach` leaves are the blobs it moved out, in order. -/
theorem refs_walkDetach (v : Value) (ids : List Nat)
    (hlen : (blobs threshold v).length ≤ ids.length) (hids : ∀ id ∈ ids, id < 2 ^ 32)
    (h : refs v = []) : refs (walkDetach digest threshold v ids).1 =
      (detachedAs digest ids (blobs threshold v)).map (·.ref digest) := by
  induction v using Value.induction generalizing ids with
  | leaf v hv =>
    simp [walkDetach_leaf digest threshold hv, blobs_leaf threshold hv, refs_leaf hv, detachedAs]
  | nil => cases ids <;> rfl
  | cons v items ihv ihitems =>
    rw [blobs_cons, List.length_append] at hlen
    obtain ⟨hv, hitems⟩ := List.append_eq_nil_iff.mp h
    have hout := walkDetach_out digest threshold v ids (by omega)
    have hv' := ihv ids (by omega) hids hv
    have hitems' := ihitems (ids.drop (blobs threshold v).length)
      (by rw [List.length_drop]; omega) (mem_of_mem_drop_lt hids) hitems
    rw [refs_walkDetach_cons, hout, blobs_cons, detachedAs_append, List.map_append, hv', hitems']
  | map es ih =>
    obtain ⟨hself, hrest⟩ := refs_map_eq_nil.mp h
    unfold blobs at hlen ⊢
    unfold walkDetach
    cases hb : movableBlob threshold es with
    | some bytes =>
      rw [hb] at hlen
      cases ids with
      | nil => simp at hlen
      | cons id ids =>
        have hd := datumRef_setEntry_blob digest threshold hb (hids id (by simp))
        simp [refs, hd, detachedAs, Detached.ref]
    | none =>
      rw [hb] at hlen
      have hd := (entriesAlike_walkDetachEntries digest threshold es ids).datumRef.trans hself
      simp only [refs, hd, refsEntries_eq, map_snd_walkDetachEntries, blobsEntries_eq]
        at hlen hrest ⊢
      exact ih ids hlen hids hrest

/-! ### Putting the blobs back -/

theorem splice_leaf (s : Nat) (b : List UInt8) (h : v.isLeaf = true) :
    splice s b v = (v, false) := by
  cases v with
  | array | map => cases h
  | _ => rfl

theorem spliceItems_eq_of_splice {s : Nat} {b : List UInt8} {items items' : List Value} {hit : Bool}
    (h : splice s b (.array items) = (.array items', hit)) :
    spliceItems s b items = (items', hit) := by
  obtain ⟨hitems, hhit⟩ := Prod.mk.inj h
  exact Prod.ext (Value.array.inj hitems) hhit

theorem spliceEntries_eq (s : Nat) (b : List UInt8) (es : List (Value × Value)) :
    spliceEntries s b es =
      (rekey es (spliceItems s b (es.map Prod.snd)).1, (spliceItems s b (es.map Prod.snd)).2) := by
  induction es with
  | nil => rfl
  | cons e es ih =>
    simp only [spliceEntries, List.map_cons, spliceItems, ih]
    cases hv : splice s b e.2 with
    | mk v hit =>
      cases hit with
      | true => exact congrArg (fun es => ((e.1, v) :: es, true)) (rekey_map_snd es).symm
      | false => rfl

theorem splice_of_refs_eq_nil (s : Nat) (b : List UInt8) (v : Value) (h : refs v = []) :
    splice s b v = (v, false) := by
  induction v using Value.induction with
  | leaf v hv => exact splice_leaf s b hv
  | nil => rfl
  | cons v items ihv ihitems =>
    obtain ⟨hv, hitems⟩ := List.append_eq_nil_iff.mp h
    simp only [splice, spliceItems, ihv hv, spliceItems_eq_of_splice (ihitems hitems),
      Bool.false_eq_true, if_false]
  | map es ih =>
    obtain ⟨hself, hrest⟩ := refs_map_eq_nil.mp h
    rw [refsEntries_eq] at hrest
    simp only [splice, hself, spliceEntries_eq, spliceItems_eq_of_splice (ih hrest), rekey_map_snd]

theorem spliceEntries_of_refs_eq_nil (s : Nat) (b : List UInt8) (h : refsEntries es = []) :
    spliceEntries s b es = (es, false) := by
  rw [refsEntries_eq] at h
  rw [spliceEntries_eq, spliceItems_eq_of_splice (splice_of_refs_eq_nil s b _ h), rekey_map_snd]

/-- Each blob is found and put back, and the last value is reached. -/
inductive Restores {α : Type} (put : Nat → List UInt8 → α → α × Bool) :
    List Detached → α → α → Prop
  | nil (v : α) : Restores put [] v v
  | cons (d : Detached) (out : List Detached) (v v' w : α) :
    put d.stream d.bytes v = (v', true) → Restores put out v' w → Restores put (d :: out) v w

/-- `detach` on a value without references: the blobs are moved out under the ids, and references
name them in order. -/
theorem detach_spec (v : Value) (ids : List Nat)
    (hlen : (blobs threshold v).length ≤ ids.length) (hids : ∀ id ∈ ids, id < 2 ^ 32)
    (h : refs v = []) :
    (detach digest threshold v ids).2 = detachedAs digest ids (blobs threshold v) ∧
      refs (detach digest threshold v ids).1 =
        (detach digest threshold v ids).2.map (·.ref digest) := by
  have hout := detach_snd digest threshold hlen
  refine ⟨hout, ?_⟩
  rw [hout]
  exact refs_walkDetach digest threshold v ids hlen hids h

end Zyris.Proto
