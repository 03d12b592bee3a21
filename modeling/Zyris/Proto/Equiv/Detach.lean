import Zyris.Proto.Equiv.Splice

/-!
# What `detach` leaves inline and what `refs` announces

`walk_detach` returns at a datum whose blob it moves, and `walk_refs` at one that has a reference.
So an oversized blob stays inline exactly if it lies below an oversized one, and a blob moved from
below a reference is named by one that `refs` does not come to.
-/

namespace Zyris.Proto

variable (digest : List UInt8 → String) (threshold : Nat)

mutual

/-- Some datum in the tree has an inline blob over the threshold as its first `blob` entry. -/
def oversized : Value → Bool
  | .map entries => (movableBlob threshold entries).isSome || oversizedEntries entries
  | .array items => oversizedItems items
  | _ => false

def oversizedEntries : List (Value × Value) → Bool
  | [] => false
  | (_, v) :: entries => oversized v || oversizedEntries entries

def oversizedItems : List Value → Bool
  | [] => false
  | v :: items => oversized v || oversizedItems items

end

mutual

/-- Such a datum lies below another one. -/
def nestsOversized : Value → Bool
  | .map entries =>
    match movableBlob threshold entries with
    | some _ => oversizedEntries threshold entries
    | none => nestsOversizedEntries entries
  | .array items => nestsOversizedItems items
  | _ => false

def nestsOversizedEntries : List (Value × Value) → Bool
  | [] => false
  | (_, v) :: entries => nestsOversized v || nestsOversizedEntries entries

def nestsOversizedItems : List Value → Bool
  | [] => false
  | v :: items => nestsOversized v || nestsOversizedItems items

end

/-! ### What stays inline -/

theorem oversized_attachmentValue (r : AttachmentRef) :
    oversized threshold (attachmentValue r) = false := by
  obtain ⟨stream, size, sha256, offset⟩ := r
  cases sha256 <;>
    simp [attachmentValue, oversized, oversizedEntries, movableBlob, isDatum, entry, asStr,
      Value.ofStr, Utf8String.asStr, Value.ofNat]

theorem oversizedEntries_setEntry {key : String} {u w : Value} (hu : oversized threshold u = false)
    (hw : oversized threshold w = false) : ∀ {es : List (Value × Value)},
    entry es key = some u →
    oversizedEntries threshold (setEntry key w es) = oversizedEntries threshold es
  | [], h => by cases h
  | (k, v) :: es, h => by
    rw [entry_cons] at h
    unfold setEntry
    split_ifs at h ⊢ with hk
    · obtain rfl := Option.some.inj h
      simp only [oversizedEntries, hu, hw]
    · simp only [oversizedEntries, oversizedEntries_setEntry hu hw h]

theorem movableBlob_setEntry_attachment (r : AttachmentRef) {es : List (Value × Value)} {w : Value}
    (h : entry es "blob" = some w) :
    movableBlob threshold (setEntry "blob" (attachmentValue r) es) = none := by
  unfold movableBlob
  rw [entry_setEntry_self h]
  split_ifs <;> rfl

theorem entry_walkDetachEntries (key : String) (es : List (Value × Value)) (ids : List Nat) :
    ∃ ids', entry (walkDetachEntries digest threshold es ids).1 key =
      (entry es key).map fun v => (walkDetach digest threshold v ids').1 := by
  induction es generalizing ids with
  | nil => exact ⟨ids, rfl⟩
  | cons e es ih =>
    rcases e with ⟨k, v⟩
    simp only [walkDetachEntries, entry_cons]
    split_ifs
    · exact ⟨ids, rfl⟩
    · exact ih _

/-- It makes no blob movable. -/
theorem movableBlob_walkDetachEntries {es : List (Value × Value)}
    (h : movableBlob threshold es = none) (ids : List Nat) :
    movableBlob threshold (walkDetachEntries digest threshold es ids).1 = none := by
  obtain ⟨ids', hblob⟩ := entry_walkDetachEntries digest threshold "blob" es ids
  unfold movableBlob at h ⊢
  rw [EntriesAlike.isDatum (entriesAlike_walkDetachEntries digest threshold es ids), hblob]
  split_ifs at h ⊢ with hdatum
  · rcases hentry : entry es "blob" with _ | v
    · rfl
    rw [hentry] at h
    cases v with
    | binary bytes => exact h
    | map entries =>
      rw [Option.map_some, walkDetach]
      cases movableBlob threshold entries <;> rfl
    | _ => rfl
  · rfl

theorem oversizedEntries_eq (es : List (Value × Value)) :
    oversizedEntries threshold es = oversized threshold (.array (es.map Prod.snd)) := by
  induction es with
  | nil => rfl
  | cons e es ih => exact congrArg (oversized threshold e.2 || ·) ih

theorem nestsOversizedEntries_eq (es : List (Value × Value)) :
    nestsOversizedEntries threshold es = nestsOversized threshold (.array (es.map Prod.snd)) := by
  induction es with
  | nil => rfl
  | cons e es ih => exact congrArg (nestsOversized threshold e.2 || ·) ih

theorem oversized_walkDetach (v : Value) (ids : List Nat) :
    oversized threshold (walkDetach digest threshold v ids).1 = nestsOversized threshold v := by
  induction v using Value.induction generalizing ids with
  | leaf v hv =>
    cases v with
    | array | map => cases hv
    | _ => rfl
  | nil => rfl
  | cons v items ihv ihitems => exact congrArg₂ (· || ·) (ihv ids) (ihitems _)
  | map es ih =>
    unfold walkDetach nestsOversized
    rcases hb : movableBlob threshold es with _ | bytes
    · simp only [oversized, movableBlob_walkDetachEntries digest threshold hb, oversizedEntries_eq,
        map_snd_walkDetachEntries, nestsOversizedEntries_eq]
      exact ih ids
    have hblob := (entry_blob_of_movableBlob hb).2.1
    simp only [oversized, movableBlob_setEntry_attachment threshold _ hblob,
      oversizedEntries_setEntry threshold (u := .binary bytes) rfl
        (oversized_attachmentValue threshold _) hblob]
    rfl

/-! ### What `refs` announces -/

mutual

/-- For each blob that `detach` moves: does it lie below a datum that has a reference already? -/
def sheltered : Value → List Bool
  | .map entries =>
    match movableBlob threshold entries with
    | some _ => [false]
    | none =>
      if (datumRef entries).isSome then
        List.replicate (blobsEntries threshold entries).length true
      else shelteredEntries entries
  | .array items => shelteredItems items
  | _ => []

def shelteredEntries : List (Value × Value) → List Bool
  | [] => []
  | (_, v) :: entries => sheltered v ++ shelteredEntries entries

def shelteredItems : List Value → List Bool
  | [] => []
  | v :: items => sheltered v ++ shelteredItems items

end

theorem shelteredEntries_eq (es : List (Value × Value)) :
    shelteredEntries threshold es = sheltered threshold (.array (es.map Prod.snd)) := by
  induction es with
  | nil => rfl
  | cons e es ih => exact congrArg (sheltered threshold e.2 ++ ·) ih

theorem sheltered_leaf {v : Value} (h : v.isLeaf = true) : sheltered threshold v = [] := by
  cases v with
  | array | map => cases h
  | _ => rfl

theorem sheltered_cons (v : Value) (items : List Value) :
    sheltered threshold (.array (v :: items)) =
      sheltered threshold v ++ sheltered threshold (.array items) := rfl

theorem length_sheltered (v : Value) :
    (sheltered threshold v).length = (blobs threshold v).length := by
  induction v using Value.induction with
  | leaf v hv => simp [sheltered_leaf threshold hv, blobs_leaf threshold hv]
  | nil => rfl
  | cons v items hv hitems =>
    rw [sheltered_cons, blobs_cons, List.length_append, List.length_append, hv, hitems]
  | map es ih =>
    unfold sheltered blobs
    cases movableBlob threshold es with
    | some bytes => rfl
    | none =>
      split_ifs
      · exact List.length_replicate
      · rw [shelteredEntries_eq, blobsEntries_eq, ih]

/-- The streams that are referred to are those of before and the ids that are not sheltered. -/
def Announces (before after : List AttachmentRef) (ids : List (Nat × Bool)) : Prop :=
  (∀ x, (x, false) ∈ ids → x ∈ after.map (·.stream)) ∧
    ∀ x ∈ after.map (·.stream), x ∈ before.map (·.stream) ∨ (x, false) ∈ ids

theorem announces_self (rs : List AttachmentRef) : Announces rs rs [] :=
  ⟨nofun, fun _ hx => .inl hx⟩

theorem Announces.append {before before' after after' : List AttachmentRef}
    {ids ids' : List (Nat × Bool)} (h : Announces before after ids)
    (h' : Announces before' after' ids') :
    Announces (before ++ before') (after ++ after') (ids ++ ids') := by
  constructor
  · intro x hx
    rw [List.map_append, List.mem_append]
    rcases List.mem_append.mp hx with hx | hx
    · exact .inl (h.1 x hx)
    · exact .inr (h'.1 x hx)
  · intro x hx
    rw [List.map_append, List.mem_append] at hx ⊢
    rw [List.mem_append]
    rcases hx with hx | hx
    · exact (h.2 x hx).imp .inl .inl
    · exact (h'.2 x hx).imp .inr .inr

theorem announces_walkDetach (v : Value) (ids : List Nat)
    (hlen : (blobs threshold v).length ≤ ids.length) (hids : ∀ id ∈ ids, id < 2 ^ 32) :
    Announces (refs v) (refs (walkDetach digest threshold v ids).1)
      (ids.zip (sheltered threshold v)) := by
  induction v using Value.induction generalizing ids with
  | leaf v hv =>
    rw [walkDetach_leaf digest threshold hv, refs_leaf hv, sheltered_leaf threshold hv,
      List.zip_nil_right]
    exact announces_self []
  | nil => cases ids <;> exact announces_self []
  | cons v items ihv ihitems =>
    rw [blobs_cons, List.length_append] at hlen
    have hout := walkDetach_out digest threshold v ids (by omega)
    have hv := ihv ids (by omega) hids
    have hitems := ihitems (ids.drop (blobs threshold v).length)
      (by rw [List.length_drop]; omega) (mem_of_mem_drop_lt hids)
    rw [sheltered_cons, List.zip, zipWith_append_right, length_sheltered, refs_walkDetach_cons,
      hout]
    exact hv.append hitems
  | map es ih =>
    unfold blobs at hlen
    unfold walkDetach sheltered
    cases hb : movableBlob threshold es with
    | some bytes =>
      rw [hb] at hlen
      rcases ids with _ | ⟨id, _⟩
      · cases hlen
      have hd := datumRef_setEntry_blob digest threshold hb (hids id (by simp))
      simp only [refs, List.headD_cons, hd]
      constructor
      · intro x hx
        simpa [blobRef] using hx
      · intro x hx
        right
        simpa [blobRef] using hx
    | none =>
      rw [hb] at hlen
      have hd := EntriesAlike.datumRef (entriesAlike_walkDetachEntries digest threshold es ids)
      simp only [refs, hd]
      rcases hr : datumRef es with _ | _
      · simp only [refsEntries_eq, map_snd_walkDetachEntries, blobsEntries_eq, shelteredEntries_eq]
          at hlen ⊢
        exact ih ids hlen hids
      -- what is moved from below this datum is not announced
      refine ⟨fun x hx => ?_, fun x hx => .inl hx⟩
      obtain ⟨-, hmem⟩ := List.of_mem_zip hx
      cases List.eq_of_mem_replicate hmem

/-- A blob gets its id and its flag in one place. -/
theorem exists_flag {ids : List Nat} {v : Value} (hlen : (blobs threshold v).length ≤ ids.length)
    {d : Detached} (hd : d ∈ detachedAs digest ids (blobs threshold v)) :
    ∃ flag, (d.stream, flag) ∈ ids.zip (sheltered threshold v) := by
  have hx := stream_mem_take digest hlen hd
  obtain ⟨i, hi, hix⟩ := List.mem_iff_getElem.mp hx
  have hi' : i < (blobs threshold v).length := by
    rw [List.length_take] at hi
    omega
  have hflag : i < (sheltered threshold v).length := by rwa [length_sheltered]
  refine ⟨(sheltered threshold v)[i], List.mem_iff_getElem.mpr ⟨i, ?_, ?_⟩⟩
  · rw [List.length_zip]
    omega
  · rw [List.getElem_zip, ← hix, List.getElem_take]

/-- A flag belongs to a blob that was moved. -/
theorem exists_detached {ids : List Nat} {v : Value}
    (hlen : (blobs threshold v).length ≤ ids.length) (h : true ∈ sheltered threshold v) :
    ∃ d ∈ detachedAs digest ids (blobs threshold v),
      (d.stream, true) ∈ ids.zip (sheltered threshold v) := by
  obtain ⟨i, hi, hflag⟩ := List.mem_iff_getElem.mp h
  have hi' : i < (blobs threshold v).length := by rwa [← length_sheltered]
  have hids : i < ids.length := by omega
  refine ⟨⟨ids[i], (blobs threshold v)[i], digest (blobs threshold v)[i]⟩, ?_, ?_⟩
  · refine List.mem_iff_getElem.mpr ⟨i, ?_, ?_⟩
    · rw [detachedAs, List.length_zipWith]
      omega
    · simp only [detachedAs, List.getElem_zipWith]
  · refine List.mem_iff_getElem.mpr ⟨i, ?_, ?_⟩
    · rw [List.length_zip]
      omega
    · rw [List.getElem_zip, hflag]

/-- Of distinct ids, each has one flag. -/
theorem flag_unique {ids : List Nat} (hnodup : ids.Nodup) {flags : List Bool} {x : Nat}
    {a b : Bool} (ha : (x, a) ∈ ids.zip flags) (hb : (x, b) ∈ ids.zip flags) : a = b := by
  obtain ⟨i, hi, hia⟩ := List.mem_iff_getElem.mp ha
  obtain ⟨j, hj, hjb⟩ := List.mem_iff_getElem.mp hb
  rw [List.getElem_zip, Prod.mk.injEq] at hia hjb
  have hij : i = j := (hnodup.getElem_inj_iff).mp (hia.1.trans hjb.1.symm)
  subst hij
  exact hia.2.symm.trans hjb.2

/-- Nothing oversized is left inline, and each blob that was moved is announced. -/
def Complete (v : Value) (ds : List Detached) : Prop :=
  oversized threshold v = false ∧ ∀ d ∈ ds, d.stream ∈ (refs v).map (·.stream)

/-- **When `detach` is complete**: if no oversized blob lies below a datum whose own blob is
oversized or a reference already.  If one does, then it is not, whatever new ids are taken. -/
theorem detach_complete_iff (v : Value) (ids : List Nat)
    (hlen : (blobs threshold v).length ≤ ids.length) (hids : ∀ id ∈ ids, id < 2 ^ 32) :
    (nestsOversized threshold v = false ∧ true ∉ sheltered threshold v →
      Complete threshold (detach digest threshold v ids).1 (detach digest threshold v ids).2) ∧
    (ids.Nodup → (∀ id ∈ ids, id ∉ (refs v).map (·.stream)) →
      Complete threshold (detach digest threshold v ids).1 (detach digest threshold v ids).2 →
      nestsOversized threshold v = false ∧ true ∉ sheltered threshold v) := by
  have hinline : oversized threshold (detach digest threshold v ids).1 =
      nestsOversized threshold v := oversized_walkDetach digest threshold v ids
  have hout := detach_snd digest threshold hlen
  have hann : Announces (refs v) (refs (detach digest threshold v ids).1)
      (ids.zip (sheltered threshold v)) := announces_walkDetach digest threshold v ids hlen hids
  unfold Complete
  rw [hinline, hout]
  constructor
  · rintro ⟨hnests, hshelter⟩
    refine ⟨hnests, fun d hd => ?_⟩
    obtain ⟨flag, hflag⟩ := exists_flag digest threshold hlen hd
    cases flag with
    | false => exact hann.1 d.stream hflag
    | true => exact absurd (List.of_mem_zip hflag).2 hshelter
  · rintro hnodup hnew ⟨hnests, hall⟩
    refine ⟨hnests, fun hshelter => ?_⟩
    obtain ⟨d, hd, hflag⟩ := exists_detached digest threshold hlen hshelter
    rcases hann.2 d.stream (hall d hd) with hold | hflag'
    · exact hnew d.stream (List.of_mem_zip hflag).1 hold
    · exact absurd (flag_unique hnodup hflag hflag') (by decide)

theorem detach_complete_iff_twoFiles :
    nestsOversized 1 (.array [fileDatum [1, 2], fileDatum [3]]) = false ∧
    true ∉ sheltered 1 (.array [fileDatum [1, 2], fileDatum [3]]) ∧
    Complete 1 (detach (fun _ => "b") 1 (.array [fileDatum [1, 2], fileDatum [3]]) [7]).1
      [⟨7, [1, 2], "b"⟩] :=
  ⟨rfl, by decide, (detach_complete_iff (fun _ => "b") 1 (.array [fileDatum [1, 2], fileDatum [3]])
    [7] (by decide) (by decide)).1 ⟨rfl, by decide⟩⟩

/-- A file with its bytes under `blob`, and another file under a key of its own. -/
def fileWith (blob : Value) (bytes : List UInt8) : Value :=
  .map [(.ofStr "kind", .ofStr "file"), (.ofStr "blob", blob),
    (.ofStr "thumbnail", fileDatum bytes)]

/-- The file below one that is moved stays inline; the one below a reference is moved, and `refs`
does not find it. -/
theorem detach_incomplete :
    oversized 1 (detach (fun _ => "b") 1 (fileWith (.binary [1, 2]) [3, 4]) [7, 9]).1 = true ∧
    (detach (fun _ => "b") 1 (fileWith (attachmentValue ⟨5, 2, none, 0⟩) [3, 4]) [7]).2 =
      [⟨7, [3, 4], "b"⟩] ∧
    (refs (detach (fun _ => "b") 1 (fileWith (attachmentValue ⟨5, 2, none, 0⟩) [3, 4])
      [7]).1).map (·.stream) = [5] :=
  ⟨rfl, rfl, rfl⟩

end Zyris.Proto
