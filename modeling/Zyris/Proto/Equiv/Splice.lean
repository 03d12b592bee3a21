import Mathlib.Data.List.Nodup
import Zyris.Proto.Equiv.Attach

/-!
# Splicing in any order

The blobs that `detach` moved out are spliced back as they are complete.  What a value looks like in
between depends only on which of them are back: `detachBut` is `detach` for all the blobs but those
whose ids are given.
-/

namespace Zyris.Proto

variable (digest : List UInt8 → String) (threshold : Nat) (back : List Nat)

mutual

/-- `detach`, and then the blobs whose ids are in `back` put back. -/
def detachBut : Value → List Nat → Value
  | .map entries, ids =>
    match movableBlob threshold entries with
    | some bytes =>
      if ids.headD 0 ∈ back then .map entries
      else .map (setEntry "blob" (attachmentValue (blobRef digest (ids.headD 0) bytes)) entries)
    | none => .map (detachButEntries entries ids)
  | .array items, ids => .array (detachButItems items ids)
  | v, _ => v

def detachButEntries : List (Value × Value) → List Nat → List (Value × Value)
  | [], _ => []
  | (k, v) :: entries, ids =>
    (k, detachBut v ids) :: detachButEntries entries (ids.drop (blobs threshold v).length)

def detachButItems : List Value → List Nat → List Value
  | [], _ => []
  | v :: items, ids =>
    detachBut v ids :: detachButItems items (ids.drop (blobs threshold v).length)

end

variable {threshold} {es : List (Value × Value)} {bytes : List UInt8}

theorem detachBut_of_movable (h : movableBlob threshold es = some bytes) (id : Nat)
    (ids : List Nat) : detachBut digest threshold back (.map es) (id :: ids) =
      if id ∈ back then .map es
      else .map (setEntry "blob" (attachmentValue (blobRef digest id bytes)) es) := by
  unfold detachBut
  rw [h]
  rfl

theorem detachBut_of_not_movable (h : movableBlob threshold es = none) (ids : List Nat) :
    detachBut digest threshold back (.map es) ids =
      .map (detachButEntries digest threshold back es ids) := by
  unfold detachBut
  rw [h]

variable (threshold)

theorem detachBut_leaf {v : Value} (h : v.isLeaf = true) (ids : List Nat) :
    detachBut digest threshold back v ids = v := by
  cases v with
  | array | map => cases h
  | _ => rfl

theorem detachButEntries_eq (es : List (Value × Value)) (ids : List Nat) :
    detachButEntries digest threshold back es ids =
      rekey es (detachButItems digest threshold back (es.map Prod.snd) ids) := by
  induction es generalizing ids with
  | nil => rfl
  | cons e es ih => exact congrArg (_ :: ·) (ih _)

theorem spliceEntries_detachBut (x : Nat) (b : List UInt8) (es : List (Value × Value))
    (ids : List Nat) :
    spliceEntries x b (detachButEntries digest threshold back es ids) =
      (rekey es (spliceItems x b (detachButItems digest threshold back (es.map Prod.snd) ids)).1,
        (spliceItems x b (detachButItems digest threshold back (es.map Prod.snd) ids)).2) := by
  induction es generalizing ids with
  | nil => rfl
  | cons e es ih =>
    simp only [detachButEntries, spliceEntries, List.map_cons, detachButItems, spliceItems, ih]
    cases splice x b (detachBut digest threshold back e.2 ids) with
    | mk v hit =>
      cases hit with
      | true => exact congrArg (fun es => ((e.1, v) :: es, true)) (detachButEntries_eq ..)
      | false => rfl

/-! ### Nothing back, everything back -/

theorem detachBut_nil (v : Value) (ids : List Nat)
    (h : (blobs threshold v).length ≤ ids.length) :
    detachBut digest threshold [] v ids = (walkDetach digest threshold v ids).1 := by
  induction v using Value.induction generalizing ids with
  | leaf v hv => rw [detachBut_leaf digest threshold [] hv, walkDetach_leaf digest threshold hv]
  | nil => rfl
  | cons v items ihv ihitems =>
    rw [blobs_cons, List.length_append] at h
    have hout := walkDetach_out digest threshold v ids (by omega)
    have hv := ihv ids (by omega)
    have hitems := ihitems (ids.drop (blobs threshold v).length)
      (by rw [List.length_drop]; omega)
    simp only [detachBut, walkDetach, Value.array.injEq] at hitems
    simp only [detachBut, detachButItems, walkDetach, walkDetachItems, hout, hv, hitems]
  | map es ih =>
    unfold blobs at h
    unfold walkDetach
    cases hb : movableBlob threshold es with
    | some bytes =>
      unfold detachBut
      rw [hb]
      exact if_neg List.not_mem_nil
    | none =>
      rw [hb] at h
      rw [detachBut_of_not_movable digest [] hb]
      simp only [walkDetachEntries_eq, blobsEntries_eq, detachButEntries_eq] at h ⊢
      rw [Value.array.inj (ih ids h)]

variable {back}

theorem detachBut_of_forall_mem (v : Value) (ids : List Nat)
    (hlen : (blobs threshold v).length ≤ ids.length)
    (h : ∀ id ∈ ids.take (blobs threshold v).length, id ∈ back) :
    detachBut digest threshold back v ids = v := by
  induction v using Value.induction generalizing ids with
  | leaf v hv => exact detachBut_leaf digest threshold back hv ids
  | nil => rfl
  | cons v items ihv ihitems =>
    simp only [blobs_cons, List.length_append, List.take_add, List.mem_append] at hlen h
    have hv := ihv ids (by omega) fun id hid => h id (.inl hid)
    have hitems := ihitems (ids.drop (blobs threshold v).length)
      (by rw [List.length_drop]; omega) fun id hid => h id (.inr hid)
    exact congrArg Value.array (List.cons_eq_cons.mpr ⟨hv, Value.array.inj hitems⟩)
  | map es ih =>
    unfold blobs at hlen h
    rcases hb : movableBlob threshold es with _ | _
    · rw [hb] at hlen h
      simp only [blobsEntries_eq] at hlen h
      rw [detachBut_of_not_movable digest back hb, detachButEntries_eq,
        Value.array.inj (ih ids hlen h), rekey_map_snd]
    rw [hb] at hlen h
    cases ids with
    | nil => cases hlen
    | cons id ids => rw [detachBut_of_movable digest back hb, if_pos (h id (by simp))]

/-! ### Only the ids of the value count -/

theorem detachBut_congr {back' : List Nat} (v : Value) (ids : List Nat)
    (hlen : (blobs threshold v).length ≤ ids.length)
    (h : ∀ id ∈ ids.take (blobs threshold v).length, id ∈ back ↔ id ∈ back') :
    detachBut digest threshold back v ids = detachBut digest threshold back' v ids := by
  induction v using Value.induction generalizing ids with
  | leaf v hv => rw [detachBut_leaf digest threshold _ hv, detachBut_leaf digest threshold _ hv]
  | nil => rfl
  | cons v items ihv ihitems =>
    simp only [blobs_cons, List.length_append, List.take_add, List.mem_append] at hlen h
    have hv := ihv ids (by omega) fun id hid => h id (.inl hid)
    have hitems := ihitems (ids.drop (blobs threshold v).length)
      (by rw [List.length_drop]; omega) fun id hid => h id (.inr hid)
    exact congrArg Value.array (List.cons_eq_cons.mpr ⟨hv, Value.array.inj hitems⟩)
  | map es ih =>
    unfold blobs at hlen h
    rcases hb : movableBlob threshold es with _ | _
    · rw [hb] at hlen h
      simp only [blobsEntries_eq] at hlen h
      rw [detachBut_of_not_movable digest _ hb, detachBut_of_not_movable digest _ hb,
        detachButEntries_eq, detachButEntries_eq, Value.array.inj (ih ids hlen h)]
    rw [hb] at hlen h
    cases ids with
    | nil => cases hlen
    | cons id ids =>
      rw [detachBut_of_movable digest _ hb, detachBut_of_movable digest _ hb]
      exact if_congr (h id (by simp)) rfl rfl

/-! ### What `splice` finds -/

variable (back)

mutual

theorem alike_detachBut : (v : Value) → (ids : List Nat) → (n : Nat) →
    Alike n v (detachBut digest threshold back v ids)
  | .nil, _, n | .boolean _, _, n | .integer _, _, n | .f32 _, _, n | .f64 _, _, n
  | .string _, _, n | .binary _, _, n | .ext _ _, _, n => alike_refl n _
  | .array items, ids, n => by
    cases n with
    | zero => exact ⟨rfl, rfl⟩
    | succ n => exact ⟨⟨rfl, rfl⟩, trivial⟩
  | .map es, ids, n => by
    unfold detachBut
    split
    · split_ifs
      · exact alike_refl n _
      · exact alike_setEntry_blob n _ es
    · exact (entriesAlike_detachButEntries es ids).map n

theorem entriesAlike_detachButEntries : (es : List (Value × Value)) → (ids : List Nat) →
    EntriesAlike es (detachButEntries digest threshold back es ids)
  | [], _ => .nil
  | (_, v) :: es, ids =>
    .cons ⟨rfl, alike_detachBut v ids⟩ (entriesAlike_detachButEntries es _)

end

/-- A reference is no datum itself. -/
theorem refs_attachmentValue (r : AttachmentRef) : refs (attachmentValue r) = [] := by
  obtain ⟨stream, size, sha256, offset⟩ := r
  cases sha256 <;>
    simp [attachmentValue, refs, refsEntries, datumRef, isDatum, entry, asStr, Value.ofStr,
      Utf8String.asStr, Value.ofNat]

theorem refsEntries_setEntry_eq_nil (key : String) {w : Value} (hw : refs w = [])
    {es : List (Value × Value)} (h : refsEntries es = []) :
    refsEntries (setEntry key w es) = [] := by
  induction es with
  | nil => rfl
  | cons e es ih =>
    rcases e with ⟨k, v⟩
    obtain ⟨hv, hes⟩ := List.append_eq_nil_iff.mp h
    unfold setEntry
    split_ifs
    · exact List.append_eq_nil_iff.mpr ⟨hw, hes⟩
    · exact List.append_eq_nil_iff.mpr ⟨hv, ih hes⟩

theorem splice_detachBut_of_notMem {x : Nat} (b : List UInt8) (v : Value) (ids : List Nat)
    (hlen : (blobs threshold v).length ≤ ids.length) (hids : ∀ id ∈ ids, id < 2 ^ 32)
    (h : refs v = []) (hx : x ∈ ids.take (blobs threshold v).length → x ∈ back) :
    splice x b (detachBut digest threshold back v ids) =
      (detachBut digest threshold back v ids, false) := by
  induction v using Value.induction generalizing ids with
  | leaf v hv =>
    rw [detachBut_leaf digest threshold back hv]
    exact splice_leaf x b hv
  | nil => rfl
  | cons v items ihv ihitems =>
    simp only [blobs_cons, List.length_append, List.take_add, List.mem_append] at hlen hx
    obtain ⟨hv, hitems⟩ := List.append_eq_nil_iff.mp h
    have hv' := ihv ids (by omega) hids hv fun h => hx (.inl h)
    have hitems' := spliceItems_eq_of_splice (ihitems (ids.drop (blobs threshold v).length)
      (by rw [List.length_drop]; omega) (mem_of_mem_drop_lt hids) hitems fun h => hx (.inr h))
    simp only [detachBut, detachButItems, splice, spliceItems, hv', hitems', Bool.false_eq_true,
      if_false]
  | map es ih =>
    obtain ⟨hself, hrest⟩ := refs_map_eq_nil.mp h
    unfold blobs at hlen hx
    cases hb : movableBlob threshold es with
    | some bytes =>
      rw [hb] at hlen hx
      rcases ids with _ | ⟨id, _⟩
      · cases hlen
      rw [detachBut_of_movable digest back hb]
      split_ifs with hback
      · exact splice_of_refs_eq_nil x b (.map es) h
      have hd := datumRef_setEntry_blob digest threshold hb (hids id (by simp))
      have hne : (blobRef digest id bytes).stream ≠ x := by
        rintro rfl
        exact hback (hx (by simp [blobRef]))
      have hnil := refsEntries_setEntry_eq_nil "blob"
        (refs_attachmentValue (blobRef digest id bytes)) hrest
      simp only [splice, hd, if_neg hne, spliceEntries_of_refs_eq_nil x b hnil]
    | none =>
      rw [hb] at hlen hx
      have hd := (entriesAlike_detachButEntries digest threshold back es ids).datumRef.trans hself
      simp only [refsEntries_eq, blobsEntries_eq] at hlen hrest hx
      have hes := spliceItems_eq_of_splice (ih ids hlen hids hrest hx)
      rw [detachBut_of_not_movable digest back hb]
      simp only [splice, hd, spliceEntries_detachBut, hes, ← detachButEntries_eq]

/-! ### A blob comes back -/

theorem stream_mem_take {ids : List Nat} {bs : List (List UInt8)} {d : Detached}
    (hlen : bs.length ≤ ids.length) (hd : d ∈ detachedAs digest ids bs) :
    d.stream ∈ ids.take bs.length := by
  rw [← map_stream_detachedAs digest hlen]
  exact List.mem_map_of_mem hd

theorem notMem_of_mem_take {ids : List Nat} (h : ids.Nodup) {m n x : Nat} (hx : x ∈ ids.take m) :
    x ∉ (ids.drop m).take n := by
  intro hx'
  exact (List.disjoint_take_drop h (Nat.le_refl m)) hx (List.mem_of_mem_take hx')

theorem mem_cons_iff_of_notMem {x : Nat} {ids : List Nat} (h : x ∉ ids) :
    ∀ id ∈ ids, id ∈ back ↔ id ∈ x :: back := by
  intro id hid
  have hne : id ≠ x := fun heq => h (heq ▸ hid)
  simp [hne]

/-- A blob that is out is found, and comes back. -/
theorem splice_detachBut {d : Detached} (hback : d.stream ∉ back) (v : Value) (ids : List Nat)
    (hlen : (blobs threshold v).length ≤ ids.length) (hids : ∀ id ∈ ids, id < 2 ^ 32)
    (hnodup : ids.Nodup) (h : refs v = []) (hd : d ∈ detachedAs digest ids (blobs threshold v)) :
    splice d.stream d.bytes (detachBut digest threshold back v ids) =
      (detachBut digest threshold (d.stream :: back) v ids, true) := by
  induction v using Value.induction generalizing ids with
  | leaf v hv =>
    rw [blobs_leaf threshold hv] at hd
    cases ids <;> cases hd
  | nil => cases ids <;> cases hd
  | cons v items ihv ihitems =>
    rw [blobs_cons, List.length_append] at hlen
    rw [blobs_cons, detachedAs_append, List.mem_append] at hd
    obtain ⟨hv, hitems⟩ := List.append_eq_nil_iff.mp h
    have hlen' : (blobs threshold (.array items)).length ≤
        (ids.drop (blobs threshold v).length).length := by
      rw [List.length_drop]
      omega
    rcases hd with hd | hd
    · -- the blob is in the first value, and the others do not change
      have hx := stream_mem_take digest (by omega) hd
      have hv' := ihv ids (by omega) hids hnodup hv hd
      have hitems' := Value.array.inj (detachBut_congr digest threshold (.array items) _ hlen'
        (mem_cons_iff_of_notMem back (notMem_of_mem_take hnodup hx)))
      simp only [detachBut, detachButItems, splice, spliceItems, hv', hitems', if_true]
    · -- it is in one of the others: the first has nothing to find
      have hx := stream_mem_take digest hlen' hd
      have hx' : d.stream ∉ ids.take (blobs threshold v).length :=
        fun hmem => notMem_of_mem_take hnodup hmem hx
      have hv' := splice_detachBut_of_notMem digest threshold back d.bytes v ids
        (by omega) hids hv fun hmem => absurd hmem hx'
      have hsame := detachBut_congr digest threshold v ids (by omega)
        (mem_cons_iff_of_notMem back hx')
      rw [hsame] at hv'
      have hitems' := spliceItems_eq_of_splice (ihitems _ hlen' (mem_of_mem_drop_lt hids)
        (hnodup.sublist (List.drop_sublist _ _)) hitems hd)
      simp only [detachBut, detachButItems, splice, spliceItems, hv', hitems', hsame,
        Bool.false_eq_true, if_false]
  | map es ih =>
    obtain ⟨hself, hrest⟩ := refs_map_eq_nil.mp h
    unfold blobs at hlen hd
    cases hb : movableBlob threshold es with
    | some bytes =>
      rw [hb] at hlen hd
      rcases ids with _ | ⟨id, _⟩
      · cases hlen
      obtain rfl : d = ⟨id, bytes, digest bytes⟩ := by simpa [detachedAs] using hd
      have hdatum := datumRef_setEntry_blob digest threshold hb (hids id (by simp))
      have hundo := setEntry_setEntry
        (v := attachmentValue (blobRef digest id bytes)) (entry_blob_of_movableBlob hb).2.1
      rw [detachBut_of_movable digest back hb, if_neg hback,
        detachBut_of_movable digest (id :: back) hb, if_pos List.mem_cons_self]
      simp only [splice, hdatum, hundo]
      exact if_pos rfl
    | none =>
      rw [hb] at hlen hd
      have hdatum :=
        (entriesAlike_detachButEntries digest threshold back es ids).datumRef.trans hself
      simp only [refsEntries_eq, blobsEntries_eq] at hlen hrest hd
      have hes := spliceItems_eq_of_splice (ih ids hlen hids hnodup hrest hd)
      rw [detachBut_of_not_movable digest back hb, detachBut_of_not_movable digest _ hb]
      simp only [splice, hdatum, spliceEntries_detachBut, hes, ← detachButEntries_eq]

variable {back}

/-! ### Any order -/

/-- Splicing the blobs that are out, in whatever order, one after the other. -/
theorem restores_detachBut {v : Value} {ids : List Nat}
    (hlen : (blobs threshold v).length ≤ ids.length) (hids : ∀ id ∈ ids, id < 2 ^ 32)
    (hnodup : ids.Nodup) (h : refs v = []) {ds : List Detached}
    (hds : (ds.map (·.stream)).Nodup)
    (hout : ∀ d ∈ ds, d ∈ detachedAs digest ids (blobs threshold v) ∧ d.stream ∉ back)
    (hrest : ∀ d ∈ detachedAs digest ids (blobs threshold v), d ∈ ds ∨ d.stream ∈ back) :
    Restores splice ds (detachBut digest threshold back v ids) v := by
  induction ds generalizing back with
  | nil =>
    have hall : ∀ id ∈ ids.take (blobs threshold v).length, id ∈ back := by
      intro id hid
      rw [← map_stream_detachedAs digest hlen] at hid
      obtain ⟨d, hd, rfl⟩ := List.mem_map.mp hid
      exact (hrest d hd).resolve_left List.not_mem_nil
    rw [detachBut_of_forall_mem digest threshold v ids hlen hall]
    exact .nil v
  | cons d ds ih =>
    obtain ⟨hd, hback⟩ := hout d List.mem_cons_self
    obtain ⟨hfirst, hds⟩ := List.nodup_cons.mp hds
    have hput := splice_detachBut digest threshold back hback v ids hlen hids hnodup h hd
    refine .cons d ds _ _ _ hput (ih hds (fun e he => ?_) fun e he => ?_)
    · obtain ⟨hmem, hnot⟩ := hout e (List.mem_cons_of_mem d he)
      refine ⟨hmem, fun hin => ?_⟩
      rcases List.mem_cons.mp hin with heq | hin
      · exact hfirst (List.mem_map.mpr ⟨e, he, heq⟩)
      · exact hnot hin
    · rcases hrest e he with hmem | hin
      · rcases List.mem_cons.mp hmem with rfl | hmem
        · exact .inr List.mem_cons_self
        · exact .inl hmem
      · exact .inr (List.mem_cons_of_mem _ hin)

/-- **Detaching is undone by splicing.**  The references left behind are those of the blobs, in
order, each with its size and digest; and in whatever order the blobs come in, each is found and the
value they were taken out of is reached. -/
theorem detach_undone (v : Value) (ids : List Nat)
    (hlen : (blobs threshold v).length ≤ ids.length) (hids : ∀ id ∈ ids, id < 2 ^ 32)
    (hnodup : ids.Nodup) (h : refs v = []) :
    refs (detach digest threshold v ids).1 = (detach digest threshold v ids).2.map (fun d =>
      { stream := d.stream
        size := d.bytes.length % 2 ^ 64
        sha256 := some (digest d.bytes)
        offset := 0 }) ∧
    (∀ d ∈ (detach digest threshold v ids).2, d.sha256 = digest d.bytes) ∧
    ∀ ds, ds.Perm (detach digest threshold v ids).2 →
      Restores splice ds (detach digest threshold v ids).1 v := by
  obtain ⟨hout, hrefs⟩ := detach_spec digest threshold v ids hlen hids h
  refine ⟨hrefs, ?_, fun ds hperm => ?_⟩
  · rw [hout]
    intro d hd
    obtain ⟨i, hi, rfl⟩ := List.mem_iff_getElem.mp hd
    simp [detachedAs]
  rw [hout] at hperm
  have hstreams : (ds.map (·.stream)).Nodup := by
    rw [(hperm.map _).nodup_iff, map_stream_detachedAs digest hlen]
    exact hnodup.sublist (List.take_sublist _ _)
  show Restores splice ds (walkDetach digest threshold v ids).1 v
  rw [← detachBut_nil digest threshold v ids hlen]
  exact restores_detachBut digest threshold hlen hids hnodup h hstreams
    (fun d hd => ⟨hperm.mem_iff.mp hd, List.not_mem_nil⟩) fun d hd => .inl (hperm.mem_iff.mpr hd)

/-- A file with its bytes inline. -/
def fileDatum (bytes : List UInt8) : Value :=
  .map [(.ofStr "kind", .ofStr "file"), (.ofStr "blob", .binary bytes)]

theorem detach_undone_twoFiles :
    refs (.array [fileDatum [1, 2], fileDatum [3, 4, 5]]) = [] ∧
    Restores splice [⟨5, [3, 4, 5], "b"⟩, ⟨3, [1, 2], "b"⟩]
      (detach (fun _ => "b") 1 (.array [fileDatum [1, 2], fileDatum [3, 4, 5]]) [3, 5]).1
      (.array [fileDatum [1, 2], fileDatum [3, 4, 5]]) :=
  ⟨rfl, (detach_undone (fun _ => "b") 1 (.array [fileDatum [1, 2], fileDatum [3, 4, 5]]) [3, 5]
    (by decide) (by decide) (by decide) rfl).2.2 _ (.swap _ _ [])⟩

end Zyris.Proto
