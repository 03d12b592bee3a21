import Zyris.Proto.Blob

/-!
# The two readers of an attachment reference

`parse_attachment` reads the envelope by hand and serde reads it as a `Blob`.  The one truncates the
stream, takes the first of several entries and ignores what it cannot use; the other takes indices
and bytes for field names, arrays for structs and bytes for strings.  Both see the entries of a
field that serde counts, `given`, and they agree on envelopes that are written plainly.
-/

namespace Zyris.Proto

/-! ### The entries of a field -/

/-- The entries serde counts as the field number `i`. -/
def given (fields : List String) (i : Nat) (entries : List (Value × Value)) :
    List (Value × Value) :=
  entries.filter fun e => visitField fields e.1 = some (some i)

variable {fields : List String} {i : Nat} {k v : Value} {entries : List (Value × Value)}

@[simp] theorem given_nil : given fields i [] = [] := rfl

theorem given_cons_of_eq (h : visitField fields k = some (some i)) :
    given fields i ((k, v) :: entries) = (k, v) :: given fields i entries :=
  List.filter_cons_of_pos (by simpa using h)

theorem given_cons_of_ne (h : visitField fields k ≠ some (some i)) :
    given fields i ((k, v) :: entries) = given fields i entries :=
  List.filter_cons_of_neg (by simpa using h)

variable {slots : Nat → Option Value} {name : String} {n bits : Nat} {b : Value}
  {slot : Option Value}

/-- The loop of `visit_map` succeeds when every key names a field or is passed over and none comes
twice; each slot holds its field. -/
theorem visitMap_eq_some_iff {slots' : Nat → Option Value} :
    visitMap fields entries slots = some slots' ↔
      (∀ e ∈ entries, (visitField fields e.1).isSome) ∧
        ∀ i, (slots i).toList ++ (given fields i entries).map Prod.snd = (slots' i).toList := by
  induction entries generalizing slots with
  | nil =>
    constructor
    · intro h
      obtain rfl := Option.some.inj h
      exact ⟨fun e he => absurd he List.not_mem_nil, fun i => List.append_nil _⟩
    rintro ⟨-, h⟩
    refine congrArg some (funext fun i => ?_)
    have hi := h i
    rw [given_nil, List.map_nil, List.append_nil] at hi
    have hhead := congrArg List.head? hi
    rwa [Option.head?_toList, Option.head?_toList] at hhead
  | cons e entries ih =>
    obtain ⟨k, v⟩ := e
    rw [visitMap, List.forall_mem_cons]
    match hk : visitField fields k with
    | none => simp
    | some none =>
      -- a key that names no field
      have hgiven (i : Nat) : given fields i ((k, v) :: entries) = given fields i entries :=
        given_cons_of_ne (by simp [hk])
      simp only [hgiven, ih, Option.isSome_some, true_and]
    | some (some j) =>
      have hother {i : Nat} (hi : i ≠ j) :
          given fields i ((k, v) :: entries) = given fields i entries :=
        given_cons_of_ne (by rw [hk]; intro h; exact hi (Option.some.inj (Option.some.inj h)).symm)
      show (if (slots j).isSome then none else _) = _ ↔ _
      match hj : slots j with
      | some w =>
        -- the field comes a second time
        refine ⟨fun h => absurd h.symm (Option.some_ne_none _), ?_⟩
        rintro ⟨-, h⟩
        have hlen := congrArg List.length (h j)
        rw [hj, given_cons_of_eq hk] at hlen
        have hle : (slots' j).toList.length ≤ 1 := Option.length_toList_le
        simp only [Option.toList_some, List.map_cons, List.length_append, List.length_cons,
          List.length_nil] at hlen
        omega
      | none =>
        rw [if_neg (by simp), ih]
        refine and_congr (by simp) (forall_congr' fun i => ?_)
        by_cases hi : i = j
        · subst hi
          rw [Function.update_self, given_cons_of_eq hk, hj]
          rfl
        · rw [Function.update_of_ne hi, hother hi]

theorem lt_of_visitField (h : visitField fields k = some (some i)) : i < fields.length := by
  cases k with
  | string t =>
    cases t with
    | valid s | invalid bytes => exact (List.findIdx?_eq_some_iff_getElem.1 (Option.some.inj h)).1
  | binary bytes => exact (List.findIdx?_eq_some_iff_getElem.1 (Option.some.inj h)).1
  | integer j =>
    obtain ⟨n, -, hn⟩ := Option.map_eq_some_iff.1 h
    split_ifs at hn with hlt
    rwa [← Option.some.inj hn]
  | _ => cases h

theorem given_eq_nil_of_le (h : fields.length ≤ i) : given fields i entries = [] := by
  refine List.filter_eq_nil_iff.2 fun e _ => ?_
  intro he
  have hlt := lt_of_visitField (of_decide_eq_true he)
  omega

theorem exists_visitMap (hkeys : ∀ e ∈ entries, (visitField fields e.1).isSome)
    (hone : ∀ i < fields.length, (given fields i entries).length ≤ 1) :
    ∃ slots, visitMap fields entries (fun _ => none) = some slots ∧
      ∀ i, slots i = ((given fields i entries).map Prod.snd).head? := by
  refine ⟨fun i => ((given fields i entries).map Prod.snd).head?, ?_, fun i => rfl⟩
  refine visitMap_eq_some_iff.2 ⟨hkeys, fun i => ?_⟩
  have hle : (given fields i entries).length ≤ 1 := by
    by_cases hi : i < fields.length
    · exact hone i hi
    · rw [given_eq_nil_of_le (by omega)]
      exact Nat.zero_le _
  match given fields i entries, hle with
  | [], _ => rfl
  | [e], _ => rfl

theorem asStr_eq_some_iff {s : String} : asStr k = some s ↔ k = .ofStr s := by
  constructor
  · intro h
    cases k with
    | string t =>
      cases t with
      | valid t => rw [Option.some.inj h, Value.ofStr]
      | invalid bytes => cases h
    | _ => cases h
  · intro h
    rw [h, Value.ofStr, asStr, Utf8String.asStr]

theorem visitField_ofStr (fields : List String) (s : String) :
    visitField fields (.ofStr s) = some (fields.findIdx? (· = s)) := rfl

/-- The hand-written lookup finds the first entry of the field whose key is the string. -/
theorem entry_eq_find_given (h : fields.findIdx? (· = name) = some i) :
    entry entries name =
      ((given fields i entries).find? fun e => asStr e.1 = some name).map (·.2) := by
  unfold entry given
  rw [List.find?_filter]
  congr 2
  funext e
  by_cases he : asStr e.1 = some name
  · have hkey : visitField fields e.1 = some (some i) := by
      rw [asStr_eq_some_iff.1 he, visitField_ofStr, h]
    simp [he, hkey]
  · simp [he]

theorem entry_of_given (hf : fields.findIdx? (· = name) = some i)
    (h : given fields i entries = [(.ofStr name, v)]) : entry entries name = some v := by
  have hname : asStr (.ofStr name) = some name := asStr_eq_some_iff.2 rfl
  rw [entry_eq_find_given hf, h, List.find?_cons_of_pos (by simpa using hname), Option.map_some]

theorem entry_of_given_nil (hf : fields.findIdx? (· = name) = some i)
    (h : given fields i entries = []) : entry entries name = none := by
  rw [entry_eq_find_given hf, h, List.find?_nil, Option.map_none]

/-- The hand-written lookup sees a field given once when its key is the string. -/
theorem entry_of_given_single (hf : fields.findIdx? (· = name) = some i)
    (h : given fields i entries = [(k, v)]) :
    k = .ofStr name ∧ entry entries name = some v ∨ entry entries name = none := by
  by_cases hk : asStr k = some name
  · obtain rfl := asStr_eq_some_iff.1 hk
    exact .inl ⟨rfl, entry_of_given hf h⟩
  · refine .inr ?_
    rw [entry_eq_find_given hf, h, List.find?_cons_of_neg (by simpa using hk), List.find?_nil,
      Option.map_none]

/-! ### Numbers and strings -/

theorem asU64_eq_some_iff : asU64 v = some n ↔ v = .ofNat n ∧ n < 2 ^ 64 := by
  constructor
  · intro h
    cases v with
    | integer j =>
      obtain ⟨val, lo, hi⟩ := j
      simp only [asU64, Integer.asU64] at h
      split_ifs at h with hpos
      obtain rfl := Option.some.inj h
      have hlt : val.toNat < 2 ^ 64 := by omega
      refine ⟨?_, hlt⟩
      have hval : ((val.toNat % 2 ^ 64 : Nat) : Int) = val := by
        omega
      simp only [Value.ofNat, Integer.ofU64, hval]
    | _ => cases h
  · rintro ⟨rfl, hlt⟩
    rw [Value.ofNat, asU64, Integer.asU64_ofU64, Nat.mod_eq_of_lt hlt]

theorem readUint_eq_filter (bits : Nat) (v : Value) :
    readUint bits v = (asU64 v).filter (· < 2 ^ bits) := by
  cases v <;> rfl

theorem readUint_eq_some_iff (hbits : bits ≤ 64) :
    readUint bits v = some n ↔ v = .ofNat n ∧ n < 2 ^ bits := by
  have hle : 2 ^ bits ≤ 2 ^ 64 := Nat.pow_le_pow_right (by decide) hbits
  rw [readUint_eq_filter, Option.filter_eq_some_iff, asU64_eq_some_iff, decide_eq_true_eq]
  constructor
  · rintro ⟨⟨hv, -⟩, hlt⟩
    exact ⟨hv, hlt⟩
  · rintro ⟨hv, hlt⟩
    exact ⟨⟨hv, by omega⟩, hlt⟩

theorem readOption_readString_eq_none_iff : readOption readString v = some none ↔ v = .nil := by
  constructor
  · intro h
    cases v with
    | nil => rfl
    | _ => simp [readOption] at h
  · rintro rfl
    rfl

/-- The two readers of a string agree on nil and on strings only: serde also takes bytes. -/
theorem eq_of_readOption_readString (h : readOption readString v = some (asStr v)) :
    v = .nil ∨ ∃ s, v = .ofStr s := by
  match hv : asStr v with
  | some s => exact .inr ⟨s, asStr_eq_some_iff.1 hv⟩
  | none => exact .inl (readOption_readString_eq_none_iff.1 (by rw [h, hv]))

/-! ### The readers, inverted -/

variable {r : AttachmentRef} {inner : List (Value × Value)}

theorem parseAttachment_eq_some_iff :
    parseAttachment b = some r ↔ ∃ outer inner stream, b = .map outer ∧
      entry outer "attachment" = some (.map inner) ∧
      (entry inner "stream").bind asU64 = some stream ∧ r.stream = stream % 2 ^ 32 ∧
      (entry inner "size").bind asU64 = some r.size ∧
      r.sha256 = (entry inner "sha256").bind asStr ∧
      r.offset = ((entry inner "offset").bind asU64).getD 0 := by
  constructor
  · intro h
    cases b with
    | map outer =>
      simp only [parseAttachment] at h
      split at h
      · next inner hinner =>
        obtain ⟨stream, hstream, h⟩ := Option.bind_eq_some_iff.1 h
        obtain ⟨size, hsize, h⟩ := Option.bind_eq_some_iff.1 h
        obtain rfl := Option.some.inj h
        exact ⟨outer, inner, stream, rfl, hinner, hstream, rfl, hsize, rfl, rfl⟩
      · cases h
    | _ => cases h
  · rintro ⟨outer, inner, stream, rfl, hinner, hstream, hr, hsize, hsha, hoffset⟩
    obtain ⟨rstream, rsize, rsha, roffset⟩ := r
    simp only at hr hsize hsha hoffset
    simp only [parseAttachment, hinner, hstream, hsize, Option.bind_eq_bind, Option.bind_some]
    rw [hr, hsha, hoffset]
    rfl

theorem AttachmentRef.ofSlots_eq_some_iff :
    ofSlots slots = some r ↔
      (slots 0).bind (readUint 32) = some r.stream ∧ (slots 1).bind (readUint 64) = some r.size ∧
      ((slots 2).map (readOption readString)).getD (some none) = some r.sha256 ∧
      ((slots 3).map (readUint 64)).getD (some 0) = some r.offset := by
  constructor
  · intro h
    obtain ⟨stream, hstream, h⟩ := Option.bind_eq_some_iff.1 h
    obtain ⟨size, hsize, h⟩ := Option.bind_eq_some_iff.1 h
    obtain ⟨sha256, hsha, h⟩ := Option.bind_eq_some_iff.1 h
    obtain ⟨offset, hoffset, h⟩ := Option.bind_eq_some_iff.1 h
    obtain rfl := Option.some.inj h
    exact ⟨hstream, hsize, hsha, hoffset⟩
  · rintro ⟨hstream, hsize, hsha, hoffset⟩
    simp only [ofSlots, hstream, hsize, hsha, hoffset, Option.bind_eq_bind, Option.bind_some]
    rfl

theorem Blob.deserialize_eq_attachment_iff :
    deserialize b = some (.attachment r) ↔ ∃ outer w, b = .map outer ∧
      (∀ e ∈ outer, (visitField AttachmentEnvelope.fields e.1).isSome) ∧
      (given AttachmentEnvelope.fields 0 outer).map Prod.snd = [w] ∧
      AttachmentRef.deserialize w = some r := by
  constructor
  · intro h
    cases b with
    | map outer =>
      obtain ⟨r', hr, heq⟩ := Option.map_eq_some_iff.1 h
      obtain rfl := Blob.attachment.inj heq
      obtain ⟨slots, hslots, hr⟩ := Option.bind_eq_some_iff.1 hr
      obtain ⟨w, hw, hr⟩ := Option.bind_eq_some_iff.1 hr
      obtain ⟨hkeys, hgiven⟩ := visitMap_eq_some_iff.1 hslots
      have h0 := hgiven 0
      rw [hw] at h0
      exact ⟨outer, w, rfl, hkeys, h0, hr⟩
    | string t =>
      cases t with
      | valid t =>
        obtain ⟨bytes, -, heq⟩ := Option.map_eq_some_iff.1 h
        cases heq
      | invalid bytes => cases h
    | _ => cases h
  · rintro ⟨outer, w, rfl, hkeys, hgiven, hr⟩
    obtain ⟨slots, hslots, hhead⟩ := exists_visitMap hkeys fun i hi => by
      -- the envelope has one field
      obtain rfl : i = 0 := Nat.lt_one_iff.1 hi
      rw [← List.length_map, hgiven, List.length_singleton]
    have hw : slots 0 = some w := by rw [hhead, hgiven, List.head?_cons]
    refine Option.map_eq_some_iff.2 ⟨r, ?_, rfl⟩
    refine Option.bind_eq_some_iff.2 ⟨slots, hslots, ?_⟩
    rw [hw, Option.bind_some, hr]

theorem AttachmentRef.deserialize_map_eq_some_iff :
    deserialize (.map inner) = some r ↔
      ∃ slots, visitMap AttachmentRef.fields inner (fun _ => none) = some slots ∧
        ofSlots slots = some r := by
  rw [deserialize, visitStruct, Option.bind_eq_some_iff]

/-! ### Plain envelopes -/

theorem index_attachment : AttachmentEnvelope.fields.findIdx? (· = "attachment") = some 0 := by
  decide

theorem index_stream : AttachmentRef.fields.findIdx? (· = "stream") = some 0 := by decide

theorem index_size : AttachmentRef.fields.findIdx? (· = "size") = some 1 := by decide

theorem index_sha256 : AttachmentRef.fields.findIdx? (· = "sha256") = some 2 := by decide

theorem index_offset : AttachmentRef.fields.findIdx? (· = "offset") = some 3 := by decide

/-- The entries of a reference: each field once, under its own name, with a number that fits or a
string.  No digest and an offset of zero may also be left out, or be named by an index or by bytes
as only serde reads them. -/
structure PlainRef (inner : List (Value × Value)) (r : AttachmentRef) : Prop where
  keys : ∀ e ∈ inner, (visitField AttachmentRef.fields e.1).isSome
  stream : given AttachmentRef.fields 0 inner = [(.ofStr "stream", .ofNat r.stream)]
  stream_lt : r.stream < 2 ^ 32
  size : given AttachmentRef.fields 1 inner = [(.ofStr "size", .ofNat r.size)]
  size_lt : r.size < 2 ^ 64
  sha256 : (∃ s, r.sha256 = some s ∧
      given AttachmentRef.fields 2 inner = [(.ofStr "sha256", .ofStr s)]) ∨
    r.sha256 = none ∧ (given AttachmentRef.fields 2 inner = [] ∨
      ∃ k, given AttachmentRef.fields 2 inner = [(k, .nil)])
  offset : given AttachmentRef.fields 3 inner = [(.ofStr "offset", .ofNat r.offset)] ∨
    r.offset = 0 ∧ (given AttachmentRef.fields 3 inner = [] ∨
      ∃ k, given AttachmentRef.fields 3 inner = [(k, .ofNat 0)])
  offset_lt : r.offset < 2 ^ 64

/-- An envelope with one attachment that is the plain entries of a reference. -/
def PlainEnvelope (b : Value) (r : AttachmentRef) : Prop :=
  ∃ outer inner, b = .map outer ∧
    (∀ e ∈ outer, (visitField AttachmentEnvelope.fields e.1).isSome) ∧
    given AttachmentEnvelope.fields 0 outer = [(.ofStr "attachment", .map inner)] ∧
    PlainRef inner r

theorem exists_given_of_slot (hg : (given fields i entries).map Prod.snd = slot.toList)
    (hs : slot = some v) : ∃ k, given fields i entries = [(k, v)] := by
  rw [hs, Option.toList_some, List.map_eq_singleton_iff] at hg
  obtain ⟨⟨k, v'⟩, hgiven, rfl⟩ := hg
  exact ⟨k, hgiven⟩

theorem given_eq_nil_of_slot (hg : (given fields i entries).map Prod.snd = slot.toList)
    (hs : slot = none) : given fields i entries = [] := by
  rwa [hs, Option.toList_none, List.map_eq_nil_iff] at hg

theorem given_of_required {m : Nat} (hf : fields.findIdx? (· = name) = some i) (hbits : bits ≤ 64)
    (hg : (given fields i entries).map Prod.snd = slot.toList)
    (hslot : slot.bind (readUint bits) = some n)
    (hentry : (entry entries name).bind asU64 = some m) :
    given fields i entries = [(.ofStr name, .ofNat n)] ∧ n < 2 ^ bits := by
  obtain ⟨v, hs, hv⟩ := Option.bind_eq_some_iff.1 hslot
  obtain ⟨rfl, hlt⟩ := (readUint_eq_some_iff hbits).1 hv
  obtain ⟨k, hk⟩ := exists_given_of_slot hg hs
  obtain ⟨rfl, -⟩ | hnone := entry_of_given_single hf hk
  · exact ⟨hk, hlt⟩
  · rw [hnone] at hentry
    cases hentry

theorem plain_sha256 {sha256 : Option String}
    (hg : (given AttachmentRef.fields 2 inner).map Prod.snd = slot.toList)
    (hslot : (slot.map (readOption readString)).getD (some none) = some sha256)
    (hentry : sha256 = (entry inner "sha256").bind asStr) :
    (∃ s, sha256 = some s ∧ given AttachmentRef.fields 2 inner = [(.ofStr "sha256", .ofStr s)]) ∨
      sha256 = none ∧ (given AttachmentRef.fields 2 inner = [] ∨
        ∃ k, given AttachmentRef.fields 2 inner = [(k, .nil)]) := by
  match hs : slot with
  | none =>
    have hnil := given_eq_nil_of_slot hg rfl
    rw [entry_of_given_nil index_sha256 hnil] at hentry
    exact .inr ⟨hentry, .inl hnil⟩
  | some v =>
    obtain ⟨k, hk⟩ := exists_given_of_slot hg rfl
    obtain ⟨rfl, he⟩ | he := entry_of_given_single index_sha256 hk
    · -- both read the same value, and read it alike
      rw [he, Option.bind_some] at hentry
      subst hentry
      obtain rfl | ⟨s, rfl⟩ := eq_of_readOption_readString hslot
      · exact .inr ⟨rfl, .inr ⟨_, hk⟩⟩
      · exact .inl ⟨s, rfl, hk⟩
    · rw [he, Option.bind_none] at hentry
      subst hentry
      obtain rfl := readOption_readString_eq_none_iff.1 hslot
      exact .inr ⟨rfl, .inr ⟨k, hk⟩⟩

theorem plain_offset {offset : Nat}
    (hg : (given AttachmentRef.fields 3 inner).map Prod.snd = slot.toList)
    (hslot : (slot.map (readUint 64)).getD (some 0) = some offset)
    (hentry : offset = ((entry inner "offset").bind asU64).getD 0) :
    (given AttachmentRef.fields 3 inner = [(.ofStr "offset", .ofNat offset)] ∨
      offset = 0 ∧ (given AttachmentRef.fields 3 inner = [] ∨
        ∃ k, given AttachmentRef.fields 3 inner = [(k, .ofNat 0)])) ∧ offset < 2 ^ 64 := by
  match hs : slot with
  | none =>
    obtain rfl : 0 = offset := Option.some.inj hslot
    exact ⟨.inr ⟨rfl, .inl (given_eq_nil_of_slot hg rfl)⟩, by decide⟩
  | some v =>
    obtain ⟨k, hk⟩ := exists_given_of_slot hg rfl
    obtain ⟨rfl, hlt⟩ := (readUint_eq_some_iff (by decide)).1 hslot
    refine ⟨?_, hlt⟩
    obtain ⟨rfl, -⟩ | he := entry_of_given_single index_offset hk
    · exact .inl hk
    · rw [he] at hentry
      obtain rfl : offset = 0 := hentry
      exact .inr ⟨rfl, .inr ⟨k, hk⟩⟩

theorem plain_of_both (hparse : parseAttachment b = some r)
    (hserde : Blob.deserialize b = some (.attachment r)) : PlainEnvelope b r := by
  obtain ⟨outer, inner, stream, rfl, hinner, hstream, -, hsize, hsha, hoffset⟩ :=
    parseAttachment_eq_some_iff.1 hparse
  obtain ⟨outer', w, heq, hkeys, hgiven, hw⟩ := Blob.deserialize_eq_attachment_iff.1 hserde
  obtain rfl := Value.map.inj heq
  -- the envelope: what serde read is what stands under the string
  have hslot : (given AttachmentEnvelope.fields 0 outer).map Prod.snd = (some w).toList := hgiven
  obtain ⟨k, hk⟩ := exists_given_of_slot hslot rfl
  obtain ⟨rfl, he⟩ | he := entry_of_given_single index_attachment hk
  · obtain rfl := Option.mem_unique hinner he
    obtain ⟨slots, hslots, hr⟩ := AttachmentRef.deserialize_map_eq_some_iff.1 hw
    obtain ⟨hkeys', hg⟩ := visitMap_eq_some_iff.1 hslots
    obtain ⟨h0, h1, h2, h3⟩ := AttachmentRef.ofSlots_eq_some_iff.1 hr
    obtain ⟨hstream', hstream_lt⟩ := given_of_required index_stream (by decide) (hg 0) h0 hstream
    obtain ⟨hsize', hsize_lt⟩ := given_of_required index_size (by decide) (hg 1) h1 hsize
    obtain ⟨hoffset', hoffset_lt⟩ := plain_offset (hg 3) h3 hoffset
    exact ⟨outer, inner, rfl, hkeys, hk, {
      keys := hkeys'
      stream := hstream'
      stream_lt := hstream_lt
      size := hsize'
      size_lt := hsize_lt
      sha256 := plain_sha256 (hg 2) h2 hsha
      offset := hoffset'
      offset_lt := hoffset_lt }⟩
  · rw [hinner] at he
    cases he

/-! #### What both readers make of a plain envelope -/

theorem PlainRef.length_given_le (h : PlainRef inner r) {i : Nat}
    (hi : i < AttachmentRef.fields.length) : (given AttachmentRef.fields i inner).length ≤ 1 := by
  match i, hi with
  | 0, _ => rw [h.stream, List.length_singleton]
  | 1, _ => rw [h.size, List.length_singleton]
  | 2, _ =>
    obtain ⟨s, -, hs⟩ | ⟨-, hs | ⟨k, hs⟩⟩ := h.sha256 <;> simp [hs]
  | 3, _ =>
    obtain hs | ⟨-, hs | ⟨k, hs⟩⟩ := h.offset <;> simp [hs]

theorem PlainRef.entry_sha256 (h : PlainRef inner r) :
    r.sha256 = (entry inner "sha256").bind asStr := by
  obtain ⟨s, hr, hs⟩ | ⟨hr, hs | ⟨k, hs⟩⟩ := h.sha256
  · rw [hr, entry_of_given index_sha256 hs, Option.bind_some, asStr_eq_some_iff.2 rfl]
  · rw [hr, entry_of_given_nil index_sha256 hs, Option.bind_none]
  · obtain ⟨-, he⟩ | he := entry_of_given_single index_sha256 hs
    · rw [hr, he]
      rfl
    · rw [hr, he, Option.bind_none]

theorem PlainRef.entry_offset (h : PlainRef inner r) :
    r.offset = ((entry inner "offset").bind asU64).getD 0 := by
  have hzero : asU64 (.ofNat 0) = some 0 := asU64_eq_some_iff.2 ⟨rfl, by decide⟩
  obtain hs | ⟨hr, hs | ⟨k, hs⟩⟩ := h.offset
  · have hread := asU64_eq_some_iff.2 ⟨rfl, h.offset_lt⟩
    rw [entry_of_given index_offset hs, Option.bind_some, hread, Option.getD_some]
  · rw [hr, entry_of_given_nil index_offset hs, Option.bind_none, Option.getD_none]
  · obtain ⟨-, he⟩ | he := entry_of_given_single index_offset hs
    · rw [hr, he, Option.bind_some, hzero, Option.getD_some]
    · rw [hr, he, Option.bind_none, Option.getD_none]

theorem PlainRef.deserialize (h : PlainRef inner r) :
    AttachmentRef.deserialize (.map inner) = some r := by
  obtain ⟨slots, hslots, hhead⟩ := exists_visitMap h.keys fun i hi => h.length_given_le hi
  refine AttachmentRef.deserialize_map_eq_some_iff.2 ⟨slots, hslots, ?_⟩
  refine AttachmentRef.ofSlots_eq_some_iff.2 ⟨?_, ?_, ?_, ?_⟩
  · rw [hhead, h.stream, List.map_singleton, List.head?_cons, Option.bind_some]
    exact (readUint_eq_some_iff (by decide)).2 ⟨rfl, h.stream_lt⟩
  · rw [hhead, h.size, List.map_singleton, List.head?_cons, Option.bind_some]
    exact (readUint_eq_some_iff (by decide)).2 ⟨rfl, h.size_lt⟩
  · rw [hhead]
    obtain ⟨s, hr, hs⟩ | ⟨hr, hs | ⟨k, hs⟩⟩ := h.sha256 <;> rw [hr, hs] <;> rfl
  · rw [hhead]
    have hread : readUint 64 (.ofNat r.offset) = some r.offset :=
      (readUint_eq_some_iff (by decide)).2 ⟨rfl, h.offset_lt⟩
    obtain hs | ⟨hr, hs | ⟨k, hs⟩⟩ := h.offset
    · rw [hs]
      exact hread
    · rw [hr, hs]
      rfl
    · rw [hs, hr]
      rw [hr] at hread
      exact hread

theorem PlainEnvelope.deserialize (h : PlainEnvelope b r) :
    Blob.deserialize b = some (.attachment r) := by
  obtain ⟨outer, inner, rfl, hkeys, hgiven, hr⟩ := h
  refine Blob.deserialize_eq_attachment_iff.2 ⟨outer, .map inner, rfl, hkeys, ?_, hr.deserialize⟩
  rw [hgiven, List.map_singleton]

theorem PlainEnvelope.parseAttachment (h : PlainEnvelope b r) : parseAttachment b = some r := by
  obtain ⟨outer, inner, rfl, -, hgiven, hr⟩ := h
  have hstream : asU64 (.ofNat r.stream) = some r.stream :=
    asU64_eq_some_iff.2 ⟨rfl, hr.stream_lt.trans (by decide)⟩
  have hsize : asU64 (.ofNat r.size) = some r.size := asU64_eq_some_iff.2 ⟨rfl, hr.size_lt⟩
  refine parseAttachment_eq_some_iff.2 ⟨outer, inner, r.stream, rfl,
    entry_of_given index_attachment hgiven, ?_, ?_, ?_, hr.entry_sha256, hr.entry_offset⟩
  · rw [entry_of_given index_stream hr.stream, Option.bind_some, hstream]
  · rw [Nat.mod_eq_of_lt hr.stream_lt]
  · rw [entry_of_given index_size hr.size, Option.bind_some, hsize]

/-! ### Where a reader finds a reference -/

/-- The first entry whose key is the string. -/
def FirstEntry (entries : List (Value × Value)) (name : String) (v : Value) : Prop :=
  ∃ before after, entries = before ++ (.ofStr name, v) :: after ∧ ∀ e ∈ before, e.1 ≠ .ofStr name

/-- An attachment that is a map, with numbers for its stream and its size: all the hand-written
reader asks for. -/
def Pointed (b : Value) : Prop :=
  ∃ outer inner stream size, b = .map outer ∧ FirstEntry outer "attachment" (.map inner) ∧
    FirstEntry inner "stream" (.ofNat stream) ∧ stream < 2 ^ 64 ∧
    FirstEntry inner "size" (.ofNat size) ∧ size < 2 ^ 64

/-- The fields of a struct: a map gives each once at most, an array in order. -/
inductive Slots (fields : List String) : Value → (Nat → Option Value) → Prop
  | map {entries : List (Value × Value)} {slots : Nat → Option Value} :
    (∀ e ∈ entries, (visitField fields e.1).isSome) →
    (∀ i, (given fields i entries).map Prod.snd = (slots i).toList) →
    Slots fields (.map entries) slots
  | array {items : List Value} : items.length ≤ fields.length →
    Slots fields (.array items) fun i => items[i]?

/-- Nothing, a string, or the bytes of one. -/
inductive MaybeText : Value → Prop
  | nil : MaybeText .nil
  | string (s : String) : MaybeText (.ofStr s)
  | binary (bytes : List UInt8) : (String.fromUTF8? ⟨bytes.toArray⟩).isSome →
    MaybeText (.binary bytes)

/-- What serde asks for: one attachment, with numbers that fit for its stream and its size; the
other two fields of the right kind if they are there. -/
def Referenced (b : Value) : Prop :=
  ∃ outer w slots stream size, b = .map outer ∧
    (∀ e ∈ outer, (visitField AttachmentEnvelope.fields e.1).isSome) ∧
    (given AttachmentEnvelope.fields 0 outer).map Prod.snd = [w] ∧
    Slots AttachmentRef.fields w slots ∧
    slots 0 = some (.ofNat stream) ∧ stream < 2 ^ 32 ∧
    slots 1 = some (.ofNat size) ∧ size < 2 ^ 64 ∧ (∀ v, slots 2 = some v → MaybeText v) ∧
    ∀ v, slots 3 = some v → ∃ offset, v = .ofNat offset ∧ offset < 2 ^ 64

theorem entry_eq_some_iff : entry entries name = some v ↔ FirstEntry entries name v := by
  have hkey (e : Value × Value) : asStr e.1 = some name ↔ e.1 = .ofStr name := asStr_eq_some_iff
  unfold entry
  rw [Option.map_eq_some_iff]
  simp only [List.find?_eq_some_iff_append, hkey, decide_eq_true_eq, Bool.not_eq_true',
    decide_eq_false_iff_not]
  constructor
  · rintro ⟨⟨k, v⟩, ⟨rfl, before, after, heq, hbefore⟩, rfl⟩
    exact ⟨before, after, heq, hbefore⟩
  · rintro ⟨before, after, heq, hbefore⟩
    exact ⟨(.ofStr name, v), ⟨rfl, before, after, heq, hbefore⟩, rfl⟩

theorem bind_asU64_eq_some_iff :
    (entry entries name).bind asU64 = some n ↔
      FirstEntry entries name (.ofNat n) ∧ n < 2 ^ 64 := by
  simp only [Option.bind_eq_some_iff, asU64_eq_some_iff, entry_eq_some_iff]
  constructor
  · rintro ⟨v, hv, rfl, hlt⟩
    exact ⟨hv, hlt⟩
  · rintro ⟨hv, hlt⟩
    exact ⟨_, hv, rfl, hlt⟩

theorem exists_parseAttachment_iff : (∃ r, parseAttachment b = some r) ↔ Pointed b := by
  simp only [parseAttachment_eq_some_iff, bind_asU64_eq_some_iff, entry_eq_some_iff]
  constructor
  · rintro ⟨r, outer, inner, stream, hb, hinner, ⟨hstream, hlt⟩, -, ⟨hsize, hlt'⟩, -, -⟩
    exact ⟨outer, inner, stream, r.size, hb, hinner, hstream, hlt, hsize, hlt'⟩
  · rintro ⟨outer, inner, stream, size, hb, hinner, hstream, hlt, hsize, hlt'⟩
    exact ⟨⟨stream % 2 ^ 32, size, _, _⟩, outer, inner, stream, hb, hinner, ⟨hstream, hlt⟩, rfl,
      ⟨hsize, hlt'⟩, rfl, rfl⟩

theorem visitStruct_eq_some_iff {α : Type} {read : (Nat → Option Value) → Option α} {a : α} :
    visitStruct fields read b = some a ↔ ∃ slots, Slots fields b slots ∧ read slots = some a := by
  constructor
  · intro h
    cases b with
    | map entries =>
      obtain ⟨slots, hslots, hread⟩ := Option.bind_eq_some_iff.1 h
      obtain ⟨hkeys, hgiven⟩ := visitMap_eq_some_iff.1 hslots
      exact ⟨slots, .map hkeys hgiven, hread⟩
    | array items =>
      simp only [visitStruct] at h
      split_ifs at h with hlen
      exact ⟨_, .array hlen, h⟩
    | _ => cases h
  · rintro ⟨slots, hslots, hread⟩
    cases hslots with
    | map hkeys hgiven =>
      exact Option.bind_eq_some_iff.2 ⟨slots, visitMap_eq_some_iff.2 ⟨hkeys, hgiven⟩, hread⟩
    | array hlen => exact (if_pos hlen).trans hread

theorem exists_readOption_readString_iff :
    (∃ s, readOption readString v = some s) ↔ MaybeText v := by
  constructor
  · rintro ⟨s, h⟩
    cases v with
    | nil => exact .nil
    | string t =>
      cases t with
      | valid t => exact .string t
      | invalid bytes => cases h
    | binary bytes =>
      obtain ⟨text, htext, -⟩ := Option.map_eq_some_iff.1 h
      exact .binary bytes (Option.isSome_iff_exists.2 ⟨text, htext⟩)
    | _ => cases h
  · rintro (_ | ⟨s⟩ | ⟨bytes, hbytes⟩)
    · exact ⟨none, rfl⟩
    · exact ⟨some s, rfl⟩
    · obtain ⟨text, htext⟩ := Option.isSome_iff_exists.1 hbytes
      exact ⟨some text, Option.map_eq_some_iff.2 ⟨text, htext, rfl⟩⟩

theorem exists_deserialize_iff :
    (∃ r, Blob.deserialize b = some (.attachment r)) ↔ Referenced b := by
  simp only [Blob.deserialize_eq_attachment_iff, AttachmentRef.deserialize,
    visitStruct_eq_some_iff, AttachmentRef.ofSlots_eq_some_iff]
  constructor
  · rintro ⟨r, outer, w, hb, hkeys, hw, slots, hslots, hstream, hsize, hsha, hoffset⟩
    obtain ⟨_, hstream, hs⟩ := Option.bind_eq_some_iff.1 hstream
    obtain ⟨_, hsize, hz⟩ := Option.bind_eq_some_iff.1 hsize
    obtain ⟨rfl, hlt⟩ := (readUint_eq_some_iff (by decide)).1 hs
    obtain ⟨rfl, hlt'⟩ := (readUint_eq_some_iff (by decide)).1 hz
    refine ⟨outer, w, slots, _, _, hb, hkeys, hw, hslots, hstream, hlt, hsize, hlt',
      fun v hv => ?_, fun v hv => ?_⟩
    · rw [hv] at hsha
      exact exists_readOption_readString_iff.1 ⟨_, hsha⟩
    · rw [hv] at hoffset
      exact ⟨_, (readUint_eq_some_iff (by decide)).1 hoffset⟩
  · rintro ⟨outer, w, slots, stream, size, hb, hkeys, hw, hslots, hstream, hlt, hsize, hlt', hsha,
      hoffset⟩
    obtain ⟨sha256, hsha⟩ :
        ∃ s, ((slots 2).map (readOption readString)).getD (some none) = some s := by
      cases hs : slots 2 with
      | none => exact ⟨none, rfl⟩
      | some v => exact exists_readOption_readString_iff.2 (hsha v hs)
    obtain ⟨offset, hoffset⟩ : ∃ n, ((slots 3).map (readUint 64)).getD (some 0) = some n := by
      cases hs : slots 3 with
      | none => exact ⟨0, rfl⟩
      | some v =>
        obtain ⟨n, hn⟩ := hoffset v hs
        exact ⟨n, (readUint_eq_some_iff (by decide)).2 hn⟩
    refine ⟨⟨stream, size, sha256, offset⟩, outer, w, hb, hkeys, hw, slots, hslots, ?_, ?_, hsha,
      hoffset⟩
    · rw [hstream]
      exact (readUint_eq_some_iff (by decide)).2 ⟨rfl, hlt⟩
    · rw [hsize]
      exact (readUint_eq_some_iff (by decide)).2 ⟨rfl, hlt'⟩

/-- The readers agree on a value exactly when it is a plain envelope, or has what neither asks
for. -/
theorem attachment_readers_agree_iff (b : Value) :
    (∀ r, parseAttachment b = some r ↔ Blob.deserialize b = some (.attachment r)) ↔
      (Pointed b ∨ Referenced b → ∃ r, PlainEnvelope b r) := by
  rw [← exists_parseAttachment_iff, ← exists_deserialize_iff]
  constructor
  · rintro hagree (⟨r, hr⟩ | ⟨r, hr⟩)
    · exact ⟨r, plain_of_both hr ((hagree r).1 hr)⟩
    · exact ⟨r, plain_of_both ((hagree r).2 hr) hr⟩
  intro hplain r
  -- a plain envelope gives both readers its own reference
  constructor
  · intro hr
    obtain ⟨r', hr'⟩ := hplain (.inl ⟨r, hr⟩)
    obtain rfl := Option.mem_unique hr hr'.parseAttachment
    exact hr'.deserialize
  · intro hr
    obtain ⟨r', hr'⟩ := hplain (.inr ⟨r, hr⟩)
    obtain rfl := Blob.attachment.inj (Option.mem_unique hr hr'.deserialize)
    exact hr'.parseAttachment

/-- A stream number that does not fit is cut off or refused, and a digest that is no string is
dropped or refused. -/
theorem attachment_readers_differ :
    (∃ b, parseAttachment b = some ⟨1, 3, none, 0⟩ ∧ Blob.deserialize b = none) ∧
      ∃ b, parseAttachment b = some ⟨7, 3, none, 0⟩ ∧ Blob.deserialize b = none := by
  refine ⟨⟨.map [(.ofStr "attachment", .map [(.ofStr "stream", .ofNat (2 ^ 32 + 1)),
    (.ofStr "size", .ofNat 3)])], ?_, ?_⟩, ⟨.map [(.ofStr "attachment", .map [
    (.ofStr "stream", .ofNat 7), (.ofStr "size", .ofNat 3), (.ofStr "sha256", .ofNat 0)])], ?_, ?_⟩⟩
  · decide +kernel
  · decide +kernel
  · decide +kernel
  · decide +kernel

end Zyris.Proto
