import Mathlib.Data.Finset.Card
import Mathlib.Data.List.Dedup
import Zyris.Proto.Equiv.Json

/-!
# JSON values through payloads, and payloads through JSON

A JSON value becomes a payload and the same JSON value again.  The other way round a map loses the
entries whose keys have one text.  `StandsAt` says which place of the JSON value answers to a place
of the payload.
-/

namespace Zyris.Proto

/-! ### From JSON and back -/

/-- A number in the form `serde_json` keeps it in. -/
def JsonNumber.Valid : JsonNumber → Prop
  | .i64 i => -2 ^ 63 ≤ i ∧ i < 2 ^ 63
  | .u64 n => 2 ^ 63 ≤ n ∧ n < 2 ^ 64
  | .f64 bits => bits.toNat / 2 ^ 52 % 2 ^ 11 ≠ 2047

/-- Keys in the order of a `BTreeMap`. -/
def Sorted (fields : List (String × Json)) : Prop := (fields.map Prod.fst).Pairwise (· < ·)

mutual

/-- A `serde_json` value: numbers in range or finite, the keys of an object different and in
order. -/
def Json.Valid : Json → Prop
  | .number n => n.Valid
  | .array items => Json.ValidItems items
  | .object fields => Sorted fields ∧ Json.ValidFields fields
  | _ => True

def Json.ValidItems : List Json → Prop
  | [] => True
  | j :: js => j.Valid ∧ Json.ValidItems js

def Json.ValidFields : List (String × Json) → Prop
  | [] => True
  | (_, j) :: js => j.Valid ∧ Json.ValidFields js

end

theorem rmpvToJson_of_validNumber {n : JsonNumber} (h : n.Valid) :
    rmpvToJson (jsonToRmpv (.number n)) = .ok (.number n) := by
  cases n with
  | i64 i =>
    have hval : (Integer.ofI64 i).val = i := by
      exact Int.bmod_eq_of_le (by have := h.1; omega) (by have := h.2; omega)
    rw [jsonToRmpv, rmpvToJson, Integer.asI64, hval, if_pos h.2]
  | u64 n =>
    have hmod : n % 2 ^ 64 = n := Nat.mod_eq_of_lt h.2
    have hlarge : ¬ ((n : Int) < 2 ^ 63) := by
      have := h.1
      omega
    rw [jsonToRmpv, Value.ofNat, rmpvToJson, Integer.asU64_ofU64, Integer.asI64,
      Integer.val_ofU64, hmod, if_neg hlarge]
  | f64 bits => rw [jsonToRmpv, rmpvToJson, jsonOfF64, if_neg h]

mutual

theorem rmpvToJson_of_valid : (j : Json) → j.Valid → rmpvToJson (jsonToRmpv j) = .ok j
  | .null, _ | .bool _, _ | .string _, _ => rfl
  | .number n, h => rmpvToJson_of_validNumber h
  | .array items, h => by
    rw [jsonToRmpv, rmpvToJson, rmpvToJsonItems_of_valid items h]
    rfl
  | .object fields, h => by
    rw [jsonToRmpv, rmpvToJson, rmpvToJsonEntries_of_valid fields [] h.1 h.2]
    rfl

theorem rmpvToJsonItems_of_valid : (items : List Json) → Json.ValidItems items →
    rmpvToJsonItems (jsonToRmpvItems items) = .ok items
  | [], _ => rfl
  | j :: items, h => by
    rw [jsonToRmpvItems, rmpvToJsonItems, rmpvToJson_of_valid j h.1,
      rmpvToJsonItems_of_valid items h.2]
    rfl

theorem rmpvToJsonEntries_of_valid : (fields before : List (String × Json)) →
    Sorted (before ++ fields) → Json.ValidFields fields →
    rmpvToJsonEntries (jsonToRmpvFields fields) before = .ok (before ++ fields)
  | [], before, _, _ => by rw [List.append_nil]; rfl
  | (key, j) :: fields, before, hsorted, h => by
    have hbefore : ∀ f ∈ before, f.1 < key := by
      intro f hf
      rw [Sorted, List.map_append] at hsorted
      exact (List.pairwise_append.mp hsorted).2.2 f.1 (List.mem_map_of_mem hf) key
        (List.mem_cons_self ..)
    rw [List.append_cons] at hsorted ⊢
    rw [jsonToRmpvFields, rmpvToJsonEntries, rmpvToJson_of_valid j h.1]
    show rmpvToJsonEntries _ (jsonInsert key j before) = _
    rw [jsonInsert_of_lt j hbefore, rmpvToJsonEntries_of_valid fields _ hsorted h.2]

end

/-- **JSON values pass through payloads unchanged.** -/
theorem json_through_payload (j : Json) (h : j.Valid) : rmpvToJson (jsonToRmpv j) = .ok j :=
  rmpvToJson_of_valid j h

theorem json_through_payload_object :
    rmpvToJson (jsonToRmpv (.object [("a", .number (.i64 (-1))), ("b", .array [.null])])) =
      .ok (.object [("a", .number (.i64 (-1))), ("b", .array [.null])]) :=
  json_through_payload _
    ⟨List.pairwise_pair.mpr (by decide +kernel), ⟨by decide, by decide⟩, ⟨trivial, trivial⟩,
      trivial⟩

/-! ### What a map loses -/

/-- The text that stands for a map key. -/
inductive KeyText : Value → String → Prop
  | valid (s : String) : KeyText (.ofStr s) s
  -- a string that is not UTF-8
  | invalid (bytes : List UInt8) : KeyText (.string (.invalid bytes)) ""
  | integer (i : Integer) : KeyText (.integer i) (toString i.val)

/-- Two keys with one text. -/
def SameText (k k' : Value) : Prop := ∃ text, KeyText k text ∧ KeyText k' text

/-- A place in a value that no later entry with the same text takes away. -/
inductive Kept (w : Value) : Value → Prop
  | self : Kept w w
  | item {x : Value} {items : List Value} : x ∈ items → Kept w x → Kept w (.array items)
  | entry {key x : Value} {before after : List (Value × Value)} :
    (∀ e ∈ after, ¬ SameText key e.1) → Kept w x → Kept w (.map (before ++ (key, x) :: after))

/-- `w` stands in the value where `k` stands in the JSON value: items by their index, entries by the
text of the key, the last one with a text. -/
inductive StandsAt (w : Value) (k : Json) : Value → Json → Prop
  | self : StandsAt w k w k
  | item {items : List Value} {js : List Json} {i : Nat} {x : Value} {y : Json} :
    items[i]? = some x → js[i]? = some y → StandsAt w k x y →
    StandsAt w k (.array items) (.array js)
  | entry {key x : Value} {before after : List (Value × Value)} {fields : List (String × Json)}
    {text : String} {y : Json} : KeyText key text → (∀ e ∈ after, ¬ SameText key e.1) →
    (text, y) ∈ fields → StandsAt w k x y →
    StandsAt w k (.map (before ++ (key, x) :: after)) (.object fields)

theorem jsonKey_eq_ok_iff {k : Value} {text : String} : jsonKey k = .ok text ↔ KeyText k text := by
  constructor
  · intro h
    cases k with
    | string s =>
      obtain rfl := Except.ok.inj h
      cases s with
      | valid s => exact .valid s
      | invalid bytes => exact .invalid bytes
    | integer i =>
      obtain rfl := Except.ok.inj h
      exact .integer i
    | _ => cases h
  · rintro (_ | _ | _) <;> rfl

/-- The items of an array are converted one by one. -/
theorem forall₂_of_rmpvToJsonItems {items : List Value} {js : List Json}
    (h : rmpvToJsonItems items = .ok js) :
    List.Forall₂ (fun x y => rmpvToJson x = .ok y) items js := by
  induction items generalizing js with
  | nil =>
    cases h
    exact .nil
  | cons v items ih =>
    rw [rmpvToJsonItems] at h
    rcases hv : rmpvToJson v with _ | j <;> rw [hv] at h
    · cases h
    rcases hitems : rmpvToJsonItems items with _ | js' <;> rw [hitems] at h
    · cases h
    cases h
    exact .cons hv (ih hitems)

theorem exists_getElem?_of_forall₂ {α β : Type} {R : α → β → Prop} {xs : List α} {ys : List β}
    (h : List.Forall₂ R xs ys) {i : Nat} {x : α} (hx : xs[i]? = some x) :
    ∃ y, ys[i]? = some y ∧ R x y := by
  induction h generalizing i with
  | nil => cases hx
  | cons hab _ ih =>
    cases i with
    | zero =>
      obtain rfl := Option.some.inj hx
      exact ⟨_, rfl, hab⟩
    | succ i => exact ih hx

variable {j : Json}

theorem rmpvToJson_array {items : List Value} (h : rmpvToJson (.array items) = .ok j) :
    ∃ js, j = .array js ∧ List.Forall₂ (fun x y => rmpvToJson x = .ok y) items js := by
  rw [rmpvToJson] at h
  rcases hitems : rmpvToJsonItems items with _ | js <;> rw [hitems] at h
  · cases h
  · cases h
    exact ⟨js, rfl, forall₂_of_rmpvToJsonItems hitems⟩

variable {entries : List (Value × Value)}

theorem rmpvToJson_map (h : rmpvToJson (.map entries) = .ok j) :
    ∃ fields, j = .object fields ∧ rmpvToJsonEntries entries [] = .ok fields := by
  rw [rmpvToJson] at h
  rcases hentries : rmpvToJsonEntries entries [] with _ | fields <;> rw [hentries] at h
  · cases h
  · cases h
    exact ⟨fields, rfl, rfl⟩

variable {acc fields : List (String × Json)}

/-- The first entry is converted and inserted before the rest. -/
theorem rmpvToJsonEntries_cons {e : Value × Value}
    (h : rmpvToJsonEntries (e :: entries) acc = .ok fields) :
    ∃ text j, jsonKey e.1 = .ok text ∧ rmpvToJson e.2 = .ok j ∧
      rmpvToJsonEntries entries (jsonInsert text j acc) = .ok fields := by
  obtain ⟨k, v⟩ := e
  rw [rmpvToJsonEntries] at h
  rcases hkey : jsonKey k with _ | text <;> rw [hkey] at h
  · cases h
  rcases hv : rmpvToJson v with _ | j <;> rw [hv] at h
  · cases h
  · exact ⟨text, j, rfl, rfl, h⟩

theorem mem_keys_jsonInsert (key k : String) (j : Json) (fields : List (String × Json)) :
    k ∈ (jsonInsert key j fields).map Prod.fst ↔ k = key ∨ k ∈ fields.map Prod.fst := by
  induction fields with
  | nil => simp [jsonInsert]
  | cons f fields ih =>
    obtain ⟨k', w⟩ := f
    rw [jsonInsert]
    split_ifs with heq hlt
    · simp [heq]
    · simp
    · simp only [List.map_cons, List.mem_cons, ih]
      tauto

theorem sorted_jsonInsert {key : String}
    (h : Sorted fields) : Sorted (jsonInsert key j fields) := by
  induction fields with
  | nil => exact List.pairwise_singleton _ _
  | cons f fields ih =>
    obtain ⟨k, w⟩ := f
    obtain ⟨hk, hrest⟩ := List.pairwise_cons.mp h
    rw [jsonInsert]
    split_ifs with heq hlt
    · exact h
    · refine List.pairwise_cons.mpr ⟨fun k' hk' => ?_, h⟩
      rcases List.mem_cons.mp hk' with rfl | hk'
      · exact hlt
      · exact String.lt_trans hlt (hk k' hk')
    · refine List.pairwise_cons.mpr ⟨fun k' hk' => ?_, ih hrest⟩
      rcases (mem_keys_jsonInsert key k' j fields).mp hk' with rfl | hk'
      · exact Std.lt_of_le_of_ne (String.not_lt.mp hlt) (Ne.symm heq)
      · exact hk k' hk'

/-- A text has one field, and the last insertion gives it its value. -/
theorem mem_jsonInsert {key text : String} {y : Json} (h : Sorted fields) :
    (text, y) ∈ jsonInsert key j fields ↔
      text = key ∧ y = j ∨ text ≠ key ∧ (text, y) ∈ fields := by
  induction fields with
  | nil => simp [jsonInsert]
  | cons f fields ih =>
    obtain ⟨k, w⟩ := f
    obtain ⟨hk, hrest⟩ := List.pairwise_cons.mp h
    -- the keys behind a field are greater than its own
    have hbehind {l : String} (hle : ¬ k < l) : (l, y) ∉ fields := fun hmem =>
      hle (hk l (List.mem_map_of_mem hmem))
    rw [jsonInsert]
    split_ifs with heq hlt
    · subst heq
      have := hbehind (String.lt_irrefl key)
      grind
    · have hne : (key, y) ∉ (k, w) :: fields := by
        rw [List.mem_cons, Prod.mk.injEq, not_or]
        exact ⟨fun h => heq h.1, hbehind (String.lt_asymm hlt)⟩
      rw [List.mem_cons, Prod.mk.injEq]
      constructor
      · rintro (hself | hmem)
        · exact .inl hself
        · exact .inr ⟨fun h => hne (h ▸ hmem), hmem⟩
      · rintro (hself | ⟨-, hmem⟩)
        · exact .inl hself
        · exact .inr hmem
    · rw [List.mem_cons, List.mem_cons, Prod.mk.injEq, ih hrest]
      grind

/-- The fields are those there were before and the texts of the keys. -/
theorem rmpvToJsonEntries_keys
    {before : List (String × Json)} (h : rmpvToJsonEntries entries before = .ok fields)
    (hsorted : Sorted before) :
    Sorted fields ∧ ∃ texts : List String, entries.map (fun e => jsonKey e.1) = texts.map .ok ∧
      ∀ k, k ∈ fields.map Prod.fst ↔ k ∈ texts ∨ k ∈ before.map Prod.fst := by
  induction entries generalizing before with
  | nil =>
    cases h
    exact ⟨hsorted, [], rfl, by simp⟩
  | cons e entries ih =>
    obtain ⟨text, j, hkey, -, h⟩ := rmpvToJsonEntries_cons h
    obtain ⟨hfields, texts, htexts, hmem⟩ := ih h (sorted_jsonInsert hsorted)
    refine ⟨hfields, text :: texts, by simp [hkey, htexts], fun k' => ?_⟩
    rw [hmem, mem_keys_jsonInsert, List.mem_cons]
    tauto

/-- A field stays as it is while no entry has its text. -/
theorem mem_of_rmpvToJsonEntries {text : String} {y : Json}
    (h : rmpvToJsonEntries entries acc = .ok fields) (hsorted : Sorted acc)
    (hnone : ∀ e ∈ entries, ¬ KeyText e.1 text) (hmem : (text, y) ∈ fields) : (text, y) ∈ acc := by
  induction entries generalizing acc with
  | nil =>
    cases h
    exact hmem
  | cons e entries ih =>
    obtain ⟨text', j, hkey, -, h⟩ := rmpvToJsonEntries_cons h
    rw [List.forall_mem_cons] at hnone
    obtain ⟨rfl, -⟩ | ⟨-, hmem⟩ :=
      (mem_jsonInsert hsorted).mp (ih h (sorted_jsonInsert hsorted) hnone.2)
    · exact absurd (jsonKey_eq_ok_iff.mp hkey) hnone.1
    · exact hmem

theorem exists_of_rmpvToJsonEntries_append {before : List (Value × Value)}
    (h : rmpvToJsonEntries (before ++ entries) acc = .ok fields) (hsorted : Sorted acc) :
    ∃ acc', Sorted acc' ∧ rmpvToJsonEntries entries acc' = .ok fields := by
  induction before generalizing acc with
  | nil => exact ⟨acc, hsorted, h⟩
  | cons e before ih =>
    obtain ⟨text, j, -, -, h⟩ := rmpvToJsonEntries_cons h
    exact ih h (sorted_jsonInsert hsorted)

/-- The field of the last entry with a text holds what that entry becomes. -/
theorem converted_of_last {key x : Value} {before after : List (Value × Value)}
    (h : rmpvToJsonEntries (before ++ (key, x) :: after) [] = .ok fields)
    (hlast : ∀ e ∈ after, ¬ SameText key e.1) :
    ∃ text y, KeyText key text ∧ rmpvToJson x = .ok y ∧ (text, y) ∈ fields ∧
      ∀ z, (text, z) ∈ fields → z = y := by
  obtain ⟨acc, hacc, hrest⟩ := exists_of_rmpvToJsonEntries_append h List.Pairwise.nil
  obtain ⟨text, y, hkey, hx, hafter⟩ := rmpvToJsonEntries_cons hrest
  have htext := jsonKey_eq_ok_iff.mp hkey
  have hall (z : Json) (hz : (text, z) ∈ fields) : z = y := by
    have hins := mem_of_rmpvToJsonEntries hafter (sorted_jsonInsert hacc)
      (fun e he he' => hlast e he ⟨text, htext, he'⟩) hz
    obtain ⟨-, hzy⟩ | ⟨hne, -⟩ := (mem_jsonInsert hacc).mp hins
    · exact hzy
    · exact absurd rfl hne
  obtain ⟨-, texts, -, hmem⟩ := rmpvToJsonEntries_keys hafter (sorted_jsonInsert hacc)
  have hfield : text ∈ fields.map Prod.fst :=
    (hmem text).mpr (.inr ((mem_keys_jsonInsert text text y acc).mpr (.inl rfl)))
  obtain ⟨⟨_, z⟩, hz, rfl⟩ := List.mem_map.mp hfield
  exact ⟨_, y, htext, hx, hall z hz ▸ hz, hall⟩

variable {v w : Value}

/-- What stands at a place is what the conversion makes of that place alone. -/
theorem StandsAt.converted {k : Json} (h : StandsAt w k v j)
    (hv : rmpvToJson v = .ok j) : rmpvToJson w = .ok k := by
  induction h with
  | self => exact hv
  | item hx hy _ ih =>
    obtain ⟨js, heq, hall⟩ := rmpvToJson_array hv
    obtain rfl := Json.array.inj heq
    obtain ⟨y, hy', hxy⟩ := exists_getElem?_of_forall₂ hall hx
    obtain rfl := Option.mem_unique hy hy'
    exact ih hxy
  | entry hkey hlast hmem _ ih =>
    obtain ⟨fields, heq, hentries⟩ := rmpvToJson_map hv
    obtain rfl := Json.object.inj heq
    obtain ⟨text, y, htext, hx, -, hall⟩ := converted_of_last hentries hlast
    obtain rfl := Except.ok.inj
      ((jsonKey_eq_ok_iff.mpr hkey).symm.trans (jsonKey_eq_ok_iff.mpr htext))
    rw [hall _ hmem] at ih
    exact ih hx

theorem StandsAt.kept {k : Json} (h : StandsAt w k v j) : Kept w v := by
  induction h with
  | self => exact .self
  | item hx _ _ ih => exact .item (List.mem_of_getElem? hx) ih
  | entry _ hlast _ _ ih => exact .entry hlast ih

/-- Every place that is kept has one in the JSON value. -/
theorem Kept.exists_standsAt (h : Kept w v)
    (hv : rmpvToJson v = .ok j) : ∃ k, StandsAt w k v j := by
  induction h generalizing j with
  | self => exact ⟨j, .self⟩
  | item hmem _ ih =>
    obtain ⟨js, rfl, hall⟩ := rmpvToJson_array hv
    obtain ⟨i, hi⟩ := List.mem_iff_getElem?.mp hmem
    obtain ⟨y, hy, hxy⟩ := exists_getElem?_of_forall₂ hall hi
    obtain ⟨k, hk⟩ := ih hxy
    exact ⟨k, .item hi hy hk⟩
  | entry hlast _ ih =>
    obtain ⟨fields, rfl, hentries⟩ := rmpvToJson_map hv
    obtain ⟨text, y, htext, hx, hmem, -⟩ := converted_of_last hentries hlast
    obtain ⟨k, hk⟩ := ih hx
    exact ⟨k, .entry htext hlast hmem hk⟩

/-- An object has as many fields as its map entries exactly when their texts are different. -/
theorem length_object_iff (h : rmpvToJsonEntries entries [] = .ok fields) :
    fields.length = entries.length ↔ entries.Pairwise fun d e => ¬ SameText d.1 e.1 := by
  obtain ⟨hsorted, texts, htexts, hmem⟩ := rmpvToJsonEntries_keys h List.Pairwise.nil
  have hkeys : (fields.map Prod.fst).Nodup := by
    refine List.Pairwise.imp (fun {a b} hlt heq => ?_) hsorted
    rw [heq] at hlt
    exact String.lt_irrefl b hlt
  have hset : (fields.map Prod.fst).toFinset = texts.toFinset := by
    ext k
    simp [hmem]
  have hfields : fields.length = texts.dedup.length := by
    rw [← List.card_toFinset, ← hset, List.toFinset_card_of_nodup hkeys, List.length_map]
  have hentries : entries.length = texts.length := by
    simpa using congrArg List.length htexts
  have hnodup : texts.Nodup ↔ (entries.map fun e => jsonKey e.1).Nodup := by
    rw [htexts, List.nodup_map_iff fun a b => Except.ok.inj]
  rw [hfields, hentries, (List.dedup_sublist texts).length_eq, List.dedup_eq_self, hnodup,
    List.Nodup, List.pairwise_map]
  refine List.Pairwise.iff_of_mem fun {d e} hd _ => not_congr ⟨fun heq => ?_, ?_⟩
  · obtain ⟨text, -, htext⟩ := List.mem_map.mp (htexts ▸ List.mem_map_of_mem hd)
    exact ⟨text, jsonKey_eq_ok_iff.mp htext.symm, jsonKey_eq_ok_iff.mp (heq ▸ htext.symm)⟩
  · rintro ⟨text, hd, he⟩
    rw [jsonKey_eq_ok_iff.mpr hd, jsonKey_eq_ok_iff.mpr he]

theorem eq_of_null (h : rmpvToJson w = .ok .null) :
    w = .nil ∨ (∃ f, w = .f32 f) ∨ ∃ f, w = .f64 f := by
  cases w with
  | nil => exact .inl rfl
  | f32 f => exact .inr (.inl ⟨f, rfl⟩)
  | f64 f => exact .inr (.inr ⟨f, rfl⟩)
  | integer i =>
    rw [rmpvToJson] at h
    split at h <;> cases h
  | array items =>
    obtain ⟨js, heq, -⟩ := rmpvToJson_array h
    cases heq
  | map entries =>
    obtain ⟨fields, heq, -⟩ := rmpvToJson_map h
    cases heq
  | _ => cases h

/-- **When JSON drops nothing.**  Every place of the value that no later entry with the same text
takes away has its place in the JSON value, and only nil and a float may stand there as null.  An
array keeps its items.  A map with different keys keeps its entries, wherever it stands, exactly
when no two of its keys have one text. -/
theorem json_keeps_entries_iff (v : Value) (j : Json) (h : rmpvToJson v = .ok j) :
    (∀ w, Kept w v → ∃ k, StandsAt w k v j) ∧
    (∀ w, StandsAt w .null v j → w = .nil ∨ (∃ f, w = .f32 f) ∨ ∃ f, w = .f64 f) ∧
    (∀ items k, StandsAt (.array items) k v j →
      ∃ js, k = .array js ∧ js.length = items.length) ∧
    ((∀ entries k, StandsAt (.map entries) k v j → (entries.map Prod.fst).Nodup →
      ∃ fields, k = .object fields ∧ fields.length = entries.length) ↔
    ∀ entries, Kept (.map entries) v → (entries.map Prod.fst).Nodup →
      entries.Pairwise fun d e => ¬ SameText d.1 e.1) := by
  refine ⟨fun w hw => hw.exists_standsAt h, fun w hw => ?_, fun items k hk => ?_, ?_⟩
  · exact eq_of_null (hw.converted h)
  · obtain ⟨js, rfl, hall⟩ := rmpvToJson_array (hk.converted h)
    exact ⟨js, rfl, hall.length_eq.symm⟩
  · constructor
    · intro hkeeps entries hentries hnodup
      obtain ⟨k, hk⟩ := hentries.exists_standsAt h
      obtain ⟨fields, rfl, hlength⟩ := hkeeps entries k hk hnodup
      obtain ⟨fields, heq, hfields⟩ := rmpvToJson_map (hk.converted h)
      obtain rfl := Json.object.inj heq
      exact (length_object_iff hfields).mp hlength
    · intro htexts entries k hk hnodup
      obtain ⟨fields, rfl, hfields⟩ := rmpvToJson_map (hk.converted h)
      exact ⟨fields, rfl, (length_object_iff hfields).mpr (htexts entries hk.kept hnodup)⟩

/-- The map with the keys 1 and "1". -/
def oneTwice : Value :=
  .map [(.integer (.ofU64 1 (by decide)), .boolean true), (.ofStr "1", .boolean false)]

/-- Its keys are different, and its object has one field. -/
theorem json_drops_entry :
    rmpvToJson oneTwice = .ok (.object [("1", .bool false)]) ∧
      ([.integer (.ofU64 1 (by decide)), .ofStr "1"] : List Value).Nodup := by
  refine ⟨rfl, ?_⟩
  simp [Value.ofStr]

/-- An array with a map in it. -/
theorem json_keeps_entries_iff_nested :
    rmpvToJson (.array [.map [(.ofStr "a", .nil)]]) = .ok (.array [.object [("a", .null)]]) ∧
    ∀ entries k, StandsAt (.map entries) k (.array [.map [(.ofStr "a", .nil)]])
      (.array [.object [("a", .null)]]) → (entries.map Prod.fst).Nodup →
      ∃ fields, k = .object fields ∧ fields.length = entries.length := by
  refine ⟨rfl, (json_keeps_entries_iff (.array [.map [(.ofStr "a", .nil)]])
    (.array [.object [("a", .null)]]) rfl).2.2.2.mpr fun entries hkept _ => ?_⟩
  cases hkept with
  | item hmem hkept =>
    rw [List.mem_singleton] at hmem
    cases hkept with
    | self =>
      rw [Value.map.inj hmem]
      exact List.pairwise_singleton _ _
    | item => cases hmem
    | entry _ hkept =>
      -- nothing is kept in nil
      obtain ⟨-, hnil⟩ | ⟨_, -, hnil⟩ := List.append_eq_cons_iff.mp (Value.map.inj hmem)
      · cases hnil
        cases hkept
      · simp at hnil

end Zyris.Proto
