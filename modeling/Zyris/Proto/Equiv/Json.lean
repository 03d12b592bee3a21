import Zyris.Proto.Equiv.Payload
import Zyris.Proto.Equiv.Serde

/-!
# Envelopes in JSON

As long as the payloads are plain (`Value.plain`) the printed JSON stands for the same value that
MessagePack would have carried.  Whether there is any JSON to print depends on nothing but the
payloads.
-/

namespace Zyris.Proto

/-! ### Payloads -/

mutual

/-- What `rmp_serde` carries: no extension, and every string UTF-8. -/
def Value.carried : Value → Bool
  | .string s => s.asStr.isSome
  | .array items => carriedItems items
  | .map entries => carriedEntries entries
  | .ext _ _ => false
  | _ => true

def Value.carriedItems : List Value → Bool
  | [] => true
  | v :: items => v.carried && carriedItems items

def Value.carriedEntries : List (Value × Value) → Bool
  | [] => true
  | (k, v) :: entries => k.carried && v.carried && carriedEntries entries

end

mutual

/-- Nil, booleans, integers, strings, arrays, and maps with distinct string keys in order. -/
def Value.plain : Value → Bool
  | .nil | .boolean _ | .integer _ => true
  | .string s => s.asStr.isSome
  | .array items => plainItems items
  | .map entries => plainEntries none entries
  | _ => false

def Value.plainItems : List Value → Bool
  | [] => true
  | v :: items => v.plain && plainItems items

/-- Entries whose keys come after `last` and after each other. -/
def Value.plainEntries (last : Option String) : List (Value × Value) → Bool
  | [] => true
  | (.string (.valid k), v) :: entries =>
    last.all (fun l => l < k) && v.plain && plainEntries (some k) entries
  | _ => false

end

/-- A payload the serialization carries. -/
def Payload.carried (ser : Serialization) (p : Payload) : Bool :=
  match ser with
  | .msgpack => p.value.carried
  | .json => p.value.plain

/-! ### Plain payloads through JSON -/

theorem Integer.eq_of_val_eq {i j : Integer} (h : i.val = j.val) : i = j := by
  obtain ⟨v, _, _⟩ := i
  obtain ⟨w, _, _⟩ := j
  have hvw : v = w := h
  subst hvw
  rfl

theorem Integer.val_ofI64 (i : Int) : (Integer.ofI64 i).val = i.bmod (2 ^ 64) := rfl

theorem Integer.val_ofU64 (n : Nat) (h : n < 2 ^ 64) : (Integer.ofU64 n h).val = n := rfl

theorem Integer.ofI64_of_lt {i : Integer} (h : i.val < 2 ^ 63) : Integer.ofI64 i.val = i := by
  apply Integer.eq_of_val_eq
  have hlo := i.lo
  exact Int.bmod_eq_of_le (by omega) (by omega)

/-- An unsigned number comes back whichever of the two kinds of JSON number it is. -/
theorem jsonToRmpv_jsonOfNat {n : Nat} (h : n < 2 ^ 64) :
    jsonToRmpv (jsonOfNat n) = Value.ofNat n := by
  unfold jsonOfNat
  split_ifs with hn
  · have hmod : n % 2 ^ 64 = n := Nat.mod_eq_of_lt h
    refine congrArg Value.integer (Integer.eq_of_val_eq ?_)
    rw [Integer.val_ofI64, Integer.val_ofU64, hmod]
    exact Int.bmod_eq_of_le (by omega) (by omega)
  · rw [jsonToRmpv]

theorem rmpvToJson_integer (i : Integer) :
    ∃ j, rmpvToJson (.integer i) = .ok j ∧ jsonToRmpv j = .integer i := by
  by_cases h : i.val < 2 ^ 63
  · refine ⟨.number (.i64 i.val), ?_, ?_⟩
    · rw [rmpvToJson, Integer.asI64, if_pos h]
    · rw [jsonToRmpv, Integer.ofI64_of_lt h]
  have hpos : 0 ≤ i.val := by omega
  refine ⟨.number (.u64 i.val.toNat), ?_, ?_⟩
  · rw [rmpvToJson, Integer.asI64, if_neg h, Integer.asU64, if_pos hpos]
  · rw [jsonToRmpv, Value.ofNat]
    refine congrArg Value.integer (Integer.eq_of_val_eq ?_)
    have hhi := i.hi
    rw [Integer.val_ofU64]
    omega

theorem jsonInsert_of_lt {key : String} (j : Json) {fields : List (String × Json)}
    (h : ∀ f ∈ fields, f.1 < key) : jsonInsert key j fields = fields ++ [(key, j)] := by
  induction fields with
  | nil => rfl
  | cons f fields ih =>
    obtain ⟨k, w⟩ := f
    have hk : k < key := h (k, w) (List.mem_cons_self ..)
    have hne : key ≠ k := by
      intro heq
      rw [heq] at hk
      exact String.lt_irrefl k hk
    rw [jsonInsert, if_neg hne, if_neg (String.lt_asymm hk),
      ih fun f hf => h f (List.mem_cons_of_mem _ hf)]
    rfl

mutual

theorem rmpvToJson_plain : (v : Value) → v.plain = true →
    ∃ j, rmpvToJson v = .ok j ∧ jsonToRmpv j = v
  | .nil, _ => ⟨.null, rfl, rfl⟩
  | .boolean b, _ => ⟨.bool b, rfl, rfl⟩
  | .integer i, _ => rmpvToJson_integer i
  | .string (.valid s), _ => ⟨.string s, rfl, rfl⟩
  | .string (.invalid _), h => by cases h
  | .array items, h => by
    obtain ⟨js, hjs, hback⟩ := rmpvToJsonItems_plain items h
    refine ⟨.array js, ?_, ?_⟩
    · rw [rmpvToJson, hjs]
      rfl
    · rw [jsonToRmpv, hback]
  | .map entries, h => by
    obtain ⟨js, hjs, hback⟩ := rmpvToJsonEntries_plain entries none [] h (by simp)
    refine ⟨.object js, ?_, ?_⟩
    · rw [rmpvToJson, hjs]
      rfl
    · rw [jsonToRmpv, hback]
  | .f32 _, h | .f64 _, h | .binary _, h | .ext _ _, h => by cases h

theorem rmpvToJsonItems_plain : (items : List Value) → Value.plainItems items = true →
    ∃ js, rmpvToJsonItems items = .ok js ∧ jsonToRmpvItems js = items
  | [], _ => ⟨[], rfl, rfl⟩
  | v :: items, h => by
    rw [Value.plainItems, Bool.and_eq_true] at h
    obtain ⟨j, hj, hv⟩ := rmpvToJson_plain v h.1
    obtain ⟨js, hjs, hitems⟩ := rmpvToJsonItems_plain items h.2
    refine ⟨j :: js, ?_, ?_⟩
    · rw [rmpvToJsonItems, hj, hjs]
      rfl
    · rw [jsonToRmpvItems, hv, hitems]

theorem rmpvToJsonEntries_plain : (entries : List (Value × Value)) → (last : Option String) →
    (fields : List (String × Json)) → Value.plainEntries last entries = true →
    (∀ k, last.all (fun l => l < k) = true → ∀ f ∈ fields, f.1 < k) →
    ∃ js, rmpvToJsonEntries entries fields = .ok (fields ++ js) ∧ jsonToRmpvFields js = entries
  | [], _, fields, _, _ => ⟨[], by rw [rmpvToJsonEntries, List.append_nil], rfl⟩
  | (.string (.valid k), v) :: entries, last, fields, h, hlast => by
    rw [Value.plainEntries, Bool.and_eq_true, Bool.and_eq_true] at h
    obtain ⟨⟨hk, hv⟩, hentries⟩ := h
    have hbelow := hlast k hk
    obtain ⟨j, hj, hback⟩ := rmpvToJson_plain v hv
    -- what comes next comes after `k`, and so after everything before it
    have hnext : ∀ k', (some k).all (fun l => l < k') = true →
        ∀ f ∈ fields ++ [(k, j)], f.1 < k' := by
      intro k' hk' f hf
      have hlt : k < k' := by simpa using hk'
      rcases List.mem_append.mp hf with hf | hf
      · exact String.lt_trans (hbelow f hf) hlt
      · rw [List.mem_singleton.mp hf]
        exact hlt
    obtain ⟨js, hjs, hrest⟩ := rmpvToJsonEntries_plain entries (some k) (fields ++ [(k, j)])
      hentries hnext
    refine ⟨(k, j) :: js, ?_, ?_⟩
    · rw [rmpvToJsonEntries, hj]
      show rmpvToJsonEntries entries (jsonInsert k j fields) = _
      rw [jsonInsert_of_lt j hbelow, hjs, List.append_assoc]
      rfl
    · rw [jsonToRmpvFields, hback, hrest]
      rfl
  | (.string (.invalid _), _) :: _, _, _, h, _ => by cases h
  | (.nil, _) :: _, _, _, h, _ | (.boolean _, _) :: _, _, _, h, _
  | (.integer _, _) :: _, _, _, h, _ | (.f32 _, _) :: _, _, _, h, _
  | (.f64 _, _) :: _, _, _, h, _ | (.binary _, _) :: _, _, _, h, _
  | (.array _, _) :: _, _, _, h, _ | (.map _, _) :: _, _, _, h, _
  | (.ext _ _, _) :: _, _, _, h, _ => by cases h

end

/-! ### Numbers and payloads of a field map -/

def WireError.payloads (e : WireError) : List Payload := e.data.toList

def Envelope.payloads : Envelope → List Payload
  | .req _ _ params _ metadata => [params, metadata]
  | .res _ p | .note _ p | .prog _ p | .sEnd _ p => [p]
  | .err _ error | .sErr _ error => error.payloads
  | _ => []

mutual

/-- All numbers and all payloads of a field have a property. -/
def Field.all (num : Nat → Bool) (pay : Payload → Bool) : Field → Bool
  | .str _ | .bool _ => true
  | .uint n => num n
  | .payload p => pay p
  | .seq items => allItems num pay items
  | .struct fields => allFields num pay fields

def Field.allItems (num : Nat → Bool) (pay : Payload → Bool) : List Field → Bool
  | [] => true
  | f :: fs => f.all num pay && allItems num pay fs

def Field.allFields (num : Nat → Bool) (pay : Payload → Bool) : List (String × Field) → Bool
  | [] => true
  | (_, f) :: fs => f.all num pay && allFields num pay fs

end

def Envelope.numbers : Envelope → List Nat
  | .hello h => h.protocol.major :: h.protocol.minorsSupported
  | .helloAck h => [h.protocol.major, h.protocol.minor, h.heartbeat.intervalS,
    h.heartbeat.timeoutS, h.limits.maxControlFrame, h.limits.maxChunk, h.limits.maxInflightReqs,
    h.limits.initialStreamCredit]
  | .req id _ _ stream _ => id :: stream.toList
  | .res id _ | .err id _ | .prog id _ | .cancel id => [id]
  | .note _ _ => []
  | .sCredit stream bytes => [stream, bytes]
  | .sEnd stream _ | .sErr stream _ | .sCancel stream => [stream]

theorem Envelope.InRange.lt_of_mem_numbers {e : Envelope} (h : e.InRange) {n : Nat}
    (hn : n ∈ e.numbers) : n < 2 ^ 64 := by
  cases e with
  | hello h' =>
    obtain ⟨hmajor, hminors⟩ := h
    rcases List.mem_cons.mp hn with rfl | hn
    · exact lt_trans hmajor (by decide)
    · exact lt_trans (hminors n hn) (by decide)
  | helloAck h' =>
    obtain ⟨⟨_, _⟩, ⟨_, _⟩, _, _, _, _⟩ := h
    simp only [Envelope.numbers, List.mem_cons, List.not_mem_nil, or_false] at hn
    omega
  | req id method params stream metadata =>
    obtain ⟨hid, hstream⟩ := h
    rcases List.mem_cons.mp hn with rfl | hn
    · exact hid
    · exact lt_trans (hstream n (Option.mem_toList.mp hn)) (by decide)
  | sCredit stream bytes =>
    obtain ⟨hstream, hbytes⟩ := h
    simp only [Envelope.numbers, List.mem_cons, List.not_mem_nil, or_false] at hn
    omega
  | note method params => cases hn
  | res id p | err id p | prog id p | cancel id =>
    rw [List.mem_singleton.mp hn]
    exact h
  | sEnd stream p | sErr stream p | sCancel stream =>
    rw [List.mem_singleton.mp hn]
    exact lt_trans h (by decide)

section

variable (num : Nat → Bool) (pay : Payload → Bool)

@[simp] theorem Field.all_str (s : String) : (Field.str s).all num pay = true := rfl

@[simp] theorem Field.all_bool (b : Bool) : (Field.bool b).all num pay = true := rfl

@[simp] theorem Field.all_uint (n : Nat) : (Field.uint n).all num pay = num n := by
  rw [Field.all]

@[simp] theorem Field.all_payload (p : Payload) : (Field.payload p).all num pay = pay p := by
  rw [Field.all]

@[simp] theorem Field.all_seq {α : Type} (write : α → Field) (xs : List α) :
    (Field.seq (xs.map write)).all num pay = xs.all fun x => (write x).all num pay := by
  rw [Field.all]
  induction xs with
  | nil => rfl
  | cons x xs ih => rw [List.map_cons, Field.allItems, ih, List.all_cons]

@[simp] theorem Field.all_struct (fields : List (String × Field)) :
    (Field.struct fields).all num pay = Field.allFields num pay fields := by
  rw [Field.all]

@[simp] theorem Field.allFields_nil : Field.allFields num pay [] = true := rfl

@[simp] theorem Field.allFields_cons (name : String) (f : Field) (fs : List (String × Field)) :
    Field.allFields num pay ((name, f) :: fs) = (f.all num pay && Field.allFields num pay fs) := by
  rw [Field.allFields]

@[simp] theorem Field.allFields_append (fs gs : List (String × Field)) :
    Field.allFields num pay (fs ++ gs) =
      (Field.allFields num pay fs && Field.allFields num pay gs) := by
  induction fs with
  | nil => rfl
  | cons f fs ih =>
    obtain ⟨name, f⟩ := f
    rw [List.cons_append, Field.allFields, ih, Field.allFields, Bool.and_assoc]

@[simp] theorem Field.allFields_opt {α : Type} (name : String) (write : α → Field)
    (x : Option α) :
    Field.allFields num pay (Field.opt name write x) = x.all fun a => (write a).all num pay := by
  cases x with
  | none => rfl
  | some a =>
    show Field.allFields num pay [(name, write a)] = (write a).all num pay
    rw [Field.allFields_cons, Field.allFields_nil, Bool.and_true]

variable {pay}

theorem Field.allFields_unlessNil (hnil : pay .nil = true) (name : String) (p : Payload) :
    Field.allFields num pay (Field.unlessNil name p) = pay p := by
  unfold Field.unlessNil
  split_ifs with hp
  · rw [Payload.eq_nil_of_isNil hp, hnil, Field.allFields_nil]
  · rw [Field.allFields_cons, Field.allFields_nil, Bool.and_true, Field.all_payload]

theorem Hello.all_toFields (h : Hello) :
    Field.allFields num pay h.toFields =
      (num h.protocol.major && h.protocol.minorsSupported.all num) := by
  have hserialization : (h.serialization.all fun s => s.toField.all num pay) = true :=
    List.all_eq_true.mpr fun _ _ => rfl
  have hfeatures : (h.features.all fun _ => true) = true :=
    List.all_eq_true.mpr fun _ _ => rfl
  simp only [Hello.toFields, HelloProtocol.toFields, ResumeInfo.toFields, Field.allFields_append,
    Field.allFields_cons, Field.allFields_nil, Field.allFields_opt, Field.all_struct,
    Field.all_uint, Field.all_seq, Field.all_str, hserialization, hfeatures, Option.all_true,
    Bool.and_true]

theorem HelloAck.all_toFields (h : HelloAck) :
    Field.allFields num pay h.toFields = (Envelope.helloAck h).numbers.all num := by
  have hfeatures : (h.features.all fun _ => true) = true :=
    List.all_eq_true.mpr fun _ _ => rfl
  have hserialization : h.serialization.toField.all num pay = true := rfl
  simp only [HelloAck.toFields, AckProtocol.toFields, HeartbeatConfig.toFields, Limits.toFields,
    NodeAddress.toFields, Field.allFields_append, Field.allFields_cons, Field.allFields_nil,
    Field.allFields_opt, Field.all_struct, Field.all_uint, Field.all_seq, Field.all_str,
    Field.all_bool, hserialization, hfeatures, Option.all_true, Bool.and_true, Envelope.numbers,
    List.all_cons, List.all_nil, Bool.and_assoc]

theorem WireError.all_toFields (e : WireError) :
    Field.allFields num pay e.toFields = e.payloads.all pay := by
  have hdata : e.payloads.all pay = e.data.all pay := by
    unfold WireError.payloads
    cases e.data <;> simp
  rw [hdata]
  simp only [WireError.toFields, Field.allFields_append, Field.allFields_cons,
    Field.allFields_nil, Field.allFields_opt, Field.all_str, Field.all_bool, Field.all_payload,
    Bool.and_true, Bool.true_and]

theorem Envelope.all_toField (hnil : pay .nil = true) (e : Envelope) :
    e.toField.all num pay = (e.numbers.all num && e.payloads.all pay) := by
  rw [Envelope.toField, Field.all_struct, Field.allFields_cons, Field.all_str, Bool.true_and]
  have hskip := Field.allFields_unlessNil num hnil
  cases e with
  | hello h =>
    rw [Envelope.toFields, Hello.all_toFields]
    simp [Envelope.numbers, Envelope.payloads]
  | helloAck h =>
    rw [Envelope.toFields, HelloAck.all_toFields]
    simp [Envelope.payloads]
  | req id method params stream metadata =>
    cases stream with
    | none => simp [Envelope.toFields, Envelope.numbers, Envelope.payloads, hskip]
    | some x =>
      simp [Envelope.toFields, Envelope.numbers, Envelope.payloads, hskip, streamDecl,
        Bool.and_assoc, Bool.and_left_comm]
  | err id error | sErr id error =>
    simp [Envelope.toFields, Envelope.numbers, Envelope.payloads, WireError.all_toFields]
  | _ => simp [Envelope.toFields, Envelope.numbers, Envelope.payloads, hskip]

end

/-! ### Fields through JSON -/

/-- The number is of its type. -/
def inU64 (n : Nat) : Bool := n < 2 ^ 64

mutual

theorem Field.jsonToRmpv_toJson : (f : Field) → f.all inU64 (Payload.carried .json) = true →
    ∃ j, f.toJson = .ok j ∧ jsonToRmpv j = f.toValue
  | .str s, _ => ⟨.string s, rfl, rfl⟩
  | .bool b, _ => ⟨.bool b, rfl, rfl⟩
  | .uint n, h => by
    rw [Field.all, inU64, decide_eq_true_eq] at h
    exact ⟨jsonOfNat n, rfl, jsonToRmpv_jsonOfNat h⟩
  | .payload p, h => by
    exact rmpvToJson_plain p.value h
  | .seq items, h => by
    obtain ⟨js, hjs, hback⟩ := Field.jsonToRmpv_toJsons items h
    refine ⟨.array js, ?_, ?_⟩
    · rw [Field.toJson, hjs]
      rfl
    · rw [jsonToRmpv, hback, Field.toValue]
  | .struct fields, h => by
    obtain ⟨js, hjs, hback⟩ := Field.jsonToRmpv_toJsonFields fields h
    refine ⟨.object js, ?_, ?_⟩
    · rw [Field.toJson, hjs]
      rfl
    · rw [jsonToRmpv, hback, Field.toValue]

theorem Field.jsonToRmpv_toJsons : (fs : List Field) →
    Field.allItems inU64 (Payload.carried .json) fs = true →
    ∃ js, Field.toJsons fs = .ok js ∧ jsonToRmpvItems js = Field.toValues fs
  | [], _ => ⟨[], rfl, rfl⟩
  | f :: fs, h => by
    rw [Field.allItems, Bool.and_eq_true] at h
    obtain ⟨j, hj, hf⟩ := Field.jsonToRmpv_toJson f h.1
    obtain ⟨js, hjs, hfs⟩ := Field.jsonToRmpv_toJsons fs h.2
    refine ⟨j :: js, ?_, ?_⟩
    · rw [Field.toJsons, hj, hjs]
      rfl
    · rw [jsonToRmpvItems, hf, hfs, Field.toValues]

theorem Field.jsonToRmpv_toJsonFields : (fs : List (String × Field)) →
    Field.allFields inU64 (Payload.carried .json) fs = true →
    ∃ js, Field.toJsonFields fs = .ok js ∧ jsonToRmpvFields js = Field.toEntries fs
  | [], _ => ⟨[], rfl, rfl⟩
  | (name, f) :: fs, h => by
    rw [Field.allFields, Bool.and_eq_true] at h
    obtain ⟨j, hj, hf⟩ := Field.jsonToRmpv_toJson f h.1
    obtain ⟨js, hjs, hfs⟩ := Field.jsonToRmpv_toJsonFields fs h.2
    refine ⟨(name, j) :: js, ?_, ?_⟩
    · rw [Field.toJsonFields, hj, hjs]
      rfl
    · rw [jsonToRmpvFields, hf, hfs, Field.toEntries]

end

/-- An envelope whose payloads are plain has a JSON form, which stands for its field map. -/
theorem Envelope.jsonToRmpv_toField {e : Envelope} (hr : e.InRange)
    (hp : ∀ p ∈ e.payloads, p.carried .json = true) :
    ∃ j, e.toField.toJson = .ok j ∧ jsonToRmpv j = e.toField.toValue := by
  apply Field.jsonToRmpv_toJson
  rw [Envelope.all_toField inU64 rfl, Bool.and_eq_true]
  constructor
  · exact List.all_eq_true.mpr fun n hn => decide_eq_true (hr.lt_of_mem_numbers hn)
  · exact List.all_eq_true.mpr hp

mutual

theorem Field.isOk_toJson : (f : Field) →
    f.toJson.isOk = f.all (fun _ => true) (Payload.encodes .json)
  | .str _ | .bool _ | .uint _ => rfl
  | .payload p => by
    rw [Field.toJson, Field.all, Payload.encodes]
    cases rmpvToJson p.value <;> rfl
  | .seq items => by
    rw [Field.toJson, Field.all, isOk_map, Field.isOk_toJsons]
  | .struct fields => by
    rw [Field.toJson, Field.all, isOk_map, Field.isOk_toJsonFields]

theorem Field.isOk_toJsons : (fs : List Field) →
    (Field.toJsons fs).isOk = Field.allItems (fun _ => true) (Payload.encodes .json) fs
  | [] => rfl
  | f :: fs => by
    rw [Field.toJsons, Field.allItems, ← Field.isOk_toJson f, ← Field.isOk_toJsons fs]
    apply isOk_bind
    intro j
    rw [isOk_bind _ _ true, Bool.and_true]
    exact fun _ => rfl

theorem Field.isOk_toJsonFields : (fs : List (String × Field)) →
    (Field.toJsonFields fs).isOk = Field.allFields (fun _ => true) (Payload.encodes .json) fs
  | [] => rfl
  | (name, f) :: fs => by
    rw [Field.toJsonFields, Field.allFields, ← Field.isOk_toJson f, ← Field.isOk_toJsonFields fs]
    apply isOk_bind
    intro j
    rw [isOk_bind _ _ true, Bool.and_true]
    exact fun _ => rfl

end

end Zyris.Proto
