import Zyris.Proto.Wire

/-!
# Reading back what serde's derive wrote

The map of fields of an envelope, taken as a value, is read back by the reader serde derives beside
it.  Two things do not come back as they went: an error code `Other` that spells a registered code,
and error data that is there but nil (`Envelope.canon`).
-/

namespace Zyris.Proto

open Record

/-! ### Envelopes -/

def HelloProtocol.InRange (p : HelloProtocol) : Prop :=
  p.major < 2 ^ 16 ∧ ∀ minor ∈ p.minorsSupported, minor < 2 ^ 16

def AckProtocol.InRange (p : AckProtocol) : Prop := p.major < 2 ^ 16 ∧ p.minor < 2 ^ 16

def HeartbeatConfig.InRange (h : HeartbeatConfig) : Prop :=
  h.intervalS < 2 ^ 32 ∧ h.timeoutS < 2 ^ 32

def Limits.InRange (l : Limits) : Prop :=
  l.maxControlFrame < 2 ^ 32 ∧ l.maxChunk < 2 ^ 32 ∧ l.maxInflightReqs < 2 ^ 32 ∧
    l.initialStreamCredit < 2 ^ 32

/-- The numbers are of their types: ids and byte counts `u64`, stream ids, limits and heartbeats
`u32`, versions `u16`. -/
def Envelope.InRange : Envelope → Prop
  | .hello h => h.protocol.InRange
  | .helloAck h => h.protocol.InRange ∧ h.heartbeat.InRange ∧ h.limits.InRange
  | .req id _ _ stream _ => id < 2 ^ 64 ∧ ∀ x ∈ stream, x < 2 ^ 32
  | .res id _ | .err id _ | .prog id _ | .cancel id => id < 2 ^ 64
  | .note _ _ => True
  | .sCredit stream bytes => stream < 2 ^ 32 ∧ bytes < 2 ^ 64
  | .sEnd stream _ | .sErr stream _ | .sCancel stream => stream < 2 ^ 32

/-- `Other` with the name of a registered code is that code. -/
def ErrorCode.canon : ErrorCode → ErrorCode
  | .other s => ((registered.find? fun e => e.2 = s).map (·.1)).getD (.other s)
  | code => code

/-- An error with its code made canonical, and without data that is nil. -/
def WireError.canon (e : WireError) : WireError :=
  { e with code := e.code.canon, data := e.data.filter fun p => !p.isNil }

/-- An envelope with its error made canonical. -/
def Envelope.canon : Envelope → Envelope
  | .err id error => .err id error.canon
  | .sErr stream error => .sErr stream error.canon
  | e => e

/-! ### Reading a field back -/

/-- A struct's fields as they come out of a map. -/
def Field.record (fields : List (String × Field)) : List (String × Value) :=
  fields.map fun f => (f.1, f.2.toValue)

theorem named_toEntries (fields : List (String × Field)) :
    named (Field.toEntries fields) = some (Field.record fields) := by
  induction fields with
  | nil => rfl
  | cons f fields ih =>
    obtain ⟨name, f⟩ := f
    unfold named at ih ⊢
    rw [Field.toEntries, List.mapM_cons, ih]
    rfl

theorem readStruct_struct {α : Type} (read : List (String × Value) → Option α)
    (fields : List (String × Field)) :
    readStruct read (Field.struct fields).toValue = read (Field.record fields) := by
  rw [Field.toValue, readStruct, named_toEntries]
  rfl

@[simp] theorem readStr_str (s : String) : readStr (Field.str s).toValue = some s := rfl

@[simp] theorem readBool_bool (b : Bool) : readBool (Field.bool b).toValue = some b := rfl

theorem readUint_uint {bits n : Nat} (h : n < 2 ^ bits) (hbits : bits ≤ 64 := by decide) :
    readUint bits (Field.uint n).toValue = some n := by
  have hlt : n < 2 ^ 64 := lt_of_lt_of_le h (Nat.pow_le_pow_right (by decide) hbits)
  rw [Field.toValue, Value.ofNat, readUint, Integer.asU64_ofU64, Nat.mod_eq_of_lt hlt]
  exact if_pos (decide_eq_true h)

theorem toValues_map {α : Type} (write : α → Field) (xs : List α) :
    Field.toValues (xs.map write) = xs.map fun x => (write x).toValue := by
  induction xs with
  | nil => rfl
  | cons x xs ih => rw [List.map_cons, Field.toValues, ih, List.map_cons]

theorem readSeq_seq {α : Type} {write : α → Field} {read : Value → Option α} {xs : List α}
    (h : ∀ x ∈ xs, read (write x).toValue = some x) :
    readSeq read (Field.seq (xs.map write)).toValue = some xs := by
  rw [Field.toValue, readSeq, toValues_map]
  induction xs with
  | nil => rfl
  | cons x xs ih =>
    have hx := h x (List.mem_cons_self ..)
    have hxs := ih fun y hy => h y (List.mem_cons_of_mem _ hy)
    rw [List.map_cons, List.mapM_cons, hx, hxs]
    rfl

section

variable {α : Type} {name : String} {fields : List (String × Field)} {read : Value → Option α}
  {f : Field} {a : α} {p : Payload}

/-- A field that is read, and what is read after it. -/
theorem bind_of_read {β : Type} {x : Option α} {k : α → Option β} {b : Option β} (hx : x = some a)
    (hk : k a = b) : (x >>= k) = b := by
  rw [hx]
  exact hk

theorem required_record (h : values name fields = [f]) (hread : read f.toValue = some a) :
    required name read (Field.record fields) = some a := by
  have hvalues : values name (Field.record fields) = [f.toValue] := by
    rw [Field.record, values_map, h, List.map_singleton]
  rw [required_eq hvalues, hread]

theorem bind_required {β : Type} {k : α → Option β} {b : Option β}
    (h : values name fields = [f]) (hread : read f.toValue = some a) (hk : k a = b) :
    (required name read (Field.record fields) >>= k) = b :=
  bind_of_read (required_record h hread) hk

theorem defaulted_record (dflt : α) (h : values name fields = [f])
    (hread : read f.toValue = some a) :
    defaulted name dflt read (Field.record fields) = some a := by
  have hvalues : values name (Field.record fields) = [f.toValue] := by
    rw [Field.record, values_map, h, List.map_singleton]
  rw [defaulted_eq_read hvalues, hread]

theorem defaulted_skipped (dflt : α) (h : values name fields = []) :
    defaulted name dflt read (Field.record fields) = some dflt := by
  have hvalues : values name (Field.record fields) = [] := by
    rw [Field.record, values_map, h, List.map_nil]
  rw [defaulted_eq_dflt hvalues]

theorem defaulted_opt {write : α → Field} {x : Option α}
    (h : values name fields = (x.map write).toList) (hnil : read .nil = none)
    (hread : ∀ a ∈ x, read (write a).toValue = some a) :
    defaulted name none (readOption read) (Field.record fields) = some x := by
  rcases x with _ | a
  · exact defaulted_skipped none h
  refine defaulted_record none h ?_
  have ha := hread a rfl
  -- a value that reads as something is not nil
  have hne : (write a).toValue ≠ .nil := by
    intro heq
    rw [heq, hnil] at ha
    cases ha
  unfold readOption
  split
  · exact absurd ‹_› hne
  · rw [ha, Option.map_some]

theorem Payload.eq_nil_of_isNil (h : p.isNil = true) : p = .nil := by
  obtain ⟨v⟩ := p
  unfold Payload.isNil at h
  split at h
  · have hv : v = .nil := ‹_›
    rw [hv]
    rfl
  · cases h

@[simp] theorem values_unlessNil (other : String) (p : Payload) :
    values name (Field.unlessNil other p) =
      if other = name then (if p.isNil then [] else [Field.payload p]) else [] := by
  unfold Field.unlessNil
  split_ifs <;> simp_all

@[simp] theorem values_opt (other : String) (write : α → Field) (x : Option α) :
    values name (Field.opt other write x) =
      if other = name then (x.map write).toList else [] :=
  values_toList x write

theorem defaulted_unlessNil (h : values name fields = if p.isNil then [] else [Field.payload p]) :
    defaulted name .nil readPayload (Field.record fields) = some p := by
  split_ifs at h with hp
  · rw [Payload.eq_nil_of_isNil hp]
    exact defaulted_skipped Payload.nil h
  · exact defaulted_record Payload.nil h rfl

end

/-! ### Reading a struct back -/

theorem ErrorCode.ofWire_wire (code : ErrorCode) : ErrorCode.ofWire code.wire = code.canon := by
  cases code with
  | other s =>
    show ErrorCode.ofWire s = ((registered.find? fun e => e.2 = s).map (·.1)).getD (.other s)
    unfold ErrorCode.ofWire
    cases registered.find? fun e => e.2 = s <;> rfl
  | _ => rfl

theorem WireError.read_toFields (e : WireError) :
    WireError.read (Field.struct e.toFields).toValue = some e.canon := by
  rw [WireError.read, readStruct_struct]
  refine bind_required (by simp [WireError.toFields]) (readStr_str e.code.wire) ?_
  refine bind_required (by simp [WireError.toFields]) (readStr_str e.message) ?_
  refine bind_of_read (defaulted_record false (by simp [WireError.toFields])
    (readBool_bool e.retriable)) ?_
  have hdata : defaulted "data" none (readOption readPayload) (Field.record e.toFields) =
      some (e.data.filter fun p => !p.isNil) := by
    have hvalues : values "data" e.toFields = (e.data.map Field.payload).toList := by
      simp [WireError.toFields]
    rcases hd : e.data with _ | p <;> rw [hd] at hvalues
    · exact defaulted_skipped none hvalues
    refine defaulted_record (f := .payload p) none hvalues ?_
    -- nil is read as `None`
    obtain ⟨v⟩ := p
    cases v <;> rfl
  refine bind_of_read hdata ?_
  rw [ErrorCode.ofWire_wire]
  rfl

theorem HelloProtocol.read_toFields {p : HelloProtocol} (h : p.InRange) :
    HelloProtocol.read (Field.struct p.toFields).toValue = some p := by
  rw [HelloProtocol.read, readStruct_struct]
  refine bind_required (by simp [HelloProtocol.toFields]) (readUint_uint h.1) ?_
  refine bind_of_read (defaulted_record [] (by simp [HelloProtocol.toFields])
    (readSeq_seq fun m hm => readUint_uint (h.2 m hm))) ?_
  rfl

theorem AckProtocol.read_toFields {p : AckProtocol} (h : p.InRange) :
    AckProtocol.read (Field.struct p.toFields).toValue = some p := by
  rw [AckProtocol.read, readStruct_struct]
  refine bind_required (by simp [AckProtocol.toFields]) (readUint_uint h.1) ?_
  refine bind_required (by simp [AckProtocol.toFields]) (readUint_uint h.2) ?_
  rfl

theorem ResumeInfo.read_toFields (r : ResumeInfo) :
    ResumeInfo.read (Field.struct r.toFields).toValue = some r := by
  rw [ResumeInfo.read, readStruct_struct]
  refine bind_required (by simp [ResumeInfo.toFields]) (readStr_str r.connId) ?_
  refine bind_required (by simp [ResumeInfo.toFields]) (readStr_str r.resumeToken) ?_
  rfl

theorem HeartbeatConfig.read_toFields {c : HeartbeatConfig} (h : c.InRange) :
    HeartbeatConfig.read (Field.struct c.toFields).toValue = some c := by
  rw [HeartbeatConfig.read, readStruct_struct]
  refine bind_required (by simp [HeartbeatConfig.toFields]) (readUint_uint h.1) ?_
  refine bind_required (by simp [HeartbeatConfig.toFields]) (readUint_uint h.2) ?_
  rfl

theorem Limits.read_toFields {l : Limits} (h : l.InRange) :
    Limits.read (Field.struct l.toFields).toValue = some l := by
  rw [Limits.read, readStruct_struct]
  refine bind_required (by simp [Limits.toFields]) (readUint_uint h.1) ?_
  refine bind_required (by simp [Limits.toFields]) (readUint_uint h.2.1) ?_
  refine bind_required (by simp [Limits.toFields]) (readUint_uint h.2.2.1) ?_
  refine bind_required (by simp [Limits.toFields]) (readUint_uint h.2.2.2) ?_
  rfl

theorem NodeAddress.read_toFields (a : NodeAddress) :
    NodeAddress.read (Field.struct a.toFields).toValue = some a := by
  rw [NodeAddress.read, readStruct_struct]
  refine bind_required (by simp [NodeAddress.toFields]) (readStr_str a.system) ?_
  refine bind_required (by simp [NodeAddress.toFields]) (readStr_str a.program) ?_
  refine bind_required (by simp [NodeAddress.toFields]) (readStr_str a.name) ?_
  rfl

theorem readStreamDecl_streamDecl {id : Nat} (h : id < 2 ^ 32) :
    readStreamDecl (Field.struct (streamDecl id)).toValue = some id := by
  rw [readStreamDecl, readStruct_struct]
  exact required_record (by simp [streamDecl]) (readUint_uint h)

theorem Serialization.read_toField (s : Serialization) :
    Serialization.read s.toField.toValue = some s := by
  cases s <;> rfl

theorem Hello.read_toFields {h : Hello} (hr : h.protocol.InRange) (tag : Field) :
    Hello.read (Field.record (("t", tag) :: h.toFields)) = some h := by
  refine bind_required (by simp [Hello.toFields]) (HelloProtocol.read_toFields hr) ?_
  refine bind_required (a := h.serialization) (by simp [Hello.toFields])
    (readSeq_seq fun s _ => Serialization.read_toField s) ?_
  refine bind_required (by simp [Hello.toFields]) (readStr_str h.agent) ?_
  refine bind_of_read (defaulted_opt (x := h.kind) (by simp [Hello.toFields])
    rfl fun s _ => readStr_str s) ?_
  refine bind_of_read (defaulted_opt (x := h.nodeName) (by simp [Hello.toFields])
    rfl fun s _ => readStr_str s) ?_
  refine bind_of_read (defaulted_record (a := h.features) [] (by simp [Hello.toFields])
    (readSeq_seq fun s _ => readStr_str s)) ?_
  refine bind_of_read (defaulted_opt (x := h.resume) (by simp [Hello.toFields])
    rfl fun r _ => ResumeInfo.read_toFields r) ?_
  rfl

theorem HelloAck.read_toFields {h : HelloAck} (hr : (Envelope.helloAck h).InRange) (tag : Field) :
    HelloAck.read (Field.record (("t", tag) :: h.toFields)) = some h := by
  refine bind_required (by simp [HelloAck.toFields]) (AckProtocol.read_toFields hr.1) ?_
  refine bind_required (by simp [HelloAck.toFields]) (Serialization.read_toField h.serialization) ?_
  refine bind_required (by simp [HelloAck.toFields]) (readStr_str h.connId) ?_
  refine bind_required (by simp [HelloAck.toFields]) (readStr_str h.resumeToken) ?_
  refine bind_required (by simp [HelloAck.toFields]) (readStr_str h.nodeId) ?_
  refine bind_of_read (defaulted_opt (x := h.node) (by simp [HelloAck.toFields])
    rfl fun a _ => NodeAddress.read_toFields a) ?_
  refine bind_required (by simp [HelloAck.toFields]) (HeartbeatConfig.read_toFields hr.2.1) ?_
  refine bind_required (by simp [HelloAck.toFields]) (Limits.read_toFields hr.2.2) ?_
  refine bind_of_read (defaulted_record false (by simp [HelloAck.toFields])
    (readBool_bool h.resumed)) ?_
  refine bind_of_read (defaulted_record (a := h.features) [] (by simp [HelloAck.toFields])
    (readSeq_seq fun s _ => readStr_str s)) ?_
  rfl

/-! ### Reading an envelope back -/

/-- No variant has a field of its own called `t`. -/
theorem Envelope.values_tag (e : Envelope) : values "t" e.toFields = [] := by
  cases e <;> simp [Envelope.toFields, Hello.toFields, HelloAck.toFields]

theorem Envelope.readVariant_toFields {e : Envelope} (hr : e.InRange) (tag : Field) :
    Envelope.readVariant e.tag (Field.record (("t", tag) :: e.toFields)) = some e.canon := by
  cases e with
  | hello h =>
    show (Hello.read _).map _ = _
    rw [Envelope.toFields, Hello.read_toFields hr]
    rfl
  | helloAck h =>
    show (HelloAck.read _).map _ = _
    rw [Envelope.toFields, HelloAck.read_toFields hr]
    rfl
  | req id method params stream metadata =>
    refine bind_required (by simp [Envelope.toFields]) (readUint_uint hr.1) ?_
    refine bind_required (by simp [Envelope.toFields]) (readStr_str method) ?_
    refine bind_of_read (defaulted_unlessNil (p := params) (by simp [Envelope.toFields])) ?_
    refine bind_of_read (defaulted_opt (x := stream) (by simp [Envelope.toFields]) rfl
      fun x hx => readStreamDecl_streamDecl (hr.2 x hx)) ?_
    refine bind_of_read (defaulted_unlessNil (p := metadata) (by simp [Envelope.toFields])) ?_
    rfl
  | res id result =>
    refine bind_required (by simp [Envelope.toFields]) (readUint_uint hr) ?_
    refine bind_of_read (defaulted_unlessNil (p := result) (by simp [Envelope.toFields])) ?_
    rfl
  | err id error | sErr stream error =>
    refine bind_required (by simp [Envelope.toFields]) (readUint_uint hr) ?_
    refine bind_required (by simp [Envelope.toFields]) (WireError.read_toFields error) ?_
    rfl
  | note method params =>
    refine bind_required (by simp [Envelope.toFields]) (readStr_str method) ?_
    refine bind_of_read (defaulted_unlessNil (p := params) (by simp [Envelope.toFields])) ?_
    rfl
  | prog id payload =>
    refine bind_required (by simp [Envelope.toFields]) (readUint_uint hr) ?_
    refine bind_of_read (defaulted_unlessNil (p := payload) (by simp [Envelope.toFields])) ?_
    rfl
  | cancel id | sCancel stream =>
    refine bind_required (by simp [Envelope.toFields]) (readUint_uint hr) ?_
    rfl
  | sCredit stream bytes =>
    refine bind_required (by simp [Envelope.toFields]) (readUint_uint hr.1) ?_
    refine bind_required (by simp [Envelope.toFields]) (readUint_uint hr.2) ?_
    rfl
  | sEnd stream trailer =>
    refine bind_required (by simp [Envelope.toFields]) (readUint_uint hr) ?_
    refine bind_of_read (defaulted_unlessNil (p := trailer) (by simp [Envelope.toFields])) ?_
    rfl

/-- What serde's derive wrote is read back by what it reads with. -/
theorem Envelope.read_toField {e : Envelope} (hr : e.InRange) :
    Envelope.read e.toField.toValue = some e.canon := by
  have htag : required "t" readStr (Field.record (("t", .str e.tag) :: e.toFields)) = some e.tag :=
    required_record (by simp [e.values_tag]) (readStr_str _)
  rw [Envelope.read, Envelope.toField, readStruct_struct, htag]
  exact Envelope.readVariant_toFields hr _

end Zyris.Proto
