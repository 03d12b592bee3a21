import Mathlib.Data.List.Basic
import Zyris.Proto.Equiv.Json

/-!
# Envelopes survive the wire

Decoding what `encode_control` wrote gives the envelope again, in its canonical form, provided that
the two formats carry the field map.  Chunks of stream data come back as they were, from the frames
that hold one and from no others.
-/

namespace Zyris.Proto

/-- `encode_control` succeeds on the envelopes the connection takes it to succeed on. -/
theorem isOk_encodeControl (codec : Codec) (e : Envelope) (ser : Serialization) :
    (encodeControl codec e ser).isOk = e.encodes ser := by
  cases ser with
  | msgpack =>
    show true = e.encodes .msgpack
    cases e <;> simp [Envelope.encodes, WireError.encodes_msgpack]
  | json =>
    have hok : (encodeControl codec e .json).isOk = e.toField.toJson.isOk := by
      unfold encodeControl
      cases e.toField.toJson <;> rfl
    have hnumbers : (e.numbers.all fun _ => true) = true := List.all_eq_true.mpr fun _ _ => rfl
    rw [hok, Field.isOk_toJson, Envelope.all_toField _ rfl, hnumbers, Bool.true_and]
    cases e with
    | err id error | sErr id error =>
      show (error.data.toList.all _) = error.encodes .json
      unfold WireError.encodes
      cases error.data <;> simp
    | _ => simp [Envelope.payloads, Envelope.encodes]

/-- `rmp_serde` and `serde_json` read back the field map of an envelope they wrote. -/
def Codec.Carries (codec : Codec) (e : Envelope) : Serialization → Prop
  | .msgpack => (∀ p ∈ e.payloads, p.carried .msgpack) →
    codec.fromSlice (codec.toVecNamed e.toField.toValue) = some e.toField.toValue
  | .json => (∀ p ∈ e.payloads, p.carried .json) →
    ∀ j, e.toField.toJson = .ok j → codec.fromStr (codec.toText j) = some j

/-! ### The round trip -/

/-- What `encode_control` writes, `run_reader` reads back: the envelope, its error canonical and
every field left out put back. -/
theorem decodeMessage_encodeControl (codec : Codec) (e : Envelope) (ser : Serialization)
    (hr : e.InRange) (hp : ∀ p ∈ e.payloads, p.carried ser = true) (hc : codec.Carries e ser) :
    ∃ message, encodeControl codec e ser = .ok message ∧
      decodeMessage codec message = .ok (.control e.canon) := by
  cases ser with
  | msgpack =>
    refine ⟨_, rfl, ?_⟩
    have hread : (codec.fromSlice (codec.toVecNamed e.toField.toValue)).bind Envelope.read =
        some e.canon := by
      rw [hc hp, Option.bind_some, Envelope.read_toField hr]
    rw [decodeMessage, decodeBinary, if_pos rfl, hread]
  | json =>
    obtain ⟨j, hj, hback⟩ := Envelope.jsonToRmpv_toField hr hp
    refine ⟨.text (codec.toText j), ?_, ?_⟩
    · rw [encodeControl, hj]
    have hread : ((codec.fromStr (codec.toText j)).bind fun j => Envelope.read (jsonToRmpv j)) =
        some e.canon := by
      rw [hc hp j hj, Option.bind_some, hback, Envelope.read_toField hr]
    rw [decodeMessage, decodeText, hread]
    rfl

/-- An error whose code spells `timeout` and whose data is nil. -/
def lateError : Envelope := .err 7 ⟨.other "timeout", "late", true, some .nil⟩

/-- Its MessagePack. -/
def lateBytes : List UInt8 :=
  [0x83, 0xa1, 0x74, 0xa3, 0x65, 0x72, 0x72, 0xa2, 0x69, 0x64, 0x07, 0xa5, 0x65, 0x72, 0x72, 0x6f,
    0x72, 0x84, 0xa4, 0x63, 0x6f, 0x64, 0x65, 0xa7, 0x74, 0x69, 0x6d, 0x65, 0x6f, 0x75, 0x74,
    0xa7, 0x6d, 0x65, 0x73, 0x73, 0x61, 0x67, 0x65, 0xa4, 0x6c, 0x61, 0x74, 0x65, 0xa9, 0x72,
    0x65, 0x74, 0x72, 0x69, 0x61, 0x62, 0x6c, 0x65, 0xc3, 0xa4, 0x64, 0x61, 0x74, 0x61, 0xc0]

/-- Its JSON text. -/
def lateText : String :=
  "\x7b\"t\":\"err\",\"id\":7,\"error\":\x7b\"code\":\"timeout\",\"message\":\"late\"," ++
    "\"retriable\":true,\"data\":null\x7d\x7d"

/-- What the two formats do with that envelope. -/
def Codec.late : Codec where
  toVecNamed _ := lateBytes
  fromSlice bytes := if bytes = lateBytes then some lateError.toField.toValue else none
  toText _ := lateText
  fromStr text := if text = lateText then lateError.toField.toJson.toOption else none

theorem Codec.carries_late (ser : Serialization) : Codec.late.Carries lateError ser := by
  cases ser with
  | msgpack => exact fun _ => rfl
  | json =>
    intro _ j hj
    show (if lateText = lateText then lateError.toField.toJson.toOption else none) = some j
    rw [if_pos rfl, hj]
    rfl

/-- It comes back as the registered code, without data. -/
theorem decodeMessage_encodeControl_late :
    lateError.InRange ∧ ∀ ser, ∃ message, encodeControl .late lateError ser = .ok message ∧
      decodeMessage .late message = .ok (.control (.err 7 ⟨.timeout, "late", true, none⟩)) := by
  have hid : 7 < 2 ^ 64 := by decide
  refine ⟨hid, fun ser => decodeMessage_encodeControl _ _ ser hid ?_ (Codec.carries_late ser)⟩
  intro p hp
  rw [List.mem_singleton.mp hp]
  cases ser <;> rfl

/-! ### Stream data -/

theorem ofBeBytes_beBytes {n : Nat} (h : n < 2 ^ 32) : ofBeBytes (beBytes n) = n := by
  simp only [beBytes, ofBeBytes, List.foldl_cons, List.foldl_nil, UInt8.toNat_ofNat']
  omega

theorem beBytes_ofBeBytes {bytes : List UInt8} (h : bytes.length = 4) :
    beBytes (ofBeBytes bytes) = bytes := by
  obtain ⟨a, b, c, d, rfl⟩ := List.length_eq_four.mp h
  have ha := a.toNat_lt
  have hb := b.toNat_lt
  have hc := c.toNat_lt
  have hd := d.toNat_lt
  simp only [beBytes, ofBeBytes, List.foldl_cons, List.foldl_nil, List.cons.injEq, and_true,
    ← UInt8.toNat_inj, UInt8.toNat_ofNat']
  omega

theorem decodeBinary_encodeStreamData (codec : Codec) {stream seq : Nat} (payload : List UInt8)
    (hstream : stream < 2 ^ 32) (hseq : seq < 2 ^ 32) :
    decodeBinary codec (encodeStreamData stream seq payload) =
      .ok (.streamData stream seq payload) := by
  have hlen : ¬ (encodeStreamData stream seq payload).length < 9 := by
    simp [encodeStreamData, beBytes]
  have hkind : FRAME_STREAM_DATA ≠ FRAME_CONTROL := by decide
  unfold encodeStreamData at hlen ⊢
  show Except.ok (Frame.streamData (ofBeBytes (beBytes stream)) (ofBeBytes (beBytes seq)) payload) =
    _
  rw [ofBeBytes_beBytes hstream, ofBeBytes_beBytes hseq]

theorem eq_encodeStreamData_of_decodeBinary {codec : Codec} {f : List UInt8} {stream seq : Nat}
    {payload : List UInt8} (h : decodeBinary codec f = .ok (.streamData stream seq payload)) :
    f = encodeStreamData stream seq payload := by
  rcases f with _ | ⟨_, body⟩
  · cases h
  rw [decodeBinary] at h
  split_ifs at h with hcontrol hdata hlen
  · split at h <;> cases h
  cases h
  rw [List.length_cons] at hlen
  have hstream : (body.take 4).length = 4 := by
    rw [List.length_take]
    omega
  have hseq : ((body.drop 4).take 4).length = 4 := by
    rw [List.length_take, List.length_drop]
    omega
  have hrest : body.drop 8 = (body.drop 4).drop 4 := by rw [List.drop_drop]
  -- the two numbers and the rest make up the body
  rw [hdata, encodeStreamData, beBytes_ofBeBytes hstream, beBytes_ofBeBytes hseq, hrest,
    List.append_assoc, List.take_append_drop, List.take_append_drop]

/-- **Binary frames are read without ambiguity.**  Exactly the frame of a chunk is read as this
chunk, a control frame never is, and what is neither is refused. -/
theorem binary_frames_unambiguous (codec : Codec) (f : List UInt8) :
    (∀ (s q : UInt32) (p : List UInt8),
      decodeBinary codec f = .ok (.streamData s.toNat q.toNat p) ↔
        f = encodeStreamData s.toNat q.toNat p) ∧
    (∀ e : Envelope, encodeControl codec e .msgpack = .ok (.binary f) →
      ∀ s q p, decodeBinary codec f ≠ .ok (.streamData s q p)) ∧
    (f = [] → decodeBinary codec f = .error .empty) ∧
    (∀ kind, f.head? = some kind → 1 < kind →
      decodeBinary codec f = .error (.unknownKind kind)) ∧
    (f.head? = some 1 → f.length < 9 → decodeBinary codec f = .error .truncated) := by
  refine ⟨?_, ?_, ?_, ?_, ?_⟩
  · intro s q p
    refine ⟨eq_encodeStreamData_of_decodeBinary, ?_⟩
    rintro rfl
    exact decodeBinary_encodeStreamData codec p s.toNat_lt q.toNat_lt
  · intro e hf s q p h
    -- the two kinds of frame begin with different bytes
    cases hf
    cases eq_encodeStreamData_of_decodeBinary h
  · rintro rfl
    rfl
  · intro kind hhead hkind
    obtain ⟨body, rfl⟩ := List.head?_eq_some_iff.mp hhead
    have hcontrol : kind ≠ FRAME_CONTROL := by
      rintro rfl
      exact absurd hkind (by decide)
    have hdata : kind ≠ FRAME_STREAM_DATA := by
      rintro rfl
      exact absurd hkind (by decide)
    rw [decodeBinary, if_neg hcontrol, if_neg hdata]
  · intro hhead hlen
    obtain ⟨body, rfl⟩ := List.head?_eq_some_iff.mp hhead
    have hcontrol : (1 : UInt8) ≠ FRAME_CONTROL := by decide
    have hdata : (1 : UInt8) = FRAME_STREAM_DATA := rfl
    rw [decodeBinary, if_neg hcontrol, if_pos hdata, if_pos hlen]

end Zyris.Proto
