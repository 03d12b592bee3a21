import Zyris.Fs.Equiv.Edit
import Zyris.P2p.Frame
import Zyris.Proto.Equiv.Wire

/-!
# Frames keep the boundaries of messages

A frame at the start of a stream is read as its message, whatever comes behind it
(`readOne_encode`), and a message that was read stood there as its frame (`stream_of_readOne`).
-/

namespace Zyris.P2p

open Proto

/-! ### The header -/

variable {kind : UInt8} {len : Nat}

theorem decodeHeader_of_le (hkind : kind ≤ 1) (hlen : len ≤ MAX_FRAME) :
    decodeHeader kind (beBytes len) = .ok (kind, len) := by
  have hback : ofBeBytes (beBytes len) = len :=
    ofBeBytes_beBytes (lt_of_le_of_lt hlen (by decide))
  rw [decodeHeader, if_neg (UInt8.not_lt.mpr hkind), hback]
  exact if_neg (Nat.not_lt.mpr hlen)

variable {bytes rest : List UInt8}

theorem of_decodeHeader_eq_ok {kind' : UInt8} (h : decodeHeader kind bytes = .ok (kind', len)) :
    kind' = kind ∧ len = ofBeBytes bytes := by
  unfold decodeHeader at h
  split_ifs at h
  dsimp only at h
  split_ifs at h
  cases h
  exact ⟨rfl, rfl⟩

/-! ### The body -/

theorem body_kindAndPayload (msg : WireMessage) :
    body (kindAndPayload msg).1 (kindAndPayload msg).2 = .ok msg := by
  cases msg with
  | binary b => rfl
  | text t =>
    have hkind : (1 : UInt8) ≠ 0 := by decide
    have htext : Fs.fromUtf8 (utf8 t.toList) = some t.toList := Fs.fromUtf8_eq_some_iff.mpr rfl
    simp only [body, kindAndPayload, if_neg hkind, if_true, htext]
    exact congrArg (Except.ok ∘ WireMessage.text) String.ofList_toList

variable {msg : WireMessage}

theorem kindAndPayload_of_body
    (h : body kind bytes = .ok msg) : kindAndPayload msg = (kind, bytes) := by
  unfold body at h
  split_ifs at h with h0 h1
  · cases h
    rw [h0]
    rfl
  rcases htext : Fs.fromUtf8 bytes with _ | text <;> rw [htext] at h <;> cases h
  unfold Fs.fromUtf8 at htext
  dsimp only at htext
  split_ifs at htext with hutf8
  cases htext
  rw [kindAndPayload, String.toList_ofList, hutf8, h1]

/-! ### One frame -/

theorem readExact_append (front rest : List UInt8) (h : front.length = len) :
    readExact len (front ++ rest) = some (front, rest) := by
  rw [← h, readExact, if_pos (by simp), List.take_left, List.drop_left]

theorem of_readExact {stream : List UInt8} (h : readExact len stream = some (bytes, rest)) :
    stream = bytes ++ rest ∧ bytes.length = len := by
  unfold readExact at h
  split_ifs at h with hlen
  cases h
  exact ⟨(List.take_append_drop len stream).symm, List.length_take_of_le hlen⟩

theorem kind_le (msg : WireMessage) : (kindAndPayload msg).1 ≤ 1 := by
  cases msg with
  | binary b => exact UInt8.le_iff_toNat_le.mpr (by simp [kindAndPayload])
  | text t => exact UInt8.le_refl 1

theorem readOne_encode (h : (kindAndPayload msg).2.length ≤ MAX_FRAME)
    (rest : List UInt8) : readOne (encode msg ++ rest) = (.ok msg, rest) := by
  have hbody := body_kindAndPayload msg
  have hheader := decodeHeader_of_le (kind_le msg) h
  rcases hmsg : kindAndPayload msg with ⟨kind, payload⟩
  rw [hmsg] at hbody hheader
  have hsplit : encode msg ++ rest = (kind :: beBytes payload.length) ++ (payload ++ rest) := by
    simp [encode, hmsg]
  have hread : readExact 5 (encode msg ++ rest) =
      some (kind :: beBytes payload.length, payload ++ rest) := by
    rw [hsplit]
    exact readExact_append (kind :: beBytes payload.length) _ rfl
  rw [readOne, hread]
  simp only [List.headD_cons, List.tail_cons, hheader, readExact_append payload rest rfl, hbody]
  rfl

theorem stream_of_readOne {stream : List UInt8}
    (h : readOne stream = (.ok msg, rest)) : stream = encode msg ++ rest := by
  unfold readOne at h
  rcases hread : readExact 5 stream with _ | ⟨header, stream'⟩ <;> rw [hread] at h
  · cases h
  obtain ⟨rfl, hlength⟩ := of_readExact hread
  obtain ⟨kind, bytes, rfl⟩ := List.exists_cons_of_length_eq_add_one hlength
  simp only [List.headD_cons, List.tail_cons] at h
  rcases hheader : decodeHeader kind bytes with _ | ⟨kind', len⟩ <;> rw [hheader] at h
  · cases h
  obtain ⟨rfl, rfl⟩ := of_decodeHeader_eq_ok hheader
  rcases hpayload : readExact (ofBeBytes bytes) stream' with _ | ⟨payload, rest'⟩ <;>
    simp only [hpayload, Prod.mk.injEq] at h
  · cases h.1
  obtain ⟨rfl, hlen⟩ := of_readExact hpayload
  obtain ⟨hbody, rfl⟩ := h
  rcases hmsg : body kind' payload with _ | msg' <;> rw [hmsg] at hbody <;> cases hbody
  have hbytes : bytes.length = 4 := Nat.succ.inj hlength
  simp [encode, kindAndPayload_of_body hmsg, hlen, beBytes_ofBeBytes hbytes]

theorem readMany_encode {msgs : List WireMessage}
    (h : ∀ msg ∈ msgs, (kindAndPayload msg).2.length ≤ MAX_FRAME) (rest : List UInt8) :
    readMany msgs.length (msgs.flatMap encode ++ rest) = (msgs.map .ok, rest) := by
  induction msgs with
  | nil => rfl
  | cons msg msgs ih =>
    obtain ⟨hmsg, hmsgs⟩ := List.forall_mem_cons.mp h
    rw [List.flatMap_cons, List.append_assoc, List.length_cons, readMany, readOne_encode hmsg]
    dsimp only
    rw [ih hmsgs, List.map_cons]

/-- A header that does not decode is the last that is read. -/
theorem readOne_of_bad {e : FrameError}
    (hlength : bytes.length = 4) (h : decodeHeader kind bytes = .error e) :
    readOne (kind :: bytes ++ rest) = (.error (.frame e.display), rest) := by
  have hread : readExact 5 (kind :: bytes ++ rest) = some (kind :: bytes, rest) :=
    readExact_append (kind :: bytes) rest (congrArg Nat.succ hlength)
  rw [readOne, hread]
  simp only [List.headD_cons, List.tail_cons, h]

/-- **Framing keeps message boundaries.**  A stream of frames is read back as its messages with
nothing left; a header with an unknown kind or too large a length is refused and what is behind it
left unread; and a message that was read was encoded as the bytes taken. -/
theorem frames_keep_boundaries :
    (∀ msgs : List WireMessage, (∀ msg ∈ msgs, (kindAndPayload msg).2.length ≤ MAX_FRAME) →
      readMany msgs.length (msgs.flatMap encode) = (msgs.map .ok, [])) ∧
    (∀ kind bytes rest, bytes.length = 4 → 1 < kind ∨ MAX_FRAME < ofBeBytes bytes →
      ∃ e, readOne (kind :: bytes ++ rest) = (.error e, rest)) ∧
    ∀ stream msg rest, readOne stream = (.ok msg, rest) → stream = encode msg ++ rest := by
  refine ⟨fun msgs h => ?_, fun kind bytes rest hlength hbad => ?_, fun stream msg rest h => ?_⟩
  · simpa using readMany_encode h []
  · have hheader : ∃ e, decodeHeader kind bytes = .error e := by
      unfold decodeHeader
      by_cases hkind : 1 < kind
      · exact ⟨_, if_pos hkind⟩
      · rw [if_neg hkind]
        exact ⟨_, if_pos (hbad.resolve_left hkind)⟩
    obtain ⟨e, he⟩ := hheader
    exact ⟨_, readOne_of_bad hlength he⟩
  · exact stream_of_readOne h

/-- Two messages, a text and an empty one. -/
theorem frames_keep_boundaries_two :
    readMany 2 ([.text "hi", .binary []].flatMap encode) = ([.text "hi", .binary []].map .ok, []) :=
  frames_keep_boundaries.1 [.text "hi", .binary []] (by decide)

end Zyris.P2p
