import Zyris.Core.Handshake

/-!
# Both ends agree after a handshake

The transport carries every envelope; what MessagePack changes is the code of an error, which is
read back as the registered code of that name (`carried`).  The acceptor keeps what its `hello_ack`
says and the dialer what it reads, so both hold the same terms.
-/

namespace Zyris.Proto

/-- A code is read back as one with the same string. -/
theorem ErrorCode.wire_ofWire (s : String) : (ErrorCode.ofWire s).wire = s := by
  have hregistered : ∀ e ∈ ErrorCode.registered, e.1.wire = e.2 := by decide
  unfold ErrorCode.ofWire
  cases hfind : ErrorCode.registered.find? fun e => e.2 = s with
  | none => rfl
  | some e =>
    have hname : e.2 = s := by simpa using List.find?_some hfind
    exact (hregistered e (List.mem_of_find?_eq_some hfind)).trans hname

end Zyris.Proto

namespace Zyris.Core

open Proto

/-- What an envelope reads as at the other end. -/
def carried : Envelope → Envelope
  | .err id error => .err id { error with code := .ofWire error.code.wire }
  | e => e

/-- What the other end reads of the calls on a sink: the first envelope, or the end. -/
def readOf : List SinkCall → HandshakeRead
  | .send e :: _ => .control (carried e)
  | _ => .ended

/-- How a handshake ended at both ends. -/
structure Met where
  acceptor : Except WireError Established
  dialer : Except WireError Established

/-- A dialer with this `hello` meets an acceptor. -/
def meet (hello : Hello) (decide : Hello → Except WireError AcceptOptions) : Met :=
  let accepted := accept decide (.control (.hello hello))
  ⟨accepted.2, dial hello.features (readOf accepted.1)⟩

/-- The acceptor refuses: the major is another one, or `decide` says so. -/
def Refuses (hello : Hello) (decide : Hello → Except WireError AcceptOptions) : Prop :=
  hello.protocol.major ≠ PROTOCOL_MAJOR ∨ ∃ error, decide hello = .error error

/-- The two ends hold the same terms, under stream ids of opposite parity. -/
structure Established.Agrees (a d : Established) : Prop where
  serialization : a.serialization = d.serialization
  limits : a.limits = d.limits
  heartbeat : a.heartbeat = d.heartbeat
  connId : a.info.connId = d.info.connId
  nodeId : a.info.nodeId = d.info.nodeId
  node : a.info.node = d.info.node
  resumeToken : a.info.resumeToken = d.info.resumeToken
  attachmentsEnabled : a.attachmentsEnabled = d.attachmentsEnabled
  heartbeatEnabled : a.heartbeatEnabled = d.heartbeatEnabled
  side : a.side = .acceptor ∧ d.side = .dialer
  parity : ∀ n m, a.streamId n % 2 ≠ d.streamId m % 2

/-- A feature is agreed on whichever list is called the local one. -/
theorem Features.agreed_comm (f : Features) (feature : String) :
    f.agreed feature = Features.agreed ⟨f.peer, f.localFeatures⟩ feature := Bool.and_comm _ _

theorem streamId_mod_two (e : Established) (n : Nat) :
    e.streamId n % 2 = e.side.firstStreamId % 2 := by
  unfold Established.streamId
  omega

theorem settleAck_ack (options : AcceptOptions) (hello : Hello) :
    ∃ settled, settleAck hello.features (.helloAck (options.ack hello)) = .ok settled ∧
      (options.settle hello).establish.Agrees settled.establish := by
  have hmajor : ¬ (options.ack hello).protocol.major ≠ PROTOCOL_MAJOR := fun h => h rfl
  refine ⟨_, rfl, ?_⟩
  exact
    { serialization := rfl
      limits := rfl
      heartbeat := rfl
      connId := rfl
      nodeId := rfl
      node := rfl
      resumeToken := rfl
      attachmentsEnabled := Features.agreed_comm _ _
      heartbeatEnabled := Features.agreed_comm _ _
      side := ⟨rfl, rfl⟩
      parity := fun n m => by
        rw [streamId_mod_two, streamId_mod_two]
        show Side.firstStreamId .acceptor % 2 ≠ Side.firstStreamId .dialer % 2
        decide }

/-- A handshake of any `hello` with any acceptor: the terms agree, or neither end has a connection
and both have one error code. -/
theorem meet_agrees (hello : Hello) (decide : Hello → Except WireError AcceptOptions) :
    (Refuses hello decide → ∃ accepting dialing, (meet hello decide).acceptor = .error accepting ∧
      (meet hello decide).dialer = .error dialing ∧ accepting.code.wire = dialing.code.wire) ∧
    (¬ Refuses hello decide → ∃ a d, (meet hello decide).acceptor = .ok a ∧
      (meet hello decide).dialer = .ok d ∧ a.Agrees d) := by
  by_cases hmajor : hello.protocol.major ≠ PROTOCOL_MAJOR
  · have hanswer : answerHello decide hello = _ := if_pos hmajor
    refine ⟨fun _ => ?_, fun h => absurd (.inl hmajor) h⟩
    simp only [meet, accept, readHandshake, hanswer, readOf, carried, dial, settleAck]
    exact ⟨_, _, rfl, rfl, (ErrorCode.wire_ofWire _).symm⟩
  have hanswer : answerHello decide hello = _ := if_neg hmajor
  rcases hdecide : decide hello with error | options
  · refine ⟨fun _ => ?_, fun h => absurd (.inr ⟨error, hdecide⟩) h⟩
    rw [hdecide] at hanswer
    simp only [meet, accept, readHandshake, hanswer, readOf, carried, dial, settleAck]
    exact ⟨_, _, rfl, rfl, (ErrorCode.wire_ofWire _).symm⟩
  constructor
  · rintro (hne | ⟨error, herr⟩)
    · exact absurd hne hmajor
    · rw [hdecide] at herr
      cases herr
  intro _
  rw [hdecide] at hanswer
  obtain ⟨settled, hsettled, hagrees⟩ := settleAck_ack options hello
  refine ⟨_, _, ?_, ?_, hagrees⟩
  · simp only [meet, accept, readHandshake, hanswer]
    rfl
  · simp only [meet, accept, readHandshake, hanswer, readOf, carried, dial]
    show (settleAck hello.features (.helloAck (options.ack hello)) >>= fun settled =>
      .ok settled.establish) = _
    rw [hsettled]
    rfl

end Zyris.Core
