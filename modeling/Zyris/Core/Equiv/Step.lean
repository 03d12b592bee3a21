import Zyris.Core.Connection.Step

/-!
# What a step of one end is

`Shared.Acts` lists the steps of `Shared.step`, each with the state it starts from and the state it
ends in.  The invariants of an end are proved by cases on it, so that only the cases a property
depends on are looked into.
-/

namespace Zyris.Core

theorem mem_encode {cfg : Config} {e : Proto.Envelope} {c : WriterCmd} (h : c ∈ cfg.encode e) :
    c = .send (.control e) := by
  unfold Config.encode at h
  split_ifs at h
  · exact List.mem_singleton.mp h
  · cases h

end Zyris.Core

namespace Zyris.Core.Shared

open Proto

/-- Everything a step of an end can do. -/
inductive Acts (cfg : Config) (s : Shared) : Act → Shared → Prop
  | call {a : CallAct} {c : Client} {e : Emit} :
    s.client.callStep cfg (s.env cfg) a = some (c, e) → Acts cfg s (.call a) (s.withClient c e)
  | stream {a : Client.StreamAct} {c : Client} {e : Emit} :
    s.client.streamStep cfg a = some (c, e) → Acts cfg s (.stream a) (s.withClient c e)
  | serve {a : ServeAct} {v : Serve} {e : Emit} :
    s.serve.step cfg (s.env cfg) s.closing.closeReason.isSome a = some (v, e) →
    Acts cfg s (.serve a) (s.withServe v e)
  | announced {r : Nat} {x : Replace} {params : Payload} : s.serve.replaces.get r = some x →
    x.pc = .announcing → cfg.announceParams s.serve.served.descriptors = .ok params →
    Acts cfg s (.announce r) { s with
      client := s.client.beginCall METHOD_ANNOUNCE params .nil
      serve := s.serve.replacePc r (.awaiting s.client.requests.calls.size) }
  | announceOver {r : Nat} {x : Replace} : s.serve.replaces.get r = some x →
    (x.pc = .announcing ∧ (∃ error, cfg.announceParams s.serve.served.descriptors = .error error) ∨
      ∃ i c result, x.pc = .awaiting i ∧ s.client.requests.calls.get i = some c ∧
        c.pc = .returned result) →
    Acts cfg s (.announce r) { s with serve := s.serve.replacePc r .finished }
  | receive {f : Frame} : s.serve.reader = .idle → Acts cfg s (.receive f) (s.receive cfg f)
  | shutdown (reason : CloseReason) :
    Acts cfg s (.closing (.shutdown reason)) { s with closing := s.closing.begin reason }
  | shutdownRun {k : Nat} {x : Shutdown} {s' : Shared} : s.closing.shutdowns.get k = some x →
    s.shutdownRun k x = some s' → Acts cfg s (.closing (.shutdownRun k)) s'
  | notify (method : String) (params : Payload) :
    Acts cfg s (.closing (.notify method params)) (s.hand (cfg.encode (.note method params)))
  | close (reason : String) :
    Acts cfg s (.closing (.close reason)) (s.hand [.close CLOSE_NORMAL reason])
  -- the writer moves on, or has failed and starts its `shutdown`
  | writer {a : WriterAct} {out : Out} {closing : Closing} : out.handed = s.out.handed →
    (closing = s.closing ∨
      ∃ e, a = .failed e ∧ closing = s.closing.begin (.transport ("write failed: " ++ e))) →
    s.writerStep a = some { s with out := out, closing := closing } →
    Acts cfg s (.writer a) { s with out := out, closing := closing }

variable {cfg : Config} {s s' : Shared}

theorem acts_of_announce {r : Nat} (h : s.announce cfg r = some s') :
    s.Acts cfg (.announce r) s' := by
  unfold announce at h
  split at h
  · obtain ⟨x, hx, hpc⟩ := Option.map_eq_some_iff.mp ‹_›
    split at h <;> cases h
    · exact .announced hx hpc ‹_›
    · exact .announceOver hx (.inl ⟨hpc, _, ‹_›⟩)
  · obtain ⟨x, hx, hpc⟩ := Option.map_eq_some_iff.mp ‹_›
    split at h <;> cases h
    obtain ⟨c, hc, hret⟩ := Option.map_eq_some_iff.mp ‹_›
    exact .announceOver hx (.inr ⟨_, c, _, hpc, hc, hret⟩)
  · cases h

theorem acts_of_writerStep {a : WriterAct} (h : s.writerStep a = some s') :
    s.Acts cfg (.writer a) s' := by
  have hstep := h
  cases a with
  | failed e =>
    simp only [writerStep] at h
    split at h <;> cases h
    exact .writer rfl (.inr ⟨e, rfl, rfl⟩) hstep
  | _ =>
    simp only [writerStep] at h
    repeat' split at h
    all_goals cases h
    all_goals exact .writer rfl (.inl rfl) hstep

theorem acts_of_step {a : Act} (h : s.step cfg a = some s') : s.Acts cfg a s' := by
  cases a with
  | call b =>
    simp only [step] at h
    split at h <;> cases h
    exact .call ‹_›
  | stream b =>
    simp only [step] at h
    split at h <;> cases h
    exact .stream ‹_›
  | serve b =>
    simp only [step] at h
    split at h <;> cases h
    exact .serve ‹_›
  | announce r => exact acts_of_announce h
  | receive f =>
    simp only [step] at h
    split at h <;> cases h
    exact .receive ‹_›
  | closing b =>
    cases b with
    | shutdown reason =>
      cases h
      exact .shutdown reason
    | shutdownRun k =>
      simp only [step, closingStep] at h
      split at h
      · exact .shutdownRun ‹_› h
      · cases h
    | notify method params =>
      cases h
      exact .notify method params
    | close reason =>
      cases h
      exact .close reason
  | writer b => exact acts_of_writerStep h

end Zyris.Core.Shared
