import Zyris.Core.Handshake
import Zyris.Core.Equiv.Client
import Zyris.Core.Equiv.Serve

/-!
# The reason in a close frame

A close frame has room for 123 bytes of reason.  `truncate_close_reason` cuts the reason of a
refused handshake down to that, and nothing cuts the others: those of `Connection::close` and of
`shutdown`, which may hold what the peer wrote in its `zyris.closing` note.
-/

namespace Zyris.Core

open Proto

/-! ### Refused handshakes -/

theorem backToBoundary_le (message : List Char) (stop : Nat) :
    backToBoundary message stop ≤ stop := by
  induction stop with
  | zero => exact Nat.le_refl 0
  | succ stop ih =>
    rw [backToBoundary]
    split
    · exact Nat.le_refl _
    · omega

theorem exists_sliceFrom_backToBoundary (message : List Char) (stop : Nat) :
    ∃ rest, sliceFrom message (backToBoundary message stop) = some rest := by
  induction stop with
  | zero =>
    refine ⟨message, ?_⟩
    cases message <;> rfl
  | succ stop ih =>
    rw [backToBoundary]
    split
    · next h => exact Option.isSome_iff_exists.mp h
    · exact ih

theorem le_backToBoundary {message : List Char} {n stop : Nat} (h : n ≤ stop)
    (hn : (sliceFrom message n).isSome = true) : n ≤ backToBoundary message stop := by
  induction stop with
  | zero => exact h
  | succ stop ih =>
    rw [backToBoundary]
    split
    · exact h
    · next hnone =>
      have hne : n ≠ stop + 1 := fun heq => hnone (heq ▸ hn)
      exact ih (by omega)

theorem truncateCloseReason_of_lt {message : List Char} (h : 123 < (utf8 message).length) :
    truncateCloseReason message <+: message ∧
      (utf8 (truncateCloseReason message)).length = backToBoundary message 123 := by
  obtain ⟨rest, hrest⟩ := exists_sliceFrom_backToBoundary message 123
  obtain ⟨p, rfl, hp⟩ := exists_of_sliceFrom hrest
  have hlen : (p ++ rest).length - rest.length = p.length := by
    rw [List.length_append, Nat.add_sub_cancel]
  have hcut : truncateCloseReason (p ++ rest) = p := by
    rw [truncateCloseReason, if_neg (Nat.not_le.mpr h)]
    simp only [hrest, Option.getD_some, hlen, List.take_left]
  rw [hcut]
  exact ⟨List.prefix_append p rest, hp⟩

theorem length_utf8_truncateCloseReason (message : List Char) :
    (utf8 (truncateCloseReason message)).length ≤ 123 := by
  by_cases h : (utf8 message).length ≤ 123
  · rwa [truncateCloseReason, if_pos h]
  · rw [(truncateCloseReason_of_lt (Nat.not_le.mp h)).2]
    exact backToBoundary_le message 123

/-- **Truncation is maximal.**  The reason is the longest prefix that fits: all of it, or what ends
at the last boundary not behind byte 123. -/
theorem truncation_maximal (message : List Char) :
    truncateCloseReason message <+: message ∧
    (utf8 (truncateCloseReason message)).length ≤ 123 ∧
    (∀ p, p <+: message → (utf8 p).length ≤ 123 → p <+: truncateCloseReason message) ∧
    ((utf8 message).length ≤ 123 → truncateCloseReason message = message) ∧
    (123 < (utf8 message).length →
      120 ≤ (utf8 (truncateCloseReason message)).length ∧
      (utf8 (truncateCloseReason message)).length = backToBoundary message 123 ∧
      (sliceFrom message (backToBoundary message 123)).isSome = true ∧
      ∀ n, backToBoundary message 123 < n → n ≤ 123 → sliceFrom message n = none) := by
  by_cases h : (utf8 message).length ≤ 123
  · have hall : truncateCloseReason message = message := by rw [truncateCloseReason, if_pos h]
    rw [hall]
    exact ⟨List.prefix_rfl, h, fun p hp _ => hp, fun _ => rfl, fun hlong => absurd h (by omega)⟩
  obtain ⟨hpre, hlen⟩ := truncateCloseReason_of_lt (Nat.not_le.mp h)
  refine ⟨hpre, length_utf8_truncateCloseReason message, ?_, fun hfits => absurd hfits h, ?_⟩
  · -- a prefix that fits ends at a boundary, which the loop has not passed
    intro p hp hfits
    obtain ⟨rest, rfl⟩ := hp
    apply isPrefix_of_length_utf8_le (List.prefix_append p rest) hpre
    rw [hlen]
    exact le_backToBoundary hfits (by rw [sliceFrom_of_append]; rfl)
  · intro _
    obtain ⟨n, hn, hnear, hboundary⟩ := exists_boundary_near message (i := 123) (by omega)
    have hle := le_backToBoundary hn hboundary
    obtain ⟨rest, hrest⟩ := exists_sliceFrom_backToBoundary message 123
    refine ⟨by omega, hlen, by rw [hrest]; rfl, ?_⟩
    intro n hlt hn
    rw [← Option.not_isSome_iff_eq_none]
    intro hsome
    have := le_backToBoundary hn hsome
    omega

/-- Whatever the acceptor reads and decides, it closes with a reason that fits. -/
theorem length_le_of_accept {decide : Hello → Except WireError AcceptOptions} {read : HandshakeRead}
    {code : Nat} {reason : List Char} (h : SinkCall.close code reason ∈ (accept decide read).1) :
    (utf8 reason).length ≤ 123 := by
  unfold accept at h
  split at h
  · cases h
  · simp only [answerHello] at h
    split at h
    · simp only [List.mem_cons, reduceCtorEq, SinkCall.close.injEq, List.not_mem_nil, or_false,
        false_or] at h
      rw [h.2]
      decide
    split at h
    · simp only [List.mem_cons, reduceCtorEq, SinkCall.close.injEq, List.not_mem_nil, or_false,
        false_or] at h
      rw [h.2]
      exact length_utf8_truncateCloseReason _
    · simp at h
  · cases h

/-! ### Reasons on their way -/

def fitsClose (reason : String) : Bool := (utf8 reason.toList).length ≤ 123

def WriterCmd.reason : WriterCmd → Option String
  | .send _ => none
  | .close _ reason => some reason

def closeReasons (cmds : List WriterCmd) : List String := cmds.filterMap WriterCmd.reason

@[simp] theorem closeReasons_append (cmds cmds' : List WriterCmd) :
    closeReasons (cmds ++ cmds') = closeReasons cmds ++ closeReasons cmds' := by
  simp [closeReasons]

theorem closeReasons_encode (cfg : Config) (e : Envelope) : closeReasons (cfg.encode e) = [] := by
  unfold Config.encode
  split <;> rfl

/-- A reason that enters the connection: given to `close` or a `shutdown`, a transport error, or the
peer's words. -/
def reasonFits (cfg : Config) (_ : Shared) : Act → Bool
  | .closing (.close reason) => fitsClose reason
  | .closing (.shutdown reason) => fitsClose reason.text
  | .writer (.failed error) => fitsClose (CloseReason.transport ("write failed: " ++ error)).text
  | .receive (.control (.note method params)) =>
    if method = METHOD_CLOSING then
      match cfg.toClosingParams params with
      | .ok reason => fitsClose (CloseReason.graceful reason).text
      | .error _ => true
    else true
  | _ => true

/-- What a step of the writer passes to `sink.close`. -/
def Shared.closesWith (s : Shared) : Act → Option String
  | .writer .recv =>
    match s.out.writer with
    | .receiving => s.out.handed[s.out.taken]?.bind WriterCmd.reason
    | _ => none
  | _ => none

/-- Every reason on its way to the sink fits. -/
structure Shared.ReasonsFit (s : Shared) : Prop where
  queued : ∀ reason ∈ closeReasons s.out.handed, fitsClose reason = true
  graceful : ∀ reason, s.closing.graceful = some reason →
    fitsClose (CloseReason.graceful reason).text = true
  shutdowns : ∀ k x, s.closing.shutdowns.get k = some x → fitsClose x.reason.text = true

/-! ### The halves close nothing -/

variable {cfg : Config} {env : Env} {e : Emit} {cmds : List WriterCmd}

theorem closeReasons_of_grants (h : ∀ c ∈ cmds, c.Grants) : closeReasons cmds = [] := by
  refine List.filterMap_eq_nil_iff.mpr fun c hc => ?_
  cases h c hc <;> rfl

theorem Serve.closeReasons_of_step {v v' : Serve} {closed : Bool} {a : ServeAct}
    (h : v.step cfg env closed a = some (v', e)) : closeReasons e.cmds = [] := by
  refine List.filterMap_eq_nil_iff.mpr fun c hc => ?_
  rcases replies_of_step h c hc with hr | ⟨b, -, rfl⟩
  · cases hr <;> rfl
  · rfl

theorem Client.closeReasons_of_callStep {v v' : Client} {a : CallAct}
    (h : v.callStep cfg env a = some (v', e)) : closeReasons e.cmds = [] := by
  refine List.filterMap_eq_nil_iff.mpr fun c hc => ?_
  obtain ⟨call, rfl⟩ := callStep_sends h c hc
  rfl

/-! ### One step -/

namespace Shared

variable {cfg : Config} {s s' : Shared}

/-- Commands that close with reasons that fit, and a `Closing` whose reasons fit. -/
theorem ReasonsFit.hand (h : s.ReasonsFit) {cmds : List WriterCmd}
    (hcmds : ∀ reason ∈ closeReasons cmds, fitsClose reason = true) : (s.hand cmds).ReasonsFit where
  queued := by
    intro reason hr
    change reason ∈ closeReasons (s.out.handed ++ _) at hr
    rw [closeReasons_append, List.mem_append] at hr
    rcases hr with hr | hr
    · exact h.queued reason hr
    · split at hr
      · exact hcmds reason hr
      · cases hr
  graceful := h.graceful
  shutdowns := h.shutdowns

theorem ReasonsFit.begin (h : s.ReasonsFit) {reason : CloseReason}
    (hr : fitsClose reason.text = true) :
    ({ s with closing := s.closing.begin reason } : Shared).ReasonsFit where
  queued := h.queued
  graceful := h.graceful
  shutdowns := Arena.forall_alloc h.shutdowns hr

theorem ReasonsFit.update (h : s.ReasonsFit) {k : Nat} {x : Shutdown}
    (hx : s.closing.shutdowns.get k = some x) {f : Shutdown → Shutdown}
    (hhanded : s'.out.handed = s.out.handed)
    (hshutdowns : s'.closing.shutdowns = s.closing.shutdowns.update k f)
    (hgraceful : s'.closing.graceful = s.closing.graceful ∨ s'.closing.graceful = none)
    (hf : fitsClose (f x).reason.text = true) : s'.ReasonsFit where
  queued := by
    rw [hhanded]
    exact h.queued
  graceful := by
    intro reason hr
    rcases hgraceful with hg | hg
    · exact h.graceful reason (hg ▸ hr)
    · rw [hg] at hr
      cases hr
  shutdowns := by
    rw [hshutdowns]
    exact Arena.forall_update_known h.shutdowns hx hf

theorem ReasonsFit.shutdownRun (h : s.ReasonsFit) {k : Nat} {x : Shutdown}
    (hx : s.closing.shutdowns.get k = some x) (hstep : s.shutdownRun k x = some s') :
    s'.ReasonsFit := by
  have hfit := h.shutdowns k x hx
  unfold Shared.shutdownRun at hstep
  cases hpc : x.pc <;> rw [hpc] at hstep <;> cases hstep
  case takingGraceful =>
    refine h.update hx rfl rfl (.inr rfl) ?_
    cases hg : s.closing.graceful with
    | none => exact hfit
    | some reason => exact h.graceful reason hg
  case pushingClose =>
    have hmoved : ({ s with closing := s.closing.move k .finished } : Shared).ReasonsFit := by
      refine h.update hx rfl rfl (.inl rfl) ?_
      exact hfit
    refine hmoved.hand fun reason hr => ?_
    obtain rfl := List.mem_singleton.mp hr
    exact hfit
  all_goals
    refine h.update hx rfl rfl (.inl rfl) ?_
    exact hfit

theorem ReasonsFit.step {a : Act} (h : s.ReasonsFit) (hok : reasonFits cfg s a = true)
    (hstep : s.step cfg a = some s') : s'.ReasonsFit := by
  have hnone {cmds : List WriterCmd} (hcmds : closeReasons cmds = []) :
      (s.hand cmds).ReasonsFit := by
    refine h.hand fun reason hr => ?_
    rw [hcmds] at hr
    cases hr
  cases acts_of_step hstep with
  | call hcall =>
    obtain ⟨hq, hg, hs⟩ := hnone (Client.closeReasons_of_callStep hcall)
    exact ⟨hq, hg, hs⟩
  | stream hstream =>
    have hreads := (Client.streamStep_reads hstream).2.2
    obtain ⟨hq, hg, hs⟩ := hnone (closeReasons_of_grants hreads.grants)
    exact ⟨hq, hg, hs⟩
  | serve hserve =>
    obtain ⟨hq, hg, hs⟩ := hnone (Serve.closeReasons_of_step hserve)
    exact ⟨hq, hg, hs⟩
  | @receive f _ =>
    obtain ⟨hq, hg, hs⟩ := hnone (closeReasons_of_grants (s.client.reaction_grants cfg f))
    refine ⟨hq, ?_, hs⟩
    intro reason hr
    change s.gracefulFrom cfg f = some reason at hr
    unfold gracefulFrom at hr
    split at hr
    · next method params =>
      split at hr
      · next hm =>
        simp only [reasonFits, hm, if_true] at hok
        cases hp : cfg.toClosingParams params with
        | ok r =>
          rw [hp] at hr hok
          obtain rfl := Option.some.inj hr
          exact hok
        | error e =>
          rw [hp] at hr
          obtain rfl := Option.some.inj hr
          show fitsClose (CloseReason.graceful "closing").text = true
          decide
      · exact h.graceful reason hr
    · exact h.graceful reason hr
  | shutdown => exact h.begin hok
  | shutdownRun hx hrun => exact h.shutdownRun hx hrun
  | notify => exact hnone (closeReasons_encode _ _)
  | close =>
    refine h.hand fun r hr => ?_
    obtain rfl := List.mem_singleton.mp hr
    exact hok
  | writer hout hclosing =>
    rcases hclosing with rfl | ⟨e, rfl, rfl⟩
    · exact ⟨fun r hr => h.queued r (hout ▸ hr), h.graceful, h.shutdowns⟩
    · obtain ⟨hq, hg, hs⟩ := h.begin hok
      exact ⟨fun r hr => hq r (hout ▸ hr), hg, hs⟩
  | announced | announceOver => exact ⟨h.queued, h.graceful, h.shutdowns⟩

theorem ReasonsFit.established (served : Served) : (Shared.established served).ReasonsFit where
  queued := nofun
  graceful := nofun
  shutdowns := by
    intro k x hx
    simp [Shared.established, Shared.start] at hx

end Shared

/-- **Reasons that come in short enough go out short enough.**  A refused handshake closes with a
reason that fits; and in every run in which each reason given to `close` or a `shutdown`, of the
transport or of the peer fits with the words put in front of it, so does every reason the writer
passes to the sink. -/
theorem close_reasons_fit {cfg : Config} {served : Served} {as : List Act} {s : Shared}
    (h : Run (Guarded (Steps (Shared.step cfg)) (reasonFits cfg · ·)) (.established served) as s) :
    (∀ decide read code reason, SinkCall.close code reason ∈ (accept decide read).1 →
      (utf8 reason).length ≤ 123) ∧
    ∀ a reason, s.closesWith a = some reason → (utf8 reason.toList).length ≤ 123 := by
  refine ⟨fun _ _ _ _ => length_le_of_accept, ?_⟩
  have hfit : s.ReasonsFit := by
    refine h.state_invariant (Shared.ReasonsFit.established served) ?_
    rintro s a s' hs ⟨hstep, hok⟩
    exact hs.step hok hstep
  intro a reason hr
  obtain ⟨cmd, hcmd, hreason⟩ : ∃ cmd ∈ s.out.handed, cmd.reason = some reason := by
    unfold Shared.closesWith at hr
    repeat' split at hr
    · obtain ⟨cmd, hget, hcmd⟩ := Option.bind_eq_some_iff.mp hr
      exact ⟨cmd, List.mem_of_getElem? hget, hcmd⟩
    · cases hr
    · cases hr
  exact of_decide_eq_true (hfit.queued reason (List.mem_filterMap.mpr ⟨cmd, hcmd, hreason⟩))

/-- The reader's `shutdown`, up to the `Close` it pushes. -/
def readerShutdown : List Act :=
  .closing (.shutdown (.transport "connection closed")) ::
    List.replicate 9 (.closing (.shutdownRun 0))

theorem close_reasons_fit_readerShutdown :
    ∃ s, Run (Guarded (Steps (Shared.step (.bare .dialer .msgpack)))
        (reasonFits (.bare .dialer .msgpack) · ·)) (.established .default) readerShutdown s ∧
      s.closesWith (.writer .recv) = some "transport closed: connection closed" ∧
      ∀ a reason, s.closesWith a = some reason → (utf8 reason.toList).length ≤ 123 := by
  obtain ⟨s, hrun, hcloses⟩ := exists_run_of_execOk (Shared.step (.bare .dialer .msgpack))
    (reasonFits (.bare .dialer .msgpack)) (.established .default) readerShutdown
    (fun s => s.closesWith (.writer .recv) = some "transport closed: connection closed") rfl
  exact ⟨s, hrun, hcloses, (close_reasons_fit hrun).2⟩

/-- An end whose peer announces its closing with this reason. -/
def Config.told (reason : String) : Config :=
  { Config.bare .dialer .msgpack with toClosingParams := fun _ => .ok reason }

/-- **A reason that does not fit is passed on all the same**: 124 bytes given to `close`, 108 from
the peer. -/
theorem close_reason_too_long :
    (∃ s reason, Run (Steps (Shared.step (.bare .dialer .msgpack))) (.established .default)
        [.closing (.close reason)] s ∧
      s.closesWith (.writer .recv) = some reason ∧ (utf8 reason.toList).length = 124) ∧
    ∃ s reason passed, Run (Steps (Shared.step (.told reason))) (.established .default)
        (.receive (.control (.note METHOD_CLOSING .nil)) :: readerShutdown) s ∧
      (utf8 reason.toList).length = 108 ∧ s.closesWith (.writer .recv) = some passed ∧
      (utf8 passed.toList).length = 124 := by
  have hlen (n : Nat) : (utf8 (String.ofList (List.replicate n 'a')).toList).length = n := by
    rw [String.toList_ofList]
    exact length_utf8_replicate (by decide) n
  constructor
  · exact ⟨_, _, run_of_exec rfl, rfl, hlen 124⟩
  · refine ⟨_, _, "graceful close: " ++ String.ofList (List.replicate 108 'a'), run_of_exec rfl,
      hlen 108, rfl, ?_⟩
    rw [String.toList_append, length_utf8_append, hlen]
    decide

end Zyris.Core
