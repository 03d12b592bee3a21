import Zyris.P2p.Equiv.Authorize
import Zyris.Transfer.Trust

/-!
# A pin on the receiving side

A send pins the key of its peer under the name its caller gave; an incoming connection is checked
under the path the server gives.  `look_up_peer` lets the two differ in the case of letters, and
then the path has no pin (`inbound_let_in`).
-/

namespace Zyris.P2p.Tofu

variable {keys : Keys} {path : String} {s s' : Tofu} {l : TofuAct}

theorem Change.call_kept (h : Change keys path s l s') {n : Nat} {c : AuthorizeCall}
    (hc : s.calls.get n = some c) : ∃ c', s'.calls.get n = some c' ∧ c'.slug = c.slug ∧
      c'.endpointId = c.endpointId := by
  have hgoto (j : Nat) (pc : AuthorizePc) : ∃ c', (s.goto j pc).calls.get n = some c' ∧
      c'.slug = c.slug ∧ c'.endpointId = c.endpointId := by
    by_cases hj : n = j
    · subst hj
      exact ⟨_, Arena.get_update_self hc _, rfl, rfl⟩
    · refine ⟨c, ?_, rfl, rfl⟩
      show (s.calls.update j _).get n = some c
      rw [Arena.get_update, if_neg hj, hc]
  cases h with
  | called => exact ⟨c, Arena.get_alloc_of_get hc _, rfl, rfl⟩
  | looked j | accepted j | refused j | pinned j | failed j => exact hgoto j _
  | preapproved | invalid => exact ⟨c, hc, rfl, rfl⟩

end Zyris.P2p.Tofu

namespace Zyris.Transfer

open P2p Proto

variable {keys : Keys} {path : String}

namespace Trust

variable {s s' : Trust keys.Key} {a : TrustAct keys.Key}

/-! ### What a step does to the ledger and the sends -/

theorem step_cases (h : s.step keys path a = some s') :
    (s'.tofu = s.tofu ∧ s'.sends = s.sends) ∨
    (∃ l, Tofu.Change keys path s.tofu l s'.tofu ∧ s'.sends = s.sends) ∨
    (∃ node addr, s'.tofu = { s.tofu with
        calls := s.tofu.calls.alloc ⟨node, addr.endpointId, Tofu.enter keys addr.endpointId⟩ } ∧
      s'.sends = s.sends.alloc ⟨node, addr, s.tofu.calls.size⟩) ∨
    (a.isEdit = true ∧ s'.tofu.calls = s.tofu.calls ∧ s'.sends = s.sends) := by
  cases a with
  | sendTo node answer =>
    simp only [step] at h
    split at h
    · cases h
      exact .inl ⟨rfl, rfl⟩
    next addr _ =>
      cases h
      exact .inr (.inr (.inl ⟨node, addr, rfl, rfl⟩))
  | tofu l =>
    obtain ⟨tofu, htofu, h⟩ := Option.bind_eq_some_iff.mp h
    cases h
    exact .inr (.inl ⟨l, Tofu.step_cases htofu, rfl⟩)
  | edit file =>
    cases h
    exact .inr (.inr (.inr ⟨rfl, rfl, rfl⟩))
  | accept peer | elapse seconds =>
    cases h
    exact .inl ⟨rfl, rfl⟩
  | find j answer | check j order | checkFails j =>
    obtain ⟨pc, -, h⟩ := Option.bind_eq_some_iff.mp h
    split at h <;> cases h
    exact .inl ⟨rfl, rfl⟩

/-- The calls under way work with the keys they were offered, and each send has its own. -/
structure Sound (s : Trust keys.Key) : Prop where
  canonical : ∀ n c, s.tofu.calls.get n = some c → Tofu.CallCanonical keys c
  sends : ∀ i send, s.sends.get i = some send → ∃ c, s.tofu.calls.get send.call = some c ∧
    c.slug = send.node ∧ c.endpointId = send.addr.endpointId

theorem sound_start (file : Option LedgerFile) : (start keys file).Sound := by
  constructor
  · intro n c hc
    cases hc
  · intro i send hsend
    cases hsend

theorem Sound.change {l : TofuAct} (hs : s.Sound)
    (h : Tofu.Change keys path s.tofu l s'.tofu) (hsends : s'.sends = s.sends) : s'.Sound := by
  constructor
  · intro n c' hc'
    rcases h.call_cases hc' with hc | ⟨-, henter⟩ | ⟨c, pc, hc, rfl, hchange⟩
    · exact hs.canonical n c' hc
    · exact Tofu.callCanonical_enter henter
    · exact (hs.canonical n c hc).step hchange
  · intro i send hsend
    rw [hsends] at hsend
    obtain ⟨c, hc, hslug, hid⟩ := hs.sends i send hsend
    obtain ⟨c', hc', hslug', hid'⟩ := h.call_kept hc
    exact ⟨c', hc', hslug'.trans hslug, hid'.trans hid⟩

theorem Sound.step (hs : s.Sound) (h : s.step keys path a = some s') : s'.Sound := by
  rcases step_cases h with ⟨htofu, hsends⟩ | ⟨l, hchange, hsends⟩ | ⟨node, addr, htofu, hsends⟩ |
    ⟨-, hcalls, hsends⟩
  · constructor
    · rw [htofu]
      exact hs.canonical
    · rw [htofu, hsends]
      exact hs.sends
  · exact hs.change hchange hsends
  · have hcalls : s'.tofu.calls = _ := congrArg Tofu.calls htofu
    constructor
    · rw [hcalls]
      exact Arena.forall_alloc hs.canonical (Tofu.callCanonical_enter rfl)
    · intro i send hsend
      rw [hsends] at hsend
      rw [hcalls]
      rcases Arena.get_alloc_cases hsend with ⟨-, rfl⟩ | hsend
      · exact ⟨_, by rw [Arena.get_alloc, if_pos rfl], rfl, rfl⟩
      · obtain ⟨c, hc, hslug, hid⟩ := hs.sends i send hsend
        exact ⟨c, Arena.get_alloc_of_get hc _, hslug, hid⟩
  · constructor
    · rw [hcalls]
      exact hs.canonical
    · rw [hcalls, hsends]
      exact hs.sends

/-! ### The step in which `authorize_peer` returns -/

/-- The ledger has the key under the name. -/
def Pinned (keys : Keys) (path : String) (s : Trust keys.Key) (slug key : String) : Prop :=
  ∃ entry, keys.entry path s.tofu.file slug = some entry ∧ entry.endpointId = key

theorem authorizePeer_eq_ok {result : Except TofuError Unit} (h : authorizePeer result = .ok ()) :
    result = .ok () := by
  cases result with
  | ok u => rfl
  | error e => cases e <;> cases h

theorem authorized_eq_ok {i : Nat} {send : SendTo} (hsend : s.sends.get i = some send) :
    s.authorized i = some (.ok ()) ↔
      ∃ c, s.tofu.calls.get send.call = some c ∧ c.pc = .returned (.ok ()) := by
  unfold authorized
  rw [hsend, Option.bind_eq_bind, Option.bind_some]
  constructor
  · intro h
    obtain ⟨c, hc, h⟩ := Option.bind_eq_some_iff.mp h
    refine ⟨c, hc, ?_⟩
    split at h
    next result hpc => rw [hpc, authorizePeer_eq_ok (Option.some.inj h)]
    · cases h
  · rintro ⟨c, hc, hpc⟩
    rw [hc, Option.bind_eq_bind, Option.bind_some, hpc]
    rfl

theorem enter_ne_ok (keys : Keys) (endpointId : String) :
    Tofu.enter keys endpointId ≠ .returned (.ok ()) := by
  unfold Tofu.enter
  split <;> simp

theorem pinned_of_authorized (hs : s.Sound) (h : s.step keys path a = some s') {i : Nat}
    {send : SendTo} (hsend : s'.sends.get i = some send) (hbefore : s.authorized i ≠ some (.ok ()))
    (hafter : s'.authorized i = some (.ok ())) : ∃ key,
      keys.canonicalEndpointId send.addr.endpointId = .ok key ∧
      Pinned keys path s' send.node key := by
  obtain ⟨c', hc', hpc'⟩ := (authorized_eq_ok hsend).mp hafter
  rcases step_cases h with ⟨htofu, hsends⟩ | ⟨l, hchange, hsends⟩ | ⟨node, addr, htofu, hsends⟩ |
    ⟨-, hcalls, hsends⟩
  · rw [htofu] at hc'
    rw [hsends] at hsend
    exact absurd ((authorized_eq_ok hsend).mpr ⟨c', hc', hpc'⟩) hbefore
  · rw [hsends] at hsend
    obtain ⟨c₀, hc₀, hslug, hid⟩ := hs.sends i send hsend
    rcases hchange.call_cases hc' with hc | ⟨hnone, -⟩ | ⟨c, pc, hc, rfl, hgone⟩
    · exact absurd ((authorized_eq_ok hsend).mpr ⟨c', hc, hpc'⟩) hbefore
    · cases hnone.symm.trans hc₀
    · obtain rfl := Option.mem_unique hc₀ hc
      obtain ⟨key, entry, hkey, hentry, heq⟩ := (hs.canonical _ _ hc).returned_ok hgone hpc'
      rw [hid] at hkey
      rw [hslug] at hentry
      exact ⟨key, hkey, entry, hentry, heq⟩
  · rw [htofu] at hc'
    rw [hsends] at hsend
    rcases Arena.get_alloc_cases hc' with ⟨-, rfl⟩ | hc
    · exact absurd hpc' (enter_ne_ok keys _)
    · rcases Arena.get_alloc_cases hsend with ⟨-, rfl⟩ | hsend
      · cases (Arena.get_size _).symm.trans hc
      · exact absurd ((authorized_eq_ok hsend).mpr ⟨c', hc, hpc'⟩) hbefore
  · rw [hcalls] at hc'
    rw [hsends] at hsend
    exact absurd ((authorized_eq_ok hsend).mpr ⟨c', hc', hpc'⟩) hbefore

/-! ### From then on -/

theorem Pinned.step {slug key : String} (hp : Pinned keys path s slug key)
    (h : s.step keys path a = some s') (ha : a.isEdit = false) : Pinned keys path s' slug key := by
  obtain ⟨entry, hentry, heq⟩ := hp
  refine ⟨entry, ?_, heq⟩
  rcases step_cases h with ⟨htofu, -⟩ | ⟨l, hchange, -⟩ | ⟨node, addr, htofu, -⟩ | ⟨hedit, -⟩
  · rw [htofu]
    exact hentry
  · exact hchange.entry_of_some hentry
  · rw [htofu]
    exact hentry
  · cases ha.symm.trans hedit

theorem check_of_pinned {slug key : String} (hp : Pinned keys path s slug key) {peer : keys.Key}
    (hne : keys.display peer ≠ key) (order : WalkOrder) :
    keys.check path order s.tofu.file slug (keys.display peer) =
      .error (.changed key (keys.display peer)) := by
  obtain ⟨entry, hentry, rfl⟩ := hp
  unfold Keys.check
  rw [Keys.canonicalEndpointId_display, Keys.lookup_of_entry hentry]
  exact if_neg (Ne.symm hne)

/-- Two keys with one canonical spelling are one key. -/
theorem display_ne {endpointId key : String} {peer : keys.Key}
    (hkey : keys.canonicalEndpointId endpointId = .ok key)
    (hne : keys.fromStr endpointId ≠ .ok peer) : keys.display peer ≠ key := by
  rintro rfl
  obtain ⟨key, hparse, hdisplay⟩ := Keys.parse_of_canonicalEndpointId hkey
  have hsame := keys.fromStr_display key
  rw [hdisplay, keys.fromStr_display] at hsame
  cases hsame
  apply hne
  unfold Keys.parse at hparse
  split at hparse
  next hok => rw [hok, Except.ok.inj hparse]
  · cases hparse

end Trust

open Trust in
/-- **A pinned name protects the receiving side** when the path is that name, or has been pinned
with that key as well: from the step on in which the `authorize_peer` of a send returns `Ok`, as
long as the ledger is not edited, a connection filed under the send's path with another key is
dropped at its check. -/
theorem inbound_refused {file : Option LedgerFile} {as bs : List (TrustAct keys.Key)}
    {a : TrustAct keys.Key} {s₀ s₁ s₂ s₃ : Trust keys.Key} {i j : Nat} {send : SendTo}
    {peer : keys.Key} {entry : PeerEntry} {order : WalkOrder}
    (h : Run (Steps (step keys path)) (start keys file) as s₀)
    (hbefore : s₀.authorized i = none) (hstep : s₀.step keys path a = some s₁)
    (hsend : s₁.sends.get i = some send) (hafter : s₁.authorized i = some (.ok ()))
    (hspelled : send.node = send.addr.path ∨
      ∃ key, keys.canonicalEndpointId send.addr.endpointId = .ok key ∧
        Pinned keys path s₁ send.addr.path key)
    (h' : Run (Guarded (Steps (step keys path)) fun _ a => a.isEdit = false) s₁ bs s₂)
    (hinbound : s₂.inbound.get j = some (.checking peer entry))
    (hpath : entry.path = send.addr.path) (hkey : keys.fromStr send.addr.endpointId ≠ .ok peer)
    (hcheck : s₂.step keys path (.check j order) = some s₃) : s₃.inbound.get j = some .closed := by
  have hsound : s₀.Sound :=
    h.state_invariant (I := Sound) (sound_start file) fun _ _ _ hs hstep => hs.step hstep
  -- the key is pinned under the path as well as under the caller's name
  obtain ⟨key, hcanonical, hpinned⟩ : ∃ key,
      keys.canonicalEndpointId send.addr.endpointId = .ok key ∧
        Pinned keys path s₁ send.addr.path key := by
    rcases hspelled with hsame | hpinned
    · rw [← hsame]
      exact pinned_of_authorized hsound hstep hsend (by simp [hbefore]) hafter
    · exact hpinned
  have hstays : Pinned keys path s₂ send.addr.path key :=
    h'.state_invariant (I := fun s => Pinned keys path s send.addr.path key) hpinned
      fun _ _ _ hp hstep => hp.step hstep.1 hstep.2
  have hrefused := check_of_pinned hstays (display_ne hcanonical hkey) order
  simp only [step, hinbound, Option.bind_eq_bind, Option.bind_some, hpath, hrefused] at hcheck
  cases hcheck
  exact Arena.get_update_self hinbound _

/-- The node at one path, under one key. -/
def nodeAt (path endpointId : String) : PeerAddr := ⟨"n1", path, endpointId, true⟩

/-- A send to `node`, which the rendezvous has at `path`, is confirmed. -/
def confirmed (node path : String) : List (TrustAct Bool) :=
  [.sendTo node (some (.ok (nodeAt path Keys.idZero))), .tofu (.lookup 0 .stored),
    .tofu (.answer 0 true)]

/-- Another key connects under that path. -/
def otherKeyArrives (path : String) : List (TrustAct Bool) :=
  [.accept true, .find 0 (.ok [⟨path, Keys.idOne⟩])]

theorem inbound_refused_sameSpelling : ∃ s₀ s₁ s₂ s₃ : Trust Bool,
    Run (Steps (Trust.step Keys.sampled "peers.json")) (Trust.start Keys.sampled none)
      (confirmed "laptop/a/b" "laptop/a/b") s₀ ∧
    s₀.step Keys.sampled "peers.json" (.tofu (.pin 0 5 .stored)) = some s₁ ∧
    s₁.authorized 0 = some (.ok ()) ∧
    Run (Steps (Trust.step Keys.sampled "peers.json")) s₁ (otherKeyArrives "laptop/a/b") s₂ ∧
    s₂.step Keys.sampled "peers.json" (.check 0 .stored) = some s₃ ∧
    s₃.inbound.get 0 = some .closed := by
  obtain ⟨s₀, s₁, s₂, s₃, hrun, hbefore, hstep, hsend, hafter, hrun', hinbound, hcheck⟩ :
      ∃ s₀ s₁ s₂ s₃ : Trust Bool,
        Run (Steps (Trust.step Keys.sampled "peers.json")) (Trust.start Keys.sampled none)
          (confirmed "laptop/a/b" "laptop/a/b") s₀ ∧ s₀.authorized 0 = none ∧
        s₀.step Keys.sampled "peers.json" (.tofu (.pin 0 5 .stored)) = some s₁ ∧
        s₁.sends.get 0 = some ⟨"laptop/a/b", nodeAt "laptop/a/b" Keys.idZero, 0⟩ ∧
        s₁.authorized 0 = some (.ok ()) ∧
        Run (Steps (Trust.step Keys.sampled "peers.json")) s₁ (otherKeyArrives "laptop/a/b") s₂ ∧
        s₂.inbound.get 0 = some (.checking true ⟨"laptop/a/b", Keys.idOne⟩) ∧
        s₂.step Keys.sampled "peers.json" (.check 0 .stored) = some s₃ :=
    ⟨_, _, _, _, run_of_exec rfl, rfl, rfl, rfl, rfl, run_of_exec rfl, rfl, rfl⟩
  have hguarded : Run (Guarded (Steps (Trust.step Keys.sampled "peers.json"))
      fun _ a => a.isEdit = false) s₁ (otherKeyArrives "laptop/a/b") s₂ := by
    refine hrun'.guarded fun a ha _ => ?_
    rcases List.mem_pair.mp ha with rfl | rfl <;> rfl
  have hkey : Keys.sampled.fromStr Keys.idZero ≠ .ok true := by
    intro heq
    cases heq
  exact ⟨s₀, s₁, s₂, s₃, hrun, hstep, hafter, hrun', hcheck,
    inbound_refused hrun hbefore hstep hsend hafter (.inl rfl) hguarded hinbound rfl hkey hcheck⟩

/-- The caller typed a capital letter: the send is authorized, and another key is let in under the
path. -/
theorem inbound_let_in : ∃ s : Trust Bool,
    Run (Steps (Trust.step Keys.sampled "peers.json")) (Trust.start Keys.sampled none)
      (confirmed "Laptop/a/b" "laptop/a/b" ++ .tofu (.pin 0 5 .stored) ::
        otherKeyArrives "laptop/a/b" ++ [.check 0 .stored]) s ∧
    s.authorized 0 = some (.ok ()) ∧
    s.sends.get 0 = some ⟨"Laptop/a/b", nodeAt "laptop/a/b" Keys.idZero, 0⟩ ∧
    s.inbound.get 0 = some (.receiving "laptop/a/b") :=
  ⟨_, run_of_exec rfl, rfl, rfl, rfl⟩

end Zyris.Transfer
