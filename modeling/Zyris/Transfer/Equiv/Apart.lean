import Zyris.Transfer.Equiv.Receive

/-!
# Transfers next to each other

Two transfers of one peer with different markers and destinations.  A call touches only its `.part`
and its destination, so all depends on whether one is to be put where the other collects its bytes.
Nothing keeps a peer from sending such a name.
-/

namespace Zyris.Transfer

namespace Push

variable {cfg : Config} {o o₁ o₂ : TransferOffer}

/-- Whatever a call for `other` does, the files of `o` stay as they are. -/
def Undisturbed (cfg : Config) (o other : TransferOffer) : Prop :=
  ∀ s pc as s' p', Run (Steps (move cfg)) (s, ⟨other, pc⟩) as (s', p') →
    s'.files.get (partOf cfg o) = s.files.get (partOf cfg o) ∧
      s'.files.get (safeName o.name) = s.files.get (safeName o.name)

/-- The paths of two transfers differ, and neither disturbs the other. -/
structure Apart (cfg : Config) (o₁ o₂ : TransferOffer) : Prop where
  part_ne_part : partOf cfg o₁ ≠ partOf cfg o₂
  part_ne_dest : partOf cfg o₁ ≠ safeName o₂.name
  dest_ne_part : safeName o₁.name ≠ partOf cfg o₂
  first_undisturbed : Undisturbed cfg o₁ o₂
  second_undisturbed : Undisturbed cfg o₂ o₁

/-- The second name is what the first transfer keeps of its own and the first's suffix. -/
def NamesPart (cfg : Config) (o₁ o₂ : TransferOffer) : Prop :=
  safeName o₂.name = partStem cfg.sha (safeName o₁.name) o₁.transferId ++
    partTail cfg.sha o₁.transferId

theorem namesPart_iff : NamesPart cfg o₁ o₂ ↔ partOf cfg o₁ = safeName o₂.name := by
  rw [NamesPart, partOf, partName_eq]
  exact eq_comm

theorem get_of_run {s s' : Store} {pc : PushPc} {p' : Push} {as : List PushAct} {name : List Char}
    (htemp : name ≠ partOf cfg o) (hdest : name ≠ safeName o.name)
    (h : Run (Steps (move cfg)) (s, ⟨o, pc⟩) as (s', p')) :
    s'.files.get name = s.files.get name := by
  refine (h.state_invariant
    (I := fun x => x.2.offer = o ∧ x.1.files.get name = s.files.get name) ⟨rfl, rfl⟩ ?_).2
  rintro ⟨s₁, p₁⟩ a ⟨s₂, p₂⟩ ⟨rfl, hfile⟩ hstep
  obtain ⟨y, hy, heq⟩ := Option.map_eq_some_iff.mp hstep
  cases heq
  exact ⟨rfl, (get_of_step hy htemp hdest).trans hfile⟩

theorem undisturbed_of_ne (hpart : partOf cfg o₁ ≠ partOf cfg o₂)
    (hpart' : partOf cfg o₁ ≠ safeName o₂.name) (hdest : safeName o₁.name ≠ partOf cfg o₂)
    (hdest' : safeName o₁.name ≠ safeName o₂.name) : Undisturbed cfg o₁ o₂ :=
  fun _ _ _ _ _ h => ⟨get_of_run hpart hpart' h, get_of_run hdest hdest' h⟩

/-- **Two transfers are apart exactly when neither is named after the other's `.part`.** -/
theorem transfers_apart_iff (cfg : Config) (o₁ o₂ : TransferOffer)
    (hmarker : marker cfg.sha o₁.transferId ≠ marker cfg.sha o₂.transferId)
    (hdest : safeName o₁.name ≠ safeName o₂.name) :
    Apart cfg o₁ o₂ ↔ ¬ NamesPart cfg o₁ o₂ ∧ ¬ NamesPart cfg o₂ o₁ := by
  rw [namesPart_iff, namesPart_iff]
  constructor
  · exact fun h => ⟨h.part_ne_dest, h.dest_ne_part.symm⟩
  rintro ⟨h₁, h₂⟩
  have hparts : partOf cfg o₁ ≠ partOf cfg o₂ := partName_ne_partName hmarker
  exact
    { part_ne_part := hparts
      part_ne_dest := h₁
      dest_ne_part := Ne.symm h₂
      first_undisturbed := undisturbed_of_ne hparts h₁ (Ne.symm h₂) hdest
      second_undisturbed := undisturbed_of_ne hparts.symm h₂ (Ne.symm h₁) hdest.symm }

theorem one_lt_u64 : 1 < 2 ^ 64 := by decide

def oneByte (id : UInt8) (name : List Char) : TransferOffer where
  transferId := [id]
  name := name
  size := 1
  sha256 := Sha256.sampled.hex [8]
  overwrite := true
  size_lt := one_lt_u64

theorem transfers_apart_a_b : Apart plainConfig (oneByte 1 "a".toList) (oneByte 2 "b".toList) :=
  (transfers_apart_iff plainConfig (oneByte 1 "a".toList) (oneByte 2 "b".toList) (by decide)
    (by decide)).mpr ⟨by unfold NamesPart; decide, by unfold NamesPart; decide⟩

/-- The second offer is named after the `.part` of the first. -/
def namedAfter (cfg : Config) : TransferOffer :=
  oneByte 2 (partOf cfg (oneByte 1 "a".toList))

/-- The first transfer is under way. -/
def halfReceived : Store :=
  { storeOf (.insert .empty (partOf plainConfig (oneByte 1 "a".toList)) (.file [])) with
    inFlight := [[1]] }

/-- The second transfer, from its offer to its result. -/
def replacingActs : List PushAct :=
  [.ok, .ok, .ok, .ok, .ok, .ok, .pulled (.ok ⟨1, Sha256.sampled.hex [8]⟩), .ok,
    .item (some (.ok [8])), .ok, .item none, .ok, .ok, .ok, .ok, .clock 5, .ok, .ok, .ok, .ok]

/-- With every digest the name is kept, so the destination is the other's `.part`; and the call puts
its file there while the other transfer is under way. -/
theorem part_replaced_by_named_transfer :
    (∀ cfg, safeName (namedAfter cfg).name = partOf cfg (oneByte 1 "a".toList)) ∧
    marker plainConfig.sha [1] ≠ marker plainConfig.sha [2] ∧
    safeName (oneByte 1 "a".toList).name ≠ safeName (namedAfter plainConfig).name ∧
    halfReceived.files.get (partOf plainConfig (oneByte 1 "a".toList)) = some (.file []) ∧
    ∃ s done, Run (Steps (move plainConfig)) (halfReceived, ⟨namedAfter plainConfig, .entering⟩)
      replacingActs (s, ⟨namedAfter plainConfig, .returned (.ok done)⟩) ∧
      s.files.get (partOf plainConfig (oneByte 1 "a".toList)) = some (.file [8]) := by
  refine ⟨fun cfg => ?_, by decide, by decide, rfl, _, _, run_of_exec rfl, rfl⟩
  have ha : safeName "a".toList = "a".toList := by decide
  show safeName (partName cfg.sha (safeName "a".toList) [1]) = _
  exact safeName_partName.trans (by rw [partOf]; exact congrArg (partName _ · _) ha.symm)

end Push

end Zyris.Transfer
