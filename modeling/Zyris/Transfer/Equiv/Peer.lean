import Zyris.Transfer.Peer

/-!
# What a step of a receiving call can do

A step of a call only looks and goes on (`Push.Looks`), changes the store (`Push.Writes`) or returns
(`Push.Returns`).
-/

namespace Zyris.Transfer

open Proto TransferOffer

/-- The call has checked what it received and is about to put it in place, with its count and
hash. -/
def PushPc.verified : PushPc → Option (Nat × List Char)
  | .rechecking written actual => some (written, actual)
  | .stashing written actual => some (written, actual)
  | .claimingRoot written actual _ => some (written, actual)
  | .claimingSlot written actual _ _ _ => some (written, actual)
  | .moving written actual _ _ => some (written, actual)
  | .copying written actual _ => some (written, actual)
  | .unlinking written actual _ => some (written, actual)
  | .placing written actual _ _ => some (written, actual)
  | _ => none

/-- The call is in the last rename. -/
def PushPc.isPlacing : PushPc → Bool
  | .placing _ _ _ _ => true
  | _ => false

/-- The call holds its claim and has not come to the checks of what it received. -/
def PushPc.isFetching : PushPc → Bool
  | .resolving => true
  | .resolvingDest => true
  | .checkingDest => true
  | .checkingTemp => true
  | .measuringTemp => true
  | .pulling _ => true
  | .openingLeftover _ => true
  | .hashing _ _ => true
  | .opening _ _ => true
  | .receiving _ _ => true
  | .writing _ _ _ => true
  | .flushing _ _ => true
  | _ => false

namespace Push

/-- A step that leaves the store alone. -/
inductive Looks (cfg : Config) (s : Store) (p : Push) : PushAct → PushPc → Prop
  | resolved : p.pc = .resolving → Looks cfg s p .ok .resolvingDest
  | destResolved (a : PushAct) : p.pc = .resolvingDest → Looks cfg s p a .checkingDest
  | destChecked (a : PushAct) : p.pc = .checkingDest → Looks cfg s p a .checkingTemp
  | tempChecked (a : PushAct) : p.pc = .checkingTemp → Looks cfg s p a .measuringTemp
  | measured (a : PushAct) (n : Nat) : p.pc = .measuringTemp →
    s.fileLen (p.temp cfg) a = some n →
    Looks cfg s p a (.pulling (if p.offer.size < n then 0 else n))
  | pulledResume (offset : Nat) (head : PullHead) : p.pc = .pulling offset → 0 < offset →
    Looks cfg s p (.pulled (.ok head)) (.openingLeftover offset)
  | pulledFresh (head : PullHead) : p.pc = .pulling 0 →
    Looks cfg s p (.pulled (.ok head)) (.opening 0 [])
  | openedLeftover (offset : Nat) : p.pc = .openingLeftover offset →
    Looks cfg s p .ok (.hashing offset [])
  | readSome (offset : Nat) (hashed content : List UInt8) (n : Nat) :
    p.pc = .hashing offset hashed → s.files.get (p.temp cfg) = some (.file content) →
    hashed.length + n ≤ content.length →
    Looks cfg s p (.read n) (.hashing offset (hashed ++ (content.drop hashed.length).take n))
  | readAll (offset : Nat) (hashed content : List UInt8) : p.pc = .hashing offset hashed →
    s.files.get (p.temp cfg) = some (.file content) → content.length ≤ hashed.length →
    Looks cfg s p (.read 0) (.opening offset hashed)
  | ended (written : Nat) (hashed : List UInt8) : p.pc = .receiving written hashed →
    Looks cfg s p (.item none) (.flushing written hashed)
  | overran (written : Nat) (hashed bytes : List UInt8) : p.pc = .receiving written hashed →
    p.offer.size < (written + bytes.length) % 2 ^ 64 →
    Looks cfg s p (.item (some (.ok bytes))) (.discarding tooMuch)
  | got (written : Nat) (hashed bytes : List UInt8) : p.pc = .receiving written hashed →
    (written + bytes.length) % 2 ^ 64 ≤ p.offer.size →
    Looks cfg s p (.item (some (.ok bytes)))
      (.writing ((written + bytes.length) % 2 ^ 64) (hashed ++ bytes) bytes)
  | mismatched (written : Nat) (hashed : List UInt8) : p.pc = .flushing written hashed →
    cfg.sha.hex hashed ≠ p.offer.sha256 →
    Looks cfg s p .ok (.discarding (p.offer.mismatch (cfg.sha.hex hashed)))
  | matched (written : Nat) (hashed : List UInt8) : p.pc = .flushing written hashed →
    cfg.sha.hex hashed = p.offer.sha256 →
    Looks cfg s p .ok (.measuring written (cfg.sha.hex hashed))
  | wrongLength (a : PushAct) (written n : Nat) (actual : List Char) :
    p.pc = .measuring written actual → s.fileLen (p.temp cfg) a = some n → n ≠ p.offer.size →
    Looks cfg s p a (.discarding (p.offer.wrongLength n))
  | rightLength (a : PushAct) (written : Nat) (actual : List Char) :
    p.pc = .measuring written actual → s.fileLen (p.temp cfg) a = some p.offer.size →
    Looks cfg s p a (.rechecking written actual)
  | appeared (a : PushAct) (written : Nat) (actual : List Char) (e : Entry) :
    p.pc = .rechecking written actual → s.lstat p.dest a = some (some e) →
    p.offer.overwrite = false → Looks cfg s p a (.discarding (p.offer.appeared cfg))
  -- on the way to the rename, with or without an undo slot
  | prepared (a : PushAct) (pc : PushPc) (v : Nat × List Char) : p.pc.verified = some v →
    p.pc.isPlacing = false → pc.verified = some v → Looks cfg s p a pc
  | stripped (a : PushAct) (done : TransferDone) : p.pc = .stripping done →
    Looks cfg s p a (.auditing done)

/-- A step that changes the store. -/
inductive Writes (cfg : Config) (s : Store) (p : Push) : PushAct → Store → PushPc → Prop
  | claimed : p.pc = .entering → p.offer.size ≤ cfg.maxFileBytes → p.offer.transferId ∉ s.inFlight →
    Writes cfg s p .ok { s with inFlight := p.offer.transferId :: s.inFlight } .resolving
  | opened (offset : Nat) (hashed : List UInt8) (s' : Store) : p.pc = .opening offset hashed →
    s.openPart (p.temp cfg) (0 < offset) = some s' →
    Writes cfg s p .ok s' (.receiving offset hashed)
  | wrote (written : Nat) (hashed chunk : List UInt8) (s' : Store) :
    p.pc = .writing written hashed chunk → s.append (p.temp cfg) chunk = some s' →
    Writes cfg s p .ok s' (.receiving written hashed)
  -- something in the undo store
  | stored (a : PushAct) (s' : Store) (pc : PushPc) (v : Nat × List Char) :
    p.pc.verified = some v → p.pc.isPlacing = false → pc.verified = some v →
    s'.files = s.files → s'.inFlight = s.inFlight → Writes cfg s p a s' pc
  -- the original is taken away
  | tookAway (s' : Store) (written : Nat) (actual : List Char) (slot : Slot) :
    p.pc.verified = some (written, actual) → p.pc.isPlacing = false →
    s'.files = s.files.remove p.dest → s'.inFlight = s.inFlight →
    Writes cfg s p .ok s' (.placing written actual true (some slot))
  | renamed (written : Nat) (actual : List Char) (existed : Bool) (undo : Option Slot)
    (s' : Store) : p.pc = .placing written actual existed undo →
    s.rename (p.temp cfg) p.dest = some s' →
    Writes cfg s p .ok s' (.stripping (done p.dest written actual existed undo))

/-- A step with which the call returns. -/
inductive Returns (cfg : Config) (s : Store) (p : Push) :
    PushAct → Store → Except WireError TransferDone → Prop
  | refused (e : WireError) : p.pc = .entering → Returns cfg s p .ok s (.error e)
  | failed (a : PushAct) (e : WireError) : p.pc.isFetching = true →
    Returns cfg s p a (s.release p.offer) (.error e)
  | writeFailed (n : Nat) (e : String) (written : Nat) (hashed chunk : List UInt8) (s' : Store) :
    p.pc = .writing written hashed chunk → s.append (p.temp cfg) (chunk.take n) = some s' →
    Returns cfg s p (.failAfter n e) (s'.release p.offer) (.error (ioError e))
  | renameFailed (e : String) (written : Nat) (actual : List Char) (existed : Bool)
    (undo : Option Slot) : p.pc = .placing written actual existed undo →
    Returns cfg s p (.fail e) (s.release p.offer) (.error (ioError e))
  | discarded (e : WireError) (s' : Store) : p.pc = .discarding e →
    s.removeFile (p.temp cfg) = some s' →
    Returns cfg s p .ok (s'.release p.offer) (.error e)
  | notDiscarded (m : String) (e : WireError) : p.pc = .discarding e →
    Returns cfg s p (.fail m) (s.release p.offer) (.error e)
  | unaudited (a : PushAct) (done : TransferDone) :
    (p.pc = .stripping done ∨ p.pc = .auditing done) →
    Returns cfg s p a (s.release p.offer) (.ok done)
  | audited (nowMs : Nat) (done : TransferDone) : p.pc = .auditing done →
    Returns cfg s p (.clock nowMs)
      (Store.release { s with audit := s.audit ++ [⟨nowMs, p.offer.name, done⟩] } p.offer)
      (.ok done)

/-- Everything a step of a call can do. -/
inductive Effect (cfg : Config) (s : Store) (p : Push) : PushAct → Store → PushPc → Prop
  | looks (a : PushAct) (pc : PushPc) : Looks cfg s p a pc → Effect cfg s p a s pc
  | writes (a : PushAct) (s' : Store) (pc : PushPc) : Writes cfg s p a s' pc →
    Effect cfg s p a s' pc
  | returns (a : PushAct) (s' : Store) (result : Except WireError TransferDone) :
    Returns cfg s p a s' result → Effect cfg s p a s' (.returned result)

variable {cfg : Config} {s s' : Store} {p : Push} {a : PushAct} {pc : PushPc}

theorem effect_of_finish {s₁ : Store} {result : Except WireError TransferDone}
    (hr : Returns cfg s p a (s₁.release p.offer) result)
    (h : p.offer.finish s₁ result = some (s', pc)) : Effect cfg s p a s' pc := by
  cases h
  exact .returns _ _ _ hr

theorem effect_of_failed {e : WireError} (hpc : p.pc.isFetching = true)
    (h : p.offer.finish s (.error e) = some (s', pc)) : Effect cfg s p a s' pc :=
  effect_of_finish (.failed a e hpc) h

theorem effect_of_enter (hpc : p.pc = .entering) (h : p.offer.enter cfg s = (s', pc)) :
    Effect cfg s p .ok s' pc := by
  unfold enter at h
  split_ifs at h with hsize hmem hpeer <;> cases h
  · exact .returns _ _ _ (.refused _ hpc)
  · exact .returns _ _ _ (.refused _ hpc)
  · exact .writes _ _ _ (.claimed hpc (Nat.le_of_not_lt hsize) hmem)
  · exact .returns _ _ _ (.refused _ hpc)

theorem effect_of_pulled {offset : Nat} {result : Except WireError PullHead}
    (hpc : p.pc = .pulling offset) (h : p.offer.pulled s offset result = some (s', pc)) :
    Effect cfg s p (.pulled result) s' pc := by
  have hfetching : p.pc.isFetching = true := by rw [hpc]; rfl
  rcases result with _ | head
  · exact effect_of_failed hfetching h
  simp only [TransferOffer.pulled] at h
  split_ifs at h with hhead hoffset
  · exact effect_of_failed hfetching h
  · cases h
    exact .looks _ _ (.pulledResume offset head hpc hoffset)
  · cases h
    obtain rfl : offset = 0 := by omega
    exact .looks _ _ (.pulledFresh head hpc)

theorem effect_of_readLeftover {offset n : Nat} {hashed : List UInt8}
    (hpc : p.pc = .hashing offset hashed)
    (h : readLeftover s (p.temp cfg) offset hashed n = some (s', pc)) :
    Effect cfg s p (.read n) s' pc := by
  unfold readLeftover at h
  split at h
  · next content hfile =>
    split_ifs at h with hn hall hsome
    · cases h
      subst hn
      exact .looks _ _ (.readAll offset hashed content hpc hfile hall)
    · cases h
      exact .looks _ _ (.readSome offset hashed content n hpc hfile hsome.2)
  · cases h

theorem effect_of_received {written : Nat} {hashed : List UInt8}
    {item : Option (Except WireError (List UInt8))} (hpc : p.pc = .receiving written hashed)
    (h : p.offer.received s written hashed item = some (s', pc)) :
    Effect cfg s p (.item item) s' pc := by
  have hfetching : p.pc.isFetching = true := by rw [hpc]; rfl
  rcases item with _ | ⟨e | bytes⟩
  · cases h
    exact .looks _ _ (.ended written hashed hpc)
  · exact effect_of_failed hfetching h
  · simp only [received] at h
    split_ifs at h with hsize <;> cases h
    · exact .looks _ _ (.overran written hashed bytes hpc hsize)
    · exact .looks _ _ (.got written hashed bytes hpc (Nat.le_of_not_lt hsize))

theorem effect_of_claimSlot {written nowMs attempts : Nat} {actual : List Char} {symlink : Bool}
    (hpc : p.pc = .claimingSlot written actual symlink nowMs attempts)
    (h : claimSlot s written actual symlink nowMs attempts = (s', pc)) :
    Effect cfg s p .ok s' pc := by
  have hverified : p.pc.verified = some (written, actual) := by rw [hpc]; rfl
  have hplacing : p.pc.isPlacing = false := by rw [hpc]; rfl
  simp only [claimSlot] at h
  split_ifs at h <;> cases h <;>
    exact .writes _ _ _ (.stored _ _ _ _ hverified hplacing rfl rfl rfl)

theorem effect_of_publishing {v : Nat × List Char} (hv : p.pc.verified = some v)
    (h : p.step cfg s a = some (s', pc)) : Effect cfg s p a s' pc := by
  obtain ⟨o, pc₀⟩ := p
  cases pc₀ with
  | rechecking written actual =>
    obtain ⟨found, hfound, h⟩ := Option.bind_eq_some_iff.mp h
    cases found with
    | none =>
      cases h
      exact .looks _ _ (.prepared _ _ _ hv rfl hv)
    | some e =>
      cases hover : o.overwrite <;> rw [hover] at h <;> cases h
      · exact .looks _ _ (.appeared a written actual e rfl hfound hover)
      · exact .looks _ _ (.prepared _ _ _ hv rfl hv)
  | stashing written actual =>
    obtain ⟨found, hfound, h⟩ := Option.bind_eq_some_iff.mp h
    cases found <;> cases h <;> exact .looks _ _ (.prepared _ _ _ hv rfl hv)
  | claimingRoot written actual symlink =>
    cases a <;> cases h <;> exact .looks _ _ (.prepared _ _ _ hv rfl hv)
  | claimingSlot written actual symlink nowMs attempts =>
    cases a with
    | ok => exact effect_of_claimSlot rfl (Option.some.inj h)
    | fail e =>
      cases h
      exact .writes _ _ _ (.stored _ _ _ _ hv rfl hv rfl rfl)
    | _ => cases h
  | moving written actual symlink slot =>
    cases a with
    | ok =>
      obtain ⟨e, he, h⟩ := Option.bind_eq_some_iff.mp h
      cases h
      exact .writes _ _ _ (.tookAway _ written actual slot rfl rfl rfl rfl)
    | fail e =>
      cases h
      cases symlink <;> exact .looks _ _ (.prepared _ _ _ hv rfl hv)
    | _ => cases h
  | copying written actual slot =>
    cases a with
    | ok =>
      simp only [step] at h
      split at h <;> cases h
      exact .writes _ _ _ (.stored _ _ _ _ hv rfl hv rfl rfl)
    | fail e =>
      cases h
      exact .looks _ _ (.prepared _ _ _ hv rfl hv)
    | _ => cases h
  | unlinking written actual slot =>
    cases a with
    | ok =>
      obtain ⟨s₁, hs₁, h⟩ := Option.bind_eq_some_iff.mp h
      cases h
      unfold Store.removeFile at hs₁
      split at hs₁ <;> cases hs₁
      exact .writes _ _ _ (.tookAway _ written actual slot rfl rfl rfl rfl)
    | fail e =>
      cases h
      exact .looks _ _ (.prepared _ _ _ hv rfl hv)
    | _ => cases h
  | placing written actual existed undo =>
    cases a with
    | ok =>
      obtain ⟨s₁, hs₁, h⟩ := Option.bind_eq_some_iff.mp h
      cases h
      exact .writes _ _ _ (.renamed written actual existed undo s' rfl hs₁)
    | fail e => exact effect_of_finish (.renameFailed e written actual existed undo rfl) h
    | _ => cases h
  | _ => cases hv

theorem effect_of_fetching (hf : p.pc.isFetching = true) (h : p.step cfg s a = some (s', pc)) :
    Effect cfg s p a s' pc := by
  obtain ⟨o, pc₀⟩ := p
  cases pc₀ with
  | resolving =>
    cases a with
    | ok =>
      cases h
      exact .looks _ _ (.resolved rfl)
    | fail e => exact effect_of_failed hf h
    | _ => cases h
  | resolvingDest =>
    obtain ⟨found, hfound, h⟩ := Option.bind_eq_some_iff.mp h
    split_ifs at h
    · exact effect_of_failed hf h
    · cases h
      exact .looks _ _ (.destResolved a rfl)
  | checkingDest =>
    obtain ⟨found, hfound, h⟩ := Option.bind_eq_some_iff.mp h
    split_ifs at h
    · exact effect_of_failed hf h
    · cases h
      exact .looks _ _ (.destChecked a rfl)
  | checkingTemp =>
    obtain ⟨found, hfound, h⟩ := Option.bind_eq_some_iff.mp h
    split_ifs at h
    · exact effect_of_failed hf h
    · cases h
      exact .looks _ _ (.tempChecked a rfl)
  | measuringTemp =>
    obtain ⟨n, hn, h⟩ := Option.bind_eq_some_iff.mp h
    cases h
    exact .looks _ _ (.measured a n rfl hn)
  | pulling offset =>
    cases a with
    | pulled result => exact effect_of_pulled rfl h
    | _ => cases h
  | openingLeftover offset =>
    cases a with
    | ok =>
      simp only [step] at h
      split at h <;> cases h
      exact .looks _ _ (.openedLeftover offset rfl)
    | fail e => exact effect_of_failed hf h
    | _ => cases h
  | hashing offset hashed =>
    cases a with
    | read n => exact effect_of_readLeftover rfl h
    | fail e => exact effect_of_failed hf h
    | _ => cases h
  | opening offset hashed =>
    cases a with
    | ok =>
      obtain ⟨s₁, hs₁, h⟩ := Option.bind_eq_some_iff.mp h
      cases h
      exact .writes _ _ _ (.opened offset hashed s' rfl hs₁)
    | fail e => exact effect_of_failed hf h
    | _ => cases h
  | receiving written hashed =>
    cases a with
    | item item => exact effect_of_received rfl h
    | _ => cases h
  | writing written hashed chunk =>
    cases a with
    | ok =>
      obtain ⟨s₁, hs₁, h⟩ := Option.bind_eq_some_iff.mp h
      cases h
      exact .writes _ _ _ (.wrote written hashed chunk s' rfl hs₁)
    | failAfter n e =>
      obtain ⟨s₁, hs₁, h⟩ := Option.bind_eq_some_iff.mp h
      exact effect_of_finish (.writeFailed n e written hashed chunk s₁ rfl hs₁) h
    | _ => cases h
  | flushing written hashed =>
    cases a with
    | ok =>
      simp only [step] at h
      split_ifs at h with hsha <;> cases h
      · exact .looks _ _ (.mismatched written hashed rfl hsha)
      · exact .looks _ _ (.matched written hashed rfl (not_not.mp hsha))
    | fail e => exact effect_of_failed hf h
    | _ => cases h
  | _ => cases hf

theorem step_cases (h : p.step cfg s a = some (s', pc)) : Effect cfg s p a s' pc := by
  cases hf : p.pc.isFetching with
  | true => exact effect_of_fetching hf h
  | false =>
    cases hv : p.pc.verified with
    | some v => exact effect_of_publishing hv h
    | none =>
      obtain ⟨o, pc₀⟩ := p
      cases pc₀ with
      | entering =>
        cases a with
        | ok => exact effect_of_enter rfl (Option.some.inj h)
        | _ => cases h
      | measuring written actual =>
        obtain ⟨n, hn, h⟩ := Option.bind_eq_some_iff.mp h
        split_ifs at h with hsize <;> cases h
        · exact .looks _ _ (.wrongLength a written n actual rfl hn hsize)
        · exact .looks _ _ (.rightLength a written actual rfl (hn.trans (by rw [not_not.mp hsize])))
      | stripping done =>
        cases a <;> simp only [step, reduceCtorEq] at h <;> split_ifs at h
        all_goals first
          | cases h
            exact .looks _ _ (.stripped _ done rfl)
          | exact effect_of_finish (.unaudited _ done (.inl rfl)) h
      | auditing done =>
        cases a with
        | clock nowMs => exact effect_of_finish (.audited nowMs done rfl) h
        | fail e => exact effect_of_finish (.unaudited _ done (.inr rfl)) h
        | _ => cases h
      | discarding e =>
        cases a with
        | ok =>
          obtain ⟨s₁, hs₁, h⟩ := Option.bind_eq_some_iff.mp h
          exact effect_of_finish (.discarded e s₁ rfl hs₁) h
        | fail m => exact effect_of_finish (.notDiscarded m e rfl) h
        | _ => cases h
      | returned result => cases h
      | dropped => cases h
      | _ => simp [PushPc.isFetching, PushPc.verified] at hf hv

end Push

end Zyris.Transfer
