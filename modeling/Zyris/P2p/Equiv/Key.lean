import Zyris.P2p.Key

/-!
# Correctness of `load_or_create`

Two calls must never come back with two keys, as the key is what a node's peers have pinned.
`create_new` opens the file for one call only, and everybody else reads a beginning of that key,
which is refused as long as it is not the whole of it.
-/

namespace Zyris.P2p

/-- The call fits a file for `key`: what it has read is a beginning of the content, and what it has
yet to write is the rest. -/
def LoadPc.Fits (key : SecretKey) (content : Option (List UInt8)) : LoadPc → Prop
  | .checking read => ∃ bytes, content = some bytes ∧ read <+: bytes
  | .writing key' left => key' = key ∧ ∃ bytes, content = some bytes ∧ bytes ++ left = key.bytes
  | .returned (.ok key') => key' = key ∧ content = some key.bytes
  | _ => True

def LoadPc.isWriting : LoadPc → Bool
  | .writing _ _ => true
  | _ => false

/-- While there is no file nobody writes, and the calls are open to any key. -/
theorem LoadPc.Fits.of_none {key key' : SecretKey} {content : Option (List UInt8)}
    {pc : LoadPc} (h : pc.Fits key none) : pc.Fits key' content ∧ pc.isWriting = false := by
  cases pc with
  | checking read => simp [LoadPc.Fits] at h
  | writing k left => simp [LoadPc.Fits] at h
  | returned result =>
    cases result with
    | error e => exact ⟨trivial, rfl⟩
    | ok k => simp [LoadPc.Fits] at h
  | reading | creating | crashed => exact ⟨trivial, rfl⟩

namespace KeyDir

variable {s s' : KeyDir} {key : SecretKey} {i : Nat} {pc pc' : LoadPc}

def content (s : KeyDir) : Option (List UInt8) := s.file.map KeyFile.bytes

theorem content_chmod (mode : Nat) :
    content { s with file := s.file.map ({ · with mode := mode }) } = s.content :=
  Option.map_map _ _ _

/-- The file is for `key`, if it is there. -/
structure Holds (s : KeyDir) (key : SecretKey) : Prop where
  bytes : ∀ bytes, s.content = some bytes → bytes <+: key.bytes
  calls : ∀ i pc, s.calls.get i = some pc → pc.Fits key s.content
  writer : ∀ i j pc pc', s.calls.get i = some pc → s.calls.get j = some pc' →
    pc.isWriting → pc'.isWriting → i = j

/-- Call `i` moves on, and may change the file if nobody else writes. -/
theorem Holds.goto {key' : SecretKey} {file' : Option KeyFile} (h : s.Holds key)
    (hpc : s.calls.get i = some pc)
    (hw : pc'.isWriting → ∀ j pc, j ≠ i → s.calls.get j = some pc → pc.isWriting = false)
    (hb : ∀ bytes, file'.map KeyFile.bytes = some bytes → bytes <+: key'.bytes)
    (hfits : pc'.Fits key' (file'.map KeyFile.bytes))
    (hrest : ∀ j pc, j ≠ i → s.calls.get j = some pc → pc.Fits key' (file'.map KeyFile.bytes)) :
    { s.goto i pc' with file := file' }.Holds key' := by
  refine ⟨hb, fun j pc₁ hj => ?_, fun j k pc₁ pc₂ hj hk hj' hk' => ?_⟩
  · rcases Arena.get_update_known hpc hj with ⟨-, rfl⟩ | ⟨hne, hj⟩
    · exact hfits
    · exact hrest j pc₁ hne hj
  rcases Arena.get_update_known hpc hj with ⟨rfl, rfl⟩ | ⟨hne, hold⟩ <;>
    rcases Arena.get_update_known hpc hk with ⟨rfl, rfl⟩ | ⟨hne', hold'⟩
  · rfl
  · exact absurd hk' (by simp [hw hj' k pc₂ hne' hold'])
  · exact absurd hj' (by simp [hw hk' j pc₁ hne hold])
  · exact h.writer j k _ _ hold hold' hj' hk'

/-- A call moves on without touching the file. -/
theorem Holds.move (h : s.Holds key) (hpc : s.calls.get i = some pc)
    (hw : pc'.isWriting = false) (hfits : pc'.Fits key s.content) : (s.goto i pc').Holds key :=
  h.goto hpc (by simp [hw]) h.bytes hfits fun j pc _ hj => h.calls j pc hj

/-- `create_new` makes the file, for the key of the call that made it. -/
theorem Holds.create {key' : SecretKey} (h : s.Holds key) (hpc : s.calls.get i = some pc)
    (hfile : s.file = none) :
    { s.goto i (.writing key' key'.bytes) with file := some ⟨[], 0o600⟩ }.Holds key' := by
  have hnone : ∀ j pc, s.calls.get j = some pc →
      pc.Fits key' (some []) ∧ pc.isWriting = false := by
    intro j pc hj
    have hfits := h.calls j pc hj
    rw [content, hfile] at hfits
    exact hfits.of_none
  refine h.goto hpc (fun _ j pc _ hj => (hnone j pc hj).2) ?_ ⟨rfl, _, rfl, rfl⟩
    fun j pc _ hj => (hnone j pc hj).1
  rintro _ ⟨⟩
  exact List.nil_prefix

/-- A call that still has bytes to write puts some of them into the file. -/
theorem Holds.write {f : KeyFile} {left : List UInt8} {n : Nat} (h : s.Holds key)
    (hpc : s.calls.get i = some (.writing key left)) (hleft : left ≠ []) (hfile : s.file = some f)
    (hkey : f.bytes ++ left = key.bytes) :
    { s.goto i (.writing key (left.drop (n + 1))) with
      file := some { f with bytes := f.bytes ++ left.take (n + 1) } }.Holds key := by
  have hsum : f.bytes ++ left.take (n + 1) ++ left.drop (n + 1) = key.bytes := by
    rw [List.append_assoc, List.take_append_drop, hkey]
  refine h.goto hpc (fun _ j pc hne hj => ?_) ?_ ⟨rfl, _, rfl, hsum⟩ fun j pc hne hj => ?_
  · exact Bool.eq_false_iff.mpr fun hw => hne (h.writer j i _ _ hj hpc hw rfl)
  · rintro _ ⟨⟩
    exact ⟨_, hsum⟩
  · have hfits := h.calls j pc hj
    rw [content, hfile] at hfits
    cases pc with
    | checking read =>
      obtain ⟨_, ⟨⟩, hread⟩ := hfits
      exact ⟨_, rfl, hread.trans (List.prefix_append _ _)⟩
    | writing k left' => exact absurd (h.writer j i _ _ hj hpc rfl rfl) hne
    | returned result =>
      cases result with
      | error e => trivial
      | ok k =>
        -- the whole key is in the file already, so nothing is left to write
        rw [← Option.some.inj hfits.2] at hkey
        exact absurd (List.append_right_eq_self.mp hkey) hleft
    | reading | creating | crashed => trivial

/-- What `check_permissions` and `from_bytes` let through is the whole key. -/
theorem Holds.fits_fromBytes {bytes read : List UInt8} (h : s.Holds key)
    (hb : s.content = some bytes) (hread : read <+: bytes) (mode : Nat) :
    (LoadPc.returned (do checkPermissions mode; fromBytes read)).Fits key s.content := by
  rcases checkPermissions mode with _ | _
  · trivial
  by_cases hlen : read.length = 32
  · have hlen' : read.length = key.bytes.length := hlen.trans key.length_bytes.symm
    have hwhole : read = key.bytes := (hread.trans (h.bytes bytes hb)).eq_of_length hlen'
    have hfull : bytes = key.bytes :=
      (h.bytes bytes hb).eq_of_length_le (hlen' ▸ hread.length_le)
    simp only [fromBytes, hlen, ↓reduceDIte]
    exact ⟨SecretKey.ext hwhole, hfull ▸ hb⟩
  · simp only [fromBytes, hlen, ↓reduceDIte]
    trivial

theorem Holds.proceed {n : Nat} {k : SecretKey} (h : s.Holds key) (hpc : s.calls.get i = some pc)
    (hs : s.proceed i k n pc = some s') : ∃ key, s'.Holds key := by
  have hfits := h.calls i pc hpc
  cases pc with
  | reading =>
    cases hfile : s.file with
    | none =>
      simp only [KeyDir.proceed, hfile, Option.some.injEq] at hs
      exact ⟨key, hs ▸ h.move hpc rfl trivial⟩
    | some f =>
      simp only [KeyDir.proceed, hfile, Option.some.injEq] at hs
      exact ⟨key, hs ▸ h.move hpc rfl ⟨_, congrArg _ hfile, List.prefix_refl _⟩⟩
  | creating key' =>
    cases hfile : s.file with
    | none =>
      simp only [KeyDir.proceed, hfile, Option.some.injEq] at hs
      exact ⟨key', hs ▸ h.create hpc hfile⟩
    | some f =>
      simp only [KeyDir.proceed, hfile, Option.some.injEq] at hs
      exact ⟨key, hs ▸ h.move hpc rfl trivial⟩
  | checking bytes =>
    obtain ⟨_, hb, hread⟩ := hfits
    obtain ⟨f, hfile, rfl⟩ := Option.map_eq_some_iff.mp hb
    simp only [KeyDir.proceed, hfile, Option.bind_eq_bind, Option.bind_some,
      Option.some.injEq] at hs
    exact ⟨key, hs ▸ h.move hpc rfl (h.fits_fromBytes hb hread f.mode)⟩
  | writing key' left =>
    obtain ⟨rfl, _, hb, hkey⟩ := hfits
    obtain ⟨f, hfile, rfl⟩ := Option.map_eq_some_iff.mp hb
    cases left with
    | nil =>
      simp only [KeyDir.proceed, Option.some.injEq] at hs
      rw [List.append_nil] at hkey
      exact ⟨key', hs ▸ h.move hpc rfl ⟨rfl, hkey ▸ hb⟩⟩
    | cons b left =>
      simp only [KeyDir.proceed, hfile, Option.bind_eq_bind, Option.bind_some,
        Option.some.injEq] at hs
      exact ⟨key', hs ▸ h.write hpc (List.cons_ne_nil b left) hfile hkey⟩
  | returned result => cases hs
  | crashed => cases hs

theorem eq_goto_of_stop (h : s.stop i pc' pc = some s') : s' = s.goto i pc' := by
  cases pc <;> cases h <;> rfl

/-- A new call, and a new mode, leave the others and the bytes as they are. -/
theorem Holds.step {a : KeyAct} (h : s.Holds key) (hs : s.step a = some s') :
    ∃ key, s'.Holds key := by
  cases a with
  | loadOrCreate =>
    cases hs
    refine ⟨key, h.bytes, Arena.forall_alloc h.calls trivial, fun j k pc pc' hj hk hj' hk' => ?_⟩
    rcases Arena.get_alloc_cases hj with ⟨-, rfl⟩ | hj
    · cases hj'
    rcases Arena.get_alloc_cases hk with ⟨-, rfl⟩ | hk
    · cases hk'
    exact h.writer j k pc pc' hj hk hj' hk'
  | ok i k n =>
    obtain ⟨pc, hpc, hs⟩ := Option.bind_eq_some_iff.mp hs
    exact h.proceed hpc hs
  | fail i message =>
    obtain ⟨pc, hpc, hs⟩ := Option.bind_eq_some_iff.mp hs
    rw [eq_goto_of_stop hs]
    exact ⟨key, h.move hpc rfl trivial⟩
  | crash i =>
    obtain ⟨pc, hpc, hs⟩ := Option.bind_eq_some_iff.mp hs
    rw [eq_goto_of_stop hs]
    exact ⟨key, h.move hpc rfl trivial⟩
  | chmod mode =>
    cases hs
    have hcontent := content_chmod (s := s) mode
    exact ⟨key, hcontent ▸ h.bytes, hcontent ▸ h.calls, h.writer⟩

theorem exists_holds_of_run {as : List KeyAct} (h : Run (Steps KeyDir.step) .empty as s) :
    ∃ key, s.Holds key := by
  refine h.state_invariant (I := fun s => ∃ key, s.Holds key) ?_ ?_
  · exact ⟨⟨.replicate 32 0, List.length_replicate⟩, nofun, nofun, nofun⟩
  · rintro s a s' ⟨key, h⟩ hs
    exact h.step hs

/-- Over every run from a path without a file, with any number of calls, some of which fail or stop
half way: all calls that come back with a key come back with the same one, and the file holds its
bytes from then on. -/
theorem one_identity {as : List KeyAct} {i j : Nat} {k k' : SecretKey}
    (h : Run (Steps KeyDir.step) .empty as s) (hi : s.calls.get i = some (.returned (.ok k)))
    (hj : s.calls.get j = some (.returned (.ok k'))) :
    k = k' ∧ s.content = some k.bytes := by
  obtain ⟨key, hkey⟩ := exists_holds_of_run h
  obtain ⟨rfl, hbytes⟩ := hkey.calls i _ hi
  obtain ⟨rfl, -⟩ := hkey.calls j _ hj
  exact ⟨rfl, hbytes⟩

/-- A key of 32 equal bytes. -/
def uniform (b : UInt8) : SecretKey := ⟨.replicate 32 b, List.length_replicate⟩

/-- Two calls find no file, the second comes too late to create it, a third one loads. -/
def raceThenLoad : List KeyAct :=
  [.loadOrCreate, .loadOrCreate, .ok 0 (uniform 1) 0, .ok 1 (uniform 2) 0, .ok 0 (uniform 0) 0,
    .ok 1 (uniform 0) 0, .ok 0 (uniform 0) 31, .ok 0 (uniform 0) 0, .loadOrCreate,
    .ok 2 (uniform 0) 0, .ok 2 (uniform 0) 0]

theorem one_identity_raceThenLoad : ∃ s, Run (Steps KeyDir.step) .empty raceThenLoad s ∧
    s.calls.get 1 = some (.returned (.error (.io "File exists (os error 17)"))) ∧
    s.content = some (uniform 1).bytes := by
  have hexec : exec KeyDir.step .empty raceThenLoad = some _ := rfl
  exact ⟨_, run_of_exec hexec, rfl, (@one_identity _ _ 0 2 _ _ (run_of_exec hexec) rfl rfl).2⟩

/-! ### A creation that was cut off -/

/-- The file is there with these bytes, and no call is writing to it. -/
def Idle (s : KeyDir) (bytes : List UInt8) : Prop :=
  s.content = some bytes ∧ ∀ i pc, s.calls.get i = some pc → pc.isWriting = false

theorem Idle.goto {bytes : List UInt8} (h : s.Idle bytes) (hw : pc.isWriting = false) :
    (s.goto i pc).Idle bytes :=
  ⟨h.1, Arena.forall_update h.2 fun _ _ => hw⟩

theorem Idle.step {bytes : List UInt8} {a : KeyAct} (h : s.Idle bytes)
    (hs : s.step a = some s') : s'.Idle bytes := by
  obtain ⟨f, hf, -⟩ := Option.map_eq_some_iff.mp h.1
  cases a with
  | loadOrCreate =>
    cases hs
    exact ⟨h.1, Arena.forall_alloc h.2 rfl⟩
  | ok i k n =>
    obtain ⟨pc, hpc, hs⟩ := Option.bind_eq_some_iff.mp hs
    cases pc with
    | writing key left => exact absurd (h.2 i _ hpc) Bool.noConfusion
    | returned result => cases hs
    | crashed => cases hs
    -- the file exists, so nobody creates it
    | reading | checking | creating =>
      simp only [proceed, hf, Option.bind_eq_bind, Option.bind_some, Option.some.injEq] at hs
      exact hs ▸ h.goto rfl
  | fail i message =>
    obtain ⟨pc, hpc, hs⟩ := Option.bind_eq_some_iff.mp hs
    rw [eq_goto_of_stop hs]
    exact h.goto rfl
  | crash i =>
    obtain ⟨pc, hpc, hs⟩ := Option.bind_eq_some_iff.mp hs
    rw [eq_goto_of_stop hs]
    exact h.goto rfl
  | chmod mode =>
    cases hs
    exact ⟨(content_chmod mode).trans h.1, h.2⟩

/-- A file whose writer is gone before all 32 bytes were in it is never mended: no call comes back
with a key any more. -/
theorem cut_off_for_good {as bs : List KeyAct} {bytes : List UInt8}
    (h : Run (Steps KeyDir.step) .empty as s) (hidle : s.Idle bytes) (hlen : bytes.length ≠ 32)
    (h' : Run (Steps KeyDir.step) s bs s') :
    s'.Idle bytes ∧ ∀ i k, s'.calls.get i ≠ some (.returned (.ok k)) := by
  have hidle' : s'.Idle bytes :=
    h'.state_invariant (I := fun s => s.Idle bytes) hidle fun _ _ _ h hs => h.step hs
  refine ⟨hidle', fun i k hi => ?_⟩
  obtain ⟨key, hkey⟩ := exists_holds_of_run (h.append h')
  have hwhole : some bytes = some key.bytes := hidle'.1.symm.trans (hkey.calls i _ hi).2
  exact hlen (Option.some.inj hwhole ▸ key.length_bytes)

/-- The only writer crashes when the file is empty. -/
def crashBeforeWrite : List KeyAct :=
  [.loadOrCreate, .ok 0 (uniform 1) 0, .ok 0 (uniform 0) 0, .crash 0]

theorem cut_off_for_good_crashBeforeWrite : ∃ s s',
    Run (Steps KeyDir.step) .empty crashBeforeWrite s ∧
    Run (Steps KeyDir.step) s
      [.loadOrCreate, .ok 1 (uniform 0) 0, .ok 1 (uniform 0) 0] s' ∧
    s'.calls.get 1 = some (.returned (.error .malformed)) ∧ s'.Idle [] := by
  have hidle : KeyDir.Idle ⟨some ⟨[], 0o600⟩, ⟨[.crashed]⟩⟩ [] := by
    refine ⟨rfl, fun i pc hi => ?_⟩
    obtain rfl := List.mem_singleton.mp (Arena.mem_objects_of_get hi)
    rfl
  have hrun : Run (Steps KeyDir.step) .empty crashBeforeWrite ⟨some ⟨[], 0o600⟩, ⟨[.crashed]⟩⟩ :=
    run_of_exec rfl
  have hload : exec KeyDir.step ⟨some ⟨[], 0o600⟩, ⟨[.crashed]⟩⟩
      [.loadOrCreate, .ok 1 (uniform 0) 0, .ok 1 (uniform 0) 0] = some _ := rfl
  exact ⟨_, _, hrun, run_of_exec hload, rfl,
    (cut_off_for_good hrun hidle (by decide) (run_of_exec hload)).1⟩

end KeyDir

end Zyris.P2p
