import Zyris.Transfer.Equiv.Receive
import Zyris.Transfer.Budget

/-!
# How much the inbox can hold

Nothing reads `max_inbox_bytes`.  What a call can add to the inbox is bounded by the size of its
offer, as long as the counter of the bytes received does not wrap (`PushPc.toAppend`), and one offer
can exceed `max_inbox_bytes` by itself.
-/

namespace Zyris.Transfer

open Proto

/-! ### What a file operation adds -/

def Entry.bytes : Entry → Nat
  | .file content => content.length
  | .symlink | .directory => 0

def bytesOf (files : Table (List Char) Entry) : Nat := files.total fun _ e => e.bytes

theorem bytesOf_insert_le (files : Table (List Char) Entry) (name : List Char) (e : Entry) :
    bytesOf (files.insert name e) ≤ bytesOf files + e.bytes := by
  unfold bytesOf
  rw [Table.total_insert]
  exact Nat.add_le_add_right (files.total_remove_le name _) _

theorem bytesOf_insert_of_get {files : Table (List Char) Entry} {name : List Char} {old : Entry}
    (h : files.get name = some old) (e : Entry) :
    bytesOf (files.insert name e) + old.bytes = bytesOf files + e.bytes := by
  have := Table.total_remove_of_get h fun _ e => e.bytes
  unfold bytesOf
  rw [Table.total_insert]
  omega

theorem bytesOf_remove_le (files : Table (List Char) Entry) (name : List Char) :
    bytesOf (files.remove name) ≤ bytesOf files :=
  files.total_remove_le name _

namespace Store

variable {s s' : Store} {name target : List Char}

theorem bytesOf_openPart {resume : Bool} (h : s.openPart name resume = some s') :
    bytesOf s'.files ≤ bytesOf s.files := by
  unfold openPart at h
  split at h
  next content hfile =>
    cases h
    have hinsert := bytesOf_insert_of_get hfile (.file (if resume then content else []))
    have hle : (Entry.file (if resume then content else [])).bytes ≤
        (Entry.file content).bytes := by
      cases resume
      · exact Nat.zero_le _
      · exact Nat.le_refl _
    show bytesOf (s.files.insert name _) ≤ _
    omega
  · cases h
    exact bytesOf_insert_le _ _ _
  · cases h

theorem bytesOf_append {bytes : List UInt8} (h : s.append name bytes = some s') :
    bytesOf s'.files ≤ bytesOf s.files + bytes.length := by
  unfold append at h
  split at h
  next content hfile =>
    split_ifs at h
    cases h
    have hinsert := bytesOf_insert_of_get hfile (.file (content ++ bytes))
    have hlen : (Entry.file (content ++ bytes)).bytes =
        (Entry.file content).bytes + bytes.length := List.length_append
    show bytesOf (s.files.insert name _) ≤ _
    omega
  · cases h
    exact Nat.le_add_right _ _

theorem bytesOf_removeFile (h : s.removeFile name = some s') :
    bytesOf s'.files ≤ bytesOf s.files := by
  unfold removeFile at h
  split at h <;> cases h
  exact bytesOf_remove_le _ _

/-- The file moves, and what it replaces goes. -/
theorem bytesOf_rename (h : s.rename name target = some s') :
    bytesOf s'.files ≤ bytesOf s.files := by
  unfold rename at h
  rcases he : s.files.get name with _ | e
  · rw [he] at h
    cases h
  have hs' : s'.files = (s.files.remove name).insert target e := by
    rw [he] at h
    split at h <;> cases h
    next heq _ => rw [Option.some.inj heq]
  have hinsert := bytesOf_insert_le (s.files.remove name) target e
  have hremove := Table.total_remove_of_get he fun _ e => e.bytes
  rw [hs']
  unfold bytesOf at hinsert ⊢
  omega

end Store

/-! ### What a call can add -/

/-- The bytes a call may still append. -/
def PushPc.toAppend (cfg : Config) (o : TransferOffer) : PushPc → Nat
  -- an offer that is too large is turned away
  | .entering => if cfg.maxFileBytes < o.size then 0 else o.size
  | .resolving | .resolvingDest | .checkingDest | .checkingTemp | .measuringTemp | .pulling _
  | .openingLeftover _ | .hashing _ _ | .opening _ _ => o.size
  | .receiving written _ => o.size - written
  | .writing written _ chunk => o.size - written + chunk.length
  | _ => 0

/-- The counter is within the offer, and the offer within the limit. -/
def PushPc.Counts (maxFileBytes : Nat) (o : TransferOffer) : PushPc → Prop
  | .resolving | .resolvingDest | .checkingDest | .checkingTemp | .measuringTemp =>
    o.size ≤ maxFileBytes
  | .pulling n | .openingLeftover n | .hashing n _ | .opening n _ | .receiving n _
  | .writing n _ _ => n ≤ o.size ∧ o.size ≤ maxFileBytes
  | _ => True

namespace Push

variable {cfg : Config} {s s' : Store} {p : Push} {a : PushAct} {pc : PushPc}

/-- The bytes that arrive do not make the counter wrap. -/
def noWrap (p : Push) (a : PushAct) : Bool :=
  match p.pc, a with
  | .receiving written _, .item (some (.ok bytes)) => written + bytes.length < 2 ^ 64
  | _, _ => true

theorem toAppend_of_verified {v : Nat × List Char} (h : pc.verified = some v)
    (o : TransferOffer) : pc.toAppend cfg o = 0 := by
  cases pc <;> first | rfl | cases h

theorem Looks.toAppend_le (h : Looks cfg s p a pc) (hwrap : p.noWrap a = true) :
    pc.toAppend cfg p.offer ≤ p.pc.toAppend cfg p.offer := by
  cases h with
  | resolved hpc | destResolved _ hpc | destChecked _ hpc | tempChecked _ hpc | measured _ _ hpc
    | pulledResume _ _ hpc | pulledFresh _ hpc | openedLeftover _ hpc | readSome _ _ _ _ hpc
    | readAll _ _ _ hpc =>
    rw [hpc]
    exact Nat.le_refl _
  | got written hashed bytes hpc hle =>
    have hlt : written + bytes.length < 2 ^ 64 := by
      unfold noWrap at hwrap
      rw [hpc] at hwrap
      exact of_decide_eq_true hwrap
    rw [Nat.mod_eq_of_lt hlt] at hle ⊢
    rw [hpc]
    show p.offer.size - (written + bytes.length) + bytes.length ≤ p.offer.size - written
    omega
  | prepared _ _ v _ _ hv =>
    rw [toAppend_of_verified hv]
    exact Nat.zero_le _
  | _ => exact Nat.zero_le _

theorem Writes.bytesOf_add_le (h : Writes cfg s p a s' pc) :
    bytesOf s'.files + pc.toAppend cfg p.offer ≤
      bytesOf s.files + p.pc.toAppend cfg p.offer := by
  cases h with
  | claimed hentering hsize =>
    rw [hentering]
    show _ + p.offer.size ≤ _ + if cfg.maxFileBytes < p.offer.size then 0 else p.offer.size
    rw [if_neg (Nat.not_lt.mpr hsize)]
  | opened offset hashed _ hopening hs' =>
    have hle := Store.bytesOf_openPart hs'
    rw [hopening]
    show _ + (p.offer.size - offset) ≤ _ + p.offer.size
    omega
  | wrote written hashed chunk _ hwriting hs' =>
    have hle := Store.bytesOf_append hs'
    rw [hwriting]
    show _ + (p.offer.size - written) ≤ _ + (p.offer.size - written + chunk.length)
    omega
  | stored _ _ _ v _ _ hv hfiles =>
    rw [hfiles, toAppend_of_verified hv]
    exact Nat.le_add_right _ _
  | tookAway _ written actual slot _ _ hfiles =>
    rw [hfiles]
    exact Nat.le_trans (bytesOf_remove_le _ _) (Nat.le_add_right _ _)
  | renamed _ _ _ _ _ _ hs' =>
    exact Nat.le_trans (Store.bytesOf_rename hs') (Nat.le_add_right _ _)

theorem bytesOf_cut {n written : Nat} {hashed chunk : List UInt8}
    (hpc : p.pc = .writing written hashed chunk)
    (happend : s.append (p.temp cfg) (chunk.take n) = some s') :
    bytesOf s'.files ≤ bytesOf s.files + p.pc.toAppend cfg p.offer := by
  have hle := Store.bytesOf_append happend
  have hn : (chunk.take n).length ≤ chunk.length := List.length_take_le' _ _
  rw [hpc]
  show _ ≤ _ + (p.offer.size - written + chunk.length)
  omega

theorem Returns.bytesOf_le {result : Except WireError TransferDone}
    (h : Returns cfg s p a s' result) :
    bytesOf s'.files ≤ bytesOf s.files + p.pc.toAppend cfg p.offer := by
  cases h with
  | writeFailed n e written hashed chunk s₁ hwriting hs₁ =>
    show bytesOf s₁.files ≤ _
    exact bytesOf_cut hwriting hs₁
  | discarded e s₁ _ hs₁ =>
    show bytesOf s₁.files ≤ _
    exact Nat.le_trans (Store.bytesOf_removeFile hs₁) (Nat.le_add_right _ _)
  | _ => exact Nat.le_add_right _ _

/-- **One step**: what a call adds to the files, it may add no more. -/
theorem bytesOf_step (h : p.step cfg s a = some (s', pc)) (hwrap : p.noWrap a = true) :
    bytesOf s'.files + pc.toAppend cfg p.offer ≤
      bytesOf s.files + p.pc.toAppend cfg p.offer := by
  cases step_cases h with
  | looks _ hl => exact Nat.add_le_add_left (hl.toAppend_le hwrap) _
  | writes _ _ hw => exact hw.bytesOf_add_le
  | returns _ _ hr => exact hr.bytesOf_le

theorem bytesOf_dropped {n : Nat} (h : s.dropped cfg p n = some s') :
    bytesOf s'.files ≤ bytesOf s.files + p.pc.toAppend cfg p.offer := by
  unfold Store.dropped at h
  split at h
  · cases h
    exact Nat.le_add_right _ _
  · cases h
  · cases h
  next written hashed chunk hwriting =>
    obtain ⟨s₁, hs₁, rfl⟩ := Option.map_eq_some_iff.mp h
    show bytesOf s₁.files ≤ _
    exact bytesOf_cut hwriting hs₁
  · cases h
    exact Nat.le_add_right _ _

theorem counts_of_verified {v : Nat × List Char} (h : pc.verified = some v) (n : Nat)
    (o : TransferOffer) : pc.Counts n o := by
  cases pc <;> trivial

theorem Looks.counts (h : Looks cfg s p a pc) (hp : p.pc.Counts cfg.maxFileBytes p.offer) :
    pc.Counts cfg.maxFileBytes p.offer := by
  cases h with
  | resolved hpc | destResolved _ hpc | destChecked _ hpc | tempChecked _ hpc
    | pulledResume _ _ hpc | pulledFresh _ hpc | openedLeftover _ hpc | readSome _ _ _ _ hpc
    | readAll _ _ _ hpc =>
    rw [hpc] at hp
    exact hp
  | measured _ n hpc =>
    rw [hpc] at hp
    exact ⟨le_size_of_measured p.offer n, hp⟩
  | got _ _ _ hpc hle =>
    rw [hpc] at hp
    exact ⟨hle, hp.2⟩
  | prepared _ _ _ _ _ hv => exact counts_of_verified hv _ _
  | _ => trivial

theorem counts_step (h : p.step cfg s a = some (s', pc))
    (hp : p.pc.Counts cfg.maxFileBytes p.offer) : pc.Counts cfg.maxFileBytes p.offer := by
  cases step_cases h with
  | looks _ hl => exact hl.counts hp
  | writes _ _ hw =>
    cases hw with
    | claimed _ hsize => exact hsize
    | opened _ _ _ hpc | wrote _ _ _ _ hpc =>
      rw [hpc] at hp
      exact hp
    | stored _ _ _ _ _ _ hv => exact counts_of_verified hv _ _
    | tookAway | renamed => trivial
  | returns => trivial

end Push

namespace Receivers

variable {cfg : TransferConfig} {s s' : Receivers}

/-! ### All calls together -/

def bytes (s : Receivers) : Nat := s.dirs.total fun _ files => bytesOf files

/-- The bytes all calls may still append. -/
def toAppend (cfg : TransferConfig) (s : Receivers) : Nat :=
  s.calls.total fun c => c.push.pc.toAppend (cfg.of c) c.push.offer

/-- The sizes of the offers that are not too large. -/
def offered (cfg : TransferConfig) : ReceiversAct → Nat
  | .offer _ _ o => if cfg.maxFileBytes < o.size then 0 else o.size
  | _ => 0

def noWrap (s : Receivers) : ReceiversAct → Bool
  | .act i a => (s.calls.get i).all fun c => c.push.noWrap a
  | _ => true

theorem bytes_insert (s : Receivers) (dir : List Char) (files : Table (List Char) Entry) :
    (s.dirs.insert dir files).total (fun _ files => bytesOf files) +
      bytesOf (s.store dir).files = s.bytes + bytesOf files := by
  rw [Table.total_insert]
  unfold bytes
  show _ + bytesOf ((s.dirs.get dir).getD .empty) = _
  cases hget : s.dirs.get dir with
  | none =>
    have hrest : (s.dirs.remove dir).total (fun _ files => bytesOf files) =
        s.dirs.total fun _ files => bytesOf files := by
      rw [Table.total, Table.remove_of_get_eq_none hget, Table.total]
    rw [hrest]
    rfl
  | some old =>
    have := Table.total_remove_of_get hget fun _ files => bytesOf files
    rw [Option.getD_some]
    omega

theorem bytes_proceed {i : Nat} {c : Receiving} {store : Store} {pc : PushPc}
    (hc : s.calls.get i = some c)
    (h : bytesOf store.files + pc.toAppend (cfg.of c) c.push.offer ≤
      bytesOf (s.store (peerDir c.peer)).files + c.push.pc.toAppend (cfg.of c) c.push.offer) :
    (s.proceed i (peerDir c.peer) store pc).bytes +
      (s.proceed i (peerDir c.peer) store pc).toAppend cfg ≤ s.bytes + s.toAppend cfg := by
  have hdirs := s.bytes_insert (peerDir c.peer) store.files
  have hcalls : (s.proceed i (peerDir c.peer) store pc).toAppend cfg +
      c.push.pc.toAppend (cfg.of c) c.push.offer =
        s.toAppend cfg + pc.toAppend (cfg.of c) c.push.offer := Arena.total_update hc _ _
  have hbytes : (s.proceed i (peerDir c.peer) store pc).bytes +
      bytesOf (s.store (peerDir c.peer)).files = s.bytes + bytesOf store.files := hdirs
  omega

theorem bytes_step {a : ReceiversAct} (h : s.step cfg a = some s') (hwrap : s.noWrap a = true) :
    s'.bytes + s'.toAppend cfg ≤ s.bytes + s.toAppend cfg + offered cfg a := by
  cases a with
  | offer peer hasPeer o =>
    cases h
    show s.bytes + (s.calls.alloc _).total _ ≤ _
    rw [Arena.total_alloc]
    exact Nat.le_of_eq (Nat.add_assoc _ _ _).symm
  | act i a =>
    obtain ⟨c, hc, h⟩ := Option.bind_eq_some_iff.mp h
    obtain ⟨⟨store, pc⟩, hstep, h⟩ := Option.bind_eq_some_iff.mp h
    cases h
    have hwrap' : c.push.noWrap a = true := by
      simpa [noWrap, hc] using hwrap
    exact bytes_proceed hc (Push.bytesOf_step hstep hwrap')
  | drop i n =>
    obtain ⟨c, hc, h⟩ := Option.bind_eq_some_iff.mp h
    obtain ⟨store, hdropped, h⟩ := Option.bind_eq_some_iff.mp h
    cases h
    exact bytes_proceed hc (Push.bytesOf_dropped hdropped)

/-! ### The counters -/

/-- How many bytes arrive. -/
def received : ReceiversAct → Nat
  | .act _ (.item (some (.ok bytes))) => bytes.length
  | _ => 0

/-- No counter is over the limit of a file. -/
def Counts (cfg : TransferConfig) (s : Receivers) : Prop :=
  ∀ i c, s.calls.get i = some c → c.push.pc.Counts cfg.maxFileBytes c.push.offer

theorem counts_step {a : ReceiversAct} (hs : s.Counts cfg) (h : s.step cfg a = some s') :
    s'.Counts cfg := by
  cases a with
  | offer peer hasPeer o =>
    cases h
    exact Arena.forall_alloc hs trivial
  | act i a =>
    obtain ⟨c, hc, h⟩ := Option.bind_eq_some_iff.mp h
    obtain ⟨⟨store, pc⟩, hstep, h⟩ := Option.bind_eq_some_iff.mp h
    cases h
    exact Arena.forall_update_known hs hc (Push.counts_step hstep (hs i c hc))
  | drop i n =>
    obtain ⟨c, hc, h⟩ := Option.bind_eq_some_iff.mp h
    obtain ⟨store, -, h⟩ := Option.bind_eq_some_iff.mp h
    cases h
    exact Arena.forall_update_known hs hc trivial

theorem Counts.noWrap {a : ReceiversAct} (hs : s.Counts cfg)
    (ha : cfg.maxFileBytes + received a < 2 ^ 64) : s.noWrap a = true := by
  cases a with
  | act i a =>
    refine (Option.all_eq_true _ _).mpr fun c hc => ?_
    have hc' := hs i c hc
    unfold Push.noWrap
    split
    next written _ bytes hpc =>
      rw [hpc] at hc'
      have hle : written ≤ cfg.maxFileBytes := Nat.le_trans hc'.1 hc'.2
      have hlt : cfg.maxFileBytes + bytes.length < 2 ^ 64 := ha
      exact decide_eq_true (by omega)
    · rfl
  | _ => rfl

/-- **No counter wraps** where a file of the largest size and a chunk are below `2 ^ 64` bytes. -/
theorem run_noWrap {s₀ : Receivers} {as : List ReceiversAct} (hcalls : s₀.calls = .empty)
    (hshort : ∀ a ∈ as, cfg.maxFileBytes + received a < 2 ^ 64)
    (h : Run (Steps (step cfg)) s₀ as s) :
    Run (Guarded (Steps (step cfg)) fun s a => s.noWrap a = true) s₀ as s := by
  refine Run.guarded_of_invariant (I := Counts cfg) ?_ (fun _ _ _ => counts_step) h
    fun a ha s hs => hs.noWrap (hshort a ha)
  rw [Counts, hcalls]
  exact nofun

end Receivers

open Receivers in
/-- **The inbox keeps to its budget** when what is there at the start and all the offers that are
not too large fit into it, and no counter of received bytes wraps. -/
theorem inbox_within_budget {cfg : TransferConfig} {s₀ s : Receivers} {as : List ReceiversAct}
    (hcalls : s₀.calls = .empty)
    (hfits : s₀.bytes + (as.map (offered cfg)).sum ≤ cfg.maxInboxBytes)
    (h : Run (Guarded (Steps (step cfg)) fun s a => s.noWrap a = true) s₀ as s) :
    s.bytes ≤ cfg.maxInboxBytes := by
  have hinv : s.bytes + s.toAppend cfg ≤ s₀.bytes + (as.map (offered cfg)).sum := by
    refine h.invariant
      (I := fun as s => s.bytes + s.toAppend cfg ≤ s₀.bytes + (as.map (offered cfg)).sum) ?_ ?_
    · rw [toAppend, hcalls]
      exact Nat.le_refl _
    · intro as s a s' _ hi hstep
      have hle := bytes_step hstep.1 hstep.2
      rw [List.map_append, List.sum_append, List.map_singleton, List.sum_singleton]
      omega
  omega

/-- An empty inbox, which may hold so many bytes. -/
def smallInbox (maxInboxBytes : Nat) : TransferConfig :=
  ⟨.sampled, "/inbox", false, 1024, maxInboxBytes⟩

def noFiles : Receivers := ⟨.empty, .empty, 0, [], [], .empty⟩

/-- A peer offers three bytes and sends them. -/
def threeReceived : List ReceiversAct :=
  .offer "peer".toList true (Push.threeBytes false) ::
    [.ok, .ok, .fail "not found", .fail "not found", .fail "not found", .fail "not found",
      .pulled (.ok ⟨3, (Push.threeBytes false).sha256⟩), .ok, .item (some (.ok [1, 2, 3])), .ok,
      .item none, .ok, .ok, .fail "not found", .ok, .ok].map (.act 0)

theorem inbox_within_budget_three : ∃ s,
    Run (Guarded (Steps (Receivers.step (smallInbox 3))) fun s a => s.noWrap a = true) noFiles
      threeReceived s ∧ s.bytes = 3 ∧ s.bytes ≤ 3 := by
  obtain ⟨s, hrun, hbytes⟩ := exists_run_of_exec (Receivers.step (smallInbox 3)) noFiles
    threeReceived (fun s => s.bytes = 3) rfl
  have hrun' := Receivers.run_noWrap rfl (by decide) hrun
  exact ⟨s, hrun', hbytes, inbox_within_budget rfl (by decide) hrun'⟩

/-- With room for two bytes, the three are received all the same. -/
theorem inbox_over_budget : ∃ s,
    noFiles.bytes ≤ (smallInbox 2).maxInboxBytes ∧
    Run (Steps (Receivers.step (smallInbox 2))) noFiles threeReceived s ∧
    (smallInbox 2).maxInboxBytes < s.bytes := by
  obtain ⟨s, hrun, hbytes⟩ := exists_run_of_exec (Receivers.step (smallInbox 2)) noFiles
    threeReceived (fun s => (smallInbox 2).maxInboxBytes < s.bytes) rfl
  exact ⟨s, Nat.zero_le _, hrun, hbytes⟩

end Zyris.Transfer
