import Zyris.Transfer.Equiv.Name
import Zyris.Transfer.Equiv.Peer

/-!
# What a receiving call leaves behind

One `push_offer`, while nothing else touches its `.part` and its destination (`Push.Moves`).  What
is hashed and what is written are two computations; `Collected` says for each place of the call how
the bytes hashed so far stand to the bytes in the `.part`.
-/

namespace Zyris.Transfer

open Proto

namespace Push

/-- The call takes a step, or its `.part` and its destination are left alone. -/
inductive Moves (cfg : Config) : Store × Push → Option PushAct → Store × Push → Prop
  | call {s s' : Store} {p : Push} {a : PushAct} {pc : PushPc} :
    p.step cfg s a = some (s', pc) → Moves cfg (s, p) (some a) (s', { p with pc := pc })
  | other {s s' : Store} {p : Push} : s'.files.get (p.temp cfg) = s.files.get (p.temp cfg) →
    s'.files.get p.dest = s.files.get p.dest → Moves cfg (s, p) none (s', p)

/-- `Moves.call` as a function. -/
def move (cfg : Config) (x : Store × Push) (a : PushAct) : Option (Store × Push) :=
  (x.2.step cfg x.1 a).map fun y => (y.1, { x.2 with pc := y.2 })

theorem run_of_exec_move (cfg : Config) (x x' : Store × Push) (as : List PushAct)
    (h : exec (move cfg) x as = some x') : Run (Moves cfg) x (as.map some) x' := by
  induction as generalizing x with
  | nil =>
    cases h
    exact .nil
  | cons a as ih =>
    obtain ⟨y, hy, hrest⟩ := Option.bind_eq_some_iff.mp h
    obtain ⟨z, hz, rfl⟩ := Option.map_eq_some_iff.mp hy
    exact .cons (.call hz) (ih _ hrest)

/-- Where the bytes of an offer are collected. -/
def partOf (cfg : Config) (o : TransferOffer) : List Char :=
  partName cfg.sha (safeName o.name) o.transferId

theorem temp_ne_dest (cfg : Config) (p : Push) : p.temp cfg ≠ p.dest := partName_ne

/-! ### The file operations -/

section Files

variable {s s' : Store} {name name' : List Char}

theorem get_openPart {resume : Bool} (h : s.openPart name resume = some s') :
    (∃ content, s.files.get name = some (.file content) ∧
      s'.files.get name = some (.file (if resume then content else []))) ∨
    (s.files.get name = none ∧ s'.files.get name = some (.file [])) := by
  unfold Store.openPart at h
  split at h <;> cases h
  · next content hfile => exact .inl ⟨content, hfile, by simp⟩
  · next hnone => exact .inr ⟨hnone, by simp⟩

theorem get_append {content bytes : List UInt8} (hfile : s.files.get name = some (.file content))
    (h : s.append name bytes = some s') :
    s'.files.get name = some (.file (content ++ bytes)) ∧
      (content ++ bytes).length < 2 ^ 63 := by
  unfold Store.append at h
  rw [hfile] at h
  dsimp only at h
  split_ifs at h with hlength
  cases h
  exact ⟨by simp, hlength⟩

theorem get_rename {e : Entry} (he : s.files.get name = some e)
    (h : s.rename name name' = some s') : s'.files.get name' = some e := by
  unfold Store.rename at h
  rw [he] at h
  split at h <;> cases h
  next heq _ =>
  cases heq
  simp

theorem get_opened {offset : Nat} {hashed : List UInt8}
    (h : s.openPart name (0 < offset) = some s') (hlength : hashed.length = offset)
    (hresume : 0 < offset → s.files.get name = some (.file hashed)) :
    s'.files.get name = some (.file hashed) := by
  rcases get_openPart h with ⟨content, hfile, hfile'⟩ | ⟨hnone, hfile'⟩
  · refine hfile'.trans ?_
    by_cases hoffset : 0 < offset
    · cases (hresume hoffset).symm.trans hfile
      rw [if_pos (decide_eq_true hoffset)]
    · have hnil : hashed = [] := List.length_eq_zero_iff.mp (by omega)
      rw [if_neg (by simpa using hoffset), hnil]
  · -- nothing was there, so nothing was hashed
    have hnil : hashed = [] := by
      refine List.length_eq_zero_iff.mp (Nat.eq_zero_of_not_pos fun hpos => ?_)
      cases (hresume (hlength ▸ hpos)).symm.trans hnone
    exact hfile'.trans (by rw [hnil])

theorem get_removeFile (h : s.removeFile name = some s') : s'.files.get name = none := by
  unfold Store.removeFile at h
  split at h <;> cases h
  exact (Table.get_remove _ _ _).trans (if_pos rfl)

theorem get_renamed (hne : name ≠ name') (h : s.rename name name' = some s') :
    s'.files.get name = none := by
  unfold Store.rename at h
  split at h <;> cases h
  rw [Table.get_insert, if_neg hne, Table.get_remove, if_pos rfl]

variable {other : List Char}

theorem get_openPart_of_ne {resume : Bool} (hne : other ≠ name)
    (h : s.openPart name resume = some s') : s'.files.get other = s.files.get other := by
  unfold Store.openPart at h
  split at h <;> cases h <;> exact (Table.get_insert _ _ _ _).trans (if_neg hne)

theorem get_append_of_ne {bytes : List UInt8} (hne : other ≠ name)
    (h : s.append name bytes = some s') : s'.files.get other = s.files.get other := by
  unfold Store.append at h
  split at h
  · split_ifs at h
    cases h
    exact (Table.get_insert _ _ _ _).trans (if_neg hne)
  · cases h
    rfl

theorem get_removeFile_of_ne (hne : other ≠ name) (h : s.removeFile name = some s') :
    s'.files.get other = s.files.get other := by
  unfold Store.removeFile at h
  split at h <;> cases h
  exact (Table.get_remove _ _ _).trans (if_neg hne)

theorem get_rename_of_ne (hne : other ≠ name) (hne' : other ≠ name')
    (h : s.rename name name' = some s') : s'.files.get other = s.files.get other := by
  unfold Store.rename at h
  split at h <;> cases h
  rw [Table.get_insert, if_neg hne', Table.get_remove, if_neg hne]

end Files

/-! ### The bytes hashed and the bytes on disk -/

/-- The content is the one offered, and the call reports that. -/
structure IsOffered (cfg : Config) (o : TransferOffer) (content : List UInt8) (bytes : Nat)
    (sha256 : List Char) : Prop where
  length_eq : content.length = o.size
  hex_eq : cfg.sha.hex content = o.sha256
  bytes_eq : bytes = o.size
  sha256_eq : sha256 = o.sha256

/-- How what the call knows stands to its `.part`, and in the end to the destination. -/
def Collected (cfg : Config) (o : TransferOffer) (part target : Option Entry) : PushPc → Prop
  | .pulling offset => offset ≤ o.size ∧
    ∀ content, part = some (.file content) → 0 < offset → content.length = offset
  | .openingLeftover offset => 0 < offset ∧ offset ≤ o.size ∧
    ∀ content, part = some (.file content) → content.length = offset
  | .hashing offset hashed => 0 < offset ∧ offset ≤ o.size ∧
    ∀ content, part = some (.file content) → content.length = offset ∧ hashed <+: content
  | .opening offset hashed => offset ≤ o.size ∧ hashed.length = offset ∧
    (0 < offset → part = some (.file hashed))
  | .receiving written hashed =>
    part = some (.file hashed) ∧ written = hashed.length ∧ written ≤ o.size
  -- what is hashed is ahead by the chunk; the count may have wrapped
  | .writing written hashed chunk => ∃ content, part = some (.file content) ∧
    hashed = content ++ chunk ∧ written = hashed.length % 2 ^ 64 ∧ written ≤ o.size
  | .flushing written hashed =>
    part = some (.file hashed) ∧ written = hashed.length ∧ written ≤ o.size
  | .measuring written actual => ∃ content, part = some (.file content) ∧
    written = content.length ∧ written ≤ o.size ∧ cfg.sha.hex content = o.sha256 ∧
    actual = o.sha256
  | .stripping done => ∃ content, target = some (.file content) ∧
    IsOffered cfg o content done.bytes done.sha256
  | .auditing done => ∃ content, target = some (.file content) ∧
    IsOffered cfg o content done.bytes done.sha256
  | .returned (.ok done) => ∃ content, target = some (.file content) ∧
    IsOffered cfg o content done.bytes done.sha256
  | pc => ∀ v, pc.verified = some v →
    ∃ content, part = some (.file content) ∧ IsOffered cfg o content v.1 v.2

variable {cfg : Config} {s s' : Store} {p : Push} {a : PushAct} {pc : PushPc} {o : TransferOffer}
  {target : Option Entry} {v : Nat × List Char} {result : Except WireError TransferDone}
  {x x' : Store × Push} {l : Option PushAct} {ls : List (Option PushAct)} {original : Entry}

theorem collected_of_verified {part : Option Entry} (h : pc.verified = some v) :
    Collected cfg o part target pc ↔
      ∃ content, part = some (.file content) ∧ IsOffered cfg o content v.1 v.2 := by
  cases pc <;> simp [PushPc.verified] at h <;> subst h <;> simp [Collected, PushPc.verified]

/-- `Collected` for the call in the store. -/
def Collects (cfg : Config) (s : Store) (p : Push) : Prop :=
  Collected cfg p.offer (s.files.get (p.temp cfg)) (s.files.get p.dest) p.pc

theorem le_size_of_measured (o : TransferOffer) (n : Nat) :
    (if o.size < n then 0 else n) ≤ o.size := by
  split_ifs with h
  · exact Nat.zero_le _
  · exact Nat.le_of_not_lt h

theorem length_eq_of_fileLen {name : List Char} {n : Nat} {content : List UInt8}
    (hfile : s.files.get name = some (.file content)) (h : s.fileLen name a = some n) :
    n = content.length ∨ n = 0 ∧ ∃ e, a = .fail e := by
  unfold Store.fileLen at h
  split at h
  · rw [hfile] at h
    exact .inl (Option.some.inj h).symm
  · rw [hfile] at h
    cases h
  · next e => exact .inr ⟨(Option.some.inj h).symm, e, rfl⟩
  · cases h

theorem Looks.collected (h : Looks cfg s p a pc) (hI : Collects cfg s p) :
    Collects cfg s { p with pc := pc } := by
  unfold Collects at hI ⊢
  cases h with
  | resolved _ | destResolved _ _ | destChecked _ _ | tempChecked _ _
  | overran written hashed bytes hpc _ | mismatched written hashed hpc _
  | wrongLength _ written n actual hpc _ _ | appeared _ written actual e hpc _ _ =>
    exact nofun
  | measured _ n hpc hn =>
    refine ⟨le_size_of_measured _ n, fun content hfile hpos => ?_⟩
    split_ifs at hpos ⊢ with hsize
    · omega
    · rcases length_eq_of_fileLen hfile hn with rfl | ⟨rfl, _⟩
      · rfl
      · omega
  | pulledResume offset head hpc hoffset =>
    rw [hpc] at hI
    exact ⟨hoffset, hI.1, fun content hfile => hI.2 content hfile hoffset⟩
  | pulledFresh head hpc => exact ⟨Nat.zero_le _, rfl, fun h => absurd h (by decide)⟩
  | openedLeftover offset hpc =>
    rw [hpc] at hI
    exact ⟨hI.1, hI.2.1, fun content hfile => ⟨hI.2.2 content hfile, List.nil_prefix⟩⟩
  | readSome offset hashed content n hpc hfile hlength =>
    rw [hpc] at hI
    refine ⟨hI.1, hI.2.1, fun content' hfile' => ?_⟩
    obtain ⟨hlength', hpre⟩ := hI.2.2 content' hfile'
    refine ⟨hlength', ?_⟩
    cases hfile.symm.trans hfile'
    obtain ⟨rest, rfl⟩ := hpre
    rw [List.drop_left]
    exact (List.prefix_append_right_inj hashed).mpr (List.take_prefix n rest)
  | readAll offset hashed content hpc hfile hlength =>
    rw [hpc] at hI
    obtain ⟨hoffset, hsize, hall⟩ := hI
    obtain ⟨rfl, hpre⟩ := hall content hfile
    obtain rfl : hashed = content := hpre.eq_of_length_le hlength
    exact ⟨hsize, rfl, fun _ => hfile⟩
  | ended written hashed hpc | stripped _ done hpc =>
    rw [hpc] at hI
    exact hI
  | got written hashed bytes hpc hsize =>
    rw [hpc] at hI
    obtain ⟨hfile, rfl, _⟩ := hI
    exact ⟨hashed, hfile, rfl, by rw [List.length_append], hsize⟩
  | matched written hashed hpc hsha =>
    rw [hpc] at hI
    exact ⟨hashed, hI.1, hI.2.1, hI.2.2, hsha, hsha⟩
  | rightLength _ written actual hpc hn =>
    rw [hpc] at hI
    obtain ⟨content, hfile, rfl, hle, hsha, hactual⟩ := hI
    -- when `metadata` failed the length passed for `0`, and so nothing more was offered
    have hlength : content.length = p.offer.size := by
      rcases length_eq_of_fileLen hfile hn with h | ⟨h, _⟩ <;> omega
    intro v hv
    cases hv
    exact ⟨content, hfile, hlength, hsha, hlength, hactual⟩
  | prepared _ _ v hv _ hv' =>
    exact (collected_of_verified hv').mpr ((collected_of_verified hv).mp hI)

theorem Writes.collected (h : Writes cfg s p a s' pc) (hI : Collects cfg s p) :
    Collects cfg s' { p with pc := pc } := by
  unfold Collects at hI ⊢
  cases h with
  | claimed => exact nofun
  | opened offset hashed s' hpc hs' =>
    rw [hpc] at hI
    obtain ⟨hsize, hlength, hresume⟩ := hI
    exact ⟨get_opened hs' hlength hresume, hlength.symm, hsize⟩
  | wrote written hashed chunk s' hpc hs' =>
    rw [hpc] at hI
    obtain ⟨content, hfile, rfl, hwritten, hsize⟩ := hI
    obtain ⟨hfile', hlength⟩ := get_append hfile hs'
    exact ⟨hfile', hwritten.trans (Nat.mod_eq_of_lt (by omega)), hsize⟩
  | stored _ s' _ v hv _ hv' hfiles _ =>
    rw [hfiles]
    exact (collected_of_verified hv').mpr ((collected_of_verified hv).mp hI)
  | tookAway s' written actual slot hv _ hfiles _ =>
    rw [hfiles]
    refine (collected_of_verified rfl).mpr ?_
    obtain ⟨content, hfile, hoffered⟩ := (collected_of_verified hv).mp hI
    have hfile' := (Table.get_remove s.files p.dest (p.temp cfg)).trans
      (if_neg (temp_ne_dest cfg p))
    exact ⟨content, hfile'.trans hfile, hoffered⟩
  | renamed written actual existed undo s' hpc hs' =>
    rw [hpc] at hI
    obtain ⟨content, hfile, hoffered⟩ := hI _ rfl
    exact ⟨content, get_rename hfile hs', hoffered⟩

theorem Returns.collected (h : Returns cfg s p a s' result) (hI : Collects cfg s p) :
    Collects cfg s' { p with pc := .returned result } := by
  unfold Collects at hI ⊢
  cases h with
  | unaudited _ done hpc =>
    rcases hpc with hpc | hpc <;> rw [hpc] at hI <;> exact hI
  | audited nowMs done hpc =>
    rw [hpc] at hI
    exact hI
  | _ => exact nofun

theorem Moves.collects (h : Moves cfg x l x') (hI : Collects cfg x.1 x.2) :
    Collects cfg x'.1 x'.2 := by
  cases h with
  | call hstep =>
    cases step_cases hstep with
    | looks _ h => exact h.collected hI
    | writes _ _ h => exact h.collected hI
    | returns _ _ h => exact h.collected hI
  | other htemp hdest =>
    unfold Collects at hI ⊢
    rwa [htemp, hdest]

theorem Moves.offer_eq (h : Moves cfg x l x') : x'.2.offer = x.2.offer := by
  cases h <;> rfl

theorem collects_of_run (h : Run (Moves cfg) (s, ⟨o, .entering⟩) ls (s', p)) :
    p.offer = o ∧ Collects cfg s' p :=
  h.state_invariant (I := fun x => x.2.offer = o ∧ Collects cfg x.1 x.2)
    ⟨rfl, by rintro v ⟨⟩⟩
    fun _ _ _ hI hstep => ⟨hstep.offer_eq.trans hI.1, hstep.collects hI.2⟩

/-- **A successful receive is the offered file**, and the hash compared is that of the bytes on
disk. -/
theorem push_offer_ok (cfg : Config) (s₀ s : Store) (o : TransferOffer) (p : Push)
    (ls : List (Option PushAct)) (h : Run (Moves cfg) (s₀, ⟨o, .entering⟩) ls (s, p)) :
    (∀ written hashed, p.pc = .flushing written hashed →
      s.files.get (p.temp cfg) = some (.file hashed)) ∧
    ∀ done, p.pc = .returned (.ok done) →
      ∃ content, s.files.get (safeName o.name) = some (.file content) ∧
        content.length = o.size ∧ cfg.sha.hex content = o.sha256 ∧
        done.bytes = o.size ∧ done.sha256 = o.sha256 := by
  obtain ⟨rfl, hI⟩ := collects_of_run h
  unfold Collects at hI
  constructor
  · intro written hashed hpc
    rw [hpc] at hI
    exact hI.1
  · intro done hpc
    rw [hpc] at hI
    obtain ⟨content, hfile, hlength, hhex, hbytes, hsha⟩ := hI
    exact ⟨content, hfile, hlength, hhex, hbytes, hsha⟩

/-- A node without an audit log. -/
def plainConfig : Config := ⟨.sampled, 1024, "/inbox/peer", true, false⟩

def threeBytes (overwrite : Bool) : TransferOffer where
  transferId := [7]
  name := "a.txt".toList
  size := 3
  sha256 := Sha256.sampled.hex [1, 2, 3]
  overwrite := overwrite
  size_lt := by decide

def storeOf (files : Table (List Char) Entry) : Store := ⟨files, .empty, 0, [], []⟩

/-- Two of the bytes were received before. -/
def leftoverOfTwo : Store :=
  storeOf (.insert .empty (Push.temp plainConfig ⟨threeBytes false, .entering⟩) (.file [1, 2]))

/-- The transfer is resumed for the last byte. -/
def resumedActs : List PushAct :=
  [.ok, .ok, .fail "not found", .fail "not found", .ok, .ok,
    .pulled (.ok ⟨3, (threeBytes false).sha256⟩), .ok, .read 2, .read 0, .ok,
    .item (some (.ok [3])), .ok, .item none, .ok, .ok, .fail "not found", .ok, .ok]

theorem push_offer_ok_resumed : ∃ s p done,
    Run (Moves plainConfig) (leftoverOfTwo, ⟨threeBytes false, .entering⟩) (resumedActs.map some)
      (s, p) ∧ p.pc = .returned (.ok done) ∧
    ∃ content, s.files.get (safeName (threeBytes false).name) = some (.file content) ∧
      content.length = 3 ∧ plainConfig.sha.hex content = (threeBytes false).sha256 ∧
      done.bytes = 3 ∧ done.sha256 = (threeBytes false).sha256 := by
  have hrun := run_of_exec_move plainConfig (leftoverOfTwo, ⟨threeBytes false, .entering⟩) _
    resumedActs rfl
  exact ⟨_, _, _, hrun, rfl, (push_offer_ok _ _ _ _ _ _ hrun).2 _ rfl⟩

/-! ### The file that was there -/

theorem Writes.get_of_ne {name : List Char} (h : Writes cfg s p a s' pc)
    (htemp : name ≠ p.temp cfg) (hdest : name ≠ p.dest) :
    s'.files.get name = s.files.get name := by
  cases h with
  | claimed => rfl
  | opened _ _ _ _ hs' => exact get_openPart_of_ne htemp hs'
  | wrote _ _ _ _ _ hs' => exact get_append_of_ne htemp hs'
  | stored _ _ _ _ _ _ _ hfiles _ => rw [hfiles]
  | tookAway _ _ _ _ _ _ hfiles _ =>
    rw [hfiles]
    exact (Table.get_remove _ _ _).trans (if_neg hdest)
  | renamed _ _ _ _ _ _ hs' => exact get_rename_of_ne htemp hdest hs'

theorem Returns.get_of_ne {name : List Char} (h : Returns cfg s p a s' result)
    (htemp : name ≠ p.temp cfg) : s'.files.get name = s.files.get name := by
  cases h with
  | writeFailed _ _ _ _ _ s₁ _ hs₁ =>
    show s₁.files.get name = _
    exact get_append_of_ne htemp hs₁
  | discarded _ s₁ _ hs₁ =>
    show s₁.files.get name = _
    exact get_removeFile_of_ne htemp hs₁
  | _ => rfl

/-- **Frame**: a call touches only its `.part` and its destination. -/
theorem get_of_step {name : List Char} (h : p.step cfg s a = some (s', pc))
    (htemp : name ≠ p.temp cfg) (hdest : name ≠ p.dest) :
    s'.files.get name = s.files.get name := by
  cases step_cases h with
  | looks _ _ => rfl
  | writes _ _ hw => exact hw.get_of_ne htemp hdest
  | returns _ _ hr => exact hr.get_of_ne htemp

theorem returns_of_step (h : p.step cfg s a = some (s', .returned result)) :
    Returns cfg s p a s' result := by
  generalize hpc : PushPc.returned result = pc at h
  cases step_cases h with
  | looks _ hl =>
    cases hl with
    | prepared _ _ _ _ _ hv =>
      rw [← hpc] at hv
      cases hv
    | _ => cases hpc
  | writes _ _ hw =>
    cases hw with
    | stored _ _ _ _ _ _ hv =>
      rw [← hpc] at hv
      cases hv
    | _ => cases hpc
  | returns _ _ hr =>
    cases hpc
    exact hr

end Push

end Zyris.Transfer
