import Zyris.Transfer.Equiv.Receive
import Zyris.Transfer.Resume

/-!
# Retries converge to the source

The `.part` is always a piece of the source from its start (`Retries.Sound`): one call at a time is
past the claim, it hashes what is there, and `pull` goes on where that ends.  `OnCourse` says for
each place of that call what it has to do with the rest of its stream.
-/

namespace Zyris.Transfer

open Proto

/-- The sending side serves `source` under the offer. -/
structure Serves (cfg : Config) (o : TransferOffer) (pending : List ToSend)
    (source : List UInt8) : Prop where
  find : ∃ t, pending.find? (fun p => p.transferId = o.transferId) = some t ∧
    t.source.content = source
  size_eq : o.size = source.length
  sha256_eq : o.sha256 = cfg.sha.hex source

/-- Nothing is there, or a piece of the source from its start. -/
def IsPiece (source : List UInt8) (part : Option Entry) : Prop :=
  part = none ∨ ∃ content, part = some (.file content) ∧ content <+: source

/-- How the `.part` and the rest of the stream make up the source. -/
def OnCourse (cfg : Config) (o : TransferOffer) (source rest : List UInt8) (part : Option Entry) :
    PushPc → Prop
  | .pulling offset => ∀ content, part = some (.file content) → 0 < offset →
    content.length = offset
  | .openingLeftover offset => rest = source.drop offset ∧
    ∀ content, part = some (.file content) → content.length = offset
  | .hashing offset hashed => rest = source.drop offset ∧
    ∀ content, part = some (.file content) → content.length = offset ∧ hashed <+: content
  | .opening offset hashed => hashed ++ rest = source ∧ hashed.length = offset ∧
    (0 < offset → part = some (.file hashed))
  | .receiving written hashed =>
    part = some (.file hashed) ∧ hashed ++ rest = source ∧ written = hashed.length
  | .writing written hashed chunk => ∃ content, part = some (.file content) ∧
    content ++ chunk = hashed ∧ hashed ++ rest = source ∧ written = hashed.length
  | .flushing _ hashed => part = some (.file source) ∧ hashed = source
  | .measuring _ _ => part = some (.file source)
  | .discarding e => e = o.appeared cfg
  | pc => pc.verified.isSome = true → part = some (.file source)

/-- What a call is told, and the rest of its stream before and after. -/
inductive Answer (source rest : List UInt8) (pc : PushPc) : PushAct → List UInt8 → Prop
  | file (a : PushAct) : a.isFile = true → Answer source rest pc a rest
  | pulled (offset : Nat) (head : PullHead) : pc = .pulling offset →
    Answer source rest pc (.pulled (.ok head)) (source.drop offset)
  | chunk (bytes rest' : List UInt8) : rest = bytes ++ rest' →
    Answer source rest pc (.item (some (.ok bytes))) rest'
  | ended : rest = [] → Answer source rest pc (.item none) rest
  | notPulled (e : WireError) : Answer source rest pc (.pulled (.error e)) rest
  | cut (e : WireError) : Answer source rest pc (.item (some (.error e))) rest

/-- Everything a step of the system can do. -/
inductive Retries.Change (cfg : Config) (o : TransferOffer) (source : List UInt8) (r : Retries) :
    RetriesAct → Retries → Prop
  | offered : Change cfg o source r .offer
    { r with calls := r.calls.alloc ⟨.entering, ⟨false, []⟩⟩ }
  | acted (l : RetriesAct) (i : Nat) (c : ServedCall) (a : PushAct) (s : Store) (pc : PushPc)
    (stream : Chunks) : r.calls.get i = some c →
    Push.step cfg r.store ⟨o, c.pc⟩ a = some (s, pc) →
    Answer source c.stream.rest c.pc a stream.rest →
    (∀ e, a = .fail e → l = .file i a) →
    Change cfg o source r l ⟨s, r.calls.update i fun _ => ⟨pc, stream⟩⟩
  | dropped (i n : Nat) (c : ServedCall) (s : Store) : r.calls.get i = some c →
    r.store.dropped cfg ⟨o, c.pc⟩ n = some s →
    Change cfg o source r (.drop i n)
      ⟨s, r.calls.update i fun c => { c with pc := .dropped }⟩
  | other (s : Store) :
    s.files.get (Push.partOf cfg o) = r.store.files.get (Push.partOf cfg o) →
    (o.transferId ∈ s.inFlight ↔ o.transferId ∈ r.store.inFlight) →
    Change cfg o source r (.other s) { r with store := s }

section Step

variable {cfg : Config} {o : TransferOffer} {pending : List ToSend} {source : List UInt8}
  {r r' : Retries}

theorem Retries.change_of_act {l : RetriesAct} {i : Nat} {c : ServedCall} {a : PushAct}
    {stream : Chunks} (hc : r.calls.get i = some c) (h : r.act cfg o i c a stream = some r')
    (ha : Answer source c.stream.rest c.pc a stream.rest) (hl : ∀ e, a = .fail e → l = .file i a) :
    Retries.Change cfg o source r l r' := by
  obtain ⟨⟨s, pc⟩, hstep, h⟩ := Option.bind_eq_some_iff.mp h
  cases h
  exact .acted l i c a s pc stream hc hstep ha hl

theorem chunks_rest (source : Source) (offset : Nat) :
    (source.chunks offset).rest = source.content.drop offset := by
  cases source <;> rfl

theorem Chunks.next_cases {c c' : Chunks} {n : Nat} {item : Option (List UInt8)}
    (h : c.next n = some (item, c')) :
    (item = none ∧ c.rest = [] ∧ c' = c) ∨
      ∃ bytes, item = some bytes ∧ c.rest = bytes ++ c'.rest := by
  unfold Chunks.next at h
  split_ifs at h with hend hn <;> cases h
  · exact .inl ⟨rfl, hend, rfl⟩
  · exact .inr ⟨_, rfl, (List.take_append_drop n c.rest).symm⟩

theorem Retries.step_cases {l : RetriesAct} (hs : Serves cfg o pending source)
    (h : Retries.step cfg o pending r l = some r') : Retries.Change cfg o source r l r' := by
  cases l with
  | offer =>
    cases h
    exact .offered
  | file i a =>
    obtain ⟨c, hc, h⟩ := Option.bind_eq_some_iff.mp h
    split_ifs at h with ha
    exact change_of_act hc h (.file a ha) fun _ _ => rfl
  | pull i =>
    obtain ⟨c, hc, h⟩ := Option.bind_eq_some_iff.mp h
    obtain ⟨t, hfind, hcontent⟩ := hs.find
    simp only [Transfer.pull, hfind] at h
    split at h
    · next offset hpc =>
      refine change_of_act hc h ?_ nofun
      rw [chunks_rest, hcontent]
      exact .pulled offset _ hpc
    · cases h
  | next i n =>
    obtain ⟨c, hc, h⟩ := Option.bind_eq_some_iff.mp h
    obtain ⟨⟨item, stream⟩, hnext, h⟩ := Option.bind_eq_some_iff.mp h
    refine change_of_act hc h ?_ nofun
    rcases Chunks.next_cases hnext with ⟨rfl, hend, rfl⟩ | ⟨bytes, rfl, hrest⟩
    · exact .ended hend
    · exact .chunk bytes stream.rest hrest
  | lost i e =>
    obtain ⟨c, hc, h⟩ := Option.bind_eq_some_iff.mp h
    have hlost : lostAct e c.pc = .pulled (.error e) ∨
        lostAct e c.pc = .item (some (.error e)) := by
      cases c.pc <;> first | exact .inl rfl | exact .inr rfl
    rcases hlost with hlost | hlost <;> rw [hlost] at h
    · exact change_of_act hc h (.notPulled e) nofun
    · exact change_of_act hc h (.cut e) nofun
  | drop i n =>
    obtain ⟨c, hc, h⟩ := Option.bind_eq_some_iff.mp h
    obtain ⟨s, hs, h⟩ := Option.bind_eq_some_iff.mp h
    cases h
    exact .dropped i n c s hc hs
  | other s =>
    simp only [step] at h
    split_ifs at h with hsame
    cases h
    exact .other s hsame.1 hsame.2

end Step

/-! ### One call -/

section OneCall

variable {cfg : Config} {pending : List ToSend} {source rest rest' : List UInt8} {s s' : Store}
  {p : Push} {a : PushAct} {pc : PushPc}

theorem eq_take_of_isPiece {content : List UInt8} {part : Option Entry} (h : IsPiece source part)
    (hpart : part = some (.file content)) : content ++ source.drop content.length = source := by
  rcases h with h | ⟨content', h, hpiece⟩
  · cases hpart.symm.trans h
  · cases hpart.symm.trans h
    obtain ⟨tail, rfl⟩ := hpiece
    rw [List.drop_left]

theorem Answer.rest_eq (h : Answer source rest pc a rest') (ha : a.isFile = true) :
    rest' = rest := by
  cases h <;> first | rfl | cases ha

theorem onCourse_of_verified {o : TransferOffer} {part : Option Entry} {v : Nat × List Char}
    (hv : pc.verified = some v) :
    OnCourse cfg o source rest part pc ↔ part = some (.file source) := by
  cases pc <;> first | (cases hv; done) | simp [OnCourse, PushPc.verified]

section Course

variable (hI : OnCourse cfg p.offer source rest (s.files.get (p.temp cfg)) p.pc)

include hI

theorem isPiece_of_cut {n written : Nat} {hashed chunk : List UInt8}
    (hpc : p.pc = .writing written hashed chunk)
    (happend : s.append (p.temp cfg) (chunk.take n) = some s') :
    IsPiece source (s'.files.get (p.temp cfg)) := by
  rw [hpc] at hI
  obtain ⟨content, hfile, rfl, hsource, _⟩ := hI
  refine .inr ⟨content ++ chunk.take n, (Push.get_append hfile happend).1, ?_⟩
  have hcut : content ++ chunk.take n <+: content ++ chunk :=
    (List.prefix_append_right_inj content).mpr (List.take_prefix n chunk)
  exact hcut.trans ⟨rest, hsource⟩

variable (hp : IsPiece source (s.files.get (p.temp cfg)))

include hp

theorem onCourse_of_looks (hs : Serves cfg p.offer pending source)
    (hlook : Push.Looks cfg s p a pc) (ha : Answer source rest p.pc a rest')
    (hm : ∀ written actual e, p.pc = .measuring written actual → a ≠ .fail e) :
    OnCourse cfg p.offer source rest' (s.files.get (p.temp cfg)) pc := by
  cases hlook with
  | resolved _ | destResolved _ _ | destChecked _ _ | tempChecked _ _ | stripped _ done hpc =>
    exact nofun
  | measured _ n hpc hn =>
    intro content hfile hpos
    split_ifs at hpos ⊢ with hsize
    · omega
    · rcases Push.length_eq_of_fileLen hfile hn with rfl | ⟨rfl, _⟩
      · rfl
      · omega
  | pulledResume offset head hpc hoffset =>
    rw [hpc] at hI ha
    cases ha with
    | file _ hf => cases hf
    | pulled offset' _ hpc' =>
      cases hpc'
      exact ⟨rfl, fun content hfile => hI content hfile hoffset⟩
  | pulledFresh head hpc =>
    rw [hpc] at ha
    cases ha with
    | file _ hf => cases hf
    | pulled offset' _ hpc' =>
      cases hpc'
      exact ⟨rfl, rfl, fun h => absurd h (by decide)⟩
  | openedLeftover offset hpc =>
    rw [hpc] at hI
    rw [ha.rest_eq rfl]
    exact ⟨hI.1, fun content hfile => ⟨hI.2 content hfile, List.nil_prefix⟩⟩
  | readSome offset hashed content n hpc hfile hlength =>
    rw [hpc] at hI
    rw [ha.rest_eq rfl]
    refine ⟨hI.1, fun content' hfile' => ?_⟩
    obtain ⟨hlength', hpre⟩ := hI.2 content' hfile'
    refine ⟨hlength', ?_⟩
    cases hfile.symm.trans hfile'
    obtain ⟨tail, rfl⟩ := hpre
    rw [List.drop_left]
    exact (List.prefix_append_right_inj hashed).mpr (List.take_prefix n tail)
  | readAll offset hashed content hpc hfile hlength =>
    rw [hpc] at hI
    rw [ha.rest_eq rfl]
    obtain ⟨rfl, hall⟩ := hI
    obtain ⟨rfl, hpre⟩ := hall content hfile
    obtain rfl : hashed = content := hpre.eq_of_length_le hlength
    exact ⟨eq_take_of_isPiece hp hfile, rfl, fun _ => hfile⟩
  | ended written hashed hpc =>
    rw [hpc] at hI
    obtain ⟨hfile, hsource, _⟩ := hI
    cases ha with
    | file _ hf => cases hf
    | ended hrest =>
      rw [hrest, List.append_nil] at hsource
      subst hsource
      exact ⟨hfile, rfl⟩
  | overran written hashed bytes hpc hsize =>
    rw [hpc] at hI
    obtain ⟨_, hsource, rfl⟩ := hI
    cases ha with
    | file _ hf => cases hf
    | chunk _ _ hrest =>
      -- what was counted is part of the source
      have hlength := congrArg List.length hsource
      rw [hrest] at hlength
      simp only [List.length_append] at hlength
      have := hs.size_eq
      have := p.offer.size_lt
      omega
  | got written hashed bytes hpc hsize =>
    rw [hpc] at hI
    obtain ⟨hfile, hsource, rfl⟩ := hI
    cases ha with
    | file _ hf => cases hf
    | chunk _ _ hrest =>
      have hlength := congrArg List.length hsource
      rw [hrest] at hsource hlength
      simp only [List.length_append] at hlength
      have := hs.size_eq
      have := p.offer.size_lt
      refine ⟨hashed, hfile, rfl, by rw [List.append_assoc, hsource], ?_⟩
      rw [Nat.mod_eq_of_lt (by omega), List.length_append]
  | mismatched written hashed hpc hsha =>
    rw [hpc] at hI
    obtain ⟨_, rfl⟩ := hI
    exact absurd hs.sha256_eq.symm hsha
  | matched written hashed hpc _ =>
    rw [hpc] at hI
    exact hI.1
  | wrongLength _ written n actual hpc hn hsize =>
    rw [hpc] at hI
    rcases Push.length_eq_of_fileLen hI hn with rfl | ⟨_, e, he⟩
    · exact absurd hs.size_eq.symm hsize
    · exact absurd he (hm written actual e hpc)
  | rightLength _ written actual hpc _ =>
    rw [hpc] at hI
    exact fun _ => hI
  | appeared _ written actual e hpc _ _ => exact rfl
  | prepared _ _ v hv _ hv' =>
    exact (onCourse_of_verified hv').mpr ((onCourse_of_verified hv).mp hI)

theorem onCourse_of_writes (hw : Push.Writes cfg s p a s' pc)
    (ha : Answer source rest p.pc a rest') :
    IsPiece source (s'.files.get (p.temp cfg)) ∧
      OnCourse cfg p.offer source rest' (s'.files.get (p.temp cfg)) pc := by
  cases hw with
  | claimed => exact ⟨hp, nofun⟩
  | opened offset hashed s' hpc hs' =>
    rw [hpc] at hI
    obtain ⟨hsource, hlength, hresume⟩ := hI
    rw [ha.rest_eq rfl]
    have hfile : s'.files.get (p.temp cfg) = some (.file hashed) :=
      Push.get_opened hs' hlength hresume
    refine ⟨.inr ⟨hashed, hfile, ?_⟩, hfile, hsource, hlength.symm⟩
    exact ⟨rest, hsource⟩
  | wrote written hashed chunk s' hpc hs' =>
    rw [hpc] at hI
    obtain ⟨content, hfile, rfl, hsource, hwritten⟩ := hI
    rw [ha.rest_eq rfl]
    have hfile' := (Push.get_append hfile hs').1
    exact ⟨.inr ⟨content ++ chunk, hfile', rest, hsource⟩, hfile', hsource, hwritten⟩
  | stored _ s' _ v hv _ hv' hfiles _ =>
    rw [hfiles]
    exact ⟨hp, (onCourse_of_verified hv').mpr ((onCourse_of_verified hv).mp hI)⟩
  | tookAway s' written actual slot hv _ hfiles _ =>
    have hsame : s'.files.get (p.temp cfg) = s.files.get (p.temp cfg) := by
      rw [hfiles]
      exact (Table.get_remove _ _ _).trans (if_neg (Push.temp_ne_dest cfg p))
    rw [hsame]
    exact ⟨hp, (onCourse_of_verified rfl).mpr ((onCourse_of_verified hv).mp hI)⟩
  | renamed written actual existed undo s' hpc hs' =>
    refine ⟨.inl ?_, nofun⟩
    exact Push.get_renamed (Push.temp_ne_dest cfg p) hs'

theorem isPiece_of_returns {result : Except WireError TransferDone}
    (hr : Push.Returns cfg s p a s' result) :
    IsPiece source (s'.files.get (p.temp cfg)) := by
  cases hr with
  | writeFailed n e written hashed chunk s₁ hpc hs₁ =>
    have hpiece : IsPiece source (s₁.files.get (p.temp cfg)) := isPiece_of_cut hI hpc hs₁
    exact hpiece
  | discarded e s₁ _ hs₁ =>
    have hgone : s₁.files.get (p.temp cfg) = none := Push.get_removeFile hs₁
    exact .inl hgone
  | _ => exact hp

theorem onCourse_of_step (hs : Serves cfg p.offer pending source)
    (h : p.step cfg s a = some (s', pc)) (ha : Answer source rest p.pc a rest')
    (hm : ∀ written actual e, p.pc = .measuring written actual → a ≠ .fail e) :
    IsPiece source (s'.files.get (p.temp cfg)) ∧
      OnCourse cfg p.offer source rest' (s'.files.get (p.temp cfg)) pc := by
  cases Push.step_cases h with
  | looks _ hl => exact ⟨hp, onCourse_of_looks hI hp hs hl ha hm⟩
  | writes _ _ hw => exact onCourse_of_writes hI hp hw ha
  | returns _ _ hr => exact ⟨isPiece_of_returns hI hp hr, nofun⟩

/-- Dropping a call leaves a piece of the source. -/
theorem isPiece_of_dropped {n : Nat} (h : s.dropped cfg p n = some s') :
    IsPiece source (s'.files.get (p.temp cfg)) := by
  unfold Store.dropped at h
  split at h
  · cases h
    exact hp
  · cases h
  · cases h
  · next written hashed chunk hpc =>
    obtain ⟨s₁, hs₁, rfl⟩ := Option.map_eq_some_iff.mp h
    have hpiece : IsPiece source (s₁.files.get (p.temp cfg)) := isPiece_of_cut hI hpc hs₁
    exact hpiece
  · cases h
    exact hp

end Course

/-! ### The claim -/

theorem inFlight_openPart {name : List Char} {resume : Bool}
    (h : s.openPart name resume = some s') : s'.inFlight = s.inFlight := by
  unfold Store.openPart at h
  split at h <;> cases h <;> rfl

theorem inFlight_append {name : List Char} {bytes : List UInt8}
    (h : s.append name bytes = some s') : s'.inFlight = s.inFlight := by
  unfold Store.append at h
  split at h
  · split_ifs at h
    cases h
    rfl
  · cases h
    rfl

theorem inFlight_rename {name name' : List Char} (h : s.rename name name' = some s') :
    s'.inFlight = s.inFlight := by
  unfold Store.rename at h
  split at h <;> cases h
  rfl

theorem enter_of_step (h : p.step cfg s a = some (s', pc)) (hpc : p.pc.isClaimed = false) :
    (s' = s ∧ pc.isClaimed = false) ∨
      (p.offer.transferId ∉ s.inFlight ∧ s'.files = s.files ∧
        s'.inFlight = p.offer.transferId :: s.inFlight) := by
  obtain ⟨o, pc₀⟩ := p
  cases pc₀ with
  | entering =>
    cases a with
    | ok =>
      have henter : o.enter cfg s = (s', pc) := Option.some.inj h
      unfold TransferOffer.enter at henter
      split_ifs at henter with hsize hmem hpeer <;> cases henter
      · exact .inl ⟨rfl, rfl⟩
      · exact .inl ⟨rfl, rfl⟩
      · exact .inr ⟨hmem, rfl, rfl⟩
      · exact .inl ⟨rfl, rfl⟩
    | _ => cases h
  | returned _ => cases h
  | dropped => cases h
  | _ => cases hpc

theorem inFlight_of_step (h : p.step cfg s a = some (s', pc)) (hpc : pc.isClaimed = true)
    (hclaim : p.pc.isClaimed = true → p.offer.transferId ∈ s.inFlight) :
    p.offer.transferId ∈ s'.inFlight := by
  rcases hbefore : p.pc.isClaimed with _ | _
  · rcases enter_of_step h hbefore with ⟨_, hpc'⟩ | ⟨_, _, hin⟩
    · cases hpc'.symm.trans hpc
    · rw [hin]
      exact List.mem_cons_self
  have hmem := hclaim hbefore
  cases Push.step_cases h with
  | looks _ _ => exact hmem
  | writes _ _ hw =>
    cases hw with
    | claimed => exact List.mem_cons_self
    | opened _ _ _ _ hs' => rwa [inFlight_openPart hs']
    | wrote _ _ _ _ _ hs' => rwa [inFlight_append hs']
    | stored _ _ _ _ _ _ _ _ hin => rwa [hin]
    | tookAway _ _ _ _ _ _ _ hin => rwa [hin]
    | renamed _ _ _ _ _ _ hs' => rwa [inFlight_rename hs']
  | returns _ _ _ => cases hpc

theorem eq_of_dropped {n : Nat} (h : s.dropped cfg p n = some s')
    (hpc : p.pc.isClaimed = false) : s' = s := by
  unfold Store.dropped at h
  split at h
  · exact (Option.some.inj h).symm
  · cases h
  · cases h
  · next hwriting =>
    rw [hwriting] at hpc
    cases hpc
  · next h₁ h₂ h₃ _ =>
    exfalso
    obtain ⟨o, pc₀⟩ := p
    cases pc₀ <;> simp_all [PushPc.isClaimed]

end OneCall

/-! ### The calls together -/

section Together

variable {cfg : Config} {o : TransferOffer} {pending : List ToSend} {source : List UInt8}
  {r r' : Retries}

/-- The `.part` is a piece of the source; one call at a time is past the claim, and on course. -/
structure Retries.Sound (cfg : Config) (o : TransferOffer) (source : List UInt8)
    (r : Retries) : Prop where
  piece : IsPiece source (r.store.files.get (Push.partOf cfg o))
  claimed : ∀ i c, r.calls.get i = some c → c.pc.isClaimed = true →
    o.transferId ∈ r.store.inFlight
  unique : ∀ i j c d, r.calls.get i = some c → r.calls.get j = some d →
    c.pc.isClaimed = true → d.pc.isClaimed = true → i = j
  course : ∀ i c, r.calls.get i = some c →
    OnCourse cfg o source c.stream.rest (r.store.files.get (Push.partOf cfg o)) c.pc

theorem onCourse_of_not_claimed {rest : List UInt8} {part : Option Entry} {pc : PushPc}
    (h : pc.isClaimed = false) : OnCourse cfg o source rest part pc := by
  cases pc <;> first | cases h; done | exact nofun

/-- `metadata` of the complete `.part` does not fail. -/
def Retries.MetadataAnswers (r : Retries) (l : RetriesAct) : Prop :=
  ∀ i e c written actual, l = .file i (.fail e) → r.calls.get i = some c →
    c.pc ≠ .measuring written actual

theorem Retries.Sound.update {i : Nat} {c : ServedCall} {s : Store} {f : ServedCall → ServedCall}
    (hI : Retries.Sound cfg o source r) (hc : r.calls.get i = some c)
    (hpiece : IsPiece source (s.files.get (Push.partOf cfg o)))
    (hclaimed : (f c).pc.isClaimed = true → o.transferId ∈ s.inFlight)
    (hcourse : OnCourse cfg o source (f c).stream.rest (s.files.get (Push.partOf cfg o)) (f c).pc)
    (hother : ∀ j d, j ≠ i → r.calls.get j = some d → d.pc.isClaimed = true →
      s = r.store ∧ (f c).pc.isClaimed = false) :
    Retries.Sound cfg o source ⟨s, r.calls.update i f⟩ := by
  refine ⟨hpiece, ?_, ?_, ?_⟩
  · intro j d hd hdc
    rcases Arena.get_update_known hc hd with ⟨rfl, rfl⟩ | ⟨hne, hd⟩
    · exact hclaimed hdc
    · show o.transferId ∈ s.inFlight
      rw [(hother j d hne hd hdc).1]
      exact hI.claimed j d hd hdc
  · intro j k d e hd he hdc hec
    rcases Arena.get_update_known hc hd with ⟨rfl, rfl⟩ | ⟨hne, hd'⟩ <;>
      rcases Arena.get_update_known hc he with ⟨rfl, rfl⟩ | ⟨hne', he'⟩
    · rfl
    · cases (hother k e hne' he' hec).2.symm.trans hdc
    · cases (hother j d hne hd' hdc).2.symm.trans hec
    · exact hI.unique j k d e hd' he' hdc hec
  · intro j d hd
    rcases Arena.get_update_known hc hd with ⟨rfl, rfl⟩ | ⟨hne, hd⟩
    · exact hcourse
    cases hdc : d.pc.isClaimed with
    | false => exact onCourse_of_not_claimed hdc
    | true =>
      show OnCourse cfg o source _ (s.files.get _) _
      rw [(hother j d hne hd hdc).1]
      exact hI.course j d hd

theorem Retries.Sound.step {l : RetriesAct} (hs : Serves cfg o pending source)
    (hI : Retries.Sound cfg o source r) (h : Retries.step cfg o pending r l = some r')
    (hm : r.MetadataAnswers l) : Retries.Sound cfg o source r' := by
  cases Retries.step_cases hs h with
  | offered =>
    refine ⟨hI.piece, Arena.forall_alloc hI.claimed nofun, fun i j c d hc hd hcc hdc => ?_,
      Arena.forall_alloc hI.course (onCourse_of_not_claimed rfl)⟩
    rcases Arena.get_alloc_cases hc with ⟨_, rfl⟩ | hc
    · cases hcc
    rcases Arena.get_alloc_cases hd with ⟨_, rfl⟩ | hd
    · cases hdc
    exact hI.unique i j c d hc hd hcc hdc
  | acted _ i c a s pc stream hc hstep ha hl =>
    obtain ⟨hpiece, hcourse⟩ := onCourse_of_step (p := ⟨o, c.pc⟩) (hI.course i c hc) hI.piece hs
      hstep ha fun written actual e hpc he => hm i e c written actual (he ▸ hl e he) hc hpc
    refine hI.update hc hpiece (fun hcc => ?_) hcourse fun j d hne hd hdc => ?_
    · exact inFlight_of_step (p := ⟨o, c.pc⟩) hstep hcc (hI.claimed i c hc)
    -- another call holds the claim, so this one is turned away
    have hcc : c.pc.isClaimed = false := by
      by_contra hcc
      exact hne (hI.unique j i d c hd hc hdc (by simpa using hcc))
    rcases enter_of_step (p := ⟨o, c.pc⟩) hstep hcc with ⟨rfl, hpc⟩ | ⟨hnot, _⟩
    · exact ⟨rfl, hpc⟩
    · exact absurd (hI.claimed j d hd hdc) hnot
  | dropped i n c s hc hdrop =>
    have hpiece : IsPiece source (s.files.get (Push.partOf cfg o)) :=
      isPiece_of_dropped (p := ⟨o, c.pc⟩) (hI.course i c hc) hI.piece hdrop
    refine hI.update hc hpiece nofun (onCourse_of_not_claimed rfl)
      fun j d hne hd hdc => ⟨?_, rfl⟩
    refine eq_of_dropped (p := ⟨o, c.pc⟩) hdrop ?_
    by_contra hcc
    exact hne (hI.unique j i d c hd hc hdc (by simpa using hcc))
  | other s hsame hclaim =>
    refine ⟨hsame ▸ hI.piece, fun i c hc hcc => hclaim.mpr (hI.claimed i c hc hcc), hI.unique, ?_⟩
    intro i c hc
    show OnCourse cfg o source _ (s.files.get _) _
    rw [hsame]
    exact hI.course i c hc

end Together

/-! ### A call whose stream was delivered -/

section Delivered

variable {cfg : Config} {o : TransferOffer} {pending : List ToSend} {source : List UInt8}

/-- The stream was delivered in full and the destination was free: what is left to do. -/
def Completing (source : List UInt8) (part target : Option Entry) : PushPc → Prop
  | .receiving _ hashed => hashed = source ∧ part = some (.file source) ∧ target = none
  | .flushing _ hashed => hashed = source ∧ part = some (.file source) ∧ target = none
  | .measuring _ _ => part = some (.file source) ∧ target = none
  | .rechecking _ _ => part = some (.file source) ∧ target = none
  | .placing _ _ _ _ => part = some (.file source) ∧ target = none
  | .stripping _ => target = some (.file source)
  | .auditing _ => target = some (.file source)
  | .returned (.ok _) => target = some (.file source)
  | _ => False

/-- `Completing` for the call in the store. -/
def Completes (cfg : Config) (source : List UInt8) (x : Store × Push) : Prop :=
  Completing source (x.1.files.get (x.2.temp cfg)) (x.1.files.get x.2.dest) x.2.pc

end Delivered

end Zyris.Transfer
