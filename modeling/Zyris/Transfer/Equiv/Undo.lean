import Zyris.Transfer.Undo

/-!
# Backups are never overwritten

A slot that exists is never obtained again, since `mkdir` needs a free place, and a call changes
nothing inside the root but in its slot (`Stash.Step.keeps`).  Outside the root things only vanish
(`Stash.Step.outside`).
-/

namespace Zyris.Transfer.Undo

open Caps

variable {root q : Place} {c : Stash} {fs fs' f₀ : Files} {seq seq' : Nat} {pc : StashPc}
  {n slot : OsStr} {r : Place}

/-- What may have become of a place outside the root. -/
def Vanishing (root : Place) (fs fs' : Files) (q : Place) : Prop :=
  fs' q = none ∨ fs' q = fs q ∨ fs' q = some .dir ∧ q <+: root

/-- What is still there was there before. -/
theorem Vanishing.eq {node : Node} (h : Vanishing root f₀ fs q) (hq : fs q = some node)
    (hnode : node = .dir → ¬ q <+: root) : f₀ q = some node := by
  rcases h with h | h | ⟨h, hpre⟩
  · rw [hq] at h
    cases h
  · rw [← h, hq]
  · rw [hq] at h
    cases h
    exact absurd hpre (hnode rfl)

/-- Vanishing goes on over any number of steps. -/
theorem Vanishing.trans {fs'' : Files} (h : Vanishing root fs fs' q)
    (h' : Vanishing root fs' fs'' q) : Vanishing root fs fs'' q := by
  rcases h' with h' | h' | h'
  · exact .inl h'
  · unfold Vanishing
    rw [h']
    exact h
  · exact .inr (.inr h')

/-! ### What a step does to the files -/

/-- A place outside the root and not above `root ++ x` is above none inside. -/
theorem not_prefix_inside {v x : Place} (hv : ¬ root <+: v) (hx : ¬ v <+: root ++ x) (y : Place) :
    ¬ v <+: root ++ y := by
  intro h
  rcases List.prefix_or_prefix_of_prefix h (List.prefix_append root y) with h' | h'
  · exact hx (h'.trans (List.prefix_append root x))
  · exact hv h'

/-- A destination is inside the root. -/
theorem root_prefix_dest : root <+: c.dest root slot := List.prefix_append _ _

/-- Below a destination is only what is in its slot. -/
theorem of_prefixed_dest (h : c.dest root slot <+: root ++ n :: r) : slot = n ∧ r ≠ [] := by
  obtain ⟨hslot, hname⟩ := List.cons_prefix_cons.mp ((List.prefix_append_right_inj root).mp h)
  refine ⟨hslot, ?_⟩
  rintro rfl
  cases List.prefix_nil.mp hname

/-- A slot that exists is kept, but for what its own call does in it. -/
theorem Stash.Step.keeps (h : c.Step root fs seq pc fs' seq') (hout : ¬ root <+: c.victim)
    (hn : fs (root ++ [n]) ≠ none) (hown : c.pc.slot = some n → r = []) :
    fs' (root ++ n :: r) = fs (root ++ n :: r) := by
  have hdest {slot : OsStr} (hpc : c.pc.slot = some slot) :
      ¬ c.dest root slot <+: root ++ n :: r := by
    intro h
    obtain ⟨rfl, hr⟩ := of_prefixed_dest h
    exact hr (hown hpc)
  have update {slot : OsStr} {x : Option Node} (hpc : c.pc.slot = some slot) :
      Function.update fs (c.dest root slot) x (root ++ n :: r) = fs (root ++ n :: r) :=
    Function.update_of_ne (fun heq => hdest hpc ⟨[], by rw [List.append_nil, heq]⟩) _ _
  cases h with
  | looked | nothing | drew | gaveUp | taken | unmade | unmoved | opened | followed | copied
  | uncopied | notUnlinked => rfl
  | prepared k =>
    refine if_neg fun h => ?_
    have hlen := h.1.length_le
    rw [List.length_append, List.length_cons, List.length_take] at hlen
    omega
  | made hpc hroot hfree =>
    refine Function.update_of_ne (fun heq => hn ?_) _ _
    have hname := (List.cons.inj (List.append_cancel_left heq)).1
    rw [hname, hfree]
  | renamed hpc hsome hself =>
    have hslot : c.pc.slot = some _ := congrArg StashPc.slot hpc
    rw [Files.rename, if_neg (not_prefix_inside hout hself (n :: r)), if_neg (hdest hslot)]
  | created hpc | wrote k hpc => exact update (congrArg StashPc.slot hpc)
  | unlinked hpc =>
    refine Function.update_of_ne (fun heq => hout ?_) _ _
    exact heq ▸ List.prefix_append _ _

/-- Outside the root things only vanish. -/
theorem Stash.Step.outside (h : c.Step root fs seq pc fs' seq') (hq : ¬ root <+: q) :
    Vanishing root fs fs' q := by
  have update {p : Place} {x : Option Node} (hp : root <+: p) : Function.update fs p x q = fs q :=
    Function.update_of_ne (fun heq : q = p => hq (heq.symm ▸ hp)) _ _
  cases h with
  | looked | nothing | drew | gaveUp | taken | unmade | unmoved | opened | followed | copied
  | uncopied | notUnlinked => exact .inr (.inl rfl)
  | prepared k =>
    unfold Vanishing Files.makeDirs
    split_ifs with h
    · exact .inr (.inr ⟨rfl, h.1.trans (List.take_prefix k root)⟩)
    · exact .inr (.inl rfl)
  | made => exact .inr (.inl (update (List.prefix_append _ _)))
  | created | wrote => exact .inr (.inl (update root_prefix_dest))
  | @renamed _ slot =>
    have hdest : ¬ c.dest root slot <+: q := fun h => hq (root_prefix_dest.trans h)
    unfold Vanishing Files.rename
    split_ifs
    · exact .inl rfl
    · exact .inr (.inl rfl)
  | unlinked =>
    by_cases hv : q = c.victim
    · exact .inl (by rw [hv, Function.update_self])
    · exact .inr (.inl (Function.update_of_ne hv _ _))

/-- A slot is obtained only where nothing was. -/
theorem Stash.Step.obtains (h : c.Step root fs seq pc fs' seq') (hn : pc.slot = some n) :
    c.pc.slot = some n ∨ fs (root ++ [n]) = none ∧ fs' (root ++ [n]) ≠ none := by
  cases h with
  | looked | nothing | drew | gaveUp | taken | unmade => cases hn
  | prepared k => split_ifs at hn <;> cases hn
  | made hpc hroot hfree =>
    cases hn
    exact .inr ⟨hfree, by rw [Function.update_self]; exact Option.some_ne_none _⟩
  | renamed hpc | opened hpc | followed _ hpc | created hpc | wrote _ hpc | copied hpc
  | unlinked hpc | notUnlinked hpc => exact .inl (by rw [hpc]; exact hn)
  | unmoved hpc =>
    left
    rw [hpc]
    split_ifs at hn <;> exact hn
  | uncopied hpc =>
    left
    rcases hpc with hpc | ⟨_, hpc⟩ | ⟨_, _, hpc⟩ <;> rw [hpc] <;> exact hn

/-- A call that returned takes no step. -/
theorem Stash.Step.not_returned (h : c.Step root fs seq pc fs' seq') :
    c.pc.isReturned = false := by
  cases h with
  | looked hpc | nothing hpc | prepared _ hpc | drew hpc | gaveUp hpc | made hpc | taken hpc
  | unmade hpc | renamed hpc | unmoved hpc | opened hpc | followed _ hpc | created hpc
  | wrote _ hpc | copied hpc | unlinked hpc | notUnlinked hpc => rw [hpc]; rfl
  | uncopied hpc => rcases hpc with hpc | ⟨_, hpc⟩ | ⟨_, _, hpc⟩ <;> rw [hpc] <;> rfl

/-- A path is returned when the victim has just been moved there, or when the copy is complete. -/
theorem Stash.Step.returns {dest : Place} {n : Option OsStr} (h : c.Step root fs seq pc fs' seq')
    (hout : ¬ root <+: c.victim) (hret : pc = .returned n (some dest)) :
    (∀ r, fs' (dest ++ r) = fs (c.victim ++ r)) ∨ ∃ slot, c.pc = .unlinking slot := by
  cases h with
  | renamed hpc hsome hself =>
    cases hret
    left
    intro r
    have hinside := not_prefix_inside hout hself
    rw [Files.rename, if_neg (List.append_assoc root _ r ▸ hinside _),
      if_pos (List.prefix_append _ r), List.drop_left]
  | unlinked hpc | notUnlinked hpc => exact .inr ⟨_, hpc⟩
  | looked | nothing | drew | gaveUp | made | taken | unmade | opened | followed | created | wrote
  | copied | uncopied => cases hret
  | prepared | unmoved => split_ifs at hret; cases hret

/-! ### What is in a slot -/

/-- If it is no link, then nothing at the victim's place is. -/
def Stash.NoLink (fs : Files) (c : Stash) (symlink : Bool) : Prop :=
  symlink = false → ∀ target, fs c.victim ≠ some (.symlink target)

/-- What is about to be copied is no link, and what is in the slot was at the victim's place. -/
def Stash.Filled (root : Place) (f₀ fs : Files) (c : Stash) : Prop :=
  match c.pc with
  | .preparing symlink => c.NoLink fs symlink
  | .drawing symlink _ => c.NoLink fs symlink
  | .making symlink _ _ => c.NoLink fs symlink
  | .moving symlink _ => c.NoLink fs symlink
  | .opening _ => c.NoLink fs false
  | .creating _ content => f₀ c.victim = some (.file content)
  | .writing slot content n => f₀ c.victim = some (.file content) ∧
    fs (c.dest root slot) = some (.file (content.take n))
  | .unlinking slot => ∃ content, f₀ c.victim = some (.file content) ∧
    fs (c.dest root slot) = some (.file content)
  | .returned slot (some dest) => slot.map (c.dest root) = some dest ∧
    fs dest = f₀ c.victim ∧ f₀ c.victim ≠ none
  | _ => True

/-- A victim that is no link does not become one. -/
theorem Stash.NoLink.mono {symlink : Bool} (h : c.NoLink fs symlink)
    (hv : Vanishing root fs fs' c.victim) : c.NoLink fs' symlink := by
  intro hno target ht
  exact h hno target (hv.eq ht nofun)

/-- What the other calls do leaves a call's progress. -/
theorem Stash.Filled.mono (h : c.Filled root f₀ fs) (hv : Vanishing root fs fs' c.victim)
    (hd : ∀ n, c.pc.slot = some n → fs' (c.dest root n) = fs (c.dest root n)) :
    c.Filled root f₀ fs' := by
  unfold Stash.Filled at h ⊢
  cases hpc : c.pc with
  | looking => trivial
  | preparing | drawing | making | moving | opening =>
    rw [hpc] at h
    exact NoLink.mono h hv
  | creating => rwa [hpc] at h
  | writing slot | unlinking slot =>
    rw [hpc] at h
    dsimp only at h ⊢
    rwa [hd slot (by rw [hpc]; rfl)]
  | returned slot dest =>
    rw [hpc] at h
    cases dest with
    | none => trivial
    | some dest =>
      obtain ⟨n, hn, rfl⟩ := Option.map_eq_some_iff.mp h.1
      exact ⟨h.1, (hd n (by rw [hpc]; exact hn)).trans h.2.1, h.2.2⟩

/-- **One step** of a call keeps its own progress. -/
theorem Stash.Step.filled (h : c.Step root fs seq pc fs' seq') (hout : ¬ root <+: c.victim)
    (hv : Vanishing root f₀ fs c.victim) (hf : c.Filled root f₀ fs) :
    Stash.Filled root f₀ fs' { c with pc := pc } := by
  have hv' : Vanishing root fs fs' c.victim := h.outside hout
  have returned {fs' : Files} {slot : OsStr} {node : Node}
      (hdest : fs' (c.dest root slot) = some node) (hold : f₀ c.victim = some node) :
      Stash.Filled root f₀ fs' { c with pc := .returned (some slot) (some (c.dest root slot)) } :=
    ⟨rfl, hdest.trans hold.symm, fun hnone => Option.some_ne_none _ (hold.symm.trans hnone)⟩
  unfold Stash.Filled at hf
  cases h with
  | @looked node hpc hnode =>
    intro hno target ht
    obtain rfl := Option.some.inj (hnode.symm.trans ht)
    cases hno
  | nothing | gaveUp | unmade | uncopied => trivial
  | prepared k hpc =>
    rw [hpc] at hf
    split_ifs
    · exact NoLink.mono hf hv'
    · trivial
  | drew hpc | taken hpc =>
    rw [hpc] at hf
    exact hf
  | made hpc =>
    rw [hpc] at hf
    exact NoLink.mono hf hv'
  | @renamed _ slot hpc hsome hself =>
    obtain ⟨node, hnode⟩ := Option.ne_none_iff_exists'.mp hsome
    have hold := hv.eq hnode fun _ hpre => hself (hpre.trans root_prefix_dest)
    refine returned ?_ hold
    rw [Files.rename, if_neg hself, if_pos List.prefix_rfl, List.drop_length, List.append_nil,
      hnode]
  | @unmoved symlink slot hpc =>
    rw [hpc] at hf
    cases symlink with
    | true => trivial
    | false => exact hf
  | opened hpc hfile => exact hv.eq hfile nofun
  | followed content hpc hlink =>
    rw [hpc] at hf
    exact absurd hlink (hf rfl _)
  | created hpc =>
    rw [hpc] at hf
    exact ⟨hf, Function.update_self ..⟩
  | wrote k hpc =>
    rw [hpc] at hf
    exact ⟨hf.1, Function.update_self ..⟩
  | copied hpc hlen =>
    rw [hpc] at hf
    obtain ⟨hfile, hdest⟩ := hf
    rw [List.take_of_length_le hlen] at hdest
    exact ⟨_, hfile, hdest⟩
  | unlinked hpc =>
    rw [hpc] at hf
    obtain ⟨content, hfile, hdest⟩ := hf
    refine returned ((Function.update_of_ne (fun heq => hout ?_) _ _).trans hdest) hfile
    rw [← heq]
    exact root_prefix_dest
  | notUnlinked hpc =>
    rw [hpc] at hf
    obtain ⟨content, hfile, hdest⟩ := hf
    exact returned hdest hfile

/-! ### Along a run -/

/-- The victims lie outside the root. -/
def Act.Outside (root : Place) : Act → Prop
  | .stash _ victim _ => ¬ root <+: victim
  | .run _ => True

/-- The steps of a world whose calls have their victims outside the root. -/
abbrev World.Next (root : Place) : World → Act → World → Prop :=
  Guarded (World.Step root) fun _ a => a.Outside root

/-- What every interleaving keeps. -/
structure World.Kept (root : Place) (f₀ : Files) (w : World) : Prop where
  outside : ∀ i c, w.calls.get i = some c → ¬ root <+: c.victim
  vanishing : ∀ q, ¬ root <+: q → Vanishing root f₀ w.files q
  there : ∀ i c n, w.calls.get i = some c → c.pc.slot = some n → w.files (root ++ [n]) ≠ none
  distinct : ∀ i j c d n, w.calls.get i = some c → w.calls.get j = some d →
    c.pc.slot = some n → d.pc.slot = some n → i = j
  filled : ∀ i c, w.calls.get i = some c → c.Filled root f₀ w.files

variable {w w' : World} {a : Act}

/-- **One step** of any call keeps the invariant. -/
theorem World.Kept.step (h : w.Kept root f₀) (hnext : w.Next root a w') : w'.Kept root f₀ := by
  obtain ⟨hstep, hout⟩ := hnext
  cases hstep with
  | stash p v nowMs =>
    refine ⟨Arena.forall_alloc h.outside hout, h.vanishing, fun i c n hc hn => ?_,
      fun i j c d n hc hd hn hn' => ?_, Arena.forall_alloc h.filled trivial⟩
    · rcases Arena.get_alloc_cases hc with ⟨-, rfl⟩ | hc
      · cases hn
      · exact h.there i c n hc hn
    · rcases Arena.get_alloc_cases hc with ⟨-, rfl⟩ | hc
      · cases hn
      · rcases Arena.get_alloc_cases hd with ⟨-, rfl⟩ | hd
        · cases hn'
        · exact h.distinct i j c d n hc hd hn hn'
  | @run k seq x pc fs hx hs =>
    have hxout := h.outside k x hx
    -- a slot that is there stays, and it is not the one obtained now
    have hstay {n : OsStr} (hn : w.files (root ++ [n]) ≠ none) : fs (root ++ [n]) ≠ none := by
      rw [hs.keeps hxout hn fun _ => rfl]
      exact hn
    have hnew {n : OsStr} (hn : pc.slot = some n) (hthere : w.files (root ++ [n]) ≠ none) :
        x.pc.slot = some n := (hs.obtains hn).resolve_right fun hfree => hthere hfree.1
    refine ⟨Arena.forall_update_known h.outside hx hxout,
      fun q hq => (h.vanishing q hq).trans (hs.outside hq), fun i c n hc hn => ?_,
      fun i j c d n hc hd hn hn' => ?_, fun i c hc => ?_⟩
    · rcases Arena.get_update_known hx hc with ⟨rfl, rfl⟩ | ⟨-, hc⟩
      · rcases hs.obtains hn with hold | ⟨-, hmade⟩
        · exact hstay (h.there i x n hx hold)
        · exact hmade
      · exact hstay (h.there i c n hc hn)
    · rcases Arena.get_update_known hx hc with ⟨rfl, rfl⟩ | ⟨-, hi⟩ <;>
        rcases Arena.get_update_known hx hd with ⟨rfl, rfl⟩ | ⟨-, hj⟩
      · rfl
      · exact h.distinct _ _ x d n hx hj (hnew hn (h.there _ d n hj hn')) hn'
      · exact h.distinct _ _ c x n hi hx hn (hnew hn' (h.there _ c n hi hn))
      · exact h.distinct i j c d n hi hj hn hn'
    · rcases Arena.get_update_known hx hc with ⟨rfl, rfl⟩ | ⟨hi, hc⟩
      · exact hs.filled hxout (h.vanishing _ hxout) (h.filled i x hx)
      · refine (h.filled i c hc).mono (hs.outside (h.outside i c hc)) fun n hn => ?_
        exact hs.keeps hxout (h.there i c n hc hn) fun hown =>
          absurd (h.distinct i k c x n hc hx hn hown) hi

/-- The invariant holds in every run. -/
theorem kept_of_run {seqs : Nat → Nat} {as : List Act}
    (h : Run (World.Next root) ⟨f₀, seqs, .empty⟩ as w) : w.Kept root f₀ := by
  refine h.state_invariant (I := World.Kept root f₀) ?_ fun w a w' hk hs => hk.step hs
  refine ⟨fun i c hc => ?_, fun q _ => .inr (.inl rfl), fun i c n hc => ?_,
    fun i j c d n hc => ?_, fun i c hc => ?_⟩ <;> cases hc

/-- The slot of a call that has returned is left alone from then on. -/
theorem World.Kept.unchanged {bs : List Act} (hk : w.Kept root f₀)
    (h : Run (World.Next root) w bs w') (hn : w.files (root ++ [n]) ≠ none)
    (hret : ∀ i c, w.calls.get i = some c → c.pc.slot = some n → c.pc.isReturned = true)
    (r : Place) : w'.files (root ++ n :: r) = w.files (root ++ n :: r) := by
  let Still (w' : World) : Prop := w'.Kept root f₀ ∧
    (∀ r, w'.files (root ++ n :: r) = w.files (root ++ n :: r)) ∧
    ∀ i c, w'.calls.get i = some c → c.pc.slot = some n → c.pc.isReturned = true
  suffices Still w' from this.2.1 r
  refine h.state_invariant (I := Still) ⟨hk, fun _ => rfl, hret⟩ ?_
  rintro u a u' ⟨hk, hsame, hret⟩ hnext
  refine ⟨hk.step hnext, ?_⟩
  obtain ⟨hstep, -⟩ := hnext
  cases hstep with
  | stash p v nowMs =>
    exact ⟨hsame, Arena.forall_alloc hret nofun⟩
  | @run k seq x pc fs hx hs =>
    have hthere : u.files (root ++ [n]) ≠ none := by rwa [hsame []]
    -- a call that holds the slot has returned and takes no step
    have hother : x.pc.slot ≠ some n := by
      intro hslot
      have hreturned := hret k x hx hslot
      rw [hs.not_returned] at hreturned
      cases hreturned
    refine ⟨fun r => ?_, fun i c hc hslot => ?_⟩
    · exact (hs.keeps (hk.outside k x hx) hthere (absurd · hother)).trans (hsame r)
    · rcases Arena.get_update_known hx hc with ⟨rfl, rfl⟩ | ⟨-, hc⟩
      · rcases hs.obtains hslot with hold | ⟨hfree, -⟩
        · exact absurd hold hother
        · exact absurd hfree hthere
      · exact hret i c hc hslot

/-- In every interleaving of any number of `stash` calls over one root, in any number of processes
whose counters start anywhere, with victims outside the root: no two calls obtain the same slot; a
path that is returned is in the slot of its call and holds what was at the victim's place, all that
was moved with it included; no other call changes what is in the slot; and nothing changes there
once the call that holds the slot, if there is one, has returned, whatever it returned. -/
theorem backups_never_overwritten {root : Place} {f₀ : Files} {seqs : Nat → Nat} {as : List Act}
    {w : World} (h : Run (World.Next root) ⟨f₀, seqs, .empty⟩ as w) :
    (∀ i j c d n, w.calls.get i = some c → w.calls.get j = some d →
      c.pc.slot = some n → d.pc.slot = some n → i = j) ∧
    (∀ i c n dest, w.calls.get i = some c → c.pc = .returned n (some dest) →
      n.map (c.dest root) = some dest ∧ w.files dest = f₀ c.victim ∧ f₀ c.victim ≠ none) ∧
    (∀ i c c' n dest w', w.Step root (.run i) w' → w.calls.get i = some c →
      w'.calls.get i = some c' → c'.pc = .returned n (some dest) →
      (∀ r, w'.files (dest ++ r) = w.files (c.victim ++ r)) ∨
        ∃ content, f₀ c.victim = some (.file content)) ∧
    (∀ i c n r w', w.Step root (.run i) w' → w.calls.get i = some c → c.pc.slot ≠ some n →
      w.files (root ++ [n]) ≠ none → w'.files (root ++ n :: r) = w.files (root ++ n :: r)) ∧
    ∀ n bs w', Run (World.Next root) w bs w' → w.files (root ++ [n]) ≠ none →
      (∀ i c, w.calls.get i = some c → c.pc.slot = some n → c.pc.isReturned = true) →
      ∀ r, w'.files (root ++ n :: r) = w.files (root ++ n :: r) := by
  have hk := kept_of_run h
  refine ⟨hk.distinct, fun i c n dest hc hpc => ?_, fun i c c' n dest w' hs hc hc' hpc => ?_,
    fun i c n r w' hs hc hn hthere => ?_, fun n bs w' hr hthere hret => ?_⟩
  · have hfilled := hk.filled i c hc
    unfold Stash.Filled at hfilled
    rwa [hpc] at hfilled
  · cases hs with
    | @run _ _ x _ _ hx hs =>
      obtain rfl := Option.mem_unique hx hc
      obtain rfl := Arena.eq_of_get_update hx hc'
      refine (hs.returns (hk.outside i x hx) hpc).imp_right fun ⟨slot, hslot⟩ => ?_
      have hfilled := hk.filled i x hx
      unfold Stash.Filled at hfilled
      rw [hslot] at hfilled
      obtain ⟨content, hfile, -⟩ := hfilled
      exact ⟨content, hfile⟩
  · cases hs with
    | run hx hs =>
      obtain rfl := Option.mem_unique hx hc
      exact hs.keeps (hk.outside i _ hx) hthere (absurd · hn)
  · exact hk.unchanged hr hthere hret

/-- Two files, with nothing else there but the directory they are in. -/
def twoFiles : Files := fun q =>
  if q = [] then some .dir
  else if q = [[2]] then some (.file [7])
  else if q = [[3]] then some (.file [8])
  else none

/-- Two processes stash with one number: the second one finds the slot taken and draws again. -/
theorem backups_never_overwritten_collision : ∃ as w dest dest',
    Run (World.Next [[1]]) ⟨twoFiles, fun _ => 0, .empty⟩ as w ∧
    w.calls.get 0 = some ⟨0, [[2]], 5, .returned (some (slotName 5 0)) (some dest)⟩ ∧
    w.calls.get 1 = some ⟨1, [[3]], 5, .returned (some (slotName 5 1)) (some dest')⟩ ∧
    w.files dest = some (.file [7]) ∧ w.files dest' = some (.file [8]) := by
  have hrun : Run (World.Next [[1]]) ⟨twoFiles, fun _ => 0, .empty⟩ _ _ :=
    .snoc (.snoc (.snoc (.snoc (.snoc (.snoc (.snoc (.snoc (.snoc (.snoc (.snoc (.snoc (.snoc (.snoc
      .nil
      ⟨.stash 0 [[2]] 5, show ¬ [[1]] <+: [[2]] by decide⟩)
      ⟨.stash 1 [[3]] 5, show ¬ [[1]] <+: [[3]] by decide⟩)
      ⟨.run (i := 0) rfl (.looked rfl rfl (by decide)), trivial⟩)
      ⟨.run (i := 1) rfl (.looked rfl rfl (by decide)), trivial⟩)
      ⟨.run (i := 0) rfl (.prepared 1 rfl (by decide)), trivial⟩)
      ⟨.run (i := 1) rfl (.prepared 1 rfl (by decide)), trivial⟩)
      ⟨.run (i := 0) rfl (.drew rfl), trivial⟩)
      ⟨.run (i := 1) rfl (.drew rfl), trivial⟩)
      ⟨.run (i := 0) rfl (.made rfl rfl rfl), trivial⟩)
      ⟨.run (i := 1) rfl (.taken rfl (by decide)), trivial⟩)
      ⟨.run (i := 1) rfl (.drew rfl), trivial⟩)
      ⟨.run (i := 1) rfl (.made rfl rfl rfl), trivial⟩)
      ⟨.run (i := 0) rfl (.renamed rfl (by decide) (by decide)), trivial⟩)
      ⟨.run (i := 1) rfl (.renamed rfl (by decide) (by decide)), trivial⟩
  have hkept := (backups_never_overwritten hrun).2.1
  exact ⟨_, _, _, _, hrun, rfl, rfl, (hkept 0 _ _ _ rfl rfl).2.1, (hkept 1 _ _ _ rfl rfl).2.1⟩

end Zyris.Transfer.Undo
