import Zyris.Caps.Path

/-!
# Where a resolved path points

A `Location` is what a path comes to lexically: from the root or the current directory, so many
steps up, then down along names.  `resolve_under` keeps a `PathBuf` instead, in which an
uncancelled `..` is a component the next `..` pops, as is the `.` a root may begin with.  The buffer
stands for the location only while nothing was lost that way (`locate_buffer_iff`).
-/

namespace Zyris.Caps

/-! ### Locations -/

/-- A place in the file system, as a path names it. -/
@[ext]
structure Location where
  rooted : Bool
  -- how many `..` nothing before them cancels
  ups : Nat
  names : List OsStr
  -- there is nothing above the root
  ups_of_rooted : rooted = true → ups = 0

namespace Location

def here : Location := ⟨false, 0, [], by simp⟩

def top : Location := ⟨true, 0, [], by simp⟩

def down (l : Location) (name : OsStr) : Location := { l with names := l.names ++ [name] }

/-- `..` cancels a name, is ignored at the root, and is kept above everything else. -/
def up (l : Location) : Location :=
  if l.names ≠ [] then { l with names := l.names.dropLast }
  else if h : l.rooted = true then l
  else { l with ups := l.ups + 1, ups_of_rooted := fun hr => absurd hr h }

def step (l : Location) : Component → Location
  | .rootDir => top
  | .curDir => l
  | .parentDir => l.up
  | .normal name => l.down name

end Location

/-- The lexical normal form of a list of components. -/
def locate (cs : List Component) : Location := cs.foldl Location.step .here

/-- The components of `path` under `root`, or its own if it has a root. -/
def joined (root path : PathBuf) : List Component :=
  if path.hasRoot then path.components else root.components ++ path.components

/-! ### What the loop holds -/

/-- What `ups` uncancelled `..` leave in the buffer: each second one takes the one before it away,
and the first one the root's `.`. -/
def kept (dot : Bool) (ups : Nat) : List Component :=
  if dot = true ∧ ups = 0 then [.curDir]
  else if (ups + dot.toNat) % 2 = 0 then [] else [.parentDir]

def Location.buffer (dot : Bool) (l : Location) : List Component :=
  (if l.rooted then [.rootDir] else kept dot l.ups) ++ l.names.map .normal

variable {dot : Bool} {ups : Nat} {p : PathBuf} {cs : List Component} {c : Component}
  {l : Location}

theorem kept_eq_nil_iff :
    kept dot ups = [] ↔ ¬(dot = true ∧ ups = 0) ∧ (ups + dot.toNat) % 2 = 0 := by
  unfold kept
  split_ifs with hdot heven
  · simp [hdot]
  · simp [hdot, heven]
  · simp [heven]

theorem kept_succ_of_empty (h : kept dot ups = []) : kept dot (ups + 1) = [.parentDir] := by
  obtain ⟨-, heven⟩ := kept_eq_nil_iff.mp h
  unfold kept
  rw [if_neg (by omega), if_neg (by omega)]

theorem kept_succ_of_ne (h : kept dot ups ≠ []) : kept dot (ups + 1) = [] := by
  rw [Ne, kept_eq_nil_iff] at h
  refine kept_eq_nil_iff.mpr ⟨by omega, ?_⟩
  cases dot with
  | false => simp at h ⊢; omega
  | true => simp at h ⊢; omega

/-- What is kept is one component at most, and never a root. -/
theorem kept_cases (dot : Bool) (ups : Nat) :
    kept dot ups = [] ∨ ∃ c, kept dot ups = [c] ∧ c ≠ .rootDir := by
  unfold kept
  split_ifs
  · exact .inr ⟨.curDir, rfl, by simp⟩
  · exact .inl rfl
  · exact .inr ⟨.parentDir, rfl, by simp⟩

@[simp] theorem components_push_normal (p : PathBuf) (part : OsStr) :
    (p.push (.normal part)).components = p.components ++ [.normal part] := rfl

@[simp] theorem components_push_parentDir (p : PathBuf) :
    (p.push .parentDir).components = p.components ++ [.parentDir] := rfl

theorem pop_of_concat (h : p.components = cs ++ [c]) (hc : c ≠ .rootDir) :
    p.pop.1.components = cs ∧ p.pop.2 = true := by
  have hlast : p.components.getLast? = some c := by simp [h]
  unfold PathBuf.pop
  split
  · rename_i heq
    simp [heq] at hlast
  · rename_i heq
    rw [heq] at hlast
    exact absurd (Option.some.inj hlast).symm hc
  · exact ⟨by simp [h], rfl⟩

theorem pop_of_empty (h : p.components = []) : p.pop = (p, false) := by
  unfold PathBuf.pop
  simp [h]

theorem pop_of_root (h : p.components = [.rootDir]) : p.pop = (p, false) := by
  unfold PathBuf.pop
  simp [h]

theorem resolve_parentDir_of_concat (h : p.components = cs ++ [c]) (hc : c ≠ .rootDir) :
    (resolveComponent p .parentDir).components = cs := by
  obtain ⟨hcs, hok⟩ := pop_of_concat h hc
  simp [resolveComponent, hcs, hok]

/-- `..` pops a name; with no name left it stays at the root, and else changes what is kept. -/
theorem components_resolve_parentDir (h : p.components = l.buffer dot) :
    (resolveComponent p .parentDir).components = l.up.buffer dot := by
  unfold Location.up
  by_cases hn : l.names = []
  · rw [if_neg (by simp [hn])]
    have hp : p.components = if l.rooted then [.rootDir] else kept dot l.ups := by
      simp [h, Location.buffer, hn]
    by_cases hr : l.rooted = true
    · have hroot : p.components = [.rootDir] := by simp [hp, hr]
      rw [dif_pos hr, ← h]
      simp [resolveComponent, pop_of_root hroot, PathBuf.hasRoot, hroot]
    have hkept : p.components = kept dot l.ups := by simp [hp, hr]
    simp only [Location.buffer, hr, hn]
    obtain hk | ⟨c, hc, hne⟩ := kept_cases dot l.ups
    · have hempty := hkept.trans hk
      simp [resolveComponent, pop_of_empty hempty, PathBuf.hasRoot, hempty, kept_succ_of_empty hk]
    · have hp' : p.components = [] ++ [c] := hkept.trans hc
      rw [resolve_parentDir_of_concat hp' hne]
      simp [kept_succ_of_ne (by rw [hc]; simp : kept dot l.ups ≠ [])]
  · rw [if_pos hn]
    obtain ⟨names, name, hcons⟩ := (List.eq_nil_or_concat' l.names).resolve_left hn
    have hp : p.components =
        ((if l.rooted then [.rootDir] else kept dot l.ups) ++ names.map .normal) ++
          [.normal name] := by
      simp [h, Location.buffer, hcons]
    rw [resolve_parentDir_of_concat hp (by simp)]
    simp [Location.buffer, hcons]

/-- One component: the buffer follows the location. -/
theorem components_resolveComponent (h : p.components = l.buffer dot) (c : Component) :
    (resolveComponent p c).components = (l.step c).buffer dot := by
  cases c with
  | rootDir => rfl
  | curDir => exact h
  | parentDir => exact components_resolve_parentDir h
  | normal part =>
    show p.components ++ [.normal part] = (l.down part).buffer dot
    rw [h, Location.buffer, List.append_assoc]
    show _ = _ ++ (l.names ++ [part]).map Component.normal
    rw [List.map_append]
    rfl

theorem components_foldl (h : p.components = l.buffer dot) (cs : List Component) :
    (cs.foldl resolveComponent p).components = (cs.foldl Location.step l).buffer dot := by
  induction cs generalizing l p with
  | nil => exact h
  | cons c cs ih => exact ih (components_resolveComponent h c)

/-! ### The buffer read back -/

theorem foldl_step_normal (names : List OsStr) (l : Location) :
    (names.map .normal).foldl Location.step l = { l with names := l.names ++ names } := by
  induction names generalizing l with
  | nil => simp
  | cons name names ih =>
    rw [List.map_cons, List.foldl_cons, ih]
    simp [Location.step, Location.down]

theorem ups_locate_kept (dot : Bool) (ups : Nat) :
    locate (kept dot ups) = ⟨false, (locate (kept dot ups)).ups, [], by simp⟩ ∧
      ((locate (kept dot ups)).ups = ups ↔ ups + dot.toNat ≤ 1) := by
  unfold kept
  split_ifs with hdot heven
  · obtain ⟨rfl, rfl⟩ := hdot
    exact ⟨rfl, by simp [locate, Location.step, Location.here]⟩
  · refine ⟨rfl, ?_⟩
    show 0 = ups ↔ _
    cases dot <;> simp at hdot heven ⊢ <;> omega
  · refine ⟨rfl, ?_⟩
    show 1 = ups ↔ _
    cases dot <;> simp at hdot heven ⊢ <;> omega

/-- The buffer says where it is while no second uncancelled `..` came, and none at all under a
`.`. -/
theorem locate_buffer_iff (dot : Bool) (l : Location) :
    locate (l.buffer dot) = l ↔ l.rooted = true ∨ l.ups + dot.toNat ≤ 1 := by
  unfold Location.buffer
  unfold locate
  rw [List.foldl_append, foldl_step_normal]
  by_cases hr : l.rooted = true
  · have hu := l.ups_of_rooted hr
    simp only [hr, if_true, true_or, iff_true]
    exact Location.ext hr.symm hu.symm (by simp [Location.step, Location.top])
  · obtain ⟨hkept, hiff⟩ := ups_locate_kept dot l.ups
    unfold locate at hkept hiff
    rw [if_neg hr, hkept, ← hiff]
    simp [Location.ext_iff, hr]

/-! ### Roots and the whole resolution -/

def PathBuf.dotted (p : PathBuf) : Bool := p.components.head? = some .curDir

theorem exists_names (h : ∀ c ∈ cs, c.isLeading = false ∧ c ≠ .parentDir) :
    ∃ names : List OsStr, cs = names.map .normal := by
  induction cs with
  | nil => exact ⟨[], rfl⟩
  | cons c cs ih =>
    obtain ⟨names, rfl⟩ := ih fun d hd => h d (List.mem_cons_of_mem _ hd)
    obtain ⟨hlead, hup⟩ := h c List.mem_cons_self
    cases c with
    | rootDir => cases hlead
    | curDir => cases hlead
    | parentDir => exact absurd rfl hup
    | normal name => exact ⟨name :: names, rfl⟩

/-- A root without `..` is a buffer the loop can start from. -/
theorem components_eq_buffer {root : PathBuf} (h : .parentDir ∉ root.components) :
    root.components = (locate root.components).buffer root.dotted := by
  unfold PathBuf.dotted
  rcases hroot : root.components with _ | ⟨c, cs⟩
  · rfl
  have hplain : ∀ d ∈ cs, d.isLeading = false ∧ d ≠ .parentDir := by
    intro d hd
    refine ⟨root.leading d (by rw [hroot]; exact hd), ?_⟩
    rintro rfl
    exact h (by rw [hroot]; exact List.mem_cons_of_mem _ hd)
  obtain ⟨names, rfl⟩ := exists_names hplain
  unfold locate
  rw [List.foldl_cons, foldl_step_normal]
  cases c with
  | rootDir => rfl
  | curDir => rfl
  | parentDir => exact absurd (by rw [hroot]; exact List.mem_cons_self) h
  | normal name => rfl

theorem rooted_step (h : l.rooted = true) (c : Component) : (l.step c).rooted = true := by
  cases c with
  | rootDir => rfl
  | curDir => exact h
  | parentDir =>
    show l.up.rooted = true
    unfold Location.up
    split_ifs <;> exact h
  | normal name => exact h

theorem rooted_foldl (h : l.rooted = true) (cs : List Component) :
    (cs.foldl Location.step l).rooted = true := by
  induction cs generalizing l with
  | nil => exact h
  | cons c cs ih => exact ih (rooted_step h c)

theorem rooted_locate (h : p.hasRoot = true) : (locate p.components).rooted = true := by
  unfold PathBuf.hasRoot at h
  rw [decide_eq_true_eq] at h
  obtain ⟨cs, hcs⟩ := List.head?_eq_some_iff.mp h
  rw [hcs]
  exact rooted_foldl rfl cs

/-- `resolve_under` points where the normal form of the joined path does exactly when at most one
`..` is left there, and none under a root with a `.`. -/
theorem locate_resolveUnder_iff {root : PathBuf} (hroot : .parentDir ∉ root.components)
    (path : OsStr) :
    locate (resolveUnder root path).components = locate (joined root (.parse path)) ↔
      (locate (joined root (.parse path))).ups + root.dotted.toNat ≤ 1 := by
  have hdot := root.dotted.toNat_le
  unfold resolveUnder joined
  by_cases hr : (PathBuf.parse path).hasRoot = true
  · -- the loop starts at the root, above which nothing can be kept
    have hrooted := rooted_locate hr
    have hups := (locate (PathBuf.parse path).components).ups_of_rooted hrooted
    have hnew : PathBuf.new.components = Location.here.buffer false := rfl
    simp only [hr, if_true]
    rw [components_foldl hnew]
    constructor
    · intro _
      omega
    · intro _
      exact (locate_buffer_iff _ _).mpr (.inl hrooted)
  · simp only [hr, Bool.false_eq_true, if_false]
    rw [components_foldl (components_eq_buffer hroot)]
    have hjoin : locate (root.components ++ (PathBuf.parse path).components) =
        (PathBuf.parse path).components.foldl Location.step (locate root.components) :=
      List.foldl_append
    rw [← hjoin, locate_buffer_iff]
    constructor
    · rintro (hrooted | hups)
      · have := (locate (root.components ++ (PathBuf.parse path).components)).ups_of_rooted hrooted
        omega
      · exact hups
    · exact .inr

/-- One step above the relative root `data`. -/
theorem locate_resolveUnder_iff_oneUp :
    locate (resolveUnder (.parse (utf8 "data".toList)) (utf8 "../../elsewhere".toList)).components =
      locate (joined (.parse (utf8 "data".toList)) (.parse (utf8 "../../elsewhere".toList))) :=
  (locate_resolveUnder_iff (by decide) _).mpr (by decide)

/-- The second `..` takes the first away, and the path ends inside the current directory. -/
theorem resolveUnder_twoUp :
    .parentDir ∉ (PathBuf.parse (utf8 "data".toList)).components ∧
      (resolveUnder (.parse (utf8 "data".toList)) (utf8 "../../../elsewhere".toList)).components =
        [.normal (utf8 "elsewhere".toList)] ∧
      locate (resolveUnder (.parse (utf8 "data".toList))
        (utf8 "../../../elsewhere".toList)).components ≠
        locate (joined (.parse (utf8 "data".toList))
          (.parse (utf8 "../../../elsewhere".toList))) := by
  refine ⟨by decide, by decide, ?_⟩
  intro h
  have hups := congrArg Location.ups h
  exact absurd hups (by decide)

end Zyris.Caps
