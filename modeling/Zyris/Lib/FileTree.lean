import Mathlib.Data.List.Infix

/-!
# File trees and the paths through them

A tree of directories, files and symbolic links, over any type of names.  An object is the list of
names from the root down to it.  A path is a list of segments that is walked from some directory: a
name goes down, `..` goes up, and a link is replaced by its target, so many times and no more.  This
is the name resolution of POSIX, without permissions and limits on lengths.

A walk goes on succeeding when directories are added (`Extends.walk`), and a longer path goes on
from where the shorter one ends (`walk_concat`).  So `createDirAll` leaves a directory where the
path leads, and adds nothing but directories where parts of the path lead (`made_of_makeAll`).
-/

namespace Zyris

namespace FileTree

inductive Seg (ν : Type*)
  | root
  | here
  | up
  | name (n : ν)
  deriving DecidableEq

inductive Node (ν : Type*)
  | dir
  | file
  | link (target : List (Seg ν))
  deriving DecidableEq

inductive Errno
  | noEnt
  | notDir
  | loop
  | exist
  -- `createDirAll` has come to a path without a parent
  | wholeTree
  deriving DecidableEq

end FileTree

open FileTree

/-- A tree, and the directory relative paths start from. -/
structure FileTree (ν : Type*) where
  node : List ν → Option (Node ν)
  cwd : List ν
  node_nil : node [] = some .dir
  node_cwd : node cwd = some .dir
  -- only a directory has anything in it
  dir_of_child : ∀ p n, node (p ++ [n]) ≠ none → node p = some .dir

namespace FileTree

variable {ν : Type*}

/-! ### One segment -/

inductive Entry (ν : Type*)
  | found (p : List ν)
  | link (p : List ν) (target : List (Seg ν))
  | missing

def enter (t : FileTree ν) (cur : List ν) : Seg ν → Entry ν
  | .root => .found []
  | .here => .found cur
  | .up => .found cur.dropLast
  | .name n =>
    match t.node (cur ++ [n]) with
    | none => .missing
    | some (.link target) => .link (cur ++ [n]) target
    | some _ => .found (cur ++ [n])

variable {t t' : FileTree ν} {links : Nat} {follow : Bool} {cur p : List ν}
  {path : List (Seg ν)} {s : Seg ν} {n : ν}

/-- Something is there, and it is no link. -/
def IsReal (t : FileTree ν) (p : List ν) : Prop := t.node p = some .dir ∨ t.node p = some .file

theorem isReal_of_enter (hcur : t.node cur = some .dir) (h : t.enter cur s = .found p) :
    t.IsReal p := by
  cases s with
  | root =>
    cases h
    exact .inl t.node_nil
  | here =>
    cases h
    exact .inl hcur
  | up =>
    cases h
    rcases List.eq_nil_or_concat cur with rfl | ⟨q, n, rfl⟩
    · exact .inl t.node_nil
    · rw [List.concat_eq_append] at hcur ⊢
      rw [List.dropLast_concat]
      exact .inl (t.dir_of_child q n (by rw [hcur]; exact Option.some_ne_none _))
  | name n =>
    rw [enter] at h
    split at h
    · cases h
    · cases h
    · rename_i x hn hx
      cases h
      cases x with
      | dir => exact .inl hx
      | file => exact .inr hx
      | link target => exact absurd rfl (hn target)

/-! ### Trees with more in them -/

/-- Whatever is in `t` is in `t'`. -/
structure Extends (t t' : FileTree ν) : Prop where
  cwd_eq : t'.cwd = t.cwd
  node_eq : ∀ q, t.node q ≠ none → t'.node q = t.node q

theorem Extends.refl (t : FileTree ν) : t.Extends t := ⟨rfl, fun _ _ => rfl⟩

theorem Extends.node_dir (he : t.Extends t') {q : List ν} (hq : t.node q = some .dir) :
    t'.node q = some .dir := by
  rw [he.node_eq q (by rw [hq]; exact Option.some_ne_none _), hq]

theorem Extends.enter_eq (he : t.Extends t') (h : t.enter cur s ≠ .missing) :
    t'.enter cur s = t.enter cur s := by
  cases s with
  | root => rfl
  | here => rfl
  | up => rfl
  | name n =>
    have hn : t.node (cur ++ [n]) ≠ none := by
      intro hnone
      rw [enter, hnone] at h
      exact h rfl
    rw [enter, enter, he.node_eq _ hn]

/-- All that was added lies on the way down to `p`, and if anything was, then `p` was. -/
structure Chain (t t' : FileTree ν) (p : List ν) : Prop where
  onWay : ∀ q, t'.node q = t.node q ∨ q <+: p
  fresh : t'.node = t.node ∨ t.node p = none

theorem Chain.refl (t : FileTree ν) (p : List ν) : Chain t t p := ⟨fun _ => .inl rfl, .inl rfl⟩

/-- Nothing is in a directory that was just made. -/
theorem Chain.node_child_eq_none (h : Chain t t' p) (hfresh : t.node p = none) (n : ν) :
    t'.node (p ++ [n]) = none := by
  have hnone : t.node (p ++ [n]) = none := by
    by_contra hsome
    rw [t.dir_of_child p n hsome] at hfresh
    cases hfresh
  rcases h.onWay (p ++ [n]) with heq | hpre
  · rw [heq, hnone]
  · have hle := hpre.length_le
    rw [List.length_append, List.length_singleton] at hle
    omega

/-! ### Walking a path -/

variable [DecidableEq ν]

/-- Walk a path from a directory, with the walk at a link as a parameter; a link at the very end is
followed only on `follow`. -/
def walkWith (t : FileTree ν) (jump : List ν → List (Seg ν) → Except Errno (List ν))
    (follow : Bool) : List ν → List (Seg ν) → Except Errno (List ν)
  | cur, [] => .ok cur
  | cur, s :: rest =>
    if t.node cur = some .dir then
      match t.enter cur s with
      | .found next => walkWith t jump follow next rest
      | .link p target => if follow || !rest.isEmpty then jump cur (target ++ rest) else .ok p
      | .missing => .error .noEnt
    else .error .notDir

/-- Walk a path, through so many links at most. -/
def walk (t : FileTree ν) (follow : Bool) : Nat → List ν → List (Seg ν) → Except Errno (List ν)
  | 0 => t.walkWith (fun _ _ => .error .loop) follow
  | links + 1 => t.walkWith (walk t follow links) follow

/-- `realpath`. -/
def canonicalize (t : FileTree ν) (links : Nat) (path : List (Seg ν)) : Except Errno (List ν) :=
  if path = [] then .error .noEnt else t.walk true links t.cwd path

def nodeAt (t : FileTree ν) : Except Errno (List ν) → Except Errno (Node ν)
  | .ok p =>
    match t.node p with
    | some x => .ok x
    | none => .error .noEnt
  | .error e => .error e

/-- `lstat`: a link at the end is not followed. -/
def lstat (t : FileTree ν) (links : Nat) (path : List (Seg ν)) : Except Errno (Node ν) :=
  if path = [] then .error .noEnt else t.nodeAt (t.walk false links t.cwd path)

/-- `stat` says that it is a directory. -/
def isDir (t : FileTree ν) (links : Nat) (path : List (Seg ν)) : Bool :=
  match t.canonicalize links path with
  | .ok p => t.node p = some .dir
  | .error _ => false

/-! ### Making directories -/

def makeDir (t : FileTree ν) (p : List ν) (n : ν) (hp : t.node p = some .dir) : FileTree ν where
  node q := if q = p ++ [n] then some .dir else t.node q
  cwd := t.cwd
  node_nil := by
    split_ifs
    · rfl
    · exact t.node_nil
  node_cwd := by
    split_ifs
    · rfl
    · exact t.node_cwd
  dir_of_child q m hq := by
    have hdir : t.node q = some .dir := by
      by_cases hqm : q ++ [m] = p ++ [n]
      · rw [(List.append_inj' hqm rfl).1]
        exact hp
      · rw [if_neg hqm] at hq
        exact t.dir_of_child q m hq
    rw [hdir, ite_self]

/-- `mkdir`.  The last segment has to be a name that is not taken. -/
def mkdir (t : FileTree ν) (links : Nat) (path : List (Seg ν)) : Except Errno (FileTree ν) :=
  match path.getLast? with
  | none => .error .noEnt
  | some s =>
    match t.walk true links t.cwd path.dropLast with
    | .error e => .error e
    | .ok p =>
      if hp : t.node p = some .dir then
        match s with
        | .name n => if t.node (p ++ [n]) = none then .ok (t.makeDir p n hp) else .error .exist
        | _ => .error .exist
      else .error .notDir

/-- `createDirAll`, the path given from its end. -/
def makeAll (links : Nat) : List (Seg ν) → FileTree ν → FileTree ν × Except Errno Unit
  | [], t => (t, .ok ())
  | s :: rest, t =>
    let path := rest.reverse ++ [s]
    match t.mkdir links path with
    | .ok t' => (t', .ok ())
    | .error e =>
      if e ≠ .noEnt then (t, if t.isDir links path then .ok () else .error e)
      -- a path that ends in the root has no parent
      else if s = .root then (t, .error .wholeTree)
      else
        match makeAll links rest t with
        | (t', .error e) => (t', .error e)
        | (t', .ok ()) =>
          match t'.mkdir links path with
          | .ok t'' => (t'', .ok ())
          | .error e => (t', if t'.isDir links path then .ok () else .error e)

/-- Make a directory and, where the way to it is missing, its parents first. -/
def createDirAll (t : FileTree ν) (links : Nat) (path : List (Seg ν)) :
    FileTree ν × Except Errno Unit :=
  makeAll links path.reverse t

/-! ### Going on from where a walk ended -/

theorem walk_eq_walkWith (t : FileTree ν) (follow : Bool) (links : Nat) :
    ∃ jump, t.walk follow links = t.walkWith jump follow := by
  cases links with
  | zero => exact ⟨_, rfl⟩
  | succ links => exact ⟨_, rfl⟩

theorem walkWith_concat {jump jump' : List ν → List (Seg ν) → Except Errno (List ν)}
    (hjump : ∀ cur path, jump cur path = .ok p →
      ∃ left, jump' cur (path ++ [s]) = t.walk follow left p [s])
    (hend : ∃ left, t.walkWith jump' follow p [s] = t.walk follow left p [s])
    (h : t.walkWith jump true cur path = .ok p) :
    ∃ left, t.walkWith jump' follow cur (path ++ [s]) = t.walk follow left p [s] := by
  induction path generalizing cur with
  | nil =>
    obtain rfl : cur = p := by simpa [walkWith] using h
    exact hend
  | cons a rest ih =>
    rw [walkWith] at h
    by_cases hdir : t.node cur = some .dir
    swap
    · rw [if_neg hdir] at h
      cases h
    rw [if_pos hdir] at h
    rw [List.cons_append, walkWith, if_pos hdir]
    cases hentry : t.enter cur a with
    | found next =>
      rw [hentry] at h
      exact ih h
    | link q target =>
      rw [hentry] at h
      have hgo : jump cur (target ++ rest) = .ok p := by simpa using h
      obtain ⟨left, hleft⟩ := hjump cur (target ++ rest) hgo
      refine ⟨left, ?_⟩
      have hcond : (follow || !(rest ++ [s]).isEmpty) = true := by simp
      rw [← hleft, List.append_assoc]
      exact if_pos hcond
    | missing =>
      rw [hentry] at h
      cases h

/-- To walk a path and one segment more, walk the path and go on with the links left. -/
theorem walk_concat (h : t.walk true links cur path = .ok p) (s : Seg ν) (follow : Bool) :
    ∃ left, t.walk follow links cur (path ++ [s]) = t.walk follow left p [s] := by
  induction links generalizing cur path with
  | zero =>
    refine walkWith_concat ?_ ⟨0, rfl⟩ h
    intro cur path hloop
    cases hloop
  | succ links ih =>
    refine walkWith_concat ?_ ⟨links + 1, rfl⟩ h
    intro cur path hgo
    exact ih hgo

theorem walk_here (hp : t.node p = some .dir) (left : Nat) :
    t.walk follow left p [.here] = .ok p := by
  obtain ⟨jump, hjump⟩ := t.walk_eq_walkWith follow left
  rw [hjump, walkWith, if_pos hp]
  rfl

/-- The last name is where it should be, and is no link to be followed. -/
theorem walk_name {x : Node ν} (hn : t.node (p ++ [n]) = some x)
    (hx : follow = true → ∀ target, x ≠ .link target) (left : Nat) :
    t.walk follow left p [.name n] = .ok (p ++ [n]) := by
  have hp : t.node p = some .dir := t.dir_of_child p n (by rw [hn]; exact Option.some_ne_none x)
  obtain ⟨jump, hjump⟩ := t.walk_eq_walkWith follow left
  rw [hjump, walkWith, if_pos hp, enter, hn]
  cases x with
  | dir => rfl
  | file => rfl
  | link target =>
    have hfollow : follow = false := by
      cases follow with
      | false => rfl
      | true => exact absurd rfl (hx rfl target)
    rw [hfollow]
    rfl

theorem walk_names {q : List ν} (hq : t.node q = some .dir) (hcur : t.node cur = some .dir) :
    t.walk follow links cur (.root :: q.map .name) = .ok q := by
  induction q using List.reverseRecOn generalizing follow with
  | nil =>
    obtain ⟨jump, hjump⟩ := t.walk_eq_walkWith follow links
    rw [hjump, List.map_nil, walkWith, if_pos hcur]
    rfl
  | append_singleton q n ih =>
    have hdir : t.node q = some .dir :=
      t.dir_of_child q n (by rw [hq]; exact Option.some_ne_none _)
    have hwalk : t.walk true links cur (.root :: q.map .name) = .ok q := ih hdir
    obtain ⟨left, hleft⟩ := walk_concat hwalk (.name n) follow
    have hpath : Seg.root :: (q ++ [n]).map Seg.name = (.root :: q.map .name) ++ [.name n] := by
      simp
    rw [hpath, hleft]
    exact walk_name hq (fun _ target => by simp) left

/-- A walk that follows every link ends at none. -/
theorem isReal_of_walk (hcur : t.IsReal cur) (h : t.walk true links cur path = .ok p) :
    t.IsReal p := by
  have along : ∀ {jump : List ν → List (Seg ν) → Except Errno (List ν)},
      (∀ cur path, t.IsReal cur → jump cur path = .ok p → t.IsReal p) →
      ∀ path cur, t.IsReal cur → t.walkWith jump true cur path = .ok p → t.IsReal p := by
    intro jump hjump path
    induction path with
    | nil =>
      intro cur hcur h
      cases h
      exact hcur
    | cons s rest ih =>
      intro cur hcur h
      rw [walkWith] at h
      by_cases hdir : t.node cur = some .dir
      · rw [if_pos hdir] at h
        split at h
        · rename_i next hnext
          exact ih next (isReal_of_enter hdir hnext) h
        · exact hjump _ _ hcur h
        · cases h
      · rw [if_neg hdir] at h
        cases h
  induction links generalizing cur path with
  | zero => exact along (fun _ _ _ hloop => by cases hloop) path cur hcur h
  | succ links ih => exact along (fun _ _ hcur hgo => ih hcur hgo) path cur hcur h

/-- What is no link is found by the names that lead down to it. -/
theorem IsReal.walk_names (h : t.IsReal p) (hcur : t.node cur = some .dir) :
    t.walk follow links cur (.root :: p.map .name) = .ok p := by
  rcases List.eq_nil_or_concat p with rfl | ⟨q, n, rfl⟩
  · exact FileTree.walk_names t.node_nil hcur
  rw [List.concat_eq_append] at h ⊢
  have hn : ∃ x, t.node (q ++ [n]) = some x ∧ ∀ target, x ≠ .link target := by
    rcases h with h | h
    · exact ⟨_, h, by simp⟩
    · exact ⟨_, h, by simp⟩
  obtain ⟨x, hx, hlink⟩ := hn
  have hdir := t.dir_of_child q n (by rw [hx]; exact Option.some_ne_none _)
  obtain ⟨left, hleft⟩ := walk_concat (FileTree.walk_names hdir hcur) (.name n) follow
  rw [List.map_append, List.map_singleton, ← List.cons_append, hleft]
  exact walk_name hx (fun _ => hlink) left

theorem walk_name_error (hn : t.node (p ++ [n]) = none) (left : Nat) :
    ∃ e, t.walk follow left p [.name n] = .error e := by
  obtain ⟨jump, hjump⟩ := t.walk_eq_walkWith follow left
  rw [hjump, walkWith]
  by_cases hp : t.node p = some .dir
  · rw [if_pos hp, enter, hn]
    exact ⟨.noEnt, rfl⟩
  · rw [if_neg hp]
    exact ⟨.notDir, rfl⟩

/-- `lstat` sees what is under the last name of a path. -/
theorem lstat_concat_iff (h : t.walk true links t.cwd path = .ok p) {x : Node ν} :
    t.lstat links (path ++ [.name n]) = .ok x ↔ t.node (p ++ [n]) = some x := by
  have hne : path ++ [Seg.name n] ≠ [] := by simp
  obtain ⟨left, hleft⟩ := walk_concat h (.name n) false
  rw [lstat, if_neg hne, hleft]
  cases hn : t.node (p ++ [n]) with
  | none =>
    obtain ⟨e, he⟩ : ∃ e, t.walk false left p [.name n] = .error e := walk_name_error hn left
    rw [he]
    simp [nodeAt]
  | some y =>
    rw [walk_name hn (fun hfalse => absurd hfalse (by decide)) left, nodeAt, hn]
    simp

/-! ### Adding directories -/

theorem Extends.walkWith (he : t.Extends t')
    {jump jump' : List ν → List (Seg ν) → Except Errno (List ν)}
    (hjump : ∀ cur path, jump cur path = .ok p → jump' cur path = .ok p)
    (h : t.walkWith jump follow cur path = .ok p) :
    t'.walkWith jump' follow cur path = .ok p := by
  induction path generalizing cur with
  | nil => exact h
  | cons a rest ih =>
    rw [FileTree.walkWith] at h ⊢
    by_cases hdir : t.node cur = some .dir
    swap
    · rw [if_neg hdir] at h
      cases h
    rw [if_pos hdir] at h
    rw [if_pos (he.node_dir hdir)]
    cases hentry : t.enter cur a with
    | missing =>
      rw [hentry] at h
      cases h
    | found next =>
      rw [hentry] at h
      rw [he.enter_eq (by rw [hentry]; simp), hentry]
      exact ih h
    | link q target =>
      rw [hentry] at h
      rw [he.enter_eq (by rw [hentry]; simp), hentry]
      -- the link is followed in both or in neither
      split_ifs at h ⊢
      · exact hjump _ _ h
      · exact h

theorem Extends.walk (he : t.Extends t') (h : t.walk follow links cur path = .ok p) :
    t'.walk follow links cur path = .ok p := by
  induction links generalizing cur path with
  | zero =>
    refine he.walkWith ?_ h
    intro cur path hloop
    cases hloop
  | succ links ih =>
    refine he.walkWith ?_ h
    intro cur path hgo
    exact ih hgo

theorem node_makeDir (hp : t.node p = some .dir) (q : List ν) :
    (t.makeDir p n hp).node q = if q = p ++ [n] then some .dir else t.node q := rfl

theorem extends_makeDir (hp : t.node p = some .dir) (hn : t.node (p ++ [n]) = none) :
    t.Extends (t.makeDir p n hp) := by
  refine ⟨rfl, ?_⟩
  intro q hq
  have hne : q ≠ p ++ [n] := by
    intro heq
    rw [heq] at hq
    exact hq hn
  rw [node_makeDir, if_neg hne]

/-! ### What the calls do -/

theorem mkdir_eq_ok (h : t.mkdir links (path ++ [s]) = .ok t') :
    ∃ n p, ∃ hp : t.node p = some .dir, s = .name n ∧ t.walk true links t.cwd path = .ok p ∧
      t.node (p ++ [n]) = none ∧ t' = t.makeDir p n hp := by
  simp only [mkdir, List.getLast?_concat, List.dropLast_concat] at h
  rcases hwalk : t.walk true links t.cwd path with _ | p <;> rw [hwalk] at h
  · cases h
  simp only at h
  split_ifs at h with hp
  cases s with
  | name n =>
    simp only at h
    split_ifs at h with hn
    exact ⟨n, p, hp, rfl, rfl, hn, (Except.ok.inj h).symm⟩
  | root | here | up => cases h

/-- It fails for want of something only if the way there is missing. -/
theorem walk_of_mkdir_noEnt (h : t.mkdir links (path ++ [s]) = .error .noEnt) :
    t.walk true links t.cwd path = .error .noEnt := by
  simp only [mkdir, List.getLast?_concat, List.dropLast_concat] at h
  rcases hwalk : t.walk true links t.cwd path with _ | p <;> rw [hwalk] at h
  · rw [Except.error.inj h]
  by_cases hp : t.node p = some .dir
  · simp only [hp, dite_true] at h
    cases s with
    | name n =>
      by_cases hn : t.node (p ++ [n]) = none
      · simp [hn] at h
      · simp [hn] at h
    | root | here | up => cases h
  · simp [hp] at h

theorem exists_of_isDir (h : t.isDir links path = true) :
    ∃ p, t.walk true links t.cwd path = .ok p ∧ t.node p = some .dir := by
  unfold isDir canonicalize at h
  by_cases hnil : path = []
  · simp [hnil] at h
  rw [if_neg hnil] at h
  cases hwalk : t.walk true links t.cwd path with
  | error e =>
    rw [hwalk] at h
    cases h
  | ok p =>
    rw [hwalk] at h
    exact ⟨p, rfl, of_decide_eq_true h⟩

/-- `createDirAll` succeeds by one `mkdir`, because the directory is there, or after its parent was
made. -/
theorem makeAll_cons_ok {rest : List (Seg ν)} (h : makeAll links (s :: rest) t = (t', .ok ())) :
    t.mkdir links (rest.reverse ++ [s]) = .ok t' ∨
      (t' = t ∧ t.isDir links (rest.reverse ++ [s]) = true) ∨
      (s ≠ .root ∧ t.mkdir links (rest.reverse ++ [s]) = .error .noEnt ∧
        ∃ t₁, makeAll links rest t = (t₁, .ok ()) ∧
          (t₁.mkdir links (rest.reverse ++ [s]) = .ok t' ∨
            (t' = t₁ ∧ t₁.isDir links (rest.reverse ++ [s]) = true ∧
              ∃ e, t₁.mkdir links (rest.reverse ++ [s]) = .error e))) := by
  rw [makeAll] at h
  cases hmk : t.mkdir links (rest.reverse ++ [s]) with
  | ok t'' =>
    simp only [hmk, Prod.mk.injEq, and_true] at h
    exact .inl (by rw [h])
  | error e =>
    right
    simp only [hmk] at h
    by_cases he : e = .noEnt
    · right
      rw [if_neg (not_not.mpr he)] at h
      by_cases hs : s = .root
      · simp [hs] at h
      rw [if_neg hs] at h
      refine ⟨hs, by rw [he], ?_⟩
      rcases hall : makeAll links rest t with ⟨t₁, result⟩
      rcases result with _ | _
      · simp [hall] at h
      refine ⟨t₁, rfl, ?_⟩
      simp only [hall] at h
      cases hmk₁ : t₁.mkdir links (rest.reverse ++ [s]) with
      | ok t₂ =>
        simp only [hmk₁, Prod.mk.injEq, and_true] at h
        exact .inl (by rw [h])
      | error e₁ =>
        simp only [hmk₁, Prod.mk.injEq] at h
        obtain ⟨ht, hdir⟩ := h
        refine .inr ⟨ht.symm, ?_, e₁, rfl⟩
        by_contra hno
        simp [hno] at hdir
    · left
      rw [if_pos he] at h
      simp only [Prod.mk.injEq] at h
      obtain ⟨ht, hdir⟩ := h
      refine ⟨ht.symm, ?_⟩
      by_contra hno
      simp [hno] at hdir

/-! ### What `createDirAll` has made -/

/-- `t'` is `t` with a directory where the path leads; only directories on the way there were
added. -/
structure Made (links : Nat) (t t' : FileTree ν) (path : List (Seg ν)) : Prop where
  cwd_eq : t'.cwd = t.cwd
  created : ∀ q, t'.node q = t.node q ∨
    (t.node q = none ∧ t'.node q = some .dir ∧
      ∃ part, part <+: path ∧ t'.walk true links t'.cwd part = .ok q)
  leads : ∃ p, t'.walk true links t'.cwd path = .ok p ∧ t'.node p = some .dir

theorem Made.extends (h : Made links t t' path) : t.Extends t' := by
  refine ⟨h.cwd_eq, ?_⟩
  intro q hq
  rcases h.created q with heq | ⟨hnone, _⟩
  · exact heq
  · exact absurd hnone hq

theorem Made.of_dir (h : ∃ p, t.walk true links t.cwd path = .ok p ∧ t.node p = some .dir) :
    Made links t t path :=
  ⟨rfl, fun _ => .inl rfl, h⟩

theorem walk_makeDir (hp : t.node p = some .dir) (hn : t.node (p ++ [n]) = none)
    (hwalk : t.walk true links t.cwd path = .ok p) :
    (t.makeDir p n hp).walk true links (t.makeDir p n hp).cwd (path ++ [.name n]) =
      .ok (p ++ [n]) := by
  have hext := extends_makeDir hp hn
  have hnew : (t.makeDir p n hp).node (p ++ [n]) = some .dir := by
    rw [node_makeDir, if_pos rfl]
  obtain ⟨left, hleft⟩ := walk_concat (hext.walk hwalk) (.name n) true
  rw [hext.cwd_eq, hleft]
  exact walk_name hnew (fun _ target => by simp) left

theorem Made.mkdir {t₁ : FileTree ν} (h : Made links t t₁ path)
    (hmk : t₁.mkdir links (path ++ [s]) = .ok t') : Made links t t' (path ++ [s]) := by
  obtain ⟨n, p, hp, rfl, hwalk, hn, rfl⟩ := mkdir_eq_ok hmk
  have hext := extends_makeDir hp hn
  have hnew := walk_makeDir hp hn hwalk
  have hdir : (t₁.makeDir p n hp).node (p ++ [n]) = some .dir := by
    rw [node_makeDir, if_pos rfl]
  refine ⟨h.cwd_eq, ?_, p ++ [n], hnew, hdir⟩
  intro q
  by_cases hq : q = p ++ [n]
  · right
    rw [hq]
    refine ⟨?_, hdir, _, List.prefix_rfl, hnew⟩
    -- it was not there before the others were made either
    by_contra hsome
    rw [h.extends.node_eq _ hsome] at hn
    exact hsome hn
  · rw [node_makeDir, if_neg hq]
    rcases h.created q with heq | ⟨hnone, hdir', part, hpart, hto⟩
    · exact .inl heq
    · refine .inr ⟨hnone, hdir', part, hpart.trans (List.prefix_append _ _), ?_⟩
      exact hext.walk hto

theorem made_of_makeAll {rev : List (Seg ν)} (h : makeAll links rev t = (t', .ok ())) :
    Made links t t' rev.reverse := by
  induction rev generalizing t' with
  | nil =>
    obtain rfl : t = t' := by simpa [makeAll] using h
    obtain ⟨jump, hjump⟩ := t.walk_eq_walkWith true links
    refine Made.of_dir ⟨t.cwd, ?_, t.node_cwd⟩
    rw [List.reverse_nil, hjump, walkWith]
  | cons s rest ih =>
    rw [List.reverse_cons]
    rcases makeAll_cons_ok h with hmk | ⟨rfl, hdir⟩ | ⟨_, _, t₁, hrest, hmk | ⟨rfl, hdir, _⟩⟩
    · obtain ⟨n, p, hp, rfl, hwalk, hn, rfl⟩ := mkdir_eq_ok hmk
      exact (Made.of_dir ⟨p, hwalk, hp⟩).mkdir hmk
    · exact Made.of_dir (exists_of_isDir hdir)
    · exact (ih hrest).mkdir hmk
    · have hmade := ih hrest
      refine ⟨hmade.cwd_eq, ?_, exists_of_isDir hdir⟩
      intro q
      rcases hmade.created q with heq | ⟨hnone, hq, part, hpart, hto⟩
      · exact .inl heq
      · exact .inr ⟨hnone, hq, part, hpart.trans (List.prefix_append _ _), hto⟩

/-! ### Paths without `..` -/

theorem Chain.mkdir {t₁ : FileTree ν} {p₁ : List ν} (h : Chain t t₁ p₁) (hext : t.Extends t₁)
    (hwalk : t₁.walk true links t₁.cwd path = .ok p₁)
    (hmk : t₁.mkdir links (path ++ [s]) = .ok t')
    (hp : t'.walk true links t'.cwd (path ++ [s]) = .ok p) : Chain t t' p := by
  obtain ⟨n, p₂, hdir, rfl, hwalk₂, hn, rfl⟩ := mkdir_eq_ok hmk
  obtain rfl : p₁ = p₂ := Except.ok.inj (hwalk.symm.trans hwalk₂)
  obtain rfl : p = p₁ ++ [n] := Except.ok.inj (hp.symm.trans (walk_makeDir hdir hn hwalk))
  constructor
  · intro q
    by_cases hq : q = p₁ ++ [n]
    · right
      rw [hq]
    · rw [node_makeDir, if_neg hq]
      rcases h.onWay q with heq | hpre
      · exact .inl heq
      · exact .inr (hpre.trans (List.prefix_append _ _))
  · right
    by_contra hsome
    rw [hext.node_eq _ hsome] at hn
    exact hsome hn

/-- Without a `..` in the path, all that is made lies on the way down to where it leads. -/
theorem chain_of_makeAll {rev : List (Seg ν)} (h : makeAll links rev t = (t', .ok ()))
    (hup : Seg.up ∉ rev) (hp : t'.walk true links t'.cwd rev.reverse = .ok p) : Chain t t' p := by
  induction rev generalizing t' p with
  | nil =>
    obtain rfl : t = t' := by simpa [makeAll] using h
    exact Chain.refl t p
  | cons s rest ih =>
    rw [List.reverse_cons] at hp
    have hup' : Seg.up ∉ rest := fun hmem => hup (List.mem_cons_of_mem _ hmem)
    rcases makeAll_cons_ok h with
      hmk | ⟨rfl, _⟩ | ⟨hroot, hnoEnt, t₁, hrest, hmk | ⟨rfl, hdir, e, hmk⟩⟩
    · obtain ⟨n, p₁, hdir, rfl, hwalk, hn, rfl⟩ := mkdir_eq_ok hmk
      exact (Chain.refl t p₁).mkdir (Extends.refl t) hwalk hmk hp
    · exact Chain.refl _ p
    · obtain ⟨p₁, hwalk, _⟩ := (made_of_makeAll hrest).leads
      exact (ih hrest hup' hwalk).mkdir (made_of_makeAll hrest).extends hwalk hmk hp
    · -- the parent was made just now, and so there can be nothing in it yet
      have hmade := made_of_makeAll hrest
      obtain ⟨p₁, hwalk, hdir₁⟩ := hmade.leads
      have hchain := ih hrest hup' hwalk
      have hfresh : t.node p₁ = none := by
        refine hchain.fresh.resolve_left ?_
        intro hsame
        have hback : t'.Extends t := ⟨hmade.cwd_eq.symm, fun q _ => by rw [hsame]⟩
        have hok := hback.walk hwalk
        rw [hmade.cwd_eq, walk_of_mkdir_noEnt hnoEnt] at hok
        cases hok
      cases s with
      | root => exact absurd rfl hroot
      | up => exact absurd (List.mem_cons_self ..) hup
      | here =>
        obtain ⟨left, hleft⟩ := walk_concat hwalk .here true
        rw [hleft, walk_here hdir₁] at hp
        obtain rfl : p₁ = p := Except.ok.inj hp
        exact hchain
      | name n =>
        have hn := hchain.node_child_eq_none hfresh n
        simp [mkdir, hwalk, hdir₁, hn] at hmk

end FileTree

end Zyris
