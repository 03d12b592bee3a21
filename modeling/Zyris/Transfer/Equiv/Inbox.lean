import Zyris.Transfer.Equiv.Name
import Zyris.Transfer.Inbox

/-!
# The inbox is a jail

A washed name is one component of a path, so the destination of a transfer lies two names below the
real root of the inbox, and neither is a link, which is what `ensure_no_symlink` and the last check
have seen.  `create_dir_all` makes whatever the path goes through, and a root such as `a/../b` goes
through `a` (`resolve_makes_aside`).
-/

namespace Zyris.Transfer

open Caps FileTree

/-! ### A washed name as a path -/

/-- The bytes of a washed name hold no slash. -/
theorem slash_notMem_utf8 {name : List Char} (h : NoSeparator name) : byte '/' ∉ utf8 name := by
  intro hmem
  have hsep := h '/' (byte_mem_utf8 rfl hmem)
  cases hsep

theorem utf8_ne_append_dot {body : List Char} {c : Char} (hc : isDotOrSpace c = false)
    (front : List UInt8) : utf8 (body ++ [c]) ≠ front ++ [byte '.'] := by
  intro heq
  have hlast : byte '.' ∈ String.utf8EncodeChar c := by
    rw [utf8_append, utf8_cons, utf8_nil, List.append_nil] at heq
    have hget := congrArg List.getLast? heq
    rw [List.getLast?_concat, List.getLast?_append_of_ne_nil _ String.utf8EncodeChar_ne_nil] at hget
    exact List.mem_of_getLast? hget
  have hne : c ≠ '.' := by
    rintro rfl
    cases hc
  exact ne_byte_of_mem_utf8EncodeChar rfl hne hlast rfl

theorem parse_utf8 {body : List Char} {c : Char} (hsep : NoSeparator (body ++ [c]))
    (hc : isDotOrSpace c = false) :
    (PathBuf.parse (utf8 (body ++ [c]))).components = [.normal (utf8 (body ++ [c]))] := by
  have hslash := slash_notMem_utf8 hsep
  have hdot : ∀ front, utf8 (body ++ [c]) ≠ front ++ [byte '.'] := utf8_ne_append_dot hc
  have hnil : utf8 (body ++ [c]) ≠ [] := by
    rw [utf8_append, utf8_cons, utf8_nil, List.append_nil]
    exact List.append_ne_nil_of_right_ne_nil _ String.utf8EncodeChar_ne_nil
  generalize utf8 (body ++ [c]) = name at hslash hdot hnil ⊢
  have hpieces : name.splitOn (byte '/') = [name] := List.splitOn_eq_singleton hslash
  have hrooted : ¬ name.head? = some (byte '/') := by
    intro hhead
    exact hslash (List.mem_of_head? hhead)
  have hone : name ≠ [byte '.'] := hdot []
  have htwo : name ≠ [byte '.', byte '.'] := hdot [byte '.']
  have hpiece : PathBuf.parsePiece name = some (.normal name) := by
    rw [PathBuf.parsePiece, if_neg (by simp [hnil, hone]), if_neg htwo]
  simp [PathBuf.parse, PathBuf.front, hpieces, hrooted, hone, hpiece]

theorem parse_safeName (proposed : List Char) :
    (PathBuf.parse (utf8 (safeName proposed))).components =
      [.normal (utf8 (safeName proposed))] := by
  obtain ⟨hsep, body, c, hname, hc⟩ := safeName_spec proposed
  rw [hname] at hsep ⊢
  exact parse_utf8 hsep hc

theorem components_join_safeName (p : PathBuf) (proposed : List Char) :
    (p.join (utf8 (safeName proposed))).components =
      p.components ++ [.normal (utf8 (safeName proposed))] := by
  rw [PathBuf.join, parse_safeName]
  rfl

theorem segments_join_safeName (p : PathBuf) (proposed : List Char) :
    segments (p.join (utf8 (safeName proposed))) =
      segments p ++ [.name (utf8 (safeName proposed))] := by
  rw [segments, components_join_safeName, List.map_append]
  rfl

theorem segments_absolute (q : List OsStr) : segments (absolute q) = .root :: q.map .name := by
  unfold segments absolute
  simp [segment, Function.comp_def]

theorem join_absolute (q : List OsStr) (proposed : List Char) :
    (absolute q).join (utf8 (safeName proposed)) = absolute (q ++ [utf8 (safeName proposed)]) := by
  rw [PathBuf.mk.injEq, components_join_safeName]
  show (Component.rootDir :: q.map Component.normal) ++ _ = Component.rootDir :: List.map _ (q ++ _)
  rw [List.map_append]
  rfl

/-! ### What the checks have seen -/

variable {inbox : Inbox} {links : Nat} {t t' : FileTree OsStr} {peer proposed : List Char}
  {path : PathBuf}

theorem eq_ok_of_mapIo {α : Type} {x : Except Errno α} {a : α} (h : mapIo x = .ok a) :
    x = .ok a := by
  cases x with
  | error e => cases h
  | ok b =>
    rw [Except.ok.inj h]

theorem exists_of_bind_eq_ok {ε α β : Type} {x : Except ε α} {f : α → Except ε β} {b : β}
    (h : (x >>= f) = .ok b) : ∃ a, x = .ok a ∧ f a = .ok b := by
  cases x with
  | error e => cases h
  | ok a => exact ⟨a, rfl, h⟩

theorem ensureNoSymlink_parent
    (h : ensureNoSymlink t links inbox.root (inbox.parent peer) = .ok ()) :
    ∃ x, t.lstat links (segments (inbox.parent peer)) = .ok x ∧ ∀ target, x ≠ .link target := by
  have hstrip : (inbox.parent peer).stripBase inbox.root =
      some [.normal (utf8 (peerDir peer))] := by
    unfold PathBuf.stripBase PathBuf.startsWith
    rw [Inbox.parent, peerDir, components_join_safeName]
    simp
  have hpush : inbox.root.push (.normal (utf8 (peerDir peer))) = inbox.parent peer := by
    rw [Inbox.parent, PathBuf.join, peerDir, parse_safeName]
    rfl
  rw [ensureNoSymlink, hstrip, Option.getD_some, ensureNoSymlinkFrom, hpush] at h
  rcases hstat : t.lstat links (segments (inbox.parent peer)) with _ | x <;> rw [hstat] at h
  · cases h
  refine ⟨x, rfl, ?_⟩
  rintro target rfl
  cases h

theorem destination_eq_ok (h : inbox.destination links t peer proposed = .ok path) :
    ∃ real realParent, t.canonicalize links (segments inbox.root) = .ok real ∧
      ensureNoSymlink t links inbox.root (inbox.parent peer) = .ok () ∧
      t.canonicalize links (segments (inbox.parent peer)) = .ok realParent ∧
      path = (absolute realParent).join (utf8 (safeName proposed)) ∧
      ∀ target, t.lstat links (segments path) ≠ .ok (.link target) := by
  unfold Inbox.destination at h
  obtain ⟨real, hreal, h⟩ := exists_of_bind_eq_ok h
  obtain ⟨_, hno, h⟩ := exists_of_bind_eq_ok h
  obtain ⟨realParent, hparent, h⟩ := exists_of_bind_eq_ok h
  refine ⟨real, realParent, eq_ok_of_mapIo hreal, hno, eq_ok_of_mapIo hparent, ?_⟩
  simp only at h
  split_ifs at h
  split at h
  · cases h
  · rename_i hstat
    obtain rfl := Except.ok.inj h
    refine ⟨rfl, ?_⟩
    intro target heq
    exact hstat target heq

/-! ### The jail -/

theorem segments_parent (inbox : Inbox) (peer : List Char) :
    segments (inbox.parent peer) = segments inbox.root ++ [.name (utf8 (peerDir peer))] :=
  segments_join_safeName _ _

/-- `p` is the washed name in the peer's directory, which is no link, in the real root of the inbox;
nor is `p` a link. -/
structure Jailed (inbox : Inbox) (links : Nat) (t : FileTree OsStr) (peer proposed : List Char)
    (p : PathBuf) (real : List OsStr) : Prop where
  canonical : t.canonicalize links (segments inbox.root) = .ok real
  path_eq : p = absolute (real ++ [utf8 (peerDir peer), utf8 (safeName proposed)])
  node_parent : t.node (real ++ [utf8 (peerDir peer)]) = some .dir
  not_link : ∀ target, t.node (real ++ [utf8 (peerDir peer), utf8 (safeName proposed)]) ≠
    some (.link target)

theorem walk_of_canonicalize {path : List (Seg OsStr)} {q : List OsStr}
    (h : t.canonicalize links path = .ok q) : t.walk true links t.cwd path = .ok q := by
  unfold canonicalize at h
  split_ifs at h
  exact h

/-- What the checks let through in a tree that has the peer's directory. -/
theorem jailed_of_destination (hdir : ∃ q, t.walk true links t.cwd (segments (inbox.parent peer)) =
      .ok q ∧ t.node q = some .dir) (h : inbox.destination links t peer proposed = .ok path) :
    ∃ real, Jailed inbox links t peer proposed path real := by
  obtain ⟨real, realParent, hreal, hno, hparent, rfl, hstat⟩ := destination_eq_ok h
  obtain ⟨x, hx, hlink⟩ := ensureNoSymlink_parent hno
  have hwalk := walk_of_canonicalize hreal
  -- the peer's directory is found under its own name
  rw [segments_parent] at hx hdir hparent
  have hnode : t.node (real ++ [utf8 (peerDir peer)]) = some x := (lstat_concat_iff hwalk).mp hx
  obtain ⟨left, hleft⟩ := walk_concat hwalk (.name (utf8 (peerDir peer))) true
  rw [walk_name hnode (fun _ => hlink) left] at hleft
  obtain rfl : real ++ [utf8 (peerDir peer)] = realParent :=
    Except.ok.inj (hleft.symm.trans (walk_of_canonicalize hparent))
  have hdir' : t.node (real ++ [utf8 (peerDir peer)]) = some .dir := by
    obtain ⟨q, hq, hqdir⟩ := hdir
    obtain rfl : real ++ [utf8 (peerDir peer)] = q := Except.ok.inj (hleft.symm.trans hq)
    exact hqdir
  have happend : real ++ [utf8 (peerDir peer), utf8 (safeName proposed)] =
      (real ++ [utf8 (peerDir peer)]) ++ [utf8 (safeName proposed)] := by simp
  refine ⟨real, hreal, ?_, hdir', ?_⟩
  · rw [join_absolute, happend]
  · intro target htarget
    rw [happend] at htarget
    apply hstat target
    rw [segments_join_safeName, segments_absolute]
    exact (lstat_concat_iff (walk_names hdir' t.node_cwd)).mpr htarget

/-- **The inbox is a jail.**  A path that `resolve` returns is in it, and all that was done to the
tree is that directories were made where parts of the path to the peer's directory lead: that
directory and those above it, if there is no `..` in the root. -/
theorem resolve_jailed (inbox : Inbox) (links : Nat) (t t' : FileTree OsStr)
    (peer proposed : List Char) (p : PathBuf)
    (h : inbox.resolve links t peer proposed = (t', .ok p)) :
    ∃ real, Jailed inbox links t' peer proposed p real ∧
      (∀ q, t'.node q = t.node q ∨
        (t.node q = none ∧ t'.node q = some .dir ∧
          ∃ part, part <+: segments (inbox.parent peer) ∧
            t'.walk true links t'.cwd part = .ok q)) ∧
      (.parentDir ∉ inbox.root.components →
        ∀ q, t'.node q = t.node q ∨ q <+: real ++ [utf8 (peerDir peer)]) := by
  unfold Inbox.resolve at h
  rcases hall : t.createDirAll links (segments (inbox.parent peer)) with ⟨t₁, result⟩
  rw [hall] at h
  rcases result with _ | _
  · cases h
  obtain ⟨ht, hdest⟩ := Prod.mk.inj h
  subst ht
  have hmade := made_of_makeAll hall
  rw [List.reverse_reverse] at hmade
  obtain ⟨real, hjail⟩ := jailed_of_destination hmade.leads hdest
  refine ⟨real, hjail, hmade.created, ?_⟩
  intro hup
  -- the path leads to the peer's directory
  have hwalk : t₁.walk true links t₁.cwd (segments (inbox.parent peer)) =
      .ok (real ++ [utf8 (peerDir peer)]) := by
    obtain ⟨left, hleft⟩ :=
      walk_concat (walk_of_canonicalize hjail.canonical) (.name (utf8 (peerDir peer))) true
    rw [segments_parent, hleft]
    exact walk_name hjail.node_parent (fun _ target => by simp) left
  have hnoUp : Seg.up ∉ (segments (inbox.parent peer)).reverse := by
    rw [List.mem_reverse, segments_parent]
    intro hmem
    rcases List.mem_append.mp hmem with hmem | hmem
    · obtain ⟨c, hc, hseg⟩ := List.mem_map.mp hmem
      cases c with
      | parentDir => exact hup hc
      | rootDir => cases hseg
      | curDir => cases hseg
      | normal part => cases hseg
    · cases List.mem_singleton.mp hmem
  rw [← List.reverse_reverse (segments (inbox.parent peer))] at hwalk
  exact (chain_of_makeAll hall hnoUp hwalk).onWay

/-! ### Two runs -/

theorem exists_of_isOk {α ε β : Type} {r : α × Except ε β} (h : r.2.isOk = true) :
    ∃ a b, r = (a, .ok b) := by
  obtain ⟨a, result⟩ := r
  cases result with
  | error e => cases h
  | ok b => exact ⟨a, b, rfl⟩

/-- A tree with a directory `real` and a link `in` to it. -/
def linkedTree : FileTree OsStr where
  node q :=
    if q = [] ∨ q = [utf8 "real".toList] then some .dir
    else if q = [utf8 "in".toList] then some (.link [.name (utf8 "real".toList)])
    else none
  cwd := []
  node_nil := rfl
  node_cwd := rfl
  dir_of_child p n h := by
    cases p with
    | nil => rfl
    | cons m p => simp at h

/-- An inbox whose root is a link. -/
theorem resolve_jailed_linkedRoot :
    ∃ t' p real, Inbox.resolve ⟨PathBuf.parse (utf8 "in".toList)⟩ 40 linkedTree "lap/top".toList
        "../a.txt".toList = (t', .ok p) ∧
      Jailed ⟨PathBuf.parse (utf8 "in".toList)⟩ 40 t' "lap/top".toList "../a.txt".toList p
        real := by
  have hok : (Inbox.resolve ⟨PathBuf.parse (utf8 "in".toList)⟩ 40 linkedTree "lap/top".toList
      "../a.txt".toList).2.isOk = true := by
    decide +kernel
  obtain ⟨t', p, h⟩ := exists_of_isOk hok
  obtain ⟨real, hjail, _⟩ := resolve_jailed _ _ _ _ _ _ _ h
  exact ⟨t', p, real, h, hjail⟩

def bareTree : FileTree OsStr where
  node q := if q = [] then some .dir else none
  cwd := []
  node_nil := rfl
  node_cwd := rfl
  dir_of_child p n h := by simp at h

/-- With the root `a/../b` an `a` is made as well, which is not above the peer's directory. -/
theorem resolve_makes_aside :
    ∃ t' p real q, Inbox.resolve ⟨PathBuf.parse (utf8 "a/../b".toList)⟩ 40 bareTree "n".toList
        "f".toList = (t', .ok p) ∧
      t'.canonicalize 40 (segments (PathBuf.parse (utf8 "a/../b".toList))) = .ok real ∧
      bareTree.node q = none ∧ t'.node q = some .dir ∧
      ¬ q <+: real ++ [utf8 (peerDir "n".toList)] := by
  have hok : (Inbox.resolve ⟨PathBuf.parse (utf8 "a/../b".toList)⟩ 40 bareTree "n".toList
      "f".toList).2.isOk = true := by
    decide +kernel
  have hnode : (Inbox.resolve ⟨PathBuf.parse (utf8 "a/../b".toList)⟩ 40 bareTree "n".toList
      "f".toList).1.node [utf8 "a".toList] = some .dir := by
    decide +kernel
  have hreal : ((Inbox.resolve ⟨PathBuf.parse (utf8 "a/../b".toList)⟩ 40 bareTree "n".toList
      "f".toList).1.canonicalize 40 (segments (PathBuf.parse (utf8 "a/../b".toList)))) =
        .ok [utf8 "b".toList] := by
    decide +kernel
  obtain ⟨t', p, h⟩ := exists_of_isOk hok
  rw [h] at hnode hreal
  refine ⟨t', p, [utf8 "b".toList], [utf8 "a".toList], h, hreal, rfl, hnode, ?_⟩
  decide +kernel

end Zyris.Transfer
