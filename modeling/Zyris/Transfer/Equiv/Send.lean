import Zyris.Lib.Chunks
import Zyris.Transfer.Equiv.Inbox
import Zyris.Transfer.Equiv.Wash
import Zyris.Transfer.Send

/-!
# Names that can be read back

The four inputs of `transfer_id` can be read off the byte string it hashes: the last three fields
have a fixed width, and a node id has no NUL in it.  `Inbox::resolve` files a node under its path
with `_` for `/`, which the name washer keeps as it is.
-/

namespace Zyris.Transfer

open Caps Proto

/-! ### `transfer_id` -/

theorem length_utf8_of_isAscii {s : List Char} (h : ∀ c ∈ s, isAscii c = true) :
    (utf8 s).length = s.length := by
  induction s with
  | nil => rfl
  | cons c s ih =>
    have hs := ih fun c hc => h c (List.mem_cons_of_mem _ hc)
    rw [utf8_cons_of_isAscii (h c List.mem_cons_self), List.length_cons, hs, List.length_cons]

theorem Digest.length_utf8 (d : Digest) : (utf8 d.chars).length = 64 := by
  have hascii : ALL_HEX_DIGITS.all isAscii = true := by decide
  rw [length_utf8_of_isAscii fun c hc => List.all_eq_true.mp hascii c (d.mem_digits c hc),
    d.length_chars]

theorem length_toBeBytes (n : UInt64) : (toBeBytes n).length = 8 := by simp [toBeBytes]

theorem toBeBytes_injective : Function.Injective toBeBytes := by
  intro m n h
  have hbyte (k : Nat) (hk : k < 8) : m.toNat / 256 ^ k % 256 = n.toNat / 256 ^ k % 256 := by
    have hget := congrArg (·[7 - k]?) h
    simp only [toBeBytes, List.getElem?_map, List.getElem?_range (show 7 - k < 8 by omega),
      Option.map_some, Option.some.injEq, show 7 - (7 - k) = k by omega] at hget
    simpa using congrArg UInt8.toNat hget
  -- the bytes from the last on give the number modulo greater and greater powers
  have hmod (k : Nat) (hk : k ≤ 8) : m.toNat % 256 ^ k = n.toNat % 256 ^ k := by
    induction k with
    | zero => rw [Nat.pow_zero, Nat.mod_one, Nat.mod_one]
    | succ k ih => rw [Nat.mod_pow_succ, Nat.mod_pow_succ, ih (by omega), hbyte k hk]
  have hall : m.toNat % 2 ^ 64 = n.toNat % 2 ^ 64 := hmod 8 (Nat.le_refl 8)
  rw [Nat.mod_eq_of_lt m.toNat_lt, Nat.mod_eq_of_lt n.toNat_lt] at hall
  exact UInt64.toNat_inj.mp hall

/-- What stands before the first `x`, and what after it. -/
theorem append_cons_inj_of_notMem {α : Type*} {x : α} {a a' b b' : List α} (ha : x ∉ a)
    (ha' : x ∉ a') (h : a ++ x :: b = a' ++ x :: b') : a = a' ∧ b = b' := by
  induction a generalizing a' with
  | nil =>
    cases a' with
    | nil => exact ⟨rfl, (List.cons.inj h).2⟩
    | cons y a' => exact absurd ((List.cons.inj h).1 ▸ List.mem_cons_self) ha'
  | cons y a ih =>
    cases a' with
    | nil => exact absurd ((List.cons.inj h).1 ▸ List.mem_cons_self) ha
    | cons z a' =>
      obtain ⟨rfl, hrest⟩ := List.cons.inj h
      have htail := ih (fun hx => ha (List.mem_cons_of_mem _ hx))
        (fun hx => ha' (List.mem_cons_of_mem _ hx)) hrest
      exact ⟨by rw [htail.1], htail.2⟩

theorem NodeId.zero_notMem (n : NodeId) : (0 : UInt8) ∉ utf8 n.chars :=
  fun h => n.nul_notMem (byte_mem_utf8 (d := '\x00') rfl h)

/-- **The transfer id names its inputs**: what is hashed is the same for two transfers only if they
are of the same file and name, from the same node. -/
theorem transferIdInput_inj (nodeId nodeId' : NodeId) (name name' : List Char)
    (size size' : UInt64) (sha256 sha256' : Digest) :
    transferIdInput nodeId name size sha256 = transferIdInput nodeId' name' size' sha256' ↔
      nodeId = nodeId' ∧ name = name' ∧ size = size' ∧ sha256 = sha256' := by
  constructor
  · intro h
    -- from the end, each field has the width it has
    obtain ⟨h, hsha⟩ := List.append_inj' h (by rw [Digest.length_utf8, Digest.length_utf8])
    obtain ⟨h, -⟩ := List.append_inj' h rfl
    obtain ⟨h, hsize⟩ := List.append_inj' h (by rw [length_toBeBytes, length_toBeBytes])
    obtain ⟨h, -⟩ := List.append_inj' h rfl
    rw [List.append_assoc, List.append_assoc] at h
    obtain ⟨hnode, hname⟩ := append_cons_inj_of_notMem nodeId.zero_notMem nodeId'.zero_notMem h
    exact ⟨NodeId.ext (utf8_injective hnode), utf8_injective hname, toBeBytes_injective hsize,
      Digest.ext (utf8_injective hsha)⟩
  · rintro ⟨rfl, rfl, rfl, rfl⟩
    rfl

/-! ### Senders -/

namespace NodePath

variable (p : NodePath)

/-- The path as it is filed: `_` for `/`. -/
def filed : List Char :=
  p.system.chars ++ '_' :: (p.program.chars ++ '_' :: p.node.chars)

theorem mem_filed {c : Char} (hc : c ∈ p.filed) : c ∈ SLUG_CHARS ∨ c = '_' := by
  simp only [filed, List.mem_append, List.mem_cons] at hc
  rcases hc with hc | rfl | hc | rfl | hc
  · exact .inl (p.system.mem_slugChars c hc)
  · exact .inr rfl
  · exact .inl (p.program.mem_slugChars c hc)
  · exact .inr rfl
  · exact .inl (p.node.mem_slugChars c hc)

/-- The characters of a filed path are kept by the name washer, and are one byte long. -/
theorem plain_of_mem_filed {c : Char} (hc : c ∈ p.filed) :
    isPlain c = true ∧ isDotOrSpace c = false ∧ c.utf8Size = 1 := by
  have hall : ('_' :: SLUG_CHARS).all
      (fun c => isPlain c && !isDotOrSpace c && c.utf8Size = 1) = true := by decide
  have hmem : c ∈ '_' :: SLUG_CHARS := by
    rcases p.mem_filed hc with hc | rfl
    · exact List.mem_cons_of_mem _ hc
    · exact List.mem_cons_self
  simpa [and_assoc] using List.all_eq_true.mp hall c hmem

theorem length_filed_le : p.filed.length ≤ 98 := by
  have hsystem := p.system.length_le
  have hprogram := p.program.length_le
  have hnode := p.node.length_le
  simp only [filed, List.length_append, List.length_cons]
  omega

theorem map_slug (s : Slug) {f : Char → Char} (hf : SLUG_CHARS.all (fun c => f c = c) = true) :
    s.chars.map f = s.chars := by
  refine (List.map_congr_left fun c hc => ?_).trans (List.map_id _)
  exact of_decide_eq_true (List.all_eq_true.mp hf c (s.mem_slugChars c hc))

theorem map_chars : (p.chars.map fun c => if c = '/' then '_' else c) = p.filed := by
  have hf : SLUG_CHARS.all (fun c => (if c = '/' then '_' else c) = c) = true := by decide
  simp only [chars, filed, List.map_append, List.map_cons, map_slug _ hf, if_true]

theorem map_filed : (p.filed.map fun c => if c = '_' then '/' else c) = p.chars := by
  have hf : SLUG_CHARS.all (fun c => (if c = '_' then '/' else c) = c) = true := by decide
  simp only [chars, filed, List.map_append, List.map_cons, map_slug _ hf, if_true]

theorem peerDir_chars : peerDir p.chars = p.filed := by
  unfold peerDir
  rw [p.map_chars]
  have hdot : '.' ∉ p.filed := fun h => by cases (p.plain_of_mem_filed h).2.1
  have hunderscore : '_' ∈ stemOf p.filed := by
    rw [stemOf_eq_self hdot]
    simp [filed]
  have hreserved : avoidsReservedNames p.filed = p.filed :=
    if_neg fun h : isReserved (stemOf p.filed) = true => underscore_notMem h hunderscore
  have hlen : len p.filed ≤ MAX_BYTES := by
    rw [len_eq_length fun c hc => (p.plain_of_mem_filed hc).2.2]
    exact Nat.le_trans p.length_filed_le (by decide)
  rcases List.eq_nil_or_concat p.filed with hnil | ⟨body, c, hfiled⟩
  · simp [filed] at hnil
  · have hplain := fun c hc => (p.plain_of_mem_filed (c := c) hc).1
    have hlast := (p.plain_of_mem_filed (c := c) (by simp [hfiled])).2.1
    rw [List.concat_eq_append] at hfiled
    rw [hfiled] at hplain hlen hreserved ⊢
    exact safeName_eq_self hplain hlast hlen hreserved

theorem splitOn_chars : p.chars.splitOn '/' = [p.system.chars, p.program.chars, p.node.chars] := by
  have hslash (s : Slug) : '/' ∉ s.chars := fun h => by
    have hmem := s.mem_slugChars _ h
    revert hmem
    decide
  have hjoin : p.chars = ['/'].intercalate [p.system.chars, p.program.chars, p.node.chars] := by
    simp [chars, List.intercalate]
  rw [hjoin]
  refine List.splitOn_intercalate '/' ?_ (List.cons_ne_nil _ _)
  simp only [List.forall_mem_cons]
  exact ⟨hslash _, hslash _, hslash _, by simp⟩

end NodePath

theorem fileName_parent (inbox : Inbox) (peer : List Char) :
    (inbox.parent peer).fileName = some (utf8 (peerDir peer)) := by
  have hcomponents := components_join_safeName inbox.root
    (peer.map fun c => if c = '/' then '_' else c)
  unfold PathBuf.fileName Inbox.parent peerDir
  rw [hcomponents, List.getLast?_concat]

/-- **Sender directories are unambiguous.**  Two nodes have one directory name in an inbox only if
they have the same path; what `inbox_list` reads off that name is the path; and it is the path of an
address. -/
theorem sender_directories_unambiguous (inbox : Inbox) (p q : NodePath) :
    ((inbox.parent p.chars).fileName = (inbox.parent q.chars).fileName ↔ p.chars = q.chars) ∧
      (inbox.parent p.chars).fileName.map senderOf = some p.chars ∧
      (NodeAddress.parse (String.ofList p.chars)).map NodeAddress.path =
        some (String.ofList p.chars) := by
  have hsender (p : NodePath) : (inbox.parent p.chars).fileName.map senderOf = some p.chars := by
    rw [fileName_parent, p.peerDir_chars, Option.map_some, senderOf, fromUtf8Lossy_utf8,
      p.map_filed]
  refine ⟨⟨fun h => ?_, fun h => by rw [h]⟩, hsender p, ?_⟩
  · have heq := hsender p
    rw [h, hsender q] at heq
    exact (Option.some.inj heq).symm
  have hne (s : Slug) : s.chars.isEmpty = false := by
    rw [List.isEmpty_eq_false_iff]
    exact List.ne_nil_of_length_pos s.length_pos
  simp only [NodeAddress.parse, String.toList_ofList, p.splitOn_chars, List.any_cons, hne,
    List.any_nil, Bool.or_false, Bool.false_eq_true, if_false, Option.map_some, NodeAddress.path]
  rw [Option.some.injEq, ← String.toList_inj]
  simp [NodePath.chars]

/-! ### `resolve_source` -/

open Proto FileTree

theorem isPrefix_of_startsWith {base q : List OsStr}
    (h : (absolute q).startsWith (absolute base) = true) : base <+: q := by
  have hpre : Component.rootDir :: base.map .normal <+: Component.rootDir :: q.map .normal :=
    List.isPrefixOf_iff_prefix.mp h
  obtain ⟨below, hbelow⟩ := (List.cons_prefix_cons.mp hpre).2
  obtain ⟨base', rest, rfl, hbase, -⟩ := List.map_eq_append_iff.mp hbelow.symm
  have hinj : Function.Injective Component.normal := fun _ _ hname => Component.normal.inj hname
  rw [List.map_injective_iff.mpr hinj hbase]
  exact List.prefix_append _ _

/-- **Only files under the root are sent.**  Whatever links the path asked for goes through,
`resolve_source` returns the place of a regular file below the real root; and a later `open` of it,
by `hash_file` or by `pull`, comes to that place as long as it and the directories above it are not
replaced. -/
theorem source_under_root {display : PathBuf → String} {root real : PathBuf} {links : Nat}
    {t : FileTree OsStr} {path : String}
    (h : resolveSource display root links t path = .ok real) :
    ∃ base q, t.canonicalize links (segments root) = .ok base ∧ base <+: q ∧
      t.node q = some .file ∧ ∀ t' : FileTree OsStr, t'.node q = some .file →
        ∀ follow left, t'.walk follow left t'.cwd (segments real) = .ok q := by
  simp only [resolveSource] at h
  split at h
  · cases h
  rename_i base hbase
  split at h
  · cases h
  rename_i q hq
  split_ifs at h with hroot
  have hreal : t.IsReal q := by
    rw [canonicalize] at hq
    split_ifs at hq
    exact isReal_of_walk (.inl t.node_cwd) hq
  have hagain : t.canonicalize links (segments (absolute q)) = .ok q := by
    rw [segments_absolute]
    exact hreal.walk_names t.node_cwd
  rw [hagain] at h
  have hfile : t.node q = some .file ∧ absolute q = real := by
    rcases hreal with hdir | hfile
    · simp [FileTree.nodeAt, hdir] at h
    · simpa [FileTree.nodeAt, hfile] using h
  obtain ⟨hfile, rfl⟩ := hfile
  refine ⟨base, q, hbase, isPrefix_of_startsWith (by simpa using hroot), hfile, ?_⟩
  intro t' hfile' follow left
  rw [segments_absolute]
  exact IsReal.walk_names (.inr hfile') t'.node_cwd

/-- `linkedTree` with a file `a` in the directory `real`. -/
def filedTree : FileTree OsStr where
  node q :=
    if q = [utf8 "real".toList, utf8 "a".toList] then some .file else linkedTree.node q
  cwd := []
  node_nil := rfl
  node_cwd := rfl
  dir_of_child p n h := by
    by_cases hfile : p ++ [n] = [utf8 "real".toList] ++ [utf8 "a".toList]
    · rw [(List.append_inj' hfile rfl).1]
      decide
    · rw [if_neg (by simpa using hfile)] at h
      have hdir := linkedTree.dir_of_child p n h
      rw [if_neg, hdir]
      rintro rfl
      exact absurd hdir (by decide)

theorem source_under_root_linkedRoot :
    ∃ base q, filedTree.canonicalize 40 (segments (.parse (utf8 "in".toList))) = .ok base ∧
      base <+: q ∧ filedTree.node q = some .file := by
  have hok : (resolveSource (fun _ => "") (.parse (utf8 "in".toList)) 40 filedTree "a").isOk =
      true := by
    decide +kernel
  cases h : resolveSource (fun _ => "") (.parse (utf8 "in".toList)) 40 filedTree "a" with
  | error e =>
    rw [h] at hok
    cases hok
  | ok real =>
    obtain ⟨base, q, hbase, hq, hfile, -⟩ := source_under_root h
    exact ⟨base, q, hbase, hq, hfile⟩

end Zyris.Transfer
