import Zyris.Lib.Chunks
import Zyris.Transfer.Equiv.Inbox
import Zyris.Transfer.Equiv.Wash

/-!
# A partial file never shadows its destination

Next to a destination whose last component is a washed name, `part_path` is the path with `partName`
for its last component (`partPath_eq`): a prefix of the name, cut between two characters, and the
suffix of the transfer.
-/

namespace Zyris.Transfer

open Caps

variable {sha : Sha256} {transferId : List UInt8} {name : List Char}

theorem length_utf8 (s : List Char) : (utf8 s).length = len s := by
  induction s with
  | nil => rfl
  | cons c s ih => rw [utf8_cons, List.length_append, String.length_utf8EncodeChar, len_cons, ih]

/-! ### The name of a partial file -/

theorem partStem_isPrefix (sha : Sha256) (name : List Char) (transferId : List UInt8) :
    partStem sha name transferId <+: cutStem sha name transferId := by
  unfold partStem
  split_ifs
  · exact List.dropLast_prefix _
  · exact List.prefix_refl _

theorem noSeparator_append_partTail {stem : List Char} (h : NoSeparator stem) :
    NoSeparator (stem ++ partTail sha transferId) := by
  intro c hc
  rcases List.mem_append.mp hc with hc | hc
  · exact h c hc
  rcases List.mem_append.mp hc with hc | hc
  · rcases List.mem_cons.mp hc with rfl | hc
    · rfl
    · have hplain := (plain_of_mem_marker hc).1
      simp only [isPlain, Bool.and_eq_true, Bool.not_eq_true'] at hplain
      exact hplain.1.1.1
  · have hall : (".part".toList.all fun c => !isSeparator c) = true := by decide
    simpa using List.all_eq_true.mp hall c hc

theorem partTail_eq (sha : Sha256) (transferId : List UInt8) :
    partTail sha transferId = ('.' :: marker sha transferId ++ ".par".toList) ++ ['t'] := by
  rw [partTail, List.append_assoc]
  rfl

theorem len_partName_le (sha : Sha256) (name : List Char) (transferId : List UInt8) :
    len (partName sha name transferId) ≤ MAX_BYTES := by
  have hstem := len_le_of_isPrefix (partStem_isPrefix sha name transferId)
  have hcut := len_takeBytes_le (MAX_BYTES - len (partTail sha transferId)) name
  change len (cutStem sha name transferId) ≤ _ at hcut
  rw [partName_eq, len_append]
  rw [len_partTail] at hcut ⊢
  unfold MAX_BYTES at hcut ⊢
  omega

/-! ### Replacing the last component -/

theorem components_of_fileName {p : PathBuf} {part : OsStr} (h : p.fileName = some part) :
    p.components = p.pop.1.components ++ [.normal part] ∧ p.parent = some p.pop.1 := by
  unfold PathBuf.fileName at h
  rcases hlast : p.components.getLast? with _ | c <;> rw [hlast] at h
  · cases h
  cases c with
  | normal part' =>
    obtain rfl := Option.some.inj h
    have hpop : p.pop.1.components = p.components.dropLast ∧ p.pop.2 = true := by
      unfold PathBuf.pop
      split
      · simp_all
      · simp_all
      · exact ⟨rfl, rfl⟩
    refine ⟨?_, ?_⟩
    · rw [hpop.1]
      exact (List.dropLast_append_getLast? _ hlast).symm
    · rw [PathBuf.parent, if_pos hpop.2]
  | rootDir => cases h
  | curDir => cases h
  | parentDir => cases h

theorem fileName_of_components {p : PathBuf} {front : List Component} {part : OsStr}
    (h : p.components = front ++ [.normal part]) : p.fileName = some part := by
  rw [PathBuf.fileName, h, List.getLast?_concat]

section Dest

variable {dest : PathBuf} {stem : List Char} (hdest : dest.fileName = some (utf8 name))
include hdest

theorem components_withFileName (hstem : NoSeparator stem) :
    (dest.withFileName (utf8 (stem ++ partTail sha transferId))).components =
      dest.pop.1.components ++ [.normal (utf8 (stem ++ partTail sha transferId))] := by
  have hsep : NoSeparator (stem ++ partTail sha transferId) := noSeparator_append_partTail hstem
  rw [PathBuf.withFileName, hdest, Option.isSome_some, if_pos rfl]
  rw [partTail_eq, ← List.append_assoc] at hsep ⊢
  rw [PathBuf.join, parse_utf8 hsep rfl]
  rfl

theorem withFileName_eq_dest_iff (hstem : NoSeparator stem) :
    dest.withFileName (utf8 (stem ++ partTail sha transferId)) = dest ↔
      stem ++ partTail sha transferId = name := by
  rw [PathBuf.mk.injEq, components_withFileName hdest hstem, (components_of_fileName hdest).1]
  constructor
  · intro h
    have hlast := (List.append_inj_right' h rfl)
    exact utf8_injective (Component.normal.inj (List.cons.inj hlast).1)
  · rintro rfl
    rfl

/-- **`part_path`** is the destination with `partName` for its last component. -/
theorem partPath_eq (hname : NoSeparator name) (id : List Char) :
    partPath sha dest id = dest.withFileName (utf8 (partName sha name (utf8 id))) := by
  have hcut : NoSeparator (takeBytes (MAX_BYTES - len (partTail sha (utf8 id))) name) := by
    intro c hc
    exact hname c ((takeBytes_isPrefix _ _).subset hc)
  simp only [partPath, partName, hdest, Option.map_some, Option.getD_some, fromUtf8Lossy_utf8,
    withFileName_eq_dest_iff hdest hcut]
  split_ifs <;> rfl

end Dest

/-- **A partial file never shadows its destination.**  Next to a destination whose last component is
a washed name, the path of `part_path` has the same parent and one more component, a name of at most
255 bytes: the first characters of the destination's name, the marker of the transfer and `.part`.
It is not the destination. -/
theorem part_never_shadows (sha : Sha256) (dest : PathBuf) (proposed id : List Char)
    (hdest : dest.fileName = some (utf8 (safeName proposed))) :
    (partPath sha dest id).parent = dest.parent ∧ partPath sha dest id ≠ dest ∧
    ∃ dir stem part, dest.parent = some dir ∧ stem <+: safeName proposed ∧
      part = utf8 (stem ++ '.' :: marker sha (utf8 id) ++ ".part".toList) ∧
      (partPath sha dest id).components = dir.components ++ [.normal part] ∧
      part.length ≤ 255 := by
  obtain ⟨hname, -⟩ := safeName_spec proposed
  have hpre : partStem sha (safeName proposed) (utf8 id) <+: safeName proposed :=
    (partStem_isPrefix sha _ _).trans (takeBytes_isPrefix _ _)
  have hstem : NoSeparator (partStem sha (safeName proposed) (utf8 id)) := by
    intro c hc
    exact hname c (hpre.subset hc)
  have hpath : partPath sha dest id =
      dest.withFileName (utf8 (partName sha (safeName proposed) (utf8 id))) :=
    partPath_eq hdest hname id
  obtain ⟨hcomponents, hparent⟩ := components_of_fileName hdest
  have hpart : (partPath sha dest id).components = dest.pop.1.components ++
      [.normal (utf8 (partName sha (safeName proposed) (utf8 id)))] := by
    rw [hpath, partName_eq]
    exact components_withFileName hdest hstem
  have hlen : len (partName sha (safeName proposed) (utf8 id)) ≤ 255 := len_partName_le _ _ _
  refine ⟨?_, ?_, dest.pop.1, _, _, hparent, hpre, rfl, ?_, ?_⟩
  · -- a path ends in a name in one way
    obtain ⟨hlast, hpop⟩ := components_of_fileName (fileName_of_components hpart)
    rw [hparent, hpop, Option.some.injEq, PathBuf.mk.injEq]
    exact (List.append_inj' (hlast.symm.trans hpart) rfl).1
  · rw [hpath, partName_eq, Ne, withFileName_eq_dest_iff hdest hstem, ← partName_eq]
    exact partName_ne
  · rw [hpart, partName_eq, partTail, List.append_assoc]
  · rw [partName_eq, partTail] at hlen
    rwa [List.append_assoc, length_utf8]

/-- A name of 255 bytes that ends in the suffix of the transfer it is proposed for. -/
def planted : List Char :=
  List.replicate 233 'a' ++ partTail .sampled (utf8 ['x'])

/-- The destination of that transfer. -/
def plantedDest : PathBuf := PathBuf.ofRoot.join (utf8 (safeName planted))

theorem part_never_shadows_planted :
    safeName planted = planted ∧ plantedDest.fileName = some (utf8 (safeName planted)) ∧
      (partPath .sampled plantedDest ['x']).parent = plantedDest.parent ∧
      partPath .sampled plantedDest ['x'] ≠ plantedDest := by
  have hdest : plantedDest.fileName = some (utf8 (safeName planted)) :=
    fileName_of_components (components_join_safeName _ _)
  obtain ⟨hparent, hne, -⟩ := part_never_shadows .sampled plantedDest planted ['x'] hdest
  exact ⟨by decide +kernel, hdest, hparent, hne⟩

end Zyris.Transfer
