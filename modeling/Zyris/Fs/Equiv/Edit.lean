import Zyris.Fs.Edit
import Zyris.Fs.Equiv.Read

/-!
# An edit without `replace_all`

An edit replaces what the search from left to right finds, and goes ahead when there is one match.
Matches do not overlap and occurrences may: `aa` has one match in `aaa` and stands there twice.
-/

namespace Zyris.Fs

open Proto Caps

theorem fromUtf8_eq_some_iff {bytes : List UInt8} {text : List Char} :
    fromUtf8 bytes = some text ↔ bytes = utf8 text := by
  constructor
  · intro h
    dsimp only [fromUtf8] at h
    split_ifs at h with heq
    rw [← Option.some.inj h, heq]
  · rintro rfl
    rw [fromUtf8, fromUtf8Lossy_utf8]
    exact if_pos rfl

theorem utf8_toList_ne_nil {s : String} (h : s ≠ "") : utf8 s.toList ≠ [] := by
  intro hnil
  have htext := utf8_injective (hnil.trans utf8_nil.symm)
  exact h (String.toList_eq_nil_iff.mp htext)

variable {σ : Type} {disk : Disk σ} {fs : LocalFileIo} {path oldString newString : String}
  {replaceAll : Bool} {s s' : σ} {host : Host} {file : File} {text : List Char}

/-- What is promised of the edits that replace `oldString` in a file. -/
structure NeverGuesses (file : File) (oldString : String) : Prop where
  -- Without `replace_all`, the text occurs once and that occurrence is replaced.
  once : ∀ {σ : Type} {disk : Disk σ} {fs : LocalFileIo} {path newString : String} {s s' : σ}
    {edit : FileEdit}, (disk.host s).Holds (fs.resolve path) file →
    fs.edit disk path oldString newString false s = (.ok edit, s') →
    ∃ i, (∀ j, OccursAt (utf8 oldString.toList) file.bytes j ↔ j = i) ∧
      disk.write (fs.resolve path) (file.bytes.take i ++ utf8 newString.toList ++
        file.bytes.drop (i + (utf8 oldString.toList).length)) s = (.ok (), s')
  -- A text not there is refused, and without `replace_all` one there twice apart; the state
  -- stays.
  refused : ∀ {σ : Type} {disk : Disk σ} {fs : LocalFileIo} {path newString : String}
    {replaceAll : Bool} {s : σ}, (disk.host s).Holds (fs.resolve path) file →
    (∀ i, ¬ OccursAt (utf8 oldString.toList) file.bytes i) ∨
      (replaceAll = false ∧ ∃ i j, OccursAt (utf8 oldString.toList) file.bytes i ∧
        OccursAt (utf8 oldString.toList) file.bytes j ∧
        i + (utf8 oldString.toList).length ≤ j) →
    ∃ err, fs.edit disk path oldString newString replaceAll s = (.error err, s)
  -- An edit that fails leaves the state as it was, or what the write of the replaced text makes of
  -- it.
  failed : ∀ {σ : Type} {disk : Disk σ} {fs : LocalFileIo} {path newString : String}
    {replaceAll : Bool} {s s' : σ} {err : WireError},
    fs.edit disk path oldString newString replaceAll s = (.error err, s') →
    s' = s ∨ ∃ read newText count, (disk.host s).openFile (fs.resolve path) = .ok read ∧
      Scan (utf8 oldString.toList) (utf8 newString.toList) read.bytes newText count ∧
      count ≠ 0 ∧ (replaceAll = false → count = 1) ∧
      s' = (disk.write (fs.resolve path) newText s).2
  -- With `replace_all`, the count is that of the replacements in the text written.
  counted : ∀ {σ : Type} {disk : Disk σ} {fs : LocalFileIo} {path newString : String} {s s' : σ}
    {edit : FileEdit}, (disk.host s).Holds (fs.resolve path) file →
    fs.edit disk path oldString newString true s = (.ok edit, s') →
    ∃ newText, Scan (utf8 oldString.toList) (utf8 newString.toList) file.bytes newText
      edit.replaced ∧ disk.write (fs.resolve path) newText s = (.ok (), s')

/-! ### What is written -/

/-- An edit comes to its write with a text it has read, and has counted its matches. -/
theorem edited_eq_ok_iff (hold : oldString ≠ "") {newText : List UInt8} {count : Nat} :
    fs.edited host path oldString newString replaceAll = .ok (newText, count) ↔
      ∃ metadata file text, host.metadata (fs.resolve path) = .ok metadata ∧
        metadata.isDir = false ∧ host.openFile (fs.resolve path) = .ok file ∧
        file.bytes = utf8 text ∧
        newText = replace file.bytes (utf8 oldString.toList) (utf8 newString.toList) ∧
        count = (matchIndices (utf8 oldString.toList) file.bytes).length ∧ count ≠ 0 ∧
        (replaceAll = false → count ≤ 1) := by
  constructor
  · intro h
    simp only [LocalFileIo.edited, if_neg hold, bind, Except.bind] at h
    cases hmeta : host.metadata (fs.resolve path) with
    | error e => rw [hmeta] at h; cases h
    | ok metadata =>
    simp only [hmeta, Except.mapError] at h
    by_cases hdir : metadata.isDir = true
    · rw [if_pos hdir] at h; cases h
    rw [if_neg hdir] at h
    cases hopen : host.openFile (fs.resolve path) with
    | error e => rw [hopen] at h; cases h
    | ok file =>
    simp only [hopen] at h
    cases htext : fromUtf8 file.bytes with
    | none => rw [htext] at h; cases h
    | some text =>
    rw [htext] at h
    have hfile := fromUtf8_eq_some_iff.mp htext
    simp only [← hfile] at h
    split_ifs at h with h0 h1 hall <;> obtain ⟨rfl, rfl⟩ := Prod.mk.inj (Except.ok.inj h)
    · exact ⟨metadata, file, text, rfl, by simpa using hdir, rfl,
        hfile, rfl, rfl, h0, fun hnot => by rw [hall] at hnot; cases hnot⟩
    -- there is one match, and one is what `replacen` takes
    have hone : (matchIndices (utf8 oldString.toList) file.bytes).length ≤ 1 := by
      by_contra hlt
      exact h1 ⟨by omega, by simpa using hall⟩
    refine ⟨metadata, file, text, rfl, by simpa using hdir, rfl,
      hfile, ?_, rfl, h0, fun _ => hone⟩
    rw [replacen, List.take_of_length_le hone, ← replace]
  · rintro ⟨metadata, file, text, hmeta, hdir, hopen, hfile, rfl, rfl, h0, hone⟩
    have hread : fromUtf8 file.bytes = some text := fromUtf8_eq_some_iff.mpr hfile
    simp only [LocalFileIo.edited, if_neg hold, hmeta, hdir, hopen, Except.mapError, bind,
      Except.bind, hread, ← hfile, Bool.false_eq_true, if_false, if_neg h0]
    cases replaceAll with
    | true => simp
    | false =>
      have hle := hone rfl
      simp only [Nat.not_lt.mpr hle, false_and, if_false, Bool.false_eq_true, replacen, replace,
        List.take_of_length_le hle]

/-- The text an edit is about to write is that of the scan. -/
theorem scan_of_edited (hold : oldString ≠ "") {newText : List UInt8} {count : Nat}
    (h : fs.edited host path oldString newString replaceAll = .ok (newText, count)) :
    ∃ file, host.openFile (fs.resolve path) = .ok file ∧
      Scan (utf8 oldString.toList) (utf8 newString.toList) file.bytes newText count ∧
      count ≠ 0 ∧ (replaceAll = false → count = 1) := by
  obtain ⟨-, file, -, -, -, hopen, -, rfl, rfl, h0, hone⟩ := (edited_eq_ok_iff hold).mp h
  exact ⟨file, hopen, scan_replace (utf8_toList_ne_nil hold) _ _, h0,
    fun hall => Nat.le_antisymm (hone hall) (Nat.pos_of_ne_zero h0)⟩

theorem edit_refused (hs : (disk.host s).Holds (fs.resolve path) file) (hold : oldString ≠ "")
    (h : (∀ i, ¬ OccursAt (utf8 oldString.toList) file.bytes i) ∨
      (replaceAll = false ∧ ∃ i j, OccursAt (utf8 oldString.toList) file.bytes i ∧
        OccursAt (utf8 oldString.toList) file.bytes j ∧
        i + (utf8 oldString.toList).length ≤ j)) :
    ∃ err, fs.edit disk path oldString newString replaceAll s = (.error err, s) := by
  rcases hedited : fs.edited (disk.host s) path oldString newString replaceAll with err | written
  · exact ⟨err, by rw [LocalFileIo.edit, hedited]⟩
  obtain ⟨newText, count⟩ := written
  obtain ⟨file', hopen, hscan, h0, hone⟩ := scan_of_edited hold hedited
  obtain rfl := Except.ok.inj (hs.openFile.symm.trans hopen)
  obtain hnone | ⟨hall, i, j, hi, hj, hij⟩ := h
  · obtain ⟨n, rfl⟩ := Nat.exists_eq_succ_of_ne_zero h0
    cases hscan with
    | next hi _ _ => exact absurd hi (hnone _)
  · rw [hone hall] at hscan
    obtain ⟨k, -, -, hover⟩ := hscan.one
    have hi' := hover i hi
    have hj' := hover j hj
    omega

theorem edit_of_error (hold : oldString ≠ "") {err : WireError}
    (h : fs.edit disk path oldString newString replaceAll s = (.error err, s')) :
    s' = s ∨ ∃ read newText count, (disk.host s).openFile (fs.resolve path) = .ok read ∧
      Scan (utf8 oldString.toList) (utf8 newString.toList) read.bytes newText count ∧
      count ≠ 0 ∧ (replaceAll = false → count = 1) ∧
      s' = (disk.write (fs.resolve path) newText s).2 := by
  rw [LocalFileIo.edit] at h
  split at h
  · exact .inl (congrArg Prod.snd h).symm
  next newText count hok =>
  obtain ⟨read, hopen, hscan, h0, hone⟩ := scan_of_edited hold hok
  refine .inr ⟨read, newText, count, hopen, hscan, h0, hone, ?_⟩
  split at h
  · next hw => rw [hw]; exact (congrArg Prod.snd h).symm
  · next hw => rw [hw]; exact (congrArg Prod.snd h).symm

/-- An edit that succeeds has written the scan's replacements: one without `replace_all`. -/
theorem edit_of_ok (hs : (disk.host s).Holds (fs.resolve path) file) (hold : oldString ≠ "")
    {edit : FileEdit}
    (h : fs.edit disk path oldString newString replaceAll s = (.ok edit, s')) :
    ∃ newText, Scan (utf8 oldString.toList) (utf8 newString.toList) file.bytes newText
        edit.replaced ∧
      disk.write (fs.resolve path) newText s = (.ok (), s') ∧
      (replaceAll = false → edit.replaced = 1) := by
  rw [LocalFileIo.edit] at h
  split at h
  · cases congrArg Prod.fst h
  next newText count hok =>
  obtain ⟨file', hopen, hscan, -, hone⟩ := scan_of_edited hold hok
  obtain rfl := Except.ok.inj (hs.openFile.symm.trans hopen)
  split at h
  · cases congrArg Prod.fst h
  next s₁ hw =>
  obtain rfl : s₁ = s' := congrArg Prod.snd h
  cases hstat : statPath (disk.host s₁) path (fs.resolve path) with
  | error err => rw [hstat] at h; cases congrArg Prod.fst h
  | ok stat =>
    rw [hstat] at h
    obtain rfl := Except.ok.inj (congrArg Prod.fst h)
    exact ⟨newText, hscan, hw, hone⟩

/-! ### When it is no guess -/

/-- A disk with a file and nothing else on it. -/
def Disk.ofFile : Disk File where
  host := Host.ofFile
  write _ bytes s :=
    if h : bytes.length ≤ s.maxOffset then (.ok (), ⟨bytes, s.maxOffset, h, s.maxOffset_lt⟩)
    else (.error ⟨.other, "File too large (os error 27)"⟩, s)

/-- Deleting the one match of a text works. -/
theorem edit_ofFile (hfile : file.bytes = utf8 text) (hold : oldString ≠ "")
    (hone : (matchIndices (utf8 oldString.toList) file.bytes).length = 1) :
    ∃ edit s', LocalFileIo.edit ⟨.new⟩ .ofFile "" oldString "" false file = (.ok edit, s') := by
  have hscan := scan_replace (utf8_toList_ne_nil hold) [] file.bytes
  rw [hone] at hscan
  obtain ⟨i, -, hout, -⟩ := hscan.one
  have hlen : (replace file.bytes (utf8 oldString.toList) []).length ≤ file.maxOffset := by
    have := file.length_le
    rw [hout, List.append_nil, List.length_append, List.length_take, List.length_drop]
    omega
  have hholds := Host.holds_ofFile file (LocalFileIo.resolve ⟨.new⟩ "")
  obtain ⟨modified, hmeta⟩ := hholds.metadata
  have hedited : LocalFileIo.edited ⟨.new⟩ (Host.ofFile file) "" oldString "" false =
      .ok (replace file.bytes (utf8 oldString.toList) [], 1) :=
    (edited_eq_ok_iff hold).mpr ⟨_, file, text, hmeta, rfl, hholds.openFile, hfile, rfl, hone.symm,
      one_ne_zero, fun _ => le_rfl⟩
  simp only [LocalFileIo.edit, Disk.ofFile, hedited, dif_pos hlen]
  exact ⟨_, _, rfl⟩

/-- An edit is no guess exactly when two occurrences always come with two that do not overlap. -/
theorem edit_never_guesses_iff (hfile : file.bytes = utf8 text) (hold : oldString ≠ "") :
    NeverGuesses file oldString ↔
      ∀ i j, OccursAt (utf8 oldString.toList) file.bytes i →
        OccursAt (utf8 oldString.toList) file.bytes j → i < j →
        ∃ k l, OccursAt (utf8 oldString.toList) file.bytes k ∧
          OccursAt (utf8 oldString.toList) file.bytes l ∧
          k + (utf8 oldString.toList).length ≤ l := by
  constructor
  · intro h i j hi hj hij
    have hscan := scan_replace (utf8_toList_ne_nil hold) [] file.bytes
    rcases hcount : (matchIndices (utf8 oldString.toList) file.bytes).length with _ | n
    · rw [hcount] at hscan
      exact absurd hi (hscan.not_occursAt i)
    cases n with
    | zero =>
      -- the edit goes ahead, so there is one occurrence only
      obtain ⟨edit, s', hedit⟩ := edit_ofFile hfile hold hcount
      obtain ⟨k, honce, -⟩ := h.once (Host.holds_ofFile file _) hedit
      have hik := (honce i).mp hi
      have hjk := (honce j).mp hj
      omega
    | succ n =>
      rw [hcount] at hscan
      exact hscan.apart
  · intro h
    refine ⟨fun hs hedit => ?_, fun hs => edit_refused hs hold, edit_of_error hold,
      fun hs hedit => ?_⟩
    · obtain ⟨newText, hscan, hw, hone⟩ := edit_of_ok hs hold hedit
      rw [hone rfl] at hscan
      obtain ⟨i, hi, rfl, hover⟩ := hscan.one
      refine ⟨i, fun j => ⟨fun hj => ?_, fun hji => hji ▸ hi⟩, hw⟩
      by_contra hne
      have hij := hover j hj
      obtain ⟨k, l, hk, hl, hkl⟩ := h i j hi hj (by omega)
      have hk' := hover k hk
      have hl' := hover l hl
      omega
    · obtain ⟨newText, hscan, hw, -⟩ := edit_of_ok hs hold hedit
      exact ⟨newText, hscan, hw⟩

theorem edit_never_guesses_iff_apart :
    NeverGuesses (.large (utf8 ['a', 'b', 'a', 'b']) (by decide)) "ab" :=
  (edit_never_guesses_iff (Eq.refl (utf8 ['a', 'b', 'a', 'b'])) (by decide)).mpr
    fun _ _ _ _ _ => ⟨0, 2, by decide, by decide, by decide⟩

def overlapping : File := .large (utf8 ['a', 'a', 'a']) (by decide)

/-- `aa` stands in `aaa` twice, and the edit takes the first. -/
theorem edit_guesses : ¬ NeverGuesses overlapping "aa" := by
  intro h
  have hedit : LocalFileIo.edit ⟨.new⟩ .ofFile "note.txt" "aa" "b" false overlapping =
      (.ok ⟨⟨"note.txt", 2, false, none⟩, 1⟩, .large (utf8 ['b', 'a']) (by decide)) := rfl
  obtain ⟨i, honce, -⟩ := h.once (Host.holds_ofFile overlapping _) hedit
  have h0 := (honce 0).mp (by decide)
  have h1 := (honce 1).mp (by decide)
  omega

end Zyris.Fs
