import Zyris.Lib.Chunks
import Zyris.Fs.FileIo

/-!
# Paging through a file

A caller that goes on at `offset + len` while `truncated` is set walks over the chunks of the file,
each decoded for itself (`exists_walk`).  The text is the file's only when no page begins inside a
character.
-/

namespace Zyris.Fs

open Proto Caps

/-- A regular file that does not change. -/
structure Host.Holds (host : Host) (path : PathBuf) (file : File) : Prop where
  metadata : ∃ modified, host.metadata path = .ok ⟨file.bytes.length, false, modified⟩
  openFile : host.openFile path = .ok file

/-- Reading on while there is more: a whole walk from an offset, page by page. -/
inductive Walk (host : Host) (fs : LocalFileIo) (path : String) :
    Option Nat → List FileRead → Prop
  | last {offset : Option Nat} {page : FileRead} : fs.read host path offset none = .ok page →
    page.truncated = false → Walk host fs path offset [page]
  | more {offset : Option Nat} {page : FileRead} {pages : List FileRead} :
    fs.read host path offset none = .ok page → page.truncated = true →
    Walk host fs path (some (page.offset + page.len)) pages →
    Walk host fs path offset (page :: pages)

/-- The ranges of the pages follow one another from `start` to `stop`. -/
def Tiles : Nat → List FileRead → Nat → Prop
  | start, [], stop => start = stop
  | start, page :: pages, stop => page.offset = start ∧ Tiles (start + page.len) pages stop

variable {host : Host} {fs : LocalFileIo} {path : String} {file : File}

theorem Walk.unique {offset : Option Nat} {pages other : List FileRead}
    (h : Walk host fs path offset pages) (h' : Walk host fs path offset other) : other = pages := by
  induction h generalizing other with
  | last hread hlast =>
    cases h' with
    | last hread' _ => rw [hread] at hread'; rw [Except.ok.inj hread']
    | more hread' hmore _ =>
      rw [hread] at hread'
      rw [← Except.ok.inj hread', hlast] at hmore
      cases hmore
  | more hread hmore _ ih =>
    cases h' with
    | last hread' hlast =>
      rw [hread] at hread'
      rw [← Except.ok.inj hread', hmore] at hlast
      cases hlast
    | more hread' _ hrest =>
      rw [hread] at hread'
      obtain rfl := Except.ok.inj hread'
      rw [ih hrest]

theorem statPath_of_holds {p : PathBuf} (h : host.Holds p file) (display : String) :
    ∃ stat, statPath host display p = .ok stat ∧ stat.isDir = false ∧
      stat.size = file.bytes.length := by
  obtain ⟨modified, hmeta⟩ := h.metadata
  unfold statPath
  rw [hmeta]
  exact ⟨_, rfl, rfl, rfl⟩

theorem read_eq {stat : FileStat} (hstat : statPath host path (fs.resolve path) = .ok stat)
    (hdir : stat.isDir = false) (hopen : host.openFile (fs.resolve path) = .ok file)
    {start : Option Nat} (hstart : start.getD 0 ≤ file.maxOffset) :
    fs.read host path start none =
      .ok ⟨stat, fromUtf8Lossy (file.read (start.getD 0) READ_UNARY_MAX), start.getD 0,
        (file.read (start.getD 0) READ_UNARY_MAX).length,
        min (start.getD 0 + (file.read (start.getD 0) READ_UNARY_MAX).length) (2 ^ 64 - 1) <
          stat.size⟩ := by
  unfold LocalFileIo.read
  simp only [hstat, hopen, bind, Except.bind, Except.mapError, hdir, File.seek, if_pos hstart,
    Option.elim_none, Bool.false_eq_true, if_false]
  split <;> rfl

/-- A page of a regular file, from an offset in it. -/
theorem read_of_holds (h : host.Holds (fs.resolve path) file) {start : Option Nat}
    (hstart : start.getD 0 ≤ file.bytes.length) :
    ∃ page, fs.read host path start none = .ok page ∧ page.offset = start.getD 0 ∧
      page.content = fromUtf8Lossy ((file.bytes.drop (start.getD 0)).take READ_UNARY_MAX) ∧
      page.len = min READ_UNARY_MAX (file.bytes.length - start.getD 0) ∧
      (page.truncated = true ↔ start.getD 0 + READ_UNARY_MAX < file.bytes.length) := by
  obtain ⟨stat, hstat, hdir, hsize⟩ := statPath_of_holds h path
  have hle := file.length_le
  have hlt := file.maxOffset_lt
  have hlen : (file.read (start.getD 0) READ_UNARY_MAX).length =
      min READ_UNARY_MAX (file.bytes.length - start.getD 0) := by
    rw [File.read, List.length_take, List.length_drop]
  refine ⟨_, read_eq hstat hdir h.openFile (by omega), rfl, rfl, hlen, ?_⟩
  rw [decide_eq_true_eq, hlen, hsize]
  omega

/-- The walk from an offset ends, its ranges go to the end of the file, and its texts are those of
the chunks. -/
theorem exists_walk (h : host.Holds (fs.resolve path) file) {start : Option Nat}
    (hstart : start.getD 0 ≤ file.bytes.length) :
    ∃ pages, Walk host fs path start pages ∧
      Tiles (start.getD 0) pages file.bytes.length ∧
      pages.map FileRead.content =
        (chunks READ_UNARY_MAX (file.bytes.drop (start.getD 0))).map fromUtf8Lossy := by
  have hmax : 0 < READ_UNARY_MAX := by decide
  -- by the number of bytes left
  induction hleft : file.bytes.length - start.getD 0 using Nat.strong_induction_on
    generalizing start with
  | _ left ih =>
    obtain ⟨page, hread, hoffset, hcontent, hlen, htrunc⟩ := read_of_holds h hstart
    rw [chunks, List.length_drop]
    by_cases hmore : start.getD 0 + READ_UNARY_MAX < file.bytes.length
    · have hfull : page.len = READ_UNARY_MAX := by omega
      have hnext : (some (page.offset + page.len)).getD 0 = start.getD 0 + READ_UNARY_MAX := by
        rw [Option.getD_some, hoffset, hfull]
      have hin : (some (page.offset + page.len)).getD 0 ≤ file.bytes.length := by omega
      obtain ⟨pages, hwalk, htiles, htexts⟩ := ih _ (by omega) hin rfl
      refine ⟨page :: pages, .more hread (htrunc.mpr hmore) hwalk, ⟨hoffset, ?_⟩, ?_⟩
      · rw [hnext] at htiles
        rwa [hfull]
      · rw [if_pos (by omega), List.map_cons, List.map_cons, hcontent, htexts, hnext,
          List.drop_drop]
    · refine ⟨[page], .last hread (by simpa using htrunc.not.mpr hmore), ⟨hoffset, ?_⟩, ?_⟩
      · show start.getD 0 + page.len = file.bytes.length
        omega
      · rw [if_neg (by omega), List.map_singleton, List.map_singleton, hcontent,
          List.take_of_length_le (by rw [List.length_drop]; omega)]

/-- A walk from the start of a text file ends, its ranges partition the file, and it gives the text
back exactly when every page begins at a character boundary. -/
theorem walk_reassembles_iff {s : List Char} (h : host.Holds (fs.resolve path) file)
    (htext : file.bytes = utf8 s) {start : Option Nat} (hstart : start.getD 0 = 0) :
    ∃ pages, Walk host fs path start pages ∧
      (∀ other, Walk host fs path start other → other = pages) ∧
      Tiles 0 pages file.bytes.length ∧
      (pages.flatMap FileRead.content = s ↔
        ∀ k, k * READ_UNARY_MAX < file.bytes.length →
          (sliceFrom s (k * READ_UNARY_MAX)).isSome) := by
  have hin : start.getD 0 ≤ file.bytes.length := by omega
  obtain ⟨pages, hwalk, htiles, htexts⟩ := exists_walk h hin
  refine ⟨pages, hwalk, fun other hother => hwalk.unique hother, hstart ▸ htiles, ?_⟩
  rw [hstart, List.drop_zero, htext] at htexts
  rw [List.flatMap_def, htexts, ← List.flatMap_def, htext]
  exact flatMap_chunks_iff (by decide) s

/-- A host with this file under every path. -/
def Host.ofFile (file : File) : Host where
  metadata _ := .ok ⟨file.bytes.length, false, none⟩
  openFile _ := .ok file

theorem Host.holds_ofFile (file : File) (path : PathBuf) : (Host.ofFile file).Holds path file :=
  ⟨⟨none, rfl⟩, rfl⟩

/-- A text whose last character has two bytes and begins behind `n` others. -/
def asThenE (n : Nat) : List Char := List.replicate n 'a' ++ ['é']

theorem length_asThenE (n : Nat) : (utf8 (asThenE n)).length = n + 2 := by
  rw [asThenE, length_utf8_append, length_utf8_replicate (by decide)]
  rfl

/-- A file on a file system that takes every `off_t`. -/
def File.large (bytes : List UInt8) (h : bytes.length ≤ 2 ^ 63 - 1) : File :=
  ⟨bytes, 2 ^ 63 - 1, h, by omega⟩

/-- Its last character begins with the second page. -/
def wholeFile : File :=
  .large (utf8 (asThenE READ_UNARY_MAX)) (by rw [length_asThenE, READ_UNARY_MAX]; omega)

theorem walk_reassembles_iff_whole :
    ∃ pages, Walk (.ofFile wholeFile) ⟨.new⟩ "note.txt" none pages ∧
      Tiles 0 pages (READ_UNARY_MAX + 2) ∧
      pages.flatMap FileRead.content = asThenE READ_UNARY_MAX := by
  have hlen : wholeFile.bytes.length = READ_UNARY_MAX + 2 := length_asThenE READ_UNARY_MAX
  obtain ⟨pages, hwalk, -, htiles, htext⟩ := walk_reassembles_iff
    (Host.holds_ofFile wholeFile (LocalFileIo.resolve ⟨.new⟩ "note.txt")) rfl
    (s := asThenE READ_UNARY_MAX) (rfl : (none : Option Nat).getD 0 = 0)
  refine ⟨pages, hwalk, hlen ▸ htiles, htext.mpr fun k hk => ?_⟩
  have hpage : k = 0 ∨ k = 1 := by
    rw [hlen, READ_UNARY_MAX] at hk
    omega
  rcases hpage with rfl | rfl
  · rw [Nat.zero_mul]
    rfl
  · have hskip := sliceFrom_of_append (List.replicate READ_UNARY_MAX 'a') ['é']
    rw [length_utf8_replicate (by decide)] at hskip
    rw [Nat.one_mul, asThenE, hskip]
    rfl

/-- Its last character has one byte on the first page and one on the next. -/
def cutText : List Char := asThenE (READ_UNARY_MAX - 1)

theorem length_cutText : (utf8 cutText).length = READ_UNARY_MAX + 1 := by
  rw [cutText, length_asThenE]
  rfl

def cutFile : File := .large (utf8 cutText) (by rw [length_cutText, READ_UNARY_MAX]; omega)

/-- Paging through it ends, but gives another text. -/
theorem walk_cuts_character :
    ∃ pages, Walk (.ofFile cutFile) ⟨.new⟩ "note.txt" none pages ∧
      pages.flatMap FileRead.content ≠ cutText := by
  have hstart : (none : Option Nat).getD 0 ≤ cutFile.bytes.length := Nat.zero_le _
  obtain ⟨pages, hwalk, -, htexts⟩ :=
    exists_walk (Host.holds_ofFile cutFile (LocalFileIo.resolve ⟨.new⟩ "note.txt")) hstart
  refine ⟨pages, hwalk, ?_⟩
  intro heq
  rw [List.flatMap_def, htexts, ← List.flatMap_def] at heq
  have hcut := (flatMap_chunks_iff (by decide) cutText).mp heq 1 (by rw [length_cutText]; omega)
  -- the page begins one byte into the last character
  have hinside : sliceFrom cutText (1 * READ_UNARY_MAX) = none := by
    have hskip := sliceFrom_append (List.replicate (READ_UNARY_MAX - 1) 'a') ['é'] 1
    rw [length_utf8_replicate (by decide)] at hskip
    exact hskip.trans (sliceFrom_inside 'é' [] (by decide) (by decide))
  rw [hinside] at hcut
  cases hcut

end Zyris.Fs
