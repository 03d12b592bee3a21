import Zyris.Lib.Utf8

/-!
# Resolving a path under a node's root

`crates/zyris-caps/src/path.rs`, over `std::path` on Unix: an `OsStr` is any string of bytes, and a
`PathBuf` is what `components` gives of it.  `Component::Prefix` occurs on Windows only and is left
out.
-/

namespace Zyris.Caps

abbrev OsStr := List UInt8

inductive Component
  | rootDir
  | curDir
  | parentDir
  | normal (part : OsStr)
  deriving DecidableEq

/-- A component that stands only at the front of a path. -/
def Component.isLeading : Component → Bool
  | .rootDir | .curDir => true
  | .parentDir | .normal _ => false

/-- `PathBuf`, by its components: a root or a `.` can only be the first of them. -/
structure PathBuf where
  components : List Component
  leading : ∀ c ∈ components.tail, c.isLeading = false
  deriving DecidableEq

namespace PathBuf

def new : PathBuf := ⟨[], by simp⟩

def ofRoot : PathBuf := ⟨[.rootDir], by simp⟩

/-- The component between two slashes; empty ones and `.` are none. -/
def parsePiece (piece : OsStr) : Option Component :=
  if piece = [] ∨ piece = [byte '.'] then none
  else if piece = [byte '.', byte '.'] then some .parentDir
  else some (.normal piece)

theorem isLeading_of_parsePiece {piece : OsStr} {c : Component} (h : parsePiece piece = some c) :
    c.isLeading = false := by
  unfold parsePiece at h
  split_ifs at h <;> cases h <;> rfl

/-- What stands in front of the pieces of a path: its root, or a `.` the path begins with. -/
def front (pieces : List OsStr) (rooted : Bool) : List Component :=
  if rooted then [.rootDir] else if pieces.head? = some [byte '.'] then [.curDir] else []

theorem leading_parse (pieces : List OsStr) (rooted : Bool) :
    ∀ c ∈ (front pieces rooted ++ pieces.filterMap parsePiece).tail, c.isLeading = false := by
  intro c hc
  have hpiece : c ∈ pieces.filterMap parsePiece → c.isLeading = false := by
    intro hm
    obtain ⟨piece, -, hp⟩ := List.mem_filterMap.mp hm
    exact isLeading_of_parsePiece hp
  unfold front at hc
  split_ifs at hc
  · exact hpiece hc
  · exact hpiece hc
  · exact hpiece (List.mem_of_mem_tail hc)

/-- `Path::new`, with what its `components` are. -/
def parse (path : OsStr) : PathBuf :=
  let pieces := path.splitOn (byte '/')
  let rooted := path.head? = some (byte '/')
  ⟨front pieces rooted ++ pieces.filterMap parsePiece, leading_parse pieces rooted⟩

def hasRoot (p : PathBuf) : Bool := p.components.head? = some .rootDir

/-- `PathBuf::push` of a name or of `..`. -/
def append (p : PathBuf) (c : Component) (h : c.isLeading = false) : PathBuf where
  components := p.components ++ [c]
  leading d hd := by
    cases hp : p.components with
    | nil => simp [hp] at hd
    | cons e es =>
      simp only [hp, List.cons_append, List.tail_cons, List.mem_append, List.mem_singleton] at hd
      obtain hd | rfl := hd
      · exact p.leading d (by simp [hp, hd])
      · exact h

/-- `PathBuf::push`: what has a root takes the place of everything. -/
def push (p : PathBuf) : Component → PathBuf
  | .rootDir => ofRoot
  | .curDir => if p.components.isEmpty then ⟨[.curDir], by simp⟩ else p
  | .parentDir => p.append .parentDir rfl
  | .normal part => p.append (.normal part) rfl

def join (p : PathBuf) (path : OsStr) : PathBuf := (parse path).components.foldl push p

def startsWith (p base : PathBuf) : Bool := base.components.isPrefixOf p.components

/-- The components of `Path::strip_prefix`. -/
def stripBase (p base : PathBuf) : Option (List Component) :=
  if p.startsWith base then some (p.components.drop base.components.length) else none

/-- `PathBuf::pop`: `false` where there is no parent, at a root and at the empty path. -/
def pop (p : PathBuf) : PathBuf × Bool :=
  match p.components.getLast? with
  | none | some .rootDir => (p, false)
  | some _ =>
    (⟨p.components.dropLast, fun c hc => p.leading c (by
      rw [List.tail_dropLast] at hc
      exact (List.dropLast_sublist _).subset hc)⟩, true)

def parent (p : PathBuf) : Option PathBuf := if p.pop.2 then some p.pop.1 else none

def fileName (p : PathBuf) : Option OsStr :=
  match p.components.getLast? with
  | some (.normal part) => some part
  | _ => none

def withFileName (p : PathBuf) (name : OsStr) : PathBuf :=
  let dir := if p.fileName.isSome then p.pop.1 else p
  dir.join name

end PathBuf

/-- The loop body of `resolve_under`. -/
def resolveComponent (resolved : PathBuf) : Component → PathBuf
  | .rootDir => resolved.push .rootDir
  | .curDir => resolved
  | .parentDir =>
    let (popped, ok) := resolved.pop
    if !ok && !popped.hasRoot then popped.push .parentDir else popped
  | .normal part => resolved.push (.normal part)

def resolveUnder (root : PathBuf) (path : OsStr) : PathBuf :=
  let requested := PathBuf.parse path
  let resolved := if requested.hasRoot then PathBuf.new else root
  requested.components.foldl resolveComponent resolved

end Zyris.Caps
