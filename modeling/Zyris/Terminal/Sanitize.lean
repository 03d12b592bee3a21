import Zyris.Lib.Utf8

/-!
# Stripping terminal control sequences

`crates/zyris-capkit/src/terminal/sanitize.rs`.  The scanner counts bytes and the copier slices
characters, so `stripControls` panics when the scanner hands it an index inside a character.
-/

namespace Zyris.Terminal

/-- Why a modelled function has no result: the source panics, or the model's fuel ran out. -/
inductive Fault
  | panic
  | outOfFuel
  deriving DecidableEq, Repr

def ESC : UInt8 := 0x1B

def BEL : UInt8 := 0x07

/-! ### Scanning one sequence -/

/-- The CSI arm of `scan_escape`: `rest` are the bytes from index `j` on. -/
def scanCsi : List UInt8 → Nat → Option Nat
  | [], _ => none
  | c :: rest, j => if 0x40 ≤ c ∧ c ≤ 0x7E then some (j + 1) else scanCsi rest (j + 1)

/-- The OSC/DCS/SOS/PM/APC arm of `scan_escape`: `rest` are the bytes from index `j` on. -/
def scanString : List UInt8 → Nat → Option Nat
  | [], _ => none
  | c :: rest, j =>
    if c = BEL then some (j + 1)
    else if c = ESC then
      match rest.head? with
      | none => none
      -- anything but the backslash of ST: another ESC has started, the string is cut here
      | some d => if d = byte '\\' then some (j + 2) else some (j + 1)
    else scanString rest (j + 1)

/-- The second byte opens a sequence that runs to BEL or ST. -/
def opensString (kind : UInt8) : Bool :=
  kind = byte ']' || kind = byte 'P' || kind = byte 'X' || kind = byte '^' || kind = byte '_'

/-- When `b[i]` is ESC, the index at which the sequence ends; `none` if it does not. -/
def scanEscape (b : List UInt8) (i : Nat) : Option Nat :=
  match b[i + 1]? with
  | none => none
  | some kind =>
    if kind = byte '[' then scanCsi (b.drop (i + 2)) (i + 2)
    else if opensString kind then scanString (b.drop (i + 2)) (i + 2)
    -- everything else is taken to be two bytes long
    else some (i + 2)

/-! ### The two callers -/

/-- How far back `trim_incomplete_escape` looks for an ESC. -/
def LOOKBACK : Nat := 256

/-- The last index holding `c`, as `rposition`. -/
def rposition (c : UInt8) (b : List UInt8) : Option Nat :=
  (b.reverse.findIdx? (· = c)).map fun k => b.length - 1 - k

/-- Length with a truncated escape sequence excluded. -/
def trimIncompleteEscape (b : List UInt8) : Nat :=
  let start := b.length - LOOKBACK
  match (rposition ESC (b.drop start)).map (· + start) with
  | none => b.length
  | some esc =>
    match scanEscape b esc with
    | some _ => b.length
    | none => esc

/-- The loop of `strip_controls` from index `i`, with the text copied so far. -/
def stripLoop (s : List Char) (b : List UInt8) : Nat → Nat → List Char → Except Fault (List Char)
  | 0, i, out => if i < b.length then .error .outOfFuel else .ok out
  | fuel + 1, i, out =>
    match b[i]? with
    | none => .ok out
    | some c =>
      if c = ESC then
        match scanEscape b i with
        | some stop => stripLoop s b fuel stop out
        | none => .ok out
      else if c = byte '\r' then
        if b[i + 1]? = some (byte '\n') then stripLoop s b fuel (i + 2) (out ++ ['\n'])
        else stripLoop s b fuel (i + 1) out
      else if c = byte '\n' ∨ c = byte '\t' then
        stripLoop s b fuel (i + 1) (out ++ [Char.ofNat c.toNat])
      else if c < 0x20 ∨ c = 0x7F then stripLoop s b fuel (i + 1) out
      else
        -- `s[i..]` panics off a boundary, and so does the `expect` on an empty slice
        match sliceFrom s i with
        | some (ch :: _) => stripLoop s b fuel (i + ch.utf8Size) (out ++ [ch])
        | _ => .error .panic

/-- The text left after control sequences are stripped out. -/
def stripControls (s : List Char) : Except Fault (List Char) :=
  stripLoop s (utf8 s) (utf8 s).length 0 []

end Zyris.Terminal
