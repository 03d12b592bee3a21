import Mathlib.Algebra.Order.Ring.Int
import Mathlib.Data.List.Basic

/-!
# File names

`crates/zyris-capkit/src/transfer/name.rs`, and `part_path` of `peer.rs`.  A `str` is the list of
its characters, `len` its length in bytes.  `Sha256` is the digest as lowercase hex, code outside
the model.
-/

namespace Zyris.Transfer

/-- The digits of `hex::encode`. -/
def HEX_DIGITS : List Char := "0123456789abcdef".toList

/-- `hex::encode(Sha256::digest(..))`. -/
structure Sha256 where
  hex : List UInt8 → List Char
  length_hex : ∀ bytes, (hex bytes).length = 64
  mem_digits : ∀ bytes, ∀ c ∈ hex bytes, c ∈ HEX_DIGITS

def len (s : List Char) : Nat := (s.map Char.utf8Size).sum

/-! ### `safe_name` -/

def MAX_BYTES : Nat := 255

def RESERVED_NAMES : List String :=
  ["CON", "PRN", "AUX", "NUL", "COM1", "COM2", "COM3", "COM4", "COM5", "COM6", "COM7", "COM8",
    "COM9", "LPT1", "LPT2", "LPT3", "LPT4", "LPT5", "LPT6", "LPT7", "LPT8", "LPT9"]

/-- `char::is_control`: the general category `Cc`. -/
def isControl (c : Char) : Bool := c.toNat < 0x20 || (0x7f ≤ c.toNat && c.toNat < 0xa0)

/-- `char::is_whitespace`: the property `White_Space`. -/
def isWhitespace (c : Char) : Bool :=
  let n := c.toNat
  (0x9 ≤ n && n ≤ 0xd) || n = 0x20 || n = 0x85 || n = 0xa0 || n = 0x1680 ||
    (0x2000 ≤ n && n ≤ 0x200a) || n = 0x2028 || n = 0x2029 || n = 0x202f || n = 0x205f || n = 0x3000

def trimEndMatches (p : Char → Bool) (s : List Char) : List Char :=
  (s.reverse.dropWhile p).reverse

def trim (s : List Char) : List Char := trimEndMatches isWhitespace (s.dropWhile isWhitespace)

def isSeparator (c : Char) : Bool := c = '/' || c = '\\'

def isDotOrSpace (c : Char) : Bool := c = '.' || c = ' '

def toAsciiLowercase (c : Char) : Char :=
  if 'A' ≤ c ∧ c ≤ 'Z' then Char.ofNat (c.toNat + 32) else c

def eqIgnoreAsciiCase (s t : List Char) : Bool :=
  s.map toAsciiLowercase = t.map toAsciiLowercase

def avoidsReservedNames (name : List Char) : List Char :=
  let stem := name.takeWhile (· ≠ '.')
  if RESERVED_NAMES.any fun r => eqIgnoreAsciiCase r.toList stem then
    -- what follows the stem is empty, or the first dot and the extension
    stem ++ '_' :: name.drop stem.length
  else name

/-- The loop that pushes characters while they fit in `keep` bytes. -/
def takeBytes : Nat → List Char → List Char
  | _, [] => []
  | keep, c :: s => if c.utf8Size ≤ keep then c :: takeBytes (keep - c.utf8Size) s else []

/-- The extension `fits_length` keeps: what stands from the last dot on, when that is short. -/
def shortExtension (name : List Char) : List Char :=
  let extension := (name.reverse.takeWhile (· ≠ '.')).reverse
  if extension.length < name.length ∧ len ('.' :: extension) < 16 then '.' :: extension else []

def fitsLength (name : List Char) : List Char :=
  if len name ≤ MAX_BYTES then name
  else
    let extension := shortExtension name
    takeBytes (MAX_BYTES - len extension) name ++ extension

def orFile (name : List Char) : List Char := if name.isEmpty then "file".toList else name

def safeName (proposed : List Char) : List Char :=
  let lastChunk := (proposed.reverse.takeWhile fun c => !isSeparator c).reverse
  let sanitized := trimEndMatches isDotOrSpace
    (trim (lastChunk.filter fun c => c ≠ ':' && !isControl c))
  if sanitized.isEmpty then "file".toList
  else orFile (trimEndMatches isDotOrSpace (fitsLength (avoidsReservedNames sanitized)))

/-- The component of the inbox that `Inbox::resolve` files a peer under. -/
def peerDir (peer : List Char) : List Char :=
  safeName (peer.map fun c => if c = '/' then '_' else c)

/-! ### `part_path` -/

/-- The first 16 hex digits of the id's digest. -/
def marker (sha : Sha256) (transferId : List UInt8) : List Char := (sha.hex transferId).take 16

def partTail (sha : Sha256) (transferId : List UInt8) : List Char :=
  '.' :: marker sha transferId ++ ".part".toList

/-- `part_path`, next to the destination `dest`. -/
def partName (sha : Sha256) (dest : List Char) (transferId : List UInt8) : List Char :=
  let tail := partTail sha transferId
  let stem := takeBytes (MAX_BYTES - len tail) dest
  if stem ++ tail = dest then stem.dropLast ++ tail else stem ++ tail

end Zyris.Transfer
