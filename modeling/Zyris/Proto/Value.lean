import Mathlib.Algebra.Order.Ring.Int
import Mathlib.Tactic.Common

/-!
# MessagePack values

`rmpv::Value`.  A string may hold bytes that are no UTF-8, in which case `as_str` has nothing to
give; floats are their bit patterns; a map is the list of its entries in wire order, duplicates
included.
-/

namespace Zyris.Proto

structure Integer where
  val : Int
  lo : -2 ^ 63 ≤ val
  hi : val < 2 ^ 64
  deriving DecidableEq

/-- `rmpv::Utf8String`: a string, or the bytes that failed to be one. -/
inductive Utf8String
  | valid (s : String)
  | invalid (bytes : List UInt8)
  deriving DecidableEq, Repr

/-- A MessagePack value. -/
inductive Value
  | nil
  | boolean (b : Bool)
  | integer (i : Integer)
  | f32 (bits : UInt32)
  | f64 (bits : UInt64)
  | string (s : Utf8String)
  | binary (bytes : List UInt8)
  | array (items : List Value)
  | map (entries : List (Value × Value))
  | ext (tag : Int) (bytes : List UInt8)

def Utf8String.asStr : Utf8String → Option String
  | .valid s => some s
  | .invalid _ => none

def Integer.asU64 (i : Integer) : Option Nat := if 0 ≤ i.val then some i.val.toNat else none

def Integer.asI64 (i : Integer) : Option Int := if i.val < 2 ^ 63 then some i.val else none

/-- `Value::from` on a `u64` (and, through it, a `u32`). -/
def Integer.ofU64 (n : Nat) (h : n < 2 ^ 64) : Integer where
  val := n
  lo := by omega
  hi := by exact_mod_cast h

/-- `Value::from` on a `&str`. -/
def Value.ofStr (s : String) : Value := .string (.valid s)

@[simp] theorem Integer.asU64_ofU64 (n : Nat) (h : n < 2 ^ 64) :
    (Integer.ofU64 n h).asU64 = some n := by
  simp [Integer.asU64, Integer.ofU64]

end Zyris.Proto
