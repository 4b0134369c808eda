import Verlib.Packed.Fields

/-!
# Scalar values as 64-bit words

The tagged cells and the logs hold 64-bit words, and the values of a program go through the conversions
`(size_t) v` and `(V) x`. A pointer keeps its bits, an unsigned integer and a boolean are extended with zeros, and
a signed integer is extended with its sign. Back, an integer keeps its low bits and a boolean is whether the word
is not zero. Enumerations convert as their integers do.
-/

namespace Verlib.Flock

/-- `size_t`. -/
abbrev IT := BitVec 64

/-- The scalar types; an integer type has a number of bytes. -/
inductive Scalar where
  | pointer
  | bool
  | unsigned (bytes : Nat)
  | signed (bytes : Nat)
  deriving DecidableEq

namespace Scalar

/-- The values of a type. -/
abbrev Val : Scalar → Type
  | pointer => IT
  | bool => Bool
  | unsigned bytes => BitVec (8 * bytes)
  | signed bytes => BitVec (8 * bytes)

/-- `(size_t) v`. -/
def toWord : (s : Scalar) → s.Val → IT
  | pointer, p => p
  | bool, b => cond b 1#64 0#64
  | unsigned _, x => BitVec.setWidth 64 x
  | signed _, x => BitVec.signExtend 64 x

/-- `(V) x`. -/
def ofWord : (s : Scalar) → IT → s.Val
  | pointer, x => x
  | bool, x => decide (x ≠ 0#64)
  | unsigned bytes, x => BitVec.setWidth (8 * bytes) x
  | signed bytes, x => BitVec.setWidth (8 * bytes) x

/-- Pointers are assumed to fit within 48 bits; all other values are what their type allows. -/
def Admits : (s : Scalar) → s.Val → Prop
  | pointer, p => BitVec.toNat p < 2 ^ 48
  | bool, _ => True
  | unsigned _, _ => True
  | signed _, _ => True

/-- A value of a signed type below zero. -/
def IsNegative : (s : Scalar) → s.Val → Prop
  | signed _, x => BitVec.msb x = true
  | pointer, _ => False
  | bool, _ => False
  | unsigned _, _ => False

instance : (s : Scalar) → (v : s.Val) → Decidable (s.IsNegative v)
  | signed _, x => inferInstanceAs (Decidable (BitVec.msb x = true))
  | pointer, _ => inferInstanceAs (Decidable False)
  | bool, _ => inferInstanceAs (Decidable False)
  | unsigned _, _ => inferInstanceAs (Decidable False)

/-- The values that can be stored. -/
def Value (s : Scalar) : Type := { v : s.Val // s.Admits v }

variable {s : Scalar} {v : s.Val}

end Scalar

end Verlib.Flock
