import Mathlib.Data.Nat.Bitwise

/-!
# Words of two fields

A word that packs two values is split at a bit `p`: `high p x` and `low p x` are the two values as numbers. The
bitwise operations act on the two fields separately, and a mask of the low bits, or its complement, keeps one of
them.
-/

namespace Packed

variable {w p : Nat}

/-- The field from bit `p` on. -/
def high (p : Nat) (x : BitVec w) : Nat := x.toNat / 2 ^ p

/-- The field below bit `p`. -/
def low (p : Nat) (x : BitVec w) : Nat := x.toNat % 2 ^ p

/-- A word is made of its two fields. -/
theorem toNat_eq (p : Nat) (x : BitVec w) : x.toNat = high p x * 2 ^ p + low p x := by
  rw [high, low, Nat.mul_comm]
  exact (Nat.div_add_mod _ _).symm

/-- Words with the same fields are the same. -/
theorem ext {x y : BitVec w} (p : Nat) (hhigh : high p x = high p y) (hlow : low p x = low p y) : x = y := by
  apply BitVec.eq_of_toNat_eq
  rw [toNat_eq p x, toNat_eq p y, hhigh, hlow]

/-- The low field is smaller than its size. -/
theorem low_lt (p : Nat) (x : BitVec w) : low p x < 2 ^ p :=
  Nat.mod_lt _ (Nat.two_pow_pos p)

/-- The high field is smaller than its size. -/
theorem high_lt (hp : p ≤ w) (x : BitVec w) : high p x < 2 ^ (w - p) := by
  rw [high, Nat.div_lt_iff_lt_mul (Nat.two_pow_pos p), ← Nat.pow_add, Nat.sub_add_cancel hp]
  exact x.isLt

/-- A word below `2 ^ p` has nothing in the high field. -/
theorem high_eq_zero_iff {x : BitVec w} : high p x = 0 ↔ x.toNat < 2 ^ p := by
  rw [high, Nat.div_eq_zero_iff_lt (Nat.two_pow_pos p)]

/-- A word below `2 ^ p` is its low field. -/
theorem low_of_lt {x : BitVec w} (h : x.toNat < 2 ^ p) : low p x = x.toNat :=
  Nat.mod_eq_of_lt h

@[simp] theorem low_zero : low p (0#w) = 0 := by
  simp [low]

@[simp] theorem high_or (x y : BitVec w) : high p (x ||| y) = high p x ||| high p y := by
  rw [high, BitVec.toNat_or, Nat.or_div_two_pow]
  rfl

@[simp] theorem low_or (x y : BitVec w) : low p (x ||| y) = low p x ||| low p y := by
  rw [low, BitVec.toNat_or, Nat.or_mod_two_pow]
  rfl

@[simp] theorem high_and (x y : BitVec w) : high p (x &&& y) = high p x &&& high p y := by
  rw [high, BitVec.toNat_and, Nat.and_div_two_pow]
  rfl

@[simp] theorem low_and (x y : BitVec w) : low p (x &&& y) = low p x &&& low p y := by
  rw [low, BitVec.toNat_and, Nat.and_mod_two_pow]
  rfl

/-! ## Masks -/

/-- A number in the high field is kept by a mask that is full there. -/
theorem high_and_full {x m : BitVec w} (hp : p ≤ w) (hm : high p m = 2 ^ (w - p) - 1) :
    high p (x &&& m) = high p x := by
  rw [high_and, hm, Nat.and_two_pow_sub_one_eq_mod, Nat.mod_eq_of_lt (high_lt hp x)]

/-- A number in the low field is kept by a mask that is full there. -/
theorem low_and_full {x m : BitVec w} (hm : low p m = 2 ^ p - 1) : low p (x &&& m) = low p x := by
  rw [low_and, hm, Nat.and_two_pow_sub_one_eq_mod, Nat.mod_eq_of_lt (low_lt p x)]

/-- The fields of a word put together from a value below `2 ^ p` and one at bit `p`. -/
theorem fields_or_shift {x y : BitVec w} (hx : x.toNat < 2 ^ p) (hy : low p y = 0) :
    high p (y ||| x) = high p y ∧ low p (y ||| x) = x.toNat := by
  constructor
  · rw [high_or, high_eq_zero_iff.mpr hx, Nat.or_zero]
  · rw [low_or, hy, Nat.zero_or, low_of_lt hx]

/-! ## Adding to a field -/

/-- Adding a multiple of `2 ^ p` changes the high field only. -/
theorem fields_add {x y : BitVec w} (hp : p ≤ w) (hy : low p y = 0) :
    high p (x + y) = (high p x + high p y) % 2 ^ (w - p) ∧ low p (x + y) = low p x := by
  have hsplit : 2 ^ w = 2 ^ p * 2 ^ (w - p) := by rw [← Nat.pow_add, Nat.add_sub_cancel' hp]
  have hx := toNat_eq p x
  have hy' := toNat_eq p y
  rw [hy, Nat.add_zero] at hy'
  constructor
  · rw [high, BitVec.toNat_add, hsplit, Nat.mod_mul_right_div_self, hy', hx]
    congr 1
    rw [Nat.add_right_comm, ← Nat.add_mul, Nat.mul_comm, Nat.mul_add_div (Nat.two_pow_pos p),
      Nat.div_eq_of_lt (low_lt p x), Nat.add_zero]
  · rw [low, BitVec.toNat_add, hsplit, Nat.mod_mul_right_mod, hy', Nat.add_mul_mod_self_right]
    rfl

end Packed
