import Mathlib.Data.Nat.Bitwise
import Mathlib.Data.BitVec
import Mathlib.Tactic.Ring

/-!
# The bytes of an unsigned integer

An unsigned integer of `n` bytes, read from its most significant byte. Two integers are equal if all their
bytes are, and the first byte in which they differ decides their order.
-/

namespace Verlib.Radix

/-- The unsigned integers of `n` bytes. -/
abbrev Key (n : Nat) := BitVec (8 * n)

/-- The byte at position `pos`, the most significant byte being at position 0. -/
def getByte {n : Nat} (key : Key n) (pos : Nat) : Nat :=
  ((key >>> (8 * (n - 1 - pos))) &&& 255#(8 * n)).toNat

/-- The two integers have the same bytes below position `pos`. -/
def Agree {n : Nat} (a b : Key n) (pos : Nat) : Prop :=
  ∀ i < pos, getByte a i = getByte b i

instance {n : Nat} (a b : Key n) (pos : Nat) : Decidable (Agree a b pos) :=
  inferInstanceAs (Decidable (∀ i < pos, getByte a i = getByte b i))

section

variable {n : Nat} {a b c : Key n} {pos : Nat}

/-- Bytes by division. -/
theorem getByte_eq (key : Key n) (hn : 0 < n) (pos : Nat) :
    getByte key pos = key.toNat / 256 ^ (n - 1 - pos) % 256 := by
  have h255 : 255 % 2 ^ (8 * n) = 2 ^ 8 - 1 :=
    Nat.mod_eq_of_lt (lt_of_lt_of_le (by omega) (Nat.pow_le_pow_right (by omega) (by omega : 8 ≤ 8 * n)))
  have hpow : 2 ^ (8 * (n - 1 - pos)) = 256 ^ (n - 1 - pos) := by rw [Nat.pow_mul]
  rw [getByte, BitVec.toNat_and, BitVec.toNat_ushiftRight, BitVec.toNat_ofNat, h255, Nat.and_two_pow_sub_one_eq_mod,
    Nat.shiftRight_eq_div_pow, hpow]

/-- A byte is below 256. -/
theorem getByte_lt (key : Key n) (pos : Nat) : getByte key pos < 256 := by
  have hle : getByte key pos ≤ (255#(8 * n)).toNat := by
    rw [getByte, BitVec.toNat_and]
    exact Nat.and_le_right
  have h255 : (255#(8 * n)).toNat ≤ 255 := by
    rw [BitVec.toNat_ofNat]
    exact Nat.mod_le _ _
  omega

/-- Agreement is symmetric. -/
theorem Agree.symm (h : Agree a b pos) : Agree b a pos := by
  intro i hi
  exact (h i hi).symm

/-- Agreement is transitive. -/
theorem Agree.trans (h : Agree a b pos) (h' : Agree b c pos) : Agree a c pos := by
  intro i hi
  rw [h i hi, h' i hi]

/-- Every integer agrees with itself. -/
theorem Agree.refl (a : Key n) (pos : Nat) : Agree a a pos := by
  intro i _
  rfl

/-- Agreement on a shorter prefix. -/
theorem Agree.mono {shorter : Nat} (h : Agree a b pos) (hle : shorter ≤ pos) : Agree a b shorter := by
  intro i hi
  exact h i (Nat.lt_of_lt_of_le hi hle)

/-- One more byte. -/
theorem agree_succ : Agree a b (pos + 1) ↔ Agree a b pos ∧ getByte a pos = getByte b pos := by
  constructor
  · intro h
    exact ⟨h.mono (Nat.le_succ pos), h pos (Nat.lt_succ_self pos)⟩
  · intro h i hi
    by_cases heq : i = pos
    · rw [heq]
      exact h.2
    · exact h.1 i (by omega)

/-- The first `pos` bytes as a number. -/
def leading (key : Key n) (pos : Nat) : Nat := key.toNat / 256 ^ (n - pos)

/-- The leading bytes grow byte by byte. -/
theorem leading_succ (key : Key n) (hpos : pos < n) :
    leading key (pos + 1) = leading key pos * 256 + getByte key pos := by
  have hexp : n - pos = (n - 1 - pos) + 1 := by omega
  have hexp' : n - (pos + 1) = n - 1 - pos := by omega
  rw [leading, leading, getByte_eq key (by omega), hexp, hexp', Nat.pow_succ, ← Nat.div_div_eq_div_mul]
  omega

/-- Integers that agree have the same leading bytes. -/
theorem leading_eq (h : Agree a b pos) (hpos : pos ≤ n) : leading a pos = leading b pos := by
  induction pos with
  | zero =>
      have hlt : ∀ key : Key n, key.toNat / 256 ^ n = 0 := by
        intro key
        refine Nat.div_eq_of_lt ?_
        have hpow : 2 ^ (8 * n) = 256 ^ n := by rw [Nat.pow_mul]
        rw [← hpow]
        exact key.isLt
      rw [leading, leading, Nat.sub_zero, hlt, hlt]
  | succ pos ih =>
      rw [leading_succ a (by omega), leading_succ b (by omega), ih (h.mono (Nat.le_succ pos)) (by omega),
        h pos (Nat.lt_succ_self pos)]

/-- Integers with the same bytes are equal. -/
theorem eq_of_agree (h : Agree a b n) : a = b := by
  have hlead := leading_eq h le_rfl
  rw [leading, leading, Nat.sub_self, Nat.pow_zero, Nat.div_one, Nat.div_one] at hlead
  exact BitVec.eq_of_toNat_eq hlead

/-- The first byte that differs decides the order. -/
theorem lt_of_agree (h : Agree a b pos) (hpos : pos < n) (hbyte : getByte a pos < getByte b pos) : a < b := by
  have hlt : leading a (pos + 1) < leading b (pos + 1) := by
    rw [leading_succ a hpos, leading_succ b hpos, leading_eq h (by omega)]
    omega
  rw [BitVec.lt_def]
  by_contra hle
  exact absurd (Nat.div_le_div_right (Nat.le_of_not_lt hle)) (Nat.not_le_of_lt hlt)

/-- Of two ordered integers that agree below a position, the smaller has the smaller byte there. -/
theorem getByte_le (h : Agree a b pos) (hpos : pos < n) (hle : a ≤ b) : getByte a pos ≤ getByte b pos := by
  by_contra hbyte
  have hlt := lt_of_agree h.symm hpos (by omega)
  rw [BitVec.lt_def] at hlt
  rw [BitVec.le_def] at hle
  omega

end

end Verlib.Radix
