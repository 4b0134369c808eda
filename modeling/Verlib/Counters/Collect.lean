import Mathlib.Algebra.BigOperators.Group.Finset.Piecewise
import Mathlib.Algebra.Order.BigOperators.Group.Finset

/-!
# Collecting the sum of counters

A sum that is kept in several counters is read by loading one counter after the other, while others add to them. If
counters only grow, what is read lies between the sum at the first load and the sum at the last one. `Collecting` is
what holds between two loads.
-/

namespace Counters

/-- The sum of the first `n` counters. -/
def sum (x : Nat → Nat) (n : Nat) : Nat := ∑ j ∈ Finset.range n, x j

variable {x y : Nat → Nat} {n i j total floor floor' : Nat}

theorem sum_succ : sum x (n + 1) = sum x n + x n := Finset.sum_range_succ x n

/-- The sum grows at least as much as the sum of fewer counters. -/
theorem sum_grows (hxy : ∀ j, x j ≤ y j) (hi : i ≤ n) : sum y i + sum x n ≤ sum x i + sum y n := by
  induction n, hi using Nat.le_induction with
  | base => omega
  | succ n hi ih =>
      have hn := hxy n
      rw [sum_succ, sum_succ]
      omega

theorem sum_mono (hxy : ∀ j, x j ≤ y j) : sum x n ≤ sum y n := Finset.sum_le_sum fun j _ => hxy j

/-- The sum grows at least as much as one of its counters. -/
theorem counter_grows (hxy : ∀ j, x j ≤ y j) (hj : j < n) : y j + sum x n ≤ x j + sum y n := by
  have hbelow : sum x j ≤ sum y j := sum_mono hxy
  have hup := sum_grows hxy (Nat.succ_le_of_lt hj)
  rw [Nat.succ_eq_add_one, sum_succ, sum_succ] at hup
  omega

/-- A counter that is one more makes the sum one more. -/
theorem sum_update (hj : j < n) : sum (Function.update x j (x j + 1)) n = sum x n + 1 := by
  unfold sum
  rw [Finset.sum_update_of_mem (Finset.mem_range.mpr hj), ← Finset.add_sum_erase _ x (Finset.mem_range.mpr hj),
    ← Finset.erase_eq]
  omega

/-- The counters below `i` have been loaded, and add up to `total`; the sum was `floor` at some moment before the
first load. -/
structure Collecting (x : Nat → Nat) (n i total floor : Nat) : Prop where
  within : i ≤ n
  le : total ≤ sum x i
  above : floor + sum x i ≤ total + sum x n

theorem Collecting.start (h : floor ≤ sum x n) : Collecting x n 0 0 floor := by
  refine ⟨Nat.zero_le n, Nat.zero_le _, ?_⟩
  show floor + 0 ≤ 0 + sum x n
  omega

/-- The load of the next counter. -/
theorem Collecting.load (h : Collecting x n i total floor) (hi : i < n) :
    Collecting x n (i + 1) (total + x i) floor := by
  have hle := h.le
  have habove := h.above
  refine ⟨hi, ?_, ?_⟩
  · rw [sum_succ]
    omega
  · rw [sum_succ]
    omega

/-- Others add to the counters. -/
theorem Collecting.mono (h : Collecting x n i total floor) (hxy : ∀ j, x j ≤ y j) : Collecting y n i total floor := by
  have hgrows := sum_grows hxy h.within
  have habove := h.above
  refine ⟨h.within, h.le.trans (sum_mono hxy), ?_⟩
  omega

/-- The last load. -/
theorem Collecting.finish (h : Collecting x n n total floor) : floor ≤ total ∧ total ≤ sum x n := by
  have habove := h.above
  exact ⟨by omega, h.le⟩

end Counters
