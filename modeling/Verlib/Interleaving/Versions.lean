import Mathlib.Order.Nat
import Mathlib.Logic.Function.Basic

/-!
# Versioned pointers and cuts through their versions

A multiversion store numbers the versions of each pointer in the order of their installation. A version
gets its stamp from a clock at some time after it was installed, and only the last version of a pointer can
be without one. A reader that has taken a stamp walks from the last version down until it meets a stamp that
is not larger. `CutTo` says that it stopped at a version; the versions that are installed later do not change
this, as their stamps cannot be smaller than the clock at their installation.
-/

namespace Interleaving

/-- The clock, and for each pointer the number of its last version and the stamps, the clock at the
installation and the values of its versions. -/
structure Versions (P : Type*) (α : Type*) where
  clock : Nat
  last : P → Nat
  stamp : P → Nat → Option Nat
  born : P → Nat → Nat
  value : P → Nat → α

namespace Versions

variable {P α : Type*} {V V' : Versions P α}

/-- The order of installations, of stamps and of the clock agree. -/
structure Ordered (V : Versions P α) : Prop where
  born_le : ∀ p i, i ≤ V.last p → V.born p i ≤ V.clock
  le_clock : ∀ p i t, i ≤ V.last p → V.stamp p i = some t → t ≤ V.clock
  born_le_stamp : ∀ p i t, i ≤ V.last p → V.stamp p i = some t → V.born p i ≤ t
  stamp_le_born : ∀ p i j t, i < j → j ≤ V.last p → V.stamp p i = some t → t ≤ V.born p j
  stamped : ∀ p i, i < V.last p → V.stamp p i ≠ none

/-- The store has grown: what a version has is kept, and new versions are not older than the clock. -/
structure Grows (V V' : Versions P α) : Prop where
  clock : V.clock ≤ V'.clock
  last : ∀ p, V.last p ≤ V'.last p
  stamp : ∀ p i t, i ≤ V.last p → V.stamp p i = some t → V'.stamp p i = some t
  born : ∀ p i, i ≤ V.last p → V'.born p i = V.born p i
  value : ∀ p i, i ≤ V.last p → V'.value p i = V.value p i
  new : ∀ p i, V.last p < i → i ≤ V'.last p → V.clock ≤ V'.born p i

/-- A store grows into itself. -/
theorem Grows.refl (V : Versions P α) : Grows V V where
  clock := le_rfl
  last _ := le_rfl
  stamp _ _ _ _ ht := ht
  born _ _ _ := rfl
  value _ _ _ := rfl
  new _ _ hlt hle := absurd hlt (Nat.not_lt.mpr hle)

/-- Version `i` of `p` has a stamp of at most `t`. -/
def Within (V : Versions P α) (t : Nat) (p : P) (i : Nat) : Prop :=
  ∃ t₀, V.stamp p i = some t₀ ∧ t₀ ≤ t

/-- A stamp that is there stays there. -/
theorem Grows.within (hg : Grows V V') {p : P} {i t : Nat} (hi : i ≤ V.last p) (hw : V.Within t p i) :
    V'.Within t p i := by
  obtain ⟨t₀, ht₀, hle⟩ := hw
  exact ⟨t₀, hg.stamp p i t₀ hi ht₀, hle⟩

/-- A version with a stamp has one when the store has grown. -/
theorem Grows.ne_none (hg : Grows V V') {p : P} {i : Nat} (hi : i ≤ V.last p) (hs : V.stamp p i ≠ none) :
    V'.stamp p i ≠ none := by
  obtain ⟨t, ht⟩ := Option.ne_none_iff_exists'.mp hs
  rw [hg.stamp p i t hi ht]
  exact Option.some_ne_none t

/-- Every version of `p` after `i` has a stamp above `ls`, or was installed after the versions that `k`
counts and when the clock was at least `B`. -/
def Above (V : Versions P α) (k : P → Nat) (ls B : Nat) (p : P) (i : Nat) : Prop :=
  ∀ j, i < j → j ≤ V.last p → (∃ t, V.stamp p j = some t ∧ ls < t) ∨ k p < j ∧ B ≤ V.born p j

/-- No version comes after the last one. -/
theorem above_last (V : Versions P α) (k : P → Nat) (ls B : Nat) (p : P) : V.Above k ls B p (V.last p) :=
  fun _ hlt hle => absurd hlt (Nat.not_lt.mpr hle)

/-- The walk passes a version with a larger stamp. -/
theorem Above.pred {k : P → Nat} {ls B i t : Nat} {p : P} (habove : V.Above k ls B p (i + 1))
    (ht : V.stamp p (i + 1) = some t) (hlt : ls < t) : V.Above k ls B p i := by
  intro j hj hle
  rcases Nat.lt_or_eq_of_le (Nat.succ_le_of_lt hj) with hgt | rfl
  · exact habove j hgt hle
  · exact .inl ⟨t, ht, hlt⟩

/-- New versions are installed after the ones that a reader counted. -/
theorem Grows.above (hg : Grows V V') {k : P → Nat} {ls B i : Nat} {p : P} (hk : k p ≤ V.last p)
    (hB : B ≤ V.clock) (habove : V.Above k ls B p i) : V'.Above k ls B p i := by
  intro j hj hle
  rcases Nat.lt_or_ge (V.last p) j with hnew | hold
  · exact .inr ⟨hk.trans_lt hnew, hB.trans (hg.new p j hnew hle)⟩
  · rcases habove j hj hold with ⟨t, ht, hlt⟩ | ⟨hkj, hborn⟩
    · exact .inl ⟨t, hg.stamp p j t hold ht, hlt⟩
    · refine .inr ⟨hkj, ?_⟩
      rwa [hg.born p j hold]

/-- A reader with stamp `ls` has stopped at version `i` of `p`, whose stamp is below `B`. -/
structure CutTo (V : Versions P α) (k : P → Nat) (ls B : Nat) (p : P) (i : Nat) : Prop where
  le_last : i ≤ V.last p
  below : ∃ t, V.stamp p i = some t ∧ t < B
  above : V.Above k ls B p i

/-- Where a reader has stopped does not change. -/
theorem Grows.cutTo (hg : Grows V V') {k : P → Nat} {ls B i : Nat} {p : P} (hk : k p ≤ V.last p)
    (hB : B ≤ V.clock) (hcut : V.CutTo k ls B p i) : V'.CutTo k ls B p i := by
  obtain ⟨t, ht, hlt⟩ := hcut.below
  exact ⟨hcut.le_last.trans (hg.last p), ⟨t, hg.stamp p i t hcut.le_last ht, hlt⟩,
    hg.above hk hB hcut.above⟩

namespace CutTo

variable {k : P → Nat} {ls B i : Nat} {p : P}

/-- A version with a stamp below `B` is not after the cut. -/
theorem le_of_lt (hcut : V.CutTo k ls B p i) (hV : V.Ordered) (hB : B ≤ ls + 1) {j t : Nat}
    (hj : j ≤ V.last p) (ht : V.stamp p j = some t) (hlt : t < B) : j ≤ i := by
  by_contra hgt
  rcases hcut.above j (Nat.lt_of_not_le hgt) hj with ⟨t', ht', hlt'⟩ | ⟨_, hborn⟩
  · rw [ht] at ht'
    cases ht'
    omega
  · have hle := hV.born_le_stamp p j t hj ht
    omega

/-- A version that the reader counted and whose stamp is at most `ls` is not after the cut. -/
theorem le_of_counted (hcut : V.CutTo k ls B p i) {j : Nat} (hj : j ≤ V.last p) (hk : j ≤ k p)
    (hw : V.Within ls p j) : j ≤ i := by
  by_contra hgt
  obtain ⟨t, ht, hle⟩ := hw
  rcases hcut.above j (Nat.lt_of_not_le hgt) hj with ⟨t', ht', hlt'⟩ | ⟨hkj, _⟩
  · rw [ht] at ht'
    cases ht'
    omega
  · omega

/-- A reader cannot stop at two versions. -/
theorem unique (hcut : V.CutTo k ls B p i) (hV : V.Ordered) (hB : B ≤ ls + 1) {j : Nat}
    (hcut' : V.CutTo k ls B p j) : i = j := by
  obtain ⟨t, ht, hlt⟩ := hcut.below
  obtain ⟨t', ht', hlt'⟩ := hcut'.below
  exact le_antisymm (hcut'.le_of_lt hV hB hcut.le_last ht hlt) (hcut.le_of_lt hV hB hcut'.le_last ht' hlt')

/-- A version up to the cut was installed when the clock was below `B`. -/
theorem born_lt (hcut : V.CutTo k ls B p i) (hV : V.Ordered) {j : Nat} (hj : j ≤ i) : V.born p j < B := by
  obtain ⟨t, ht, hlt⟩ := hcut.below
  have hle := hcut.le_last
  have hborn := hV.born_le_stamp p i t hle ht
  rcases Nat.lt_or_eq_of_le hj with hlt' | rfl
  · obtain ⟨t', ht'⟩ := Option.ne_none_iff_exists'.mp (hV.stamped p j (hlt'.trans_le hle))
    have h₁ := hV.born_le_stamp p j t' (hj.trans hle) ht'
    have h₂ := hV.stamp_le_born p j i t' hlt' hle ht'
    omega
  · omega

end CutTo

end Versions

end Interleaving
