import Verlib.Interleaving.Versions
import Mathlib.Data.Nat.Find
import Mathlib.Data.Option.Basic

/-!
# The versions that a stamp selects

For a stamp `ls`, every pointer has a last version whose stamp is not larger: `cut`. Together they are a state of the
store. A new version has no stamp, so it is in none of these states; it enters those of its stamp and of all later
ones at the moment at which it gets the stamp, and for a pointer whose later versions are too young, nothing will
change any more.
-/

namespace Interleaving.Versions

variable {P α : Type*} {V V' : Versions P α} {ls t i : Nat} {p q : P} {a : α}

/-! ## What changes a store -/

/-- The clock goes on. -/
def tick (V : Versions P α) : Versions P α := { V with clock := V.clock + 1 }

/-- A new version of `p`, which has no stamp. -/
def install [DecidableEq P] (V : Versions P α) (p : P) (a : α) : Versions P α where
  clock := V.clock
  last := Function.update V.last p (V.last p + 1)
  stamp := Function.update V.stamp p (Function.update (V.stamp p) (V.last p + 1) none)
  born := Function.update V.born p (Function.update (V.born p) (V.last p + 1) V.clock)
  value := Function.update V.value p (Function.update (V.value p) (V.last p + 1) a)

/-- Version `i` of `p` gets a stamp. -/
def setStamp [DecidableEq P] (V : Versions P α) (p : P) (i t : Nat) : Versions P α :=
  { V with stamp := Function.update V.stamp p (Function.update (V.stamp p) i (some t)) }

/-- The store without the values. -/
def shape (V : Versions P α) : Versions P Unit where
  clock := V.clock
  last := V.last
  stamp := V.stamp
  born := V.born
  value _ _ := ()

section Install

variable [DecidableEq P] {j : Nat}

@[simp] theorem install_last_self : (V.install p a).last p = V.last p + 1 := Function.update_self ..

theorem install_last_of_ne (hne : q ≠ p) : (V.install p a).last q = V.last q := Function.update_of_ne hne ..

theorem install_last_le : V.last q ≤ (V.install p a).last q := by
  by_cases hq : q = p
  · rw [hq, install_last_self]
    exact Nat.le_succ _
  · rw [install_last_of_ne hq]

theorem install_stamp_new : (V.install p a).stamp p (V.last p + 1) = none := by
  show Function.update V.stamp p _ p _ = none
  rw [Function.update_self, Function.update_self]

theorem install_value_new : (V.install p a).value p (V.last p + 1) = a := by
  show Function.update V.value p _ p _ = a
  rw [Function.update_self, Function.update_self]

theorem install_born_new : (V.install p a).born p (V.last p + 1) = V.clock := by
  show Function.update V.born p _ p _ = V.clock
  rw [Function.update_self, Function.update_self]

/-- What is written for the new version leaves the old ones alone. -/
theorem update_old {β : Type*} {f : P → Nat → β} {b : β} (hj : j ≤ V.last q) :
    Function.update f p (Function.update (f p) (V.last p + 1) b) q j = f q j := by
  by_cases hq : q = p
  · subst hq
    rw [Function.update_self, Function.update_of_ne (show j ≠ V.last q + 1 by omega)]
  · rw [Function.update_of_ne hq]

theorem install_stamp (hj : j ≤ V.last q) : (V.install p a).stamp q j = V.stamp q j := update_old hj

theorem install_value (hj : j ≤ V.last q) : (V.install p a).value q j = V.value q j := update_old hj

theorem install_born (hj : j ≤ V.last q) : (V.install p a).born q j = V.born q j := update_old hj

/-- A version is an old one, or the new one. -/
theorem install_cases (hj : j ≤ (V.install p a).last q) : j ≤ V.last q ∨ q = p ∧ j = V.last p + 1 := by
  by_cases hq : q = p
  · subst hq
    rw [install_last_self] at hj
    exact (Nat.le_succ_iff.mp hj).imp_right fun heq => ⟨rfl, heq⟩
  · rw [install_last_of_ne hq] at hj
    exact .inl hj

end Install

section SetStamp

variable [DecidableEq P] {j : Nat}

theorem setStamp_self : (V.setStamp p i t).stamp p i = some t := by
  show Function.update V.stamp p _ p i = some t
  rw [Function.update_self, Function.update_self]

theorem setStamp_of_ne (hne : ¬ (q = p ∧ j = i)) : (V.setStamp p i t).stamp q j = V.stamp q j := by
  show Function.update V.stamp p _ q j = V.stamp q j
  by_cases hq : q = p
  · subst hq
    rw [Function.update_self, Function.update_of_ne fun hj => hne ⟨rfl, hj⟩]
  · rw [Function.update_of_ne hq]

end SetStamp

/-! ## They keep the order -/

theorem Ordered.tick (hV : V.Ordered) : V.tick.Ordered where
  born_le p i hi := (hV.born_le p i hi).trans (Nat.le_succ _)
  le_clock p i t hi ht := (hV.le_clock p i t hi ht).trans (Nat.le_succ _)
  born_le_stamp := hV.born_le_stamp
  stamp_le_born := hV.stamp_le_born
  stamped := hV.stamped

theorem Ordered.install [DecidableEq P] (hV : V.Ordered) (hlast : V.stamp p (V.last p) ≠ none) : (V.install p a).Ordered where
  born_le q j hj := by
    obtain hold | ⟨rfl, rfl⟩ := install_cases hj
    · rw [install_born hold]
      exact hV.born_le q j hold
    · rw [install_born_new]
      exact le_rfl
  le_clock q j s hj hs := by
    obtain hold | ⟨rfl, rfl⟩ := install_cases hj
    · rw [install_stamp hold] at hs
      exact hV.le_clock q j s hold hs
    · rw [install_stamp_new] at hs
      cases hs
  born_le_stamp q j s hj hs := by
    obtain hold | ⟨rfl, rfl⟩ := install_cases hj
    · rw [install_stamp hold] at hs
      rw [install_born hold]
      exact hV.born_le_stamp q j s hold hs
    · rw [install_stamp_new] at hs
      cases hs
  stamp_le_born q i j s hij hj hs := by
    obtain hold | ⟨rfl, rfl⟩ := install_cases hj
    · rw [install_stamp (hij.le.trans hold)] at hs
      rw [install_born hold]
      exact hV.stamp_le_born q i j s hij hold hs
    · have hi : i ≤ V.last q := Nat.lt_succ_iff.mp hij
      rw [install_stamp hi] at hs
      rw [install_born_new]
      exact hV.le_clock q i s hi hs
  stamped q i hi := by
    by_cases hq : q = p
    · subst hq
      rw [install_last_self] at hi
      rw [install_stamp (Nat.lt_succ_iff.mp hi)]
      obtain hlt | rfl := Nat.lt_or_eq_of_le (Nat.lt_succ_iff.mp hi)
      · exact hV.stamped q i hlt
      · exact hlast
    · rw [install_last_of_ne hq] at hi
      rw [install_stamp hi.le]
      exact hV.stamped q i hi

theorem Ordered.setStamp [DecidableEq P] (hV : V.Ordered) (hi : V.stamp p i = none) (hle : i ≤ V.last p) (hborn : V.born p i ≤ t)
    (hclock : t ≤ V.clock) : (V.setStamp p i t).Ordered := by
  have hlast : i = V.last p := by
    by_contra hne
    exact hV.stamped p i (lt_of_le_of_ne hle hne) hi
  have hcases : ∀ {q j s}, (V.setStamp p i t).stamp q j = some s → q = p ∧ j = i ∧ s = t ∨ V.stamp q j = some s := by
    intro q j s hs
    by_cases hqj : q = p ∧ j = i
    · obtain ⟨rfl, rfl⟩ := hqj
      rw [setStamp_self] at hs
      exact .inl ⟨rfl, rfl, (Option.some.inj hs).symm⟩
    · rw [setStamp_of_ne hqj] at hs
      exact .inr hs
  refine ⟨hV.born_le, fun q j s hj hs => ?_, fun q j s hj hs => ?_, fun q j j' s hjj hj' hs => ?_, fun q j hj => ?_⟩
  · obtain ⟨rfl, rfl, rfl⟩ | hs := hcases hs
    · exact hclock
    · exact hV.le_clock q j s hj hs
  · obtain ⟨rfl, rfl, rfl⟩ | hs := hcases hs
    · exact hborn
    · exact hV.born_le_stamp q j s hj hs
  · obtain ⟨rfl, rfl, rfl⟩ | hs := hcases hs
    · have hj' : j' ≤ V.last q := hj'
      omega
    · exact hV.stamp_le_born q j j' s hjj hj' hs
  · by_cases hqj : q = p ∧ j = i
    · obtain ⟨rfl, rfl⟩ := hqj
      rw [setStamp_self]
      exact Option.some_ne_none t
    · rw [setStamp_of_ne hqj]
      exact hV.stamped q j hj

theorem grows_tick : V.shape.Grows V.tick.shape :=
  ⟨Nat.le_succ _, fun _ => le_rfl, fun _ _ _ _ ht => ht, fun _ _ _ => rfl, fun _ _ _ => rfl,
    fun _ _ hlt hle => absurd hlt (Nat.not_lt.mpr hle)⟩

theorem grows_install [DecidableEq P] : V.shape.Grows (V.install p a).shape where
  clock := le_rfl
  last _ := install_last_le (a := a)
  stamp _ _ _ hj hs := (install_stamp (a := a) hj).trans hs
  born _ _ hj := install_born (a := a) hj
  value _ _ _ := rfl
  new q j hlt hle := by
    obtain hold | ⟨rfl, rfl⟩ := install_cases (a := a) hle
    · exact absurd hlt (Nat.not_lt.mpr hold)
    · exact (install_born_new (a := a)).ge

theorem grows_setStamp [DecidableEq P] (hi : V.stamp p i = none) : V.shape.Grows (V.setStamp p i t).shape where
  clock := le_rfl
  last _ := le_rfl
  stamp q j s hj hs := by
    have hne : ¬ (q = p ∧ j = i) := by
      intro heq
      have hs : V.stamp q j = some s := hs
      rw [heq.1, heq.2, hi] at hs
      cases hs
    exact (setStamp_of_ne hne).trans hs
  born _ _ _ := rfl
  value _ _ _ := rfl
  new _ _ hlt hle := absurd hlt (Nat.not_lt.mpr hle)

/-! ## The cut -/

/-- The last version of `p` whose stamp is at most `ls`. -/
def cut (V : Versions P α) (ls : Nat) (p : P) : Nat :=
  Nat.findGreatest (fun i => ∃ t ∈ V.stamp p i, t ≤ ls) (V.last p)

theorem within_iff : V.Within ls p i ↔ ∃ t ∈ V.stamp p i, t ≤ ls := Iff.rfl

theorem cut_le : V.cut ls p ≤ V.last p := Nat.findGreatest_le _

theorem le_cut (hi : i ≤ V.last p) (hw : V.Within ls p i) : i ≤ V.cut ls p := Nat.le_findGreatest hi hw

/-- If there is a version to select, the cut is one. -/
theorem cut_within (hi : i ≤ V.last p) (hw : V.Within ls p i) : V.Within ls p (V.cut ls p) :=
  Nat.findGreatest_spec (P := fun i => ∃ t ∈ V.stamp p i, t ≤ ls) hi hw

/-- The cut is the version after which no other one is selected. -/
theorem cut_eq (hi : i ≤ V.last p) (hw : V.Within ls p i) (hafter : ∀ j, i < j → j ≤ V.last p → ¬ V.Within ls p j) :
    V.cut ls p = i := by
  refine le_antisymm (not_lt.mp fun hlt => ?_) (le_cut hi hw)
  exact hafter _ hlt cut_le (cut_within hi hw)

/-- Two stores with the same stamps have the same cut. -/
theorem cut_congr (hfirst : V.Within ls p 0) (hlast : V.last p ≤ V'.last p)
    (hold : ∀ j ≤ V.last p, V'.Within ls p j ↔ V.Within ls p j)
    (hnew : ∀ j, V.last p < j → j ≤ V'.last p → ¬ V'.Within ls p j) : V'.cut ls p = V.cut ls p := by
  have hcut := cut_within (Nat.zero_le _) hfirst
  refine cut_eq (cut_le.trans hlast) ((hold _ cut_le).mpr hcut) fun j hlt hle hw => ?_
  by_cases hj : j ≤ V.last p
  · exact absurd (le_cut hj ((hold j hj).mp hw)) (Nat.not_le.mpr hlt)
  · exact hnew j (Nat.lt_of_not_le hj) hle hw

/-- A new version is in no cut. -/
theorem cut_install [DecidableEq P] (hfirst : V.Within ls q 0) : (V.install p a).cut ls q = V.cut ls q := by
  refine cut_congr hfirst install_last_le (fun j hj => ?_) fun j hlt hle hw => ?_
  · rw [within_iff, within_iff, install_stamp hj]
  · obtain hold | ⟨rfl, rfl⟩ := install_cases hle
    · omega
    · obtain ⟨s, hs, -⟩ := hw
      rw [install_stamp_new] at hs
      cases hs

/-- The stamp of one pointer is not in the cuts of the others, nor in those of smaller stamps. -/
theorem cut_setStamp_of_ne [DecidableEq P] (hfirst : V.Within ls q 0) (hi : V.stamp p i = none) (hne : q ≠ p ∨ ls < t) :
    (V.setStamp p i t).cut ls q = V.cut ls q := by
  refine cut_congr hfirst le_rfl (fun j _ => ?_) fun j hlt hle => absurd hlt (Nat.not_lt.mpr hle)
  by_cases hqj : q = p ∧ j = i
  · obtain ⟨rfl, rfl⟩ := hqj
    rw [within_iff, within_iff, setStamp_self, hi]
    have hlt : ls < t := hne.resolve_left fun h => h rfl
    simp [hlt]
  · rw [within_iff, within_iff, setStamp_of_ne hqj]

/-- The version that gets a stamp enters the cuts of this stamp and of all later ones. -/
theorem cut_setStamp [DecidableEq P] (hle : t ≤ ls) : (V.setStamp p (V.last p) t).cut ls p = V.last p := by
  have hself : (V.setStamp p (V.last p) t).Within ls p (V.last p) := ⟨t, setStamp_self, hle⟩
  exact le_antisymm cut_le (le_cut le_rfl hself)

/-- Before it gets its stamp, the cut of a stamp that is not older is the version before it. -/
theorem cut_pred (hV : V.Ordered) (hnone : V.stamp p (i + 1) = none) (hlast : V.last p = i + 1)
    (hborn : V.born p (i + 1) ≤ ls) : V.cut ls p = i := by
  obtain ⟨s, hs⟩ := Option.ne_none_iff_exists'.mp (hV.stamped p i (by omega))
  have hle := hV.stamp_le_born p i (i + 1) s (Nat.lt_succ_self i) hlast.ge hs
  refine cut_eq (by omega) ⟨s, hs, hle.trans hborn⟩ fun j hlt hle hw => ?_
  obtain rfl : j = i + 1 := by omega
  obtain ⟨s', hs', -⟩ := hw
  rw [hnone] at hs'
  cases hs'

/-- The last version is the cut of every stamp that is not smaller than its own. -/
theorem cut_last {s : Nat} (hs : V.stamp p (V.last p) = some s) (hle : s ≤ ls) : V.cut ls p = V.last p :=
  le_antisymm cut_le (le_cut le_rfl ⟨s, hs, hle⟩)

/-! ## Cuts that do not change any more -/

/-- The versions after the cut will never be in it. -/
def Settled (V : Versions P α) (ls : Nat) (p : P) : Prop :=
  ∀ j, V.cut ls p < j → j ≤ V.last p → (∃ t, V.stamp p j = some t ∧ ls < t) ∨ ls < V.born p j

/-- A settled cut stays, when the clock is past its stamp. -/
theorem Grows.settled (hg : V.shape.Grows V'.shape) (hV' : V'.Ordered) (hfirst : V.Within ls p 0)
    (hclock : ls < V.clock) (hset : V.Settled ls p) : V'.cut ls p = V.cut ls p ∧ V'.Settled ls p := by
  have hlast : V.last p ≤ V'.last p := hg.last p
  -- what comes after the cut has a stamp above `ls`, or will have
  have hafter : ∀ j, V.cut ls p < j → j ≤ V'.last p →
      (∃ t, V'.stamp p j = some t ∧ ls < t) ∨ ls < V'.born p j := by
    intro j hlt hle
    by_cases hj : j ≤ V.last p
    · obtain ⟨t, ht, hlt⟩ | hborn := hset j hlt hj
      · exact .inl ⟨t, hg.stamp p j t hj ht, hlt⟩
      · exact .inr (hborn.trans_eq (hg.born p j hj).symm)
    · exact .inr (hclock.trans_le (hg.new p j (Nat.lt_of_not_le hj) hle))
  have hout : ∀ j, V.cut ls p < j → j ≤ V'.last p → ¬ V'.Within ls p j := by
    intro j hlt hle hw
    obtain ⟨s, hs, hsle⟩ := hw
    obtain ⟨t, ht, htlt⟩ | hborn := hafter j hlt hle
    · rw [hs] at ht
      cases ht
      omega
    · have := hV'.born_le_stamp p j s hle hs
      omega
  have hcut : V'.cut ls p = V.cut ls p := by
    obtain ⟨s, hs, hle⟩ := cut_within (Nat.zero_le _) hfirst
    exact cut_eq (cut_le.trans hlast) ⟨s, hg.stamp p _ s cut_le hs, hle⟩ hout
  refine ⟨hcut, fun j hlt hle => ?_⟩
  rw [hcut] at hlt
  exact hafter j hlt hle

end Interleaving.Versions
