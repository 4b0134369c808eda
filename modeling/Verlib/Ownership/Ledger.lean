import Mathlib.Logic.ExistsUnique
import Mathlib.Logic.Function.Basic
import Mathlib.Order.Nat

/-!
# Where objects are

Objects are numbered in the order in which they are built. A place holds an object or nothing: a variable, a field, or
an entry of the list of what has been freed. `Ledger` says that every object that has been built is at exactly one
place, so nothing is lost, shared or freed twice. Building an object and moving one to an empty place keep it.
-/

namespace Ownership

variable {W : Type*}

/-- The objects below `n` have been built, and each is at exactly one place. -/
structure Ledger (place : W → Option Nat) (n : Nat) : Prop where
  built : ∀ w a, place w = some a → a < n
  found : ∀ a, a < n → ∃ w, place w = some a
  once : ∀ w w' a, place w = some a → place w' = some a → w = w'

variable {place : W → Option Nat} {n a : Nat} {w w' : W}

theorem Ledger.existsUnique (h : Ledger place n) (ha : a < n) : ∃! w, place w = some a := by
  obtain ⟨w, hw⟩ := h.found a ha
  exact ⟨w, hw, fun w' hw' => h.once w' w a hw' hw⟩

theorem Ledger.empty (h : ∀ w, place w = none) : Ledger place 0 := by
  refine ⟨fun w a hw => ?_, fun a ha => absurd ha (Nat.not_lt_zero a), fun w w' a hw => ?_⟩
  · rw [h w] at hw
    cases hw
  · rw [h w] at hw
    cases hw

variable [DecidableEq W]

/-- What is at `w` goes to the place `w'`. -/
def move (place : W → Option Nat) (w w' : W) : W → Option Nat :=
  Function.update (Function.update place w none) w' (place w)

theorem move_target : move place w w' w' = place w := Function.update_self _ _ _

theorem move_source (hne : w ≠ w') : move place w w' w = none := by
  unfold move
  rw [Function.update_of_ne hne, Function.update_self]

theorem move_other {x : W} (hx : x ≠ w) (hx' : x ≠ w') : move place w w' x = place x := by
  unfold move
  rw [Function.update_of_ne hx', Function.update_of_ne hx]

/-- Where an object was before it was moved. -/
theorem move_eq_some {x : W} (hne : w ≠ w') (h : move place w w' x = some a) :
    x = w' ∧ place w = some a ∨ x ≠ w ∧ x ≠ w' ∧ place x = some a := by
  by_cases hx' : x = w'
  · rw [hx', move_target] at h
    exact .inl ⟨hx', h⟩
  · by_cases hx : x = w
    · rw [hx, move_source hne] at h
      cases h
    · rw [move_other hx hx'] at h
      exact .inr ⟨hx, hx', h⟩

/-- An object is moved to an empty place. -/
theorem Ledger.move (h : Ledger place n) (w w' : W) (hne : w ≠ w') (hempty : place w' = none) :
    Ledger (Ownership.move place w w') n := by
  refine ⟨fun x a hx => ?_, fun a ha => ?_, fun x y a hx hy => ?_⟩
  · obtain ⟨-, hw⟩ | ⟨-, -, hw⟩ := move_eq_some hne hx
    · exact h.built w a hw
    · exact h.built x a hw
  · obtain ⟨x, hx⟩ := h.found a ha
    by_cases hxw : x = w
    · rw [hxw] at hx
      exact ⟨w', move_target.trans hx⟩
    · refine ⟨x, (move_other hxw fun heq => ?_).trans hx⟩
      rw [heq, hempty] at hx
      cases hx
  · obtain ⟨rfl, hw⟩ | ⟨hxw, -, hxa⟩ := move_eq_some hne hx
    · obtain ⟨rfl, -⟩ | ⟨hyw, -, hya⟩ := move_eq_some hne hy
      · rfl
      · exact absurd (h.once y w a hya hw) hyw
    · obtain ⟨rfl, hw⟩ | ⟨-, -, hya⟩ := move_eq_some hne hy
      · exact absurd (h.once x w a hxa hw) hxw
      · exact h.once x y a hxa hya

/-- The object at `w` goes to the empty place `w'`, and the one at `v` takes its place. -/
theorem Ledger.exchange (h : Ledger place n) (w v w' : W) (hw : w ≠ w') (hv : v ≠ w) (hv' : v ≠ w')
    (hempty : place w' = none) :
    Ledger (Function.update (Function.update (Function.update place w (place v)) v none) w' (place w)) n := by
  have hmoved := (h.move w w' hw hempty).move v w hv (move_source hw)
  have heq : Ownership.move (Ownership.move place w w') v w =
      Function.update (Function.update (Function.update place w (place v)) v none) w' (place w) := by
    funext x
    by_cases hx : x = w
    · rw [hx, move_target, move_other hv hv', Function.update_of_ne hw, Function.update_of_ne hv.symm,
        Function.update_self]
    · by_cases hxv : x = v
      · rw [hxv, move_source hv, Function.update_of_ne hv', Function.update_self]
      · rw [move_other hxv hx]
        by_cases hxw : x = w'
        · rw [hxw, move_target, Function.update_self]
        · rw [move_other hx hxw, Function.update_of_ne hxw, Function.update_of_ne hxv, Function.update_of_ne hx]
  rw [← heq]
  exact hmoved

/-- A new object is put at an empty place. -/
theorem Ledger.build (h : Ledger place n) (w : W) (hempty : place w = none) :
    Ledger (Function.update place w (some n)) (n + 1) := by
  have hold : ∀ x a, place x = some a → x ≠ w := by
    intro x a hx heq
    rw [heq, hempty] at hx
    cases hx
  have hcases : ∀ x a, Function.update place w (some n) x = some a → x = w ∧ a = n ∨ place x = some a := by
    intro x a hx
    by_cases hxw : x = w
    · rw [hxw, Function.update_self] at hx
      exact .inl ⟨hxw, (Option.some.inj hx).symm⟩
    · rw [Function.update_of_ne hxw] at hx
      exact .inr hx
  refine ⟨fun x a hx => ?_, fun a ha => ?_, fun x y a hx hy => ?_⟩
  · obtain ⟨-, rfl⟩ | hx := hcases x a hx
    · exact Nat.lt_succ_self a
    · exact (h.built x a hx).trans (Nat.lt_succ_self n)
  · by_cases han : a = n
    · rw [han]
      exact ⟨w, Function.update_self _ _ _⟩
    · obtain ⟨x, hx⟩ := h.found a (Nat.lt_of_le_of_ne (Nat.le_of_lt_succ ha) han)
      refine ⟨x, ?_⟩
      rw [Function.update_of_ne (hold x a hx)]
      exact hx
  · obtain ⟨rfl, rfl⟩ | hxa := hcases x a hx
    · obtain ⟨rfl, -⟩ | hya := hcases y a hy
      · rfl
      · exact absurd (h.built y a hya) (Nat.lt_irrefl a)
    · obtain ⟨rfl, rfl⟩ | hya := hcases y a hy
      · exact absurd (h.built x a hxa) (Nat.lt_irrefl a)
      · exact h.once x y a hxa hya

end Ownership
