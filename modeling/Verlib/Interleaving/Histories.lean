import Verlib.Interleaving.System
import Mathlib.Data.List.Induction

/-!
# Histories in which every event fits what came before

What holds of the history up to an event when the event happens holds for good. This is how the order of the events is
read off a run.
-/

namespace Interleaving

variable {E : Type*} {P : List E → E → Prop} {h h₁ h₂ : List E} {a b e : E}

/-- Every event fits the history before it. -/
inductive Each (P : List E → E → Prop) : List E → Prop where
  | nil : Each P []
  | concat {h : List E} {e : E} (hh : Each P h) (he : P h e) : Each P (h ++ [e])

theorem each_concat : Each P (h ++ [e]) ↔ Each P h ∧ P h e := by
  constructor
  · intro heach
    generalize hl : h ++ [e] = l at heach
    cases heach with
    | nil => simp at hl
    | concat hh he =>
        obtain ⟨rfl, heq⟩ := List.append_inj' hl rfl
        cases heq
        exact ⟨hh, he⟩
  · exact fun hpair => .concat hpair.1 hpair.2

/-- What holds at an event. -/
theorem Each.split (heach : Each P (h₁ ++ e :: h₂)) : P h₁ e := by
  induction h₂ using List.reverseRecOn with
  | nil => exact (each_concat.mp heach).2
  | append_singleton h₂ e' ih =>
      rw [← List.cons_append, ← List.append_assoc] at heach
      exact ih (each_concat.mp heach).1

/-- The history before the later one of two events. -/
theorem before_iff : Before h a b ↔ ∃ h₁ h₂, h = h₁ ++ b :: h₂ ∧ a ∈ h₁ := by
  constructor
  · intro hsub
    obtain ⟨r₁, r₂, rfl, ha, hb⟩ := List.cons_sublist_iff.mp hsub
    obtain ⟨s, t, rfl⟩ := List.append_of_mem (List.singleton_sublist.mp hb)
    exact ⟨r₁ ++ s, t, (List.append_assoc ..).symm, List.mem_append_left s ha⟩
  · intro hsplit
    obtain ⟨h₁, h₂, rfl, ha⟩ := hsplit
    exact (List.singleton_sublist.mpr ha).append (List.singleton_sublist.mpr List.mem_cons_self)

/-- An event of the history, and what holds at it. -/
theorem Each.of_mem (heach : Each P h) (he : e ∈ h) : ∃ h₁ h₂, h = h₁ ++ e :: h₂ ∧ P h₁ e := by
  obtain ⟨h₁, h₂, rfl⟩ := List.append_of_mem he
  exact ⟨h₁, h₂, rfl, heach.split⟩

/-- Two events are one, if neither can come after the other. -/
theorem Each.unique (heach : Each P h) (ha : a ∈ h) (hb : b ∈ h) (hab : ∀ h', P h' b → a ∉ h') (hba : ∀ h', P h' a → b ∉ h') :
    a = b := by
  obtain ⟨h₁, h₂, rfl, hPa⟩ := heach.of_mem ha
  obtain hb | hb := List.mem_append.mp hb
  · exact absurd hb (hba h₁ hPa)
  · obtain rfl | hb := List.mem_cons.mp hb
    · rfl
    · obtain ⟨s, t, rfl⟩ := List.append_of_mem hb
      have heq : h₁ ++ a :: (s ++ b :: t) = (h₁ ++ a :: s) ++ b :: t := by simp
      rw [heq] at heach
      exact absurd (List.mem_append_right h₁ List.mem_cons_self) (hab _ heach.split)

/-- An event that cannot come after what is in a part of the history comes before it. -/
theorem Each.mem_left (heach : Each P (h₁ ++ b :: h₂)) (he : e ∈ h₁ ++ b :: h₂) (hne : e ≠ b) (ha : a ∈ h₁ ++ [b])
    (hae : ∀ h', P h' e → a ∉ h') : e ∈ h₁ := by
  refine (List.mem_append.mp he).resolve_right fun he => ?_
  obtain ⟨s, t, rfl⟩ := List.append_of_mem ((List.mem_cons.mp he).resolve_left hne)
  have heq : h₁ ++ b :: (s ++ e :: t) = (h₁ ++ [b] ++ s) ++ e :: t := by simp
  rw [heq] at heach
  exact hae _ heach.split (List.mem_append_left s ha)

end Interleaving
