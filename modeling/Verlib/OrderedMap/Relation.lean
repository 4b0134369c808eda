import Mathlib.Logic.Function.Basic

/-!
# The content of a map as a relation

The nodes of a structure hold pairs of a key and a value. An update that takes effect adds a pair with a new key, or
deletes the pair of a key; a query looks up a key.
-/

namespace OrderedMap

variable {K V : Type*}

/-- The key, which had no value, has the value `v` afterwards. -/
structure Adds (before after : K → V → Prop) (k : K) (v : V) : Prop where
  absent : ∀ v', ¬ before k v'
  after : ∀ k' v', after k' v' ↔ k' = k ∧ v' = v ∨ before k' v'

/-- The key, which had a value, has none afterwards. -/
structure Deletes (before after : K → V → Prop) (k : K) : Prop where
  present : ∃ v, before k v
  after : ∀ k' v', after k' v' ↔ k' ≠ k ∧ before k' v'

/-- The right answer to a query for `k`. -/
def Answers (content : K → V → Prop) (k : K) (t : Option V) : Prop := ∀ v, t = some v ↔ content k v

variable {before after : K → V → Prop} {f : K → Option V} {k : K} {v : V}

theorem answers_none (h : ∀ v, ¬ before k v) : Answers before k none := by
  intro v
  exact ⟨fun heq => (by cases heq), fun hv => absurd hv (h v)⟩

theorem answers_some (h : before k v) (hunique : ∀ v', before k v' → v' = v) : Answers before k (some v) := by
  intro v'
  constructor
  · intro heq
    cases heq
    exact h
  · intro hv'
    rw [hunique v' hv']

/-- The pairs, if it is known what happens to the keys. -/
theorem Adds.of_keys (hold : ∀ k' v', before k' v' → after k' v') (hnew : after k v)
    (hkeys : ∀ k' v', after k' v' → k' = k ∨ ∃ v'', before k' v'')
    (hunique : ∀ k' v' v'', after k' v' → after k' v'' → v' = v'') (hk : ∀ v', ¬ before k v') :
    Adds before after k v := by
  refine ⟨hk, fun k' v' => ⟨fun hafter => ?_, fun hcases => ?_⟩⟩
  · cases hkeys k' v' hafter with
    | inl heq =>
        rw [heq] at hafter
        exact .inl ⟨heq, hunique k v' v hafter hnew⟩
    | inr hbefore =>
        obtain ⟨v'', hbefore⟩ := hbefore
        rw [hunique k' v' v'' hafter (hold k' v'' hbefore)]
        exact .inr hbefore
  · cases hcases with
    | inl heq =>
        rw [heq.1, heq.2]
        exact hnew
    | inr hbefore => exact hold k' v' hbefore

theorem Deletes.of_keys (hold : ∀ k' v', after k' v' → before k' v') (hk : ∃ v', before k v')
    (hkeys : ∀ k', (∃ v', after k' v') ↔ k' ≠ k ∧ ∃ v', before k' v')
    (hunique : ∀ k' v' v'', before k' v' → before k' v'' → v' = v'') : Deletes before after k := by
  refine ⟨hk, fun k' v' => ⟨fun hafter => ?_, fun hbefore => ?_⟩⟩
  · exact ⟨((hkeys k').mp ⟨v', hafter⟩).1, hold k' v' hafter⟩
  · obtain ⟨hne, hbefore⟩ := hbefore
    obtain ⟨v'', hafter⟩ := (hkeys k').mpr ⟨hne, v', hbefore⟩
    rw [hunique k' v' v'' hbefore (hold k' v'' hafter)]
    exact hafter

section

variable [DecidableEq K]

/-- A new key in a function. -/
theorem adds_update (hbefore : ∀ k' v', before k' v' ↔ f k' = some v')
    (hafter : ∀ k' v', after k' v' ↔ Function.update f k (some v) k' = some v') (hk : f k = none) :
    Adds before after k v := by
  refine ⟨fun v' hv' => ?_, fun k' v' => ?_⟩
  · rw [hbefore, hk] at hv'
    cases hv'
  · rw [hafter, hbefore, Function.update_apply]
    by_cases heq : k' = k
    · rw [if_pos heq, Option.some.injEq, heq, hk]
      constructor
      · intro hv'
        exact .inl ⟨rfl, hv'.symm⟩
      · intro hcases
        cases hcases with
        | inl hnew => exact hnew.2.symm
        | inr hold => cases hold
    · rw [if_neg heq]
      exact ⟨.inr, fun hcases => hcases.resolve_left fun hnew => heq hnew.1⟩

/-- A key less in a function. -/
theorem deletes_update (hbefore : ∀ k' v', before k' v' ↔ f k' = some v')
    (hafter : ∀ k' v', after k' v' ↔ Function.update f k none k' = some v') (hk : (f k).isSome = true) :
    Deletes before after k := by
  refine ⟨?_, fun k' v' => ?_⟩
  · obtain ⟨v', hv'⟩ := Option.isSome_iff_exists.mp hk
    exact ⟨v', (hbefore k v').mpr hv'⟩
  · rw [hafter, hbefore, Function.update_apply]
    by_cases heq : k' = k
    · rw [if_pos heq]
      exact iff_of_false (fun h => by cases h) fun h => h.1 heq
    · rw [if_neg heq]
      exact (and_iff_right heq).symm

end

end OrderedMap
