import Verlib.LeafTree.Operations
import Verlib.BTree.Operations

/-!
# What `upsert` stores

The two structures that offer `upsert` share its code with `insert`. The B-tree looks at the flag in its test for a key
that is there, and again when it writes the leaf. The leaf-oriented tree has the code for it, commented out.
-/

namespace Verlib.LeafTree

open OrderedMap

variable {K V : Type} [LinearOrder K]

/-- After any operations, an `upsert` of the leaf-oriented tree stores its value and changes no other key if and only if
the key is new or has the value already. An `upsert` of the B-tree always does. -/
theorem upsert_stores_iff (B : BTree.BlockSizes) (ops : List (UpsertOp K V)) (k : K) (v : V) :
    (∃ t rs, run perform ops empty = some (t, rs) ∧
      ((find (upsert t k v).1 k = some v ∧ ∀ k' ≠ k, find (upsert t k v).1 k' = find t k') ↔
        find t k = none ∨ find t k = some v)) ∧
    ∃ root rs root' enough, ∀ fuel ≥ enough,
      run (BTree.perform B fuel) ops (BTree.empty B) = some (root, rs) ∧
        BTree.upsert B fuel root k v = some (root', true) ∧ BTree.find_ root' k = some (some v) ∧
        ∀ k' ≠ k, BTree.find_ root' k' = BTree.find_ root k' := by
  constructor
  · obtain ⟨t, hrun, hrep⟩ := represents_of_run ops
    exact ⟨t, _, hrun, hrep.upsert k v⟩
  · obtain ⟨root, hrep, enough, hrun⟩ := BTree.represents_of_run B ops
    obtain ⟨root', ⟨enough', hupsert⟩, hfind, hother⟩ := hrep.upsert k v
    exact ⟨root, _, root', max enough enough', fun fuel hfuel =>
      ⟨hrun fuel ((le_max_left _ _).trans hfuel), hupsert fuel ((le_max_right _ _).trans hfuel), hfind, hother⟩⟩

/-- An `upsert` of 20 for a key with the value 10. -/
theorem upsert_keeps_old :
    ∃ t rs, run perform [.plain (.insert 1 10)] (empty : ExternalTree.ExtTree Nat (Leaf Nat Nat)) = some (t, rs) ∧
      find (upsert t 1 20).1 1 = some 10 ∧
      ¬ (find (upsert t 1 20).1 1 = some 20 ∧ ∀ k' ≠ 1, find (upsert t 1 20).1 k' = find t k') :=
  ⟨_, _, rfl, by decide, fun h => absurd h.1 (by decide)⟩

end Verlib.LeafTree
