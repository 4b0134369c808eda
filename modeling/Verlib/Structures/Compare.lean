import Mathlib
import Verlib.BlockLeafTree.Compare
import Verlib.DList.Content

/-!
# Maps under another order

The block-leaf tree and the doubly linked list take the order of the keys as a parameter, `Compare`, and each of them
has one comparison by `operator<`. A run of them under any `Compare` is compared with the run under `std::less` on the
images of the keys in the integers.
-/

namespace Verlib.Structures

open OrderedMap

variable {K V : Type} [LinearOrder K]

/-- Under `std::less` the two comparisons are the same. -/
def stdLess : K → K → Bool := fun a b => decide (a < b)

theorem copyStops_stdLess (t : ExternalTree.ExtTree K (BlockLeafTree.Leaf K V)) (op : Op K V) :
    BlockLeafTree.CopyStops stdLess t op := by
  cases op with
  | remove k => exact fun _ _ => ⟨fun _ _ hlt => decide_eq_true hlt, decide_eq_false (lt_irrefl k)⟩
  | insert k v => trivial
  | find k => trivial

theorem ordered_stdLess (m : DList.Memory K V) (op : Op K V) : DList.Ordered stdLess m op := by
  cases op with
  | insert k v => exact fun _ _ _ _ hlt _ => decide_eq_true hlt
  | remove k => trivial
  | find k => trivial

/-- In both structures, a run under `Compare` ends with the results of the run under `std::less` on the images of the
keys, and with corresponding contents, if and only if in every step `operator<` says what `Compare` says: in the tree
about the keys of the block from which a key is removed, in the list about a new key and the one before it. -/
theorem compare_iff {blockSize : Nat} (hbs : 1 ≤ blockSize) (opLess : K → K → Bool) {φ : K → ℤ} (hφ : StrictMono φ)
    (m : DList.Memory K V) (m' : DList.Memory ℤ V) (ops : List (Op K V)) :
    (SameRuns (fun _ => BlockLeafTree.performBy opLess blockSize) BlockLeafTree.Contains
        (fun _ => BlockLeafTree.performBy stdLess blockSize) BlockLeafTree.Contains φ ops
        BlockLeafTree.empty BlockLeafTree.empty ↔
      Guarded (fun _ => BlockLeafTree.performBy opLess blockSize) (BlockLeafTree.CopyStops opLess) ops
        BlockLeafTree.empty) ∧
    (SameRuns (DList.perform opLess) DList.Memory.Contains (DList.perform stdLess) DList.Memory.Contains φ ops
        (DList.init m) (DList.init m') ↔
      Guarded (DList.perform opLess) (DList.Ordered opLess) ops (DList.init m)) := by
  have hcorr : Corresponds φ (fun _ => none : K → Option V) fun _ => none :=
    ⟨fun _ => rfl, fun _ h => by cases h⟩
  constructor
  · exact sameRuns_iff (BlockLeafTree.implements hbs opLess)
      ((BlockLeafTree.implements hbs stdLess).of_guard fun t op => copyStops_stdLess t op) hφ.injective
      BlockLeafTree.represents_empty BlockLeafTree.represents_empty hcorr
  · exact sameRuns_iff (DList.implements opLess)
      ((DList.implements stdLess).of_guard fun m op => ordered_stdLess m op) hφ.injective
      ⟨_, _, DList.represents_init m⟩ ⟨_, _, DList.represents_init m'⟩ hcorr

/-- `operator<` of integers that are compared by `std::greater`. -/
def intLess : ℤᵒᵈ → ℤᵒᵈ → Bool := fun a b => decide (OrderDual.ofDual a < OrderDual.ofDual b)

/-- A memory that holds the same in all places. -/
def filled (k : K) (v : V) : DList.Memory K V :=
  ⟨fun _ => 0, fun _ => 0, fun _ => k, fun _ => v, fun _ => false, fun _ => false, 0⟩

/-- The integers with their order reversed, as integers. -/
theorem strictMono_neg : StrictMono fun k : ℤᵒᵈ => -OrderDual.ofDual k :=
  fun _ _ hab => Int.neg_lt_neg hab

/-- With `std::greater`, runs in which no key is removed from a block that has another one, and none is inserted after
another one. -/
theorem compare_iff_greater :
    SameRuns (fun _ => BlockLeafTree.performBy intLess 14) BlockLeafTree.Contains
      (fun _ => BlockLeafTree.performBy stdLess 14) BlockLeafTree.Contains (fun k => -OrderDual.ofDual k)
      ([.insert (OrderDual.toDual 2) 20, .insert (OrderDual.toDual 1) 10, .find (OrderDual.toDual 1)] :
        List (Op ℤᵒᵈ ℤ))
      BlockLeafTree.empty BlockLeafTree.empty ∧
    SameRuns (DList.perform intLess) DList.Memory.Contains (DList.perform stdLess) DList.Memory.Contains
      (fun k => -OrderDual.ofDual k)
      [.insert (OrderDual.toDual 1) 10, .find (OrderDual.toDual 1), .remove (OrderDual.toDual 1)]
      (DList.init (filled (OrderDual.toDual 0) 0)) (DList.init (filled 0 0)) := by
  constructor
  · have hiff := (compare_iff (by decide : 1 ≤ 14) intLess strictMono_neg
      (filled (OrderDual.toDual 0) (0 : ℤ)) (filled 0 0)
      [.insert (OrderDual.toDual 2) 20, .insert (OrderDual.toDual 1) 10, .find (OrderDual.toDual 1)]).1
    exact hiff.mpr ⟨trivial, fun _ _ _ => ⟨trivial, fun _ _ _ => ⟨trivial, fun _ _ _ => trivial⟩⟩⟩
  · have hiff := (compare_iff (by decide : 1 ≤ 14) intLess strictMono_neg
      (filled (OrderDual.toDual 0) 0) (filled 0 0)
      [.insert (OrderDual.toDual 1) 10, .find (OrderDual.toDual 1), .remove (OrderDual.toDual 1)]).2
    refine hiff.mpr ⟨fun _ k₀ v₀ hcontains => ?_, fun _ _ _ => ⟨trivial, fun _ _ _ => ⟨trivial, fun _ _ _ => trivial⟩⟩⟩
    have hnone := (DList.represents_init (filled (OrderDual.toDual 0) 0)).contains.mp hcontains
    cases hnone

/-- With `std::greater`, the tree keeps a key whose removal it reports. -/
theorem compare_differs :
    ¬ ∀ (m : DList.Memory ℤᵒᵈ ℤ) (m' : DList.Memory ℤ ℤ) (ops : List (Op ℤᵒᵈ ℤ)),
      SameRuns (fun _ => BlockLeafTree.performBy intLess 14) BlockLeafTree.Contains
        (fun _ => BlockLeafTree.performBy stdLess 14) BlockLeafTree.Contains (fun k => -OrderDual.ofDual k) ops
        BlockLeafTree.empty BlockLeafTree.empty ∧
      SameRuns (DList.perform intLess) DList.Memory.Contains (DList.perform stdLess) DList.Memory.Contains
        (fun k => -OrderDual.ofDual k) ops (DList.init m) (DList.init m') := by
  intro hall
  obtain ⟨⟨t, t', rs, hrun, hrun', -⟩, -⟩ := hall (filled (OrderDual.toDual 0) 0) (filled 0 0)
    [.insert (OrderDual.toDual 2) 20, .insert (OrderDual.toDual 1) 10, .remove (OrderDual.toDual 1),
      .find (OrderDual.toDual 1)]
  obtain ⟨enough, hrun⟩ := hrun
  obtain ⟨enough', hrun'⟩ := hrun'
  have hresults := congrArg (Option.map Prod.snd) (hrun enough le_rfl)
  have hresults' := congrArg (Option.map Prod.snd) (hrun' enough' le_rfl)
  have hkept : [.changed true, .changed true, .changed true, .found (some 10)] = rs :=
    Option.some.inj hresults
  have hgone : [.changed true, .changed true, .changed true, .found none] = rs :=
    Option.some.inj hresults'
  rw [← hkept] at hgone
  exact absurd hgone (by decide)

end Verlib.Structures
