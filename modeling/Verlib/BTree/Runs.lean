import Verlib.BTree.Operations

/-!
# Runs of the B-tree

After any sequence of operations on an empty map, the tree is a balanced search tree with blocks of the right sizes, and
every operation has had the result that it has on a finite map.
-/

namespace Verlib.BTree

open Separated OrderedMap

variable {K V : Type}

/-! ## Balance -/

/-- All leaves are at the same depth. -/
def LeavesAt : Node K V → Nat → Prop
  | .leaf .., depth => depth = 0
  | .node _ size _ children, depth => ∃ depth', depth = depth' + 1 ∧ ∀ i < size, LeavesAt (children i) depth'

/-- All nodes below a node. -/
def Below (P : Node K V → Prop) : Node K V → Prop
  | .leaf .. => True
  | .node _ size _ children => ∀ i < size, P (children i) ∧ Below P (children i)

namespace BlockSizes

variable (B : BlockSizes)

/-- The least size of a block. -/
def minSize : Node K V → Nat
  | .leaf .. => B.leafMin
  | .node .. => B.nodeMin

/-- The size of the block of a node. -/
def blockSize : Node K V → Nat
  | .leaf .. => B.leaf
  | .node .. => B.node

end BlockSizes

/-- A node fits its block, and its status is `isOver` or `isUnder` only at the block size or the least size. -/
structure StatusOk (B : BlockSizes) (c : Node K V) : Prop where
  size_le : c.size ≤ B.blockSize c
  isOver : c.status = .isOver → c.size = B.blockSize c
  isUnder : c.status = .isUnder → c.size = B.minSize c

/-- What the status of a new block says. -/
theorem statusOf_spec {status : Status} {min block size : Nat} (h : status = statusOf min block size) :
    (status = .isOver → size = block) ∧ (status = .isUnder → size = min) := by
  rw [h]
  refine ⟨fun hover => ?_, statusOf_isUnder.mp⟩
  rw [statusOf] at hover
  split at hover
  · cases hover
  · split at hover
    next heq => exact heq
    next => cases hover

/-- A node below the child of the root. -/
theorem SizeOk.statusOk {B : BlockSizes} {c : Node K V} (hsize : SizeOk B c) : StatusOk B c ∧ B.minSize c ≤ c.size := by
  cases c with
  | leaf status keyvals =>
      obtain ⟨hstatus, hmin, hle⟩ := hsize
      obtain ⟨hover, hunder⟩ := statusOf_spec hstatus
      exact ⟨⟨hle, hover, hunder⟩, hmin⟩
  | node status size keys children =>
      obtain ⟨hstatus, hmin, hle⟩ := hsize
      obtain ⟨hover, hunder⟩ := statusOf_spec hstatus
      exact ⟨⟨hle, hover, hunder⟩, hmin⟩

/-- The child of the root. -/
theorem RootOk.statusOk {B : BlockSizes} {root : Node K V} (hroot : RootOk B root) : StatusOk B root := by
  cases root with
  | leaf status keyvals =>
      obtain ⟨hstatus, hle⟩ := hroot
      obtain ⟨hover, hunder⟩ := statusOf_spec hstatus
      exact ⟨hle, hover, hunder⟩
  | node status size keys children =>
      obtain ⟨-, hle, hstatus⟩ := hroot
      cases hstatus with
      | inl hstatus =>
          obtain ⟨hover, hunder⟩ := statusOf_spec hstatus
          exact ⟨hle, hover, hunder⟩
      | inr hok =>
          obtain ⟨rfl, -⟩ := hok
          exact ⟨hle, fun h => (by cases h), fun h => by cases h⟩

variable [LinearOrder K]

section

variable {B : BlockSizes} {t : Node K V} {h : Nat} {lo hi : Bound K}

theorem Good.leavesAt (hgood : Good B t h lo hi) : LeavesAt t h := by
  induction t generalizing h lo hi with
  | leaf status keyvals => exact hgood.1
  | node status size keys children ih =>
      obtain ⟨h', rfl, -, b, hb⟩ := good_node.mp hgood
      exact ⟨h', rfl, fun i hi => ih i (hb.child i hi).2⟩

theorem Good.below (hgood : Good B t h lo hi) : Below (fun c => StatusOk B c ∧ B.minSize c ≤ c.size) t := by
  induction t generalizing h lo hi with
  | leaf status keyvals => trivial
  | node status size keys children ih =>
      obtain ⟨h', rfl, -, b, hb⟩ := good_node.mp hgood
      exact fun i hi => ⟨(hb.child i hi).1.statusOk, ih i (hb.child i hi).2⟩

/-- The keys of a balanced tree separate its entries. -/
theorem Good.searchTree (hgood : Good B t h lo hi) : SearchTree t := by
  induction t generalizing h lo hi with
  | leaf status keyvals => exact hgood.2.1
  | node status size keys children ih =>
      obtain ⟨h', rfl, hchain⟩ := good_node.mp hgood
      refine ⟨hchain.size_pos, fun _ _ => hchain.sorted, fun i hi => ?_⟩
      obtain ⟨-, b, hb⟩ := hchain
      refine ⟨ih i (hb.child i hi).2, fun kv hkv => ⟨hi, fun j hj => ?_, fun j hj hsize => ?_⟩⟩
      · have hlo := ((hb.child i hi).2.mem_interval hkv).1
        rw [← ofKey_le_ofKey, ← hb.key j (by omega)]
        exact (hb.le_of_le (show j + 1 ≤ i from hj) hi.le).trans hlo
      · have hhi := ((hb.child i hi).2.mem_interval hkv).2
        rw [← ofKey_lt_ofKey, ← hb.key j hsize]
        exact hhi.trans_le (hb.le_of_le (show i + 1 ≤ j + 1 by omega) (by omega))

end

/-! ## Runs -/

/-- A sequence of operations on the empty map ends, and has the results that it has on a finite map. After it the tree
holds that map. Its leaves are at the same depth, the entries of a leaf and the keys of a node are strictly sorted, every
key of a node is larger than the keys to its left, and not larger than those to its right, and the nodes are of the sizes
that their blocks and their status allow. -/
theorem btree_exact (B : BlockSizes) (ops : List (UpsertOp K V)) :
    ∃ root depth enough,
      (∀ fuel ≥ enough,
        run (perform B fuel) ops (empty B) = some (root, (acts UpsertOp.act ops fun _ => none).2)) ∧
      (∀ k v, ⟨k, v⟩ ∈ root.entries ↔ (acts UpsertOp.act ops fun _ => none).1 k = some v) ∧
      LeavesAt root depth ∧ SearchTree root ∧ StatusOk B root ∧
      Below (fun c => StatusOk B c ∧ B.minSize c ≤ c.size) root := by
  obtain ⟨root, hrep, enough, hrun⟩ := represents_of_run B ops
  obtain ⟨depth, hroot⟩ := hrep.rootGood
  exact ⟨root, depth, enough, hrun, hrep.mem, hroot.good.leavesAt, hroot.good.searchTree, hroot.sizeOk.statusOk,
    hroot.good.below⟩

end Verlib.BTree
