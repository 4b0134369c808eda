import Mathlib.Data.List.Pairwise
import Verlib.ExternalTree.Tree
import Verlib.OrderedMap.Map

/-!
# The block-leaf tree

The operations of `blockleaftree/ordered_map.h`. The `root` has the tree as its left child. In a sequential run every
lock is free, and what is checked under it still holds, so every operation ends in its first round. Nodes are retired
when they have been replaced, and an internal node is marked as removed then, so neither is part of the tree. A fault
(`none`) is the use of a null `gp`, a read of an entry beyond the size of a block, or the call of `abort`.
-/

namespace Verlib.BlockLeafTree

open ExternalTree OrderedMap

/-- A key with its value. -/
structure KV (K V : Type) where
  key : K
  value : V

/-- A leaf. Its size is the length of `keyvals`. -/
structure Leaf (K V : Type) where
  isSentinal : Bool
  keyvals : List (KV K V)

variable {K V : Type} [LinearOrder K]

/-- `equal`. -/
def equal (a b : K) : Bool := !decide (a < b) && !decide (b < a)

/-- `leaf::find`. -/
def findIn (k : K) : List (KV K V) → Option V
  | [] => none
  | kv :: rest => if equal kv.key k then some kv.value else findIn k rest

/-- `find_location`. -/
def findLocation (t : ExtTree K (Leaf K V)) (k : K) : Location (Leaf K V) :=
  locate (toward k) t

/-- The loops of `insert` that copy a block and insert a new entry. -/
def insertIn (new : KV K V) : List (KV K V) → Option (List (KV K V))
  | [] => some [new]
  | kv :: rest =>
      if kv.key < new.key then (insertIn new rest).map fun out => kv :: out
      else if new.key < kv.key then some (new :: kv :: rest)
      else none

/-- What `insert` writes for the new block: the block, or two halves if it overflows. -/
def newBlock (blockSize : Nat) (keyvals : List (KV K V)) : Option (ExtTree K (Leaf K V)) :=
  if blockSize < keyvals.length then
    (keyvals[keyvals.length / 2]?).map fun mid =>
      .node mid.key (.leaf ⟨false, keyvals.take (keyvals.length / 2)⟩)
        (.leaf ⟨false, keyvals.drop (keyvals.length / 2)⟩)
  else some (.leaf ⟨false, keyvals⟩)

/-- `insert`. -/
def insert (blockSize : Nat) (t : ExtTree K (Leaf K V)) (k : K) (v : V) : Option (ExtTree K (Leaf K V) × Bool) :=
  let loc := findLocation t k
  let ptr := loc.p ++ [loc.pLeft]
  if (findIn k loc.l.keyvals).isSome then some (t, false)
  else if loc.l.isSentinal then some (store t ptr (.node k (.leaf loc.l) (.leaf ⟨false, [⟨k, v⟩]⟩)), true)
  else do
    let keyvals ← insertIn ⟨k, v⟩ loc.l.keyvals
    let new ← newBlock blockSize keyvals
    pure (store t ptr new, true)

/-- The loops of `remove` that copy a block and leave out the key. -/
def removeFrom (k : K) : List (KV K V) → Option (List (KV K V))
  | [] => none
  | kv :: rest =>
      if kv.key < k then (removeFrom k rest).map fun out => kv :: out
      else if equal kv.key k then some rest
      else some (kv :: rest)

/-- `remove`. A leaf of one key is removed with its parent. -/
def remove (t : ExtTree K (Leaf K V)) (k : K) : Option (ExtTree K (Leaf K V) × Bool) :=
  let loc := findLocation t k
  let ptr := loc.p ++ [loc.pLeft]
  if (findIn k loc.l.keyvals).isNone then some (t, false)
  else if 1 < loc.l.keyvals.length then do
    let keyvals ← removeFrom k loc.l.keyvals
    pure (store t ptr (.leaf ⟨false, keyvals⟩), true)
  else
    match loc.l.keyvals with
    | [] => none
    | kv :: _ => if equal kv.key k then (unlink t loc).map fun t' => (t', true) else some (t, true)

/-- `find_`. -/
def find (t : ExtTree K (Leaf K V)) (k : K) : Option V :=
  findIn k (findLocation t k).l.keyvals

/-- `empty`: the tree below the root is the sentinel. -/
def empty : ExtTree K (Leaf K V) := .leaf ⟨true, []⟩

/-- An operation. -/
def perform (blockSize : Nat) (t : ExtTree K (Leaf K V)) : Op K V → Option (ExtTree K (Leaf K V) × Result V)
  | .insert k v => (insert blockSize t k v).map fun r => (r.1, .changed r.2)
  | .remove k => (remove t k).map fun r => (r.1, .changed r.2)
  | .find k => some (t, .found (find t k))

/-! ## Blocks -/

/-- Strictly sorted entries. -/
def Sorted (keyvals : List (KV K V)) : Prop := keyvals.Pairwise fun a b => a.key < b.key

section

variable {keyvals out : List (KV K V)} {k : K} {v : V}

theorem equal_iff {a b : K} : equal a b = true ↔ a = b := by
  rw [equal, Bool.and_eq_true, Bool.not_eq_true', Bool.not_eq_true', decide_eq_false_iff_not,
    decide_eq_false_iff_not, not_lt, not_lt]
  exact ⟨fun h => le_antisymm h.2 h.1, fun h => ⟨h.ge, h.le⟩⟩

/-- The search in a block. -/
theorem findIn_eq_some (hsorted : Sorted keyvals) : findIn k keyvals = some v ↔ ⟨k, v⟩ ∈ keyvals := by
  induction keyvals with
  | nil => simp [findIn]
  | cons kv rest ih =>
      obtain ⟨hkv, hrest⟩ := List.pairwise_cons.mp hsorted
      rw [findIn, List.mem_cons]
      by_cases heq : kv.key = k
      · rw [if_pos (equal_iff.mpr heq), Option.some.injEq]
        constructor
        · intro hv
          exact .inl (by rw [← heq, ← hv])
        · intro hmem
          cases hmem with
          | inl hmem => rw [← hmem]
          | inr hmem => exact absurd heq (hkv _ hmem).ne
      · rw [if_neg (mt equal_iff.mp heq), ih hrest]
        constructor
        · exact .inr
        · intro hmem
          cases hmem with
          | inl hmem => exact absurd (by rw [← hmem]) heq
          | inr hmem => exact hmem

/-- The copy of a block with a new entry. -/
theorem insertIn_spec (hsorted : Sorted keyvals) (new : KV K V) (hnew : ∀ kv ∈ keyvals, kv.key ≠ new.key) :
    ∃ out, insertIn new keyvals = some out ∧ Sorted out ∧ out.Perm (new :: keyvals) := by
  induction keyvals with
  | nil => exact ⟨[new], rfl, List.pairwise_singleton _ _, List.Perm.refl _⟩
  | cons kv rest ih =>
      obtain ⟨hkv, hrest⟩ := List.pairwise_cons.mp hsorted
      rw [List.forall_mem_cons] at hnew
      rw [insertIn]
      by_cases hlt : kv.key < new.key
      · obtain ⟨out, heq, hout, hperm⟩ := ih hrest hnew.2
        rw [if_pos hlt, heq]
        refine ⟨kv :: out, rfl, List.pairwise_cons.mpr ⟨fun kv' hkv' => ?_, hout⟩, ?_⟩
        · cases List.mem_cons.mp (hperm.mem_iff.mp hkv') with
          | inl hkv' => rw [hkv']; exact hlt
          | inr hkv' => exact hkv kv' hkv'
        · exact (hperm.cons kv).trans (List.Perm.swap new kv rest)
      · have hlt' : new.key < kv.key := lt_of_le_of_ne (not_lt.mp hlt) hnew.1.symm
        rw [if_neg hlt, if_pos hlt']
        refine ⟨_, rfl, List.pairwise_cons.mpr ⟨?_, hsorted⟩, List.Perm.refl _⟩
        exact List.forall_mem_cons.mpr ⟨hlt', fun kv' hkv' => hlt'.trans (hkv kv' hkv')⟩

/-- The copy of a block without a key that it has. -/
theorem removeFrom_spec (hsorted : Sorted keyvals) (hmem : ⟨k, v⟩ ∈ keyvals) :
    ∃ out, removeFrom k keyvals = some out ∧ Sorted out ∧ keyvals.Perm (⟨k, v⟩ :: out) := by
  induction keyvals with
  | nil => cases hmem
  | cons kv rest ih =>
      obtain ⟨hkv, hrest⟩ := List.pairwise_cons.mp hsorted
      rw [removeFrom]
      cases List.mem_cons.mp hmem with
      | inl heq =>
          subst heq
          rw [if_neg (lt_irrefl k), if_pos (equal_iff.mpr rfl)]
          exact ⟨rest, rfl, hrest, List.Perm.refl _⟩
      | inr hmem =>
          obtain ⟨out, heq, hout, hperm⟩ := ih hrest hmem
          rw [if_pos (hkv _ hmem), heq]
          refine ⟨kv :: out, rfl, List.pairwise_cons.mpr ⟨fun kv' hkv' => ?_, hout⟩, ?_⟩
          · exact hkv kv' (hperm.mem_iff.mpr (List.mem_cons_of_mem _ hkv'))
          · exact (hperm.cons kv).trans (List.Perm.swap _ kv out)

end

end Verlib.BlockLeafTree
