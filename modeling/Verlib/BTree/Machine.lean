import Verlib.BTree.Heap
import Verlib.Interleaving.Object

/-!
# The B-tree of many threads

`insert`, `upsert` and `remove` of `btree/ordered_map.h`. Every load of a child pointer in `find_and_fix` is a step, and
so is every body of a `try_lock`; if the leaf says that there is nothing to do, the two loads under `read_lock` are
steps. What a node holds apart from its children is not written after its construction, so it is read in the same step
as the pointer to it. The counter of `find_and_fix`, at whose limit the program ends, is left out: it cuts runs short.
-/

namespace Verlib.BTree.Concurrent

open Interleaving

/-- The operations; `upsert` is an `insert` that replaces the value of a key that is there. -/
inductive Op (K V : Type) where
  | insert (k : K) (v : V) (upsert : Bool)
  | remove (k : K)
  deriving DecidableEq

/-- The key of an operation. -/
def Op.key {K V : Type} : Op K V → K
  | .insert k _ _ => k
  | .remove k => k

/-- Positions of a call: before the first load of `find_and_fix`, before a load further down, before the two repairs,
before the two loads of the validation, and before the `try_lock` of the update. -/
inductive Pos where
  | start
  | load (gp pidx p cidx : Nat)
  | fixRoot (c : Nat)
  | fix (gp pidx p cidx c : Nat)
  | readPtr (p cidx l : Nat)
  | readRemoved (p : Nat)
  | update (p cidx l : Nat)
  deriving DecidableEq

section

variable {K V : Type} [LinearOrder K]

/-- What follows `find_and_fix` at the leaf `l`. -/
def Op.located (o : Op K V) (keyvals : List (KV K V)) (p cidx l : Nat) : Pos :=
  match o with
  | .insert k _ upsert => if !upsert && (leafFind keyvals k).isSome then .readPtr p cidx l else .update p cidx l
  | .remove k => if !(leafFind keyvals k).isSome then .readPtr p cidx l else .update p cidx l

/-- The loop of `find_and_fix` at a child `c` of `p` that needs no repair; `none` is a fault of `node::find`. -/
def Op.visit (o : Op K V) (m : Memory K V) (p cidx c : Nat) : Option Pos :=
  match m.blocks c with
  | .leaf _ keyvals => some (o.located keyvals p cidx c)
  | .node _ size keys _ => (find size keys o.key 0).map fun i => .load p cidx c i

/-- The new leaf of an operation. -/
def Op.newLeaf (B : BlockSizes) (o : Op K V) (keyvals : List (KV K V)) : Option (Node K V) :=
  match o with
  | .insert k v upsert => insertLeaf B keyvals k v (upsert && (leafFind keyvals k).isSome)
  | .remove k => removeLeaf B keyvals k

/-- The body of `try_insert` and `try_remove`: whether it returns true, and the memory. -/
def Op.body (B : BlockSizes) (o : Op K V) (locks : Nat → Bool) (p cidx l : Nat) (m : Memory K V) :
    Option (Memory K V × Bool) :=
  if locks 0 ∧ m.removed p = false ∧ m.child p cidx = l then do
    let t ← o.newLeaf B (m.blocks l).entries
    let (m, l') ← placeLeaf t m
    pure (m.setChild p cidx l', true)
  else pure (m, false)

/-- One step of a call; `locks` says which locks are acquired, and `none` is a fault. -/
def step (B : BlockSizes) (o : Op K V) (m : Memory K V) (locks : Nat → Bool) : Pos → Option (Memory K V × (Pos ⊕ Bool))
  | .start =>
      let c := m.child root 0
      if NeedsFix (m.blocks c).header then some (m, .inl (.fixRoot c))
      else (o.visit m root 0 c).map fun pos => (m, .inl pos)
  | .load gp pidx p cidx =>
      let c := m.child p cidx
      if (m.blocks c).header.status = .ok then (o.visit m p cidx c).map fun pos => (m, .inl pos)
      else some (m, .inl (.fix gp pidx p cidx c))
  | .fixRoot c => (fixRoot B locks c m).map fun m' => (m', .inl .start)
  | .fix gp pidx p cidx c => (fixNode B locks gp pidx p cidx c m).map fun m' => (m', .inl .start)
  | .readPtr p cidx l => some (m, .inl (if m.child p cidx = l then .readRemoved p else .start))
  | .readRemoved p => some (m, if m.removed p = false then .inr false else .inl .start)
  | .update p cidx l =>
      (o.body B locks p cidx l m).map fun r => (r.1, if r.2 then .inr true else .inl .start)

/-- The calls of the tree. -/
def machine (B : BlockSizes) : Machine (Op K V) (Memory K V) Pos Bool (Nat → Bool) := ⟨fun _ => .start, step B⟩

/-- The constructor of the map: a root with an empty leaf. -/
structure Initial (B : BlockSizes) (m : Memory K V) : Prop where
  top : ∃ keys children, m.blocks root = .node .ok 1 keys children ∧ children 0 = 1
  leaf : m.blocks 1 = .leaf (statusOf B.leafMin B.leaf 0) []
  removed : m.removed root = false
  fresh : m.fresh = 2

/-! ## What is reachable from the root -/

/-- There are child pointers from the root to this node. -/
inductive Reach (blocks : Nat → Block K V) : Nat → Prop where
  | root : Reach blocks root
  | kid {a x : Nat} : Reach blocks a → x ∈ (blocks a).kids → Reach blocks x

/-- A leaf that can be reached from the root has this key with this value. -/
def Contains (m : Memory K V) (k : K) (v : V) : Prop := ∃ a, Reach m.blocks a ∧ ⟨k, v⟩ ∈ (m.blocks a).entries

end

end Verlib.BTree.Concurrent
