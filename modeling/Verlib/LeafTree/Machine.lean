import Mathlib.Data.Set.Insert
import Mathlib.Order.Lattice
import Verlib.ExternalTree.Routes
import Verlib.Interleaving.Object

/-!
# The leaf-oriented tree of many threads

`insert` and `remove` of `leaftree/ordered_map.h` on a memory of nodes. `find_location` takes no lock, and every load of
a child pointer is a step. If the leaf says that there is nothing to do, the two loads under `read_lock` are steps, and
the body of a `try_lock` is one step, in which the locks may fail to be acquired. Nodes are not freed while a thread may
stand on them, so an address stands for one node.
-/

namespace Verlib.LeafTree.Concurrent

open ExternalTree Interleaving

/-- A `node`, with the fields of `internal` and `leaf`. The key of the root and of the sentinel are not read. -/
structure Node (K V : Type) where
  key : K
  value : V
  isLeaf : Bool
  isSentinal : Bool
  removed : Bool
  left : Nat
  right : Nat

/-- The nodes by their addresses, and the next address to be allocated. Zero is the null pointer. -/
structure Memory (K V : Type) where
  nodes : Nat → Node K V
  fresh : Nat

/-- The address of the root. -/
def root : Nat := 1

/-- The operations. -/
inductive Op (K V : Type) where
  | insert (k : K) (v : V)
  | remove (k : K)
  deriving DecidableEq

/-- The key of an operation. -/
def Op.key {K V : Type} : Op K V → K
  | .insert k _ => k
  | .remove k => k

/-- What `find_location` returns, or has when it has loaded `l`. -/
structure Place where
  gp : Nat
  gpLeft : Bool
  p : Nat
  pLeft : Bool
  l : Nat

/-- Positions of a call: before the first load, in the loop of `find_location`, before the two loads of the validation,
and before `try_lock`. -/
inductive Pos where
  | start
  | search (loc : Place)
  | readPtr (loc : Place)
  | readRemoved (loc : Place)
  | lock (loc : Place)

variable {K V : Type}

namespace Memory

/-- `p_left ? p->left : p->right`. -/
def child (m : Memory K V) (a : Nat) (left : Bool) : Nat :=
  if left then (m.nodes a).left else (m.nodes a).right

/-- Write a child pointer. -/
def setChild (m : Memory K V) (a : Nat) (left : Bool) (b : Nat) : Memory K V where
  nodes := Function.update m.nodes a (if left then { m.nodes a with left := b } else { m.nodes a with right := b })
  fresh := m.fresh

/-- Write `removed`. -/
def setRemoved (m : Memory K V) (a : Nat) : Memory K V :=
  { m with nodes := Function.update m.nodes a { m.nodes a with removed := true } }

/-- `leaf_pool.new_obj(k, v)`: the new leaf is `m.fresh`. -/
def newLeaf (m : Memory K V) (k : K) (v : V) : Memory K V where
  nodes := Function.update m.nodes m.fresh
    { m.nodes m.fresh with key := k, value := v, isLeaf := true, isSentinal := false }
  fresh := m.fresh + 1

/-- `internal_pool.new_obj(k, left, right)`: the new node is `m.fresh`. -/
def newInternal (m : Memory K V) (k : K) (left right : Nat) : Memory K V where
  nodes := Function.update m.nodes m.fresh
    { m.nodes m.fresh with
      key := k, isLeaf := false, isSentinal := false, removed := false, left := left, right := right }
  fresh := m.fresh + 1

section

variable [LinearOrder K]

/-- `Less`. -/
def less (m : Memory K V) (k : K) (a : Nat) : Bool :=
  !(m.nodes a).isSentinal && decide (k < (m.nodes a).key)

/-- `Equal`. -/
def equal (m : Memory K V) (k : K) (a : Nat) : Bool :=
  !((m.nodes a).isSentinal || decide (k < (m.nodes a).key) || decide ((m.nodes a).key < k))

/-- What `try_insert` builds over the leaf `l`: a new leaf, and over both of them a new internal node. -/
def build (m : Memory K V) (k : K) (v : V) (l : Nat) : Memory K V :=
  let m' := m.newLeaf k v
  if m.less k l then m'.newInternal (m.nodes l).key m.fresh l else m'.newInternal k l m.fresh

end

end Memory

section

variable [LinearOrder K]

/-- What follows `find_location` for the leaf `l`: the validation, the `try_lock`, or the return of `try_remove` at the
sentinel. -/
def Op.located (o : Op K V) (m : Memory K V) (loc : Place) : Pos ⊕ Bool :=
  match o with
  | .insert k _ => .inl (if m.equal k loc.l then .readPtr loc else .lock loc)
  | .remove k =>
      if (m.nodes loc.l).isSentinal then .inr false
      else .inl (if m.equal k loc.l then .lock loc else .readPtr loc)

/-- One turn of the loop of `find_location`. -/
def Op.find (o : Op K V) (m : Memory K V) (loc : Place) : Pos ⊕ Bool :=
  if (m.nodes loc.l).isLeaf then o.located m loc
  else
    let left := m.less o.key loc.l
    .inl (.search ⟨loc.p, loc.pLeft, loc.l, left, m.child loc.l left⟩)

/-- The body of `try_insert` under the lock of `p`. -/
def insertBody (m : Memory K V) (locks : Nat → Bool) (k : K) (v : V) (loc : Place) : Option (Memory K V) :=
  if locks 0 ∧ (m.nodes loc.p).removed = false ∧ m.child loc.p loc.pLeft = loc.l then
    some ((m.build k v loc.l).setChild loc.p loc.pLeft (m.fresh + 1))
  else none

/-- The body of `try_remove` under the locks of `gp` and `p`: the other child `ll` takes the place of `p`. -/
def removeBody (m : Memory K V) (locks : Nat → Bool) (loc : Place) : Option (Memory K V) :=
  if locks 0 ∧ locks 1 ∧ (m.nodes loc.gp).removed = false ∧ m.child loc.gp loc.gpLeft = loc.p ∧
      m.child loc.p loc.pLeft = loc.l then
    some ((m.setRemoved loc.p).setChild loc.gp loc.gpLeft (m.child loc.p !loc.pLeft))
  else none

/-- The body of an operation, and the memory after it if it returns true. -/
def Op.body (o : Op K V) (m : Memory K V) (locks : Nat → Bool) (loc : Place) : Option (Memory K V) :=
  match o with
  | .insert k v => insertBody m locks k v loc
  | .remove _ => removeBody m locks loc

/-- The node whose lock and child pointer a validation reads, with the turn and the child that is expected. -/
def Op.validated (o : Op K V) (loc : Place) : Nat × Bool × Nat :=
  match o with
  | .insert .. => (loc.p, loc.pLeft, loc.l)
  | .remove _ => (loc.gp, loc.gpLeft, loc.p)

/-- One step of a call; `locks` says which locks are acquired. -/
def step (o : Op K V) (m : Memory K V) (locks : Nat → Bool) : Pos → Option (Memory K V × (Pos ⊕ Bool))
  | .start => some (m, .inl (.search ⟨0, false, root, true, m.child root true⟩))
  | .search loc => some (m, o.find m loc)
  | .readPtr loc =>
      let v := o.validated loc
      some (m, .inl (if m.child v.1 v.2.1 = v.2.2 then .readRemoved loc else .start))
  | .readRemoved loc => some (m, if (m.nodes (o.validated loc).1).removed = false then .inr false else .inl .start)
  | .lock loc =>
      match o.body m locks loc with
      | some m' => some (m', .inr true)
      | none => some (m, .inl .start)

/-- The calls of the tree. -/
def machine : Machine (Op K V) (Memory K V) Pos Bool (Nat → Bool) := ⟨fun _ => .start, step⟩

/-- The node `gp` that a step of `try_remove` reads or locks. -/
def Op.usesGp : Op K V → Pos → Option Nat
  | .remove _, .readPtr loc | .remove _, .readRemoved loc | .remove _, .lock loc => some loc.gp
  | _, _ => none

end

/-! ## What the tree contains -/

/-- The nodes from address `a` on form the tree `t` of addresses. -/
def Memory.Shape (m : Memory K V) : ExtTree Nat Nat → Nat → Prop
  | .leaf l, a => a = l ∧ (m.nodes l).isLeaf = true
  | .node b left right, a => a = b ∧ (m.nodes b).isLeaf = false ∧ m.Shape left (m.nodes b).left ∧
      m.Shape right (m.nodes b).right

/-- The keys of the leaves. -/
def Memory.content (m : Memory K V) : Set K :=
  { k | ∃ t, m.Shape t (m.nodes root).left ∧ ∃ a ∈ t.leaves, (m.nodes a).isSentinal = false ∧ (m.nodes a).key = k }

/-- The keys of the leaves to the left of a node are smaller than its key, and those to the right are not. -/
def Memory.Ordered [LinearOrder K] (m : Memory K V) : ExtTree Nat Nat → Prop
  | .leaf _ => True
  | .node b left right =>
      (∀ a ∈ left.leaves, (m.nodes a).isSentinal = false → (m.nodes a).key < (m.nodes b).key) ∧
        (∀ a ∈ right.leaves, (m.nodes a).isSentinal = false → (m.nodes b).key ≤ (m.nodes a).key) ∧
        m.Ordered left ∧ m.Ordered right

/-- An external search tree whose leftmost leaf is the sentinel, and no other node is. -/
structure Memory.SearchTree [LinearOrder K] (m : Memory K V) (t : ExtTree Nat Nat) : Prop where
  shape : m.Shape t (m.nodes root).left
  ordered : m.Ordered t
  leaves : ∃ a rest, t.leaves = a :: rest ∧ (m.nodes a).isSentinal = true ∧ ∀ b ∈ rest, (m.nodes b).isSentinal = false
  routers : ∀ b ∈ t.routers, (m.nodes b).isSentinal = false

/-- What an operation that returns true does to the keys. -/
def Op.Effect (o : Op K V) (s s' : Set K) : Prop :=
  match o with
  | .insert k _ => k ∉ s ∧ s' = s ∪ {k}
  | .remove k => k ∈ s ∧ s' = s \ {k}

/-- Why an operation may return false. -/
def Op.Refused (o : Op K V) (s : Set K) : Prop :=
  match o with
  | .insert k _ => k ∈ s
  | .remove k => k ∉ s

/-- What the tree is for. -/
def spec : Spec (Op K V) (Memory K V) Bool where
  Same m m' := m'.content = m.content
  Effect o r m m' := r = true ∧ o.Effect m.content m'.content
  Refused o r m := r = false ∧ o.Refused m.content

/-- The empty map: the left child of the root is the sentinel. -/
structure Initial (m : Memory K V) : Prop where
  header : (m.nodes root).left = 2 ∧ (m.nodes root).isLeaf = false ∧ (m.nodes root).isSentinal = true ∧
    (m.nodes root).removed = false
  sentinal : (m.nodes 2).isLeaf = true ∧ (m.nodes 2).isSentinal = true
  fresh : m.fresh = 3

end Verlib.LeafTree.Concurrent
