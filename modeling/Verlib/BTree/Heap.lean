import Verlib.BTree.Operations

/-!
# The B-tree in a memory

The nodes of `btree/ordered_map.h` by their addresses, and the bodies of its `try_lock`s, without `Recorded_Once`. A
body is one step, in which the locks may fail to be acquired; then it has no effect. What is retired is not freed while
a thread may stand on it, so an address stands for one node, and a node that is retired stays as it is. A body yields
nothing if an assertion fails, or if it reads or writes outside of a node.
-/

namespace Verlib.BTree.Concurrent

open Separated

/-- A node: a leaf, or an internal node with the addresses of its children. -/
inductive Block (K V : Type) where
  | leaf (status : Status) (keyvals : List (KV K V))
  | node (status : Status) (size : Nat) (keys : Nat → K) (children : Nat → Nat)

/-- The nodes, their flags `removed`, and the next address to be allocated. -/
structure Memory (K V : Type) where
  blocks : Nat → Block K V
  removed : Nat → Bool
  fresh : Nat

/-- The address of the root. -/
def root : Nat := 0

variable {K V : Type}

namespace Block

/-- What is not written after the construction of a node. -/
def header : Block K V → Node K V
  | leaf status keyvals => .leaf status keyvals
  | node status size keys _ => .node status size keys fun _ => .leaf .ok []

/-- The addresses of the children, from left to right. -/
def kids : Block K V → List Nat
  | leaf .. => []
  | node _ size _ children => row size children

/-- The entries of a leaf. -/
def entries : Block K V → List (KV K V)
  | leaf _ keyvals => keyvals
  | node .. => []

end Block

namespace Memory

variable (m : Memory K V)

/-- `a->children[i].load()`. -/
def child (a i : Nat) : Nat :=
  match m.blocks a with
  | .leaf .. => 0
  | .node _ _ _ children => children i

/-- `a->children[i] = b`. -/
def setChild (a i b : Nat) : Memory K V :=
  match m.blocks a with
  | .leaf .. => m
  | .node status size keys children =>
      { m with blocks := Function.update m.blocks a (.node status size keys (Function.update children i b)) }

/-- `a->removed = true`. -/
def setRemoved (a : Nat) : Memory K V := { m with removed := Function.update m.removed a true }

/-- A new node. -/
def alloc (b : Block K V) : Memory K V × Nat :=
  (⟨Function.update m.blocks m.fresh b, Function.update m.removed m.fresh false, m.fresh + 1⟩, m.fresh)

end Memory

section

variable (B : BlockSizes)

/-! ## New nodes -/

/-- A new leaf. -/
def placeLeaf (t : Node K V) (m : Memory K V) : Option (Memory K V × Nat) :=
  match t with
  | .leaf status keyvals => some (m.alloc (.leaf status keyvals))
  | .node .. => none

/-- Two new leaves with a key between them. -/
def placeLeaves (nec : Node K V × K × Node K V) (m : Memory K V) : Option (Memory K V × Nat × K × Nat) := do
  let (m, l) ← placeLeaf nec.1 m
  let (m, r) ← placeLeaf nec.2.2 m
  pure (m, l, nec.2.1, r)

/-- `copy`. -/
def copy (size : Nat) (getKey : Nat → K) (getChild : Nat → Nat) (m : Memory K V) : Option (Memory K V × Nat) :=
  if size ≤ B.node then some (m.alloc (.node (statusOf B.nodeMin B.node size) size getKey getChild)) else none

/-- `node(std::tuple<node*,K,node*> nec)`: a new root node. -/
def rootNode (nec : Nat × K × Nat) (m : Memory K V) : Memory K V × Nat :=
  m.alloc (.node .ok 2 (fun _ => nec.2.1) fun i => if i = 0 then nec.1 else nec.2.2)

/-- `split_mid`. -/
def splitMid (size : Nat) (getKey : Nat → K) (getChild : Nat → Nat) (m : Memory K V) :
    Option (Memory K V × Nat × K × Nat) := do
  let lsize := size / 2
  let (m, newL) ← copy B lsize getKey getChild m
  let (m, newR) ← copy B (size - lsize) (fun i => getKey (i + lsize)) (fun i => getChild (i + lsize)) m
  pure (m, newL, getKey (lsize - 1), newR)

/-- `split_leaf` or `split`. -/
def split (c : Nat) (m : Memory K V) : Option (Memory K V × Nat × K × Nat) :=
  match m.blocks c with
  | .leaf status keyvals => do
      let nec ← BTree.split B (.leaf status keyvals)
      placeLeaves nec m
  | .node _ size keys children => if size = B.node then splitMid B size keys children m else none

/-- `rebalance_leaf` or `rebalance`. -/
def rebalance (c1 : Nat) (k : K) (c2 : Nat) (m : Memory K V) : Option (Memory K V × Nat × K × Nat) :=
  match m.blocks c1, m.blocks c2 with
  | .leaf status1 l, .leaf status2 r => do
      let nec ← BTree.rebalance B (.leaf status1 l) k (.leaf status2 r)
      placeLeaves nec m
  | .node _ size1 keys1 children1, .node _ size2 keys2 children2 =>
      splitMid B (size1 + size2) (appendKeys size1 keys1 k keys2) (append size1 children1 children2) m
  | _, _ => none

/-- `join_leaf` or `join`. -/
def join (c1 : Nat) (k : K) (c2 : Nat) (m : Memory K V) : Option (Memory K V × Nat) :=
  match m.blocks c1, m.blocks c2 with
  | .leaf status1 l, .leaf status2 r => do
      let t ← BTree.join B (.leaf status1 l) k (.leaf status2 r)
      placeLeaf t m
  | .node _ size1 keys1 children1, .node _ size2 keys2 children2 =>
      copy B (size1 + size2) (appendKeys size1 keys1 k keys2) (append size1 children1 children2) m
  | _, _ => none

/-- `add_child`. -/
def addChild (size : Nat) (keys : Nat → K) (children : Nat → Nat) (newc : Nat × K × Nat) (pos : Nat)
    (m : Memory K V) : Option (Memory K V × Nat) :=
  if size < B.node then
    copy B (size + 1) (insertKey pos newc.2.1 keys) (replaceByTwo pos newc.1 newc.2.2 children) m
  else none

/-- `join_children`. -/
def joinChildren (size : Nat) (keys : Nat → K) (children : Nat → Nat) (c : Nat) (pos : Nat) (m : Memory K V) :
    Option (Memory K V × Nat) :=
  copy B (size - 1) (dropKey pos keys) (replaceTwo pos c children) m

/-- `rebalance_children`. -/
def rebalanceChildren (size : Nat) (keys : Nat → K) (children : Nat → Nat) (newc : Nat × K × Nat) (pos : Nat)
    (m : Memory K V) : Option (Memory K V × Nat) :=
  copy B size (setKey pos newc.2.1 keys) (setTwo pos newc.1 newc.2.2 children) m

/-! ## Bodies -/

/-- The copy of `p` in which the full child `c` is split. -/
def overfullCopy (p cidx c : Nat) (m : Memory K V) : Option (Memory K V × Nat) :=
  match m.blocks p with
  | .leaf .. => none
  | .node _ size keys children => do
      let (m, newc) ← split B c m
      addChild B size keys children newc cidx m

/-- `overfull_node`; `locks` says which locks are acquired. -/
def overfullNode (locks : Nat → Bool) (gp pidx p cidx c : Nat) (m : Memory K V) : Option (Memory K V) :=
  if locks 0 ∧ m.removed gp = false ∧ m.child gp pidx = p ∧ locks 1 ∧ m.child p cidx = c then
    if (m.blocks c).header.isLeaf then do
      let (m, p') ← overfullCopy B p cidx c m
      pure ((m.setChild gp pidx p').setRemoved p)
    else if locks 2 then do
      let (m, p') ← overfullCopy B p cidx c m
      pure (((m.setChild gp pidx p').setRemoved p).setRemoved c)
    else pure m
  else pure m

/-- The copy of `p` in which the children `lc` and `rc`, of which one is `c`, are joined or rebalanced. -/
def underfullCopy (p li lc rc c : Nat) (m : Memory K V) : Option (Memory K V × Nat) :=
  match m.blocks p with
  | .leaf .. => none
  | .node _ size keys children =>
      if (m.blocks lc).header.size + (m.blocks rc).header.size < joinCutoff B (m.blocks c).header then do
        let (m, j) ← join B lc (keys li) rc m
        joinChildren B size keys children j li m
      else do
        let (m, newc) ← rebalance B lc (keys li) rc m
        rebalanceChildren B size keys children newc li m

/-- `underfull_node`. It does not read `p->children[cidx]`. -/
def underfullNode (locks : Nat → Bool) (gp pidx p cidx c : Nat) (m : Memory K V) : Option (Memory K V) :=
  if locks 0 ∧ m.removed gp = false ∧ m.child gp pidx = p ∧ locks 1 then
    let otherIdx := if cidx = 0 then cidx + 1 else cidx - 1
    let li := if cidx = 0 then 0 else cidx - 1
    if (m.blocks p).header.size ≤ li + 1 then none
    else
      let other := m.child p otherIdx
      let lc := if cidx = 0 then c else other
      let rc := if cidx = 0 then other else c
      if (m.blocks c).header.isLeaf then do
        let (m, p') ← underfullCopy B p li lc rc c m
        pure ((m.setChild gp pidx p').setRemoved p)
      else if locks 2 ∧ locks 3 then do
        let (m, p') ← underfullCopy B p li lc rc c m
        pure ((((m.setChild gp pidx p').setRemoved lc).setRemoved rc).setRemoved p)
      else pure m
  else pure m

/-- `fix_node`. -/
def fixNode (locks : Nat → Bool) (gp pidx p cidx c : Nat) (m : Memory K V) : Option (Memory K V) :=
  if (m.blocks c).header.status = .isOver then overfullNode B locks gp pidx p cidx c m
  else underfullNode B locks gp pidx p cidx c m

/-- `fix_root`. It neither locks nor marks `c`. -/
def fixRoot (locks : Nat → Bool) (c : Nat) (m : Memory K V) : Option (Memory K V) :=
  if locks 0 ∧ m.child root 0 = c then
    if (m.blocks c).header.status = .isOver then do
      let (m, newc) ← split B c m
      let (m, r) := rootNode newc m
      pure (m.setChild root 0 r)
    else
      match m.blocks c with
      | .leaf .. => none
      | .node _ _ _ children => pure (m.setChild root 0 (children 0))
  else pure m

end

end Verlib.BTree.Concurrent
