import Mathlib.Logic.Function.Basic
import Verlib.Radix.Bytes

/-!
# The nodes of `arttree`

The keys are the unsigned integers of `n = sizeof(K)` bytes, as in `int_string`. In a sequential run the nodes
form a tree, so a pointer is the node it points to. A node is marked as removed and retired when a copy takes
its place and its locks are free between operations, so neither is part of the node.
-/

namespace Verlib.Art

open Verlib.Radix

/-- The types of nodes. -/
inductive NodeType where
  | full
  | indirect
  | sparse
  | leaf
  deriving DecidableEq

def maxIndirectSize : Nat := 64
def maxSparseSize : Nat := 16
def maxSmallLeafSize : Nat := 2
def maxBigLeafSize : Nat := 14

/-- A key with its value. -/
structure KV (n : Nat) (V : Type) where
  key : Key n
  value : V

/-- How an internal node finds the child for a byte. -/
inductive Slots where
  /-- 256 children, one for each value of a byte. -/
  | full
  /-- 256 one-byte pointers to the entries, -1 where there is none. -/
  | indirect (idx : Nat → Int)
  /-- The byte of every entry. -/
  | sparse (keys : Nat → Nat)

/-- What a pointer to a node leads to. The array of pointers of an internal node is `ptr`; it is called `children`
in a full node. A leaf is a `small_leaf` or a `big_leaf`, and its size is the length of `keyVals`. -/
inductive Node (n : Nat) (V : Type) where
  | null
  | leaf (big : Bool) (key : Key n) (byteNum : Nat) (keyVals : List (KV n V))
  | inner (key : Key n) (byteNum size : Nat) (slots : Slots) (ptr : Nat → Node n V)

variable {n : Nat} {V : Type}

namespace Slots

/-- The type of a node with these slots. -/
def nodeType : Slots → NodeType
  | full => .full
  | indirect _ => .indirect
  | sparse _ => .sparse

/-- `get_child` for a byte: the index of the slot. -/
def getChild (slots : Slots) (size b : Nat) : Option Nat :=
  match slots with
  | full => some b
  | indirect idx => if idx b = -1 then none else some (idx b).toNat
  | sparse keys => (List.range size).find? fun i => keys i == b

/-- `is_full`. -/
def isFull (slots : Slots) (size : Nat) : Bool :=
  match slots with
  | full => false
  | indirect _ => size == maxIndirectSize
  | sparse _ => size == maxSparseSize

end Slots

namespace Node

def isNull : Node n V → Bool
  | null => true
  | _ => false

def isLeaf : Node n V → Bool
  | leaf .. => true
  | _ => false

/-- The field `nt`; a null pointer has none. -/
def nodeType : Node n V → Option NodeType
  | null => none
  | leaf .. => some .leaf
  | inner _ _ _ slots _ => some slots.nodeType

/-- The field `key`; a null pointer has none. -/
def key : Node n V → Key n
  | null => 0
  | leaf _ key _ _ => key
  | inner key _ _ _ _ => key

/-- The field `byte_num`. -/
def byteNum : Node n V → Nat
  | null => 0
  | leaf _ _ byteNum _ => byteNum
  | inner _ byteNum _ _ _ => byteNum

/-- `get_child`: the index of the slot for `k`; `none` stands for `nullptr`. -/
def getChild : Node n V → Key n → Option Nat
  | inner _ byteNum size slots _, k => slots.getChild size (getByte k byteNum)
  | _, _ => none

/-- `load()` of the pointer at an index. -/
def child : Node n V → Nat → Node n V
  | inner _ _ _ _ ptr, i => ptr i
  | _, _ => null

/-- `init_child` of the three types, after `size` has been set. -/
def initChild : Node n V → Key n → Node n V → Node n V
  | inner key byteNum size .full ptr, k, c =>
      inner key byteNum size .full (Function.update ptr (getByte k byteNum) c)
  | inner key byteNum size (.indirect idx) ptr, k, c =>
      inner key byteNum size (.indirect (Function.update idx (getByte k byteNum) (size - 1)))
        (Function.update ptr (size - 1) c)
  | inner key byteNum size (.sparse keys) ptr, k, c =>
      inner key byteNum size (.sparse (Function.update keys (size - 1) (getByte k byteNum)))
        (Function.update ptr (size - 1) c)
  | x, _, _ => x

/-! ## Copies with one more child -/

/-- Copy indirect to full. -/
def indirectToFull (key : Key n) (byteNum : Nat) (idx : Nat → Int) (ptr : Nat → Node n V) (k : Key n)
    (c : Node n V) : Node n V :=
  (inner key byteNum 0 .full fun i => if idx i ≠ -1 then ptr (idx i).toNat else null).initChild k c

/-- Copy indirect to indirect. -/
def indirectToIndirect (key : Key n) (byteNum size : Nat) (idx : Nat → Int) (ptr : Nat → Node n V) (k : Key n)
    (c : Node n V) : Node n V :=
  (inner key byteNum (size + 1) (.indirect idx) fun i => if i < size then ptr i else null).initChild k c

/-- The loop that fills `idx` from the bytes of a sparse node. -/
def fillIdx (keys : Nat → Nat) : Nat → Nat → Int
  | 0 => fun _ => -1
  | i + 1 => Function.update (fillIdx keys i) (keys i) i

/-- Copy sparse to indirect. -/
def sparseToIndirect (key : Key n) (byteNum : Nat) (keys : Nat → Nat) (ptr : Nat → Node n V) (k : Key n)
    (c : Node n V) : Node n V :=
  (inner key byteNum (maxSparseSize + 1) (.indirect (fillIdx keys maxSparseSize))
    fun i => if i < maxSparseSize then ptr i else null).initChild k c

/-- Copy sparse to sparse. -/
def sparseToSparse (key : Key n) (byteNum size : Nat) (keys : Nat → Nat) (ptr : Nat → Node n V) (k : Key n)
    (c : Node n V) : Node n V :=
  (inner key byteNum (size + 1) (.sparse fun i => if i < size then keys i else 0)
    fun i => if i < size then ptr i else null).initChild k c

/-- The copy of `p` with the child `c` for `k` that `add_child` makes. It is never called on a full node. -/
def copyWithChild : Node n V → Key n → Node n V → Node n V
  | inner key byteNum size (.indirect idx) ptr, k, c =>
      if (Slots.indirect idx).isFull size then indirectToFull key byteNum idx ptr k c
      else indirectToIndirect key byteNum size idx ptr k c
  | inner key byteNum size (.sparse keys) ptr, k, c =>
      if (Slots.sparse keys).isFull size then sparseToIndirect key byteNum keys ptr k c
      else sparseToSparse key byteNum size keys ptr k c
  | x, _, _ => x

end Node

/-! ## Leaves -/

/-- `find` of a leaf, for integers. -/
def findIn : List (KV n V) → Key n → Option V
  | [], _ => none
  | kv :: rest, k =>
      if ¬ kv.key < k then
        if k < kv.key then none else some kv.value
      else findIn rest k

/-- `insert` of a leaf: the entries with a new one in its place. -/
def insertIn : List (KV n V) → KV n V → List (KV n V)
  | [], new => [new]
  | kv :: rest, new => if kv.key < new.key then kv :: insertIn rest new else new :: kv :: rest

/-- The loop of `first_diff`. Two integers differ before the last byte, so it ends by then. -/
def firstDiffFrom (first : KV n V) (rest : List (KV n V)) : Nat → Nat → Nat
  | 0, j => j
  | fuel + 1, j =>
      if rest.any fun kv => decide (n ≤ j) || getByte kv.key j != getByte first.key j then j
      else firstDiffFrom first rest fuel (j + 1)

/-- `first_diff`, for entries that start with `first`. -/
def firstDiff (bytePos : Nat) (first : KV n V) (rest : List (KV n V)) : Nat :=
  if rest.isEmpty then n else firstDiffFrom first rest (n - bytePos) bytePos

namespace Node

/-- Create singleton leaf. -/
def singleton (k : Key n) (v : V) : Node n V := leaf false k n [⟨k, v⟩]

/-- Create multi leaf. The entries are never empty. -/
def multiLeaf (big : Bool) (bytePos : Nat) : List (KV n V) → Node n V
  | [] => null
  | first :: rest => leaf big first.key (firstDiff bytePos first rest) (first :: rest)

/-- Add to leaf. -/
def addToLeaf (big : Bool) (bytePos : Nat) (key : Key n) (keyVals : List (KV n V)) (k : Key n) (v : V) : Node n V :=
  leaf big key bytePos (insertIn keyVals ⟨k, v⟩)

/-- Remove from leaf. -/
def removeFromLeaf (big : Bool) (byteNum : Nat) (keyVals : List (KV n V)) (k : Key n) : Node n V :=
  multiLeaf big byteNum (keyVals.filter fun kv => kv.key ≠ k)

/-- `new_leaf`. -/
def newLeaf (bytePos : Nat) (entries : List (KV n V)) : Node n V :=
  multiLeaf (decide (maxSmallLeafSize < entries.length)) bytePos entries

/-! ## Sparse nodes -/

/-- Constructor for a new sparse node with two children. -/
def sparsePair (byteNum : Nat) (v1 : Node n V) (k1 : Key n) (v2 : Node n V) (k2 : Key n) : Node n V :=
  inner k1 byteNum 2 (.sparse fun i => if i = 0 then getByte k1 byteNum else getByte k2 byteNum)
    fun i => if i = 0 then v1 else if i = 1 then v2 else null

/-- Constructor for a sparse node from an array of children. -/
def sparseOf (byteNum : Nat) (children : List (Node n V)) : Node n V :=
  inner (children.headD null).key byteNum children.length
    (.sparse fun i => getByte (children.getD i null).key byteNum) fun i => children.getD i null

/-- The loop that breaks the entries up by the value of a byte. -/
def splitRuns (gb : KV n V → Nat) : List (KV n V) → Nat → List (KV n V) → List (List (KV n V))
  | run, _, [] => [run]
  | run, byteval, kv :: rest =>
      if gb kv ≠ byteval then run :: splitRuns gb [kv] (gb kv) rest
      else splitRuns gb (run ++ [kv]) byteval rest

/-- Break entries up into several leaves under a sparse node. -/
def splitLeaf (bytePos : Nat) : List (KV n V) → Node n V
  | [] => null
  | first :: rest =>
      let gb := fun kv : KV n V => getByte kv.key bytePos
      sparseOf bytePos ((splitRuns gb [first] (gb first) rest).map (newLeaf (bytePos + 1)))

end Node

end Verlib.Art
