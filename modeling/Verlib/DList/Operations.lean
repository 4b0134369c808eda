import Mathlib.Order.Lattice
import Verlib.Linked.Chain
import Verlib.OrderedMap.Map

/-!
# The doubly linked list

The operations of `dlist/ordered_map.h`. `Compare` is the order of the keys; `opLess` is their `operator<`, which
`try_insert` uses for the node before the new one. In a sequential run every lock is free, and a `read_lock` has the
result of its body. The loops take fuel: `find_location` one unit for each node that it passes, and `insert_` and
`remove_` one for each attempt.
-/

namespace Verlib.DList

open Linked OrderedMap

/-- The nodes, by their addresses: the fields of `node`, and the next address to be allocated. Zero is the null pointer.
-/
structure Memory (K V : Type) where
  next : Nat → Nat
  prev : Nat → Nat
  key : Nat → K
  value : Nat → V
  isEnd : Nat → Bool
  removed : Nat → Bool
  fresh : Nat

/-- The address of the head. -/
def root : Nat := 2

variable {K V : Type}

namespace Memory

/-- Write `next`. -/
def setNext (m : Memory K V) (a b : Nat) : Memory K V := { m with next := Function.update m.next a b }

/-- Write `prev`. -/
def setPrev (m : Memory K V) (b a : Nat) : Memory K V := { m with prev := Function.update m.prev b a }

/-- Write `removed`. -/
def setRemoved (m : Memory K V) (a : Nat) : Memory K V := { m with removed := Function.update m.removed a true }

/-- `New<node>(key, value, next, prev)`: the new node is `m.fresh`. -/
def newNode (m : Memory K V) (k : K) (v : V) (next prev : Nat) : Memory K V where
  next := Function.update m.next m.fresh next
  prev := Function.update m.prev m.fresh prev
  key := Function.update m.key m.fresh k
  value := Function.update m.value m.fresh v
  isEnd := Function.update m.isEnd m.fresh false
  removed := Function.update m.removed m.fresh false
  fresh := m.fresh + 1

/-- `New<node>(next)`, for head and tail, whose key and value are not written. -/
def newEnd (m : Memory K V) (next : Nat) : Memory K V where
  next := Function.update m.next m.fresh next
  prev := Function.update m.prev m.fresh 0
  key := m.key
  value := m.value
  isEnd := Function.update m.isEnd m.fresh true
  removed := Function.update m.removed m.fresh false
  fresh := m.fresh + 1

end Memory

/-- `init`, in a memory that has any contents. -/
def init (m : Memory K V) : Memory K V :=
  (({ m with fresh := 1 }.newEnd 0).newEnd 1).setPrev 1 root

section

variable [LinearOrder K] (opLess : K → K → Bool) (fuel : Nat)

/-- `find_location`. -/
def findLocation (m : Memory K V) (k : K) : Option Nat :=
  seek m.next (fun next => m.isEnd next || !decide (m.key next < k)) fuel (m.next root)

/-- `try_insert`. -/
def tryInsert (k : K) (v : V) (m : Memory K V) : Option (Memory K V × Option Bool) := do
  let next ← findLocation fuel m k
  let prev := m.prev next
  if m.isEnd next = false ∧ ¬ k < m.key next then
    pure (m, if m.next prev = next ∧ m.removed prev = false then some false else none)
  else if m.isEnd prev = true ∨ opLess (m.key prev) k = true then
    if m.removed prev = false ∧ m.next prev = next then
      pure (((m.newNode k v next prev).setNext prev m.fresh).setPrev next m.fresh, some true)
    else pure (m, none)
  else pure (m, none)

/-- `try_remove`. -/
def tryRemove (k : K) (m : Memory K V) : Option (Memory K V × Option Bool) := do
  let loc ← findLocation fuel m k
  let prev := m.prev loc
  if m.isEnd loc = true ∨ k < m.key loc then
    pure (m, if m.next prev = loc ∧ m.removed prev = false then some false else none)
  else if m.removed prev = true ∨ m.next prev ≠ loc then pure (m, none)
  else pure (((m.setRemoved loc).setNext prev (m.next loc)).setPrev (m.next loc) prev, some true)

/-- `try_loop`. -/
def tryLoop (attempt : Memory K V → Option (Memory K V × Option Bool)) :
    Nat → Memory K V → Option (Memory K V × Bool)
  | 0, _ => none
  | fuel + 1, m => do
      let (m', r) ← attempt m
      match r with
      | some b => pure (m', b)
      | none => tryLoop attempt fuel m'

/-- `insert`. -/
def insert (k : K) (v : V) (m : Memory K V) : Option (Memory K V × Bool) :=
  tryLoop (tryInsert opLess fuel k v) fuel m

/-- `remove`. -/
def remove (k : K) (m : Memory K V) : Option (Memory K V × Bool) :=
  tryLoop (tryRemove fuel k) fuel m

/-- `find_`. -/
def find (m : Memory K V) (k : K) : Option (Option V) := do
  let next ← findLocation fuel m k
  pure (if m.isEnd next = false ∧ ¬ k < m.key next then some (m.value next) else none)

/-- `range_`: the calls of `add`. -/
def range (m : Memory K V) (start stop : K) : Option (List (K × V)) := do
  let first ← seek m.next (fun next => m.isEnd next || !decide (m.key next < start)) fuel (m.next root)
  let nodes ← gather m.next (fun next => m.isEnd next || decide (stop < m.key next)) fuel first
  pure (nodes.map fun next => (m.key next, m.value next))

/-- An operation. -/
def perform (m : Memory K V) : Op K V → Option (Memory K V × Result V)
  | .insert k v => (insert opLess fuel k v m).map fun r => (r.1, .changed r.2)
  | .remove k => (remove fuel k m).map fun r => (r.1, .changed r.2)
  | .find k => (find fuel m k).map fun v => (m, .found v)

end

end Verlib.DList
