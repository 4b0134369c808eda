import Mathlib.Algebra.Ring.Nat
import Verlib.Interleaving.Object
import Verlib.HashBlock.Node

/-!
# Updates of a hash table

Any number of threads run `insert`, `upsert` and `remove`. The load of the bucket is one step, and so is every
conditional install, which compares the pointer of the bucket and writes the new one. With `UseCAS` the
install is a compare-and-swap after a further load of the bucket. Otherwise it is the body of a `try_lock`,
which can also fail because the lock is taken, and a call that does not change anything validates its load
first. Nodes are not used again while a thread may hold a pointer to them, so an allocation gets a new address.
-/

namespace Verlib.HashBlock

open Interleaving

/-- Whether `UseCAS` is defined. -/
inductive Build where
  | useCAS | tryLock
  deriving DecidableEq

/-- The operations; `upsert` takes a function of the value that was found. -/
inductive Op (K V : Type) where
  | insert (k : K) (v : V)
  | upsert (k : K) (f : Option V → V)
  | remove (k : K)

/-- The nodes, the address of the next one, the pointers of the buckets, and the nodes that have been retired or
destructed, each with the pool that it was given to. -/
structure Memory (K V : Type) where
  nodes : Nat → Node K V
  fresh : Nat
  buckets : Nat → Option Nat
  freed : List (Nat × Pool)

/-- Where a call stands: before its load of the bucket, before the load or the install of `try_update`, before
the `try_lock` of `upsert`, before the validation of a call that changes nothing, and before it retires the old
node or destructs the new one. -/
inductive Pos where
  | start
  | check (old new : Option Nat) (retVal : Bool)
  | install (old new : Option Nat) (retVal : Bool)
  | update (old : Nat)
  | validate (old : Option Nat)
  | retire (old : Option Nat) (retVal : Bool)
  | destruct (new : Option Nat)
  deriving DecidableEq

variable {K V : Type}

/-- The key of an operation. -/
def Op.key : Op K V → K
  | .insert k _ | .upsert k _ | .remove k => k

/-- `get_bucket`: the number of buckets is a power of two. -/
def getBucket (E : Keys K) (bits : Nat) (k : K) : Nat :=
  E.hash k &&& (2 ^ bits - 1)

/-- `new_obj` -/
def Memory.newObj (m : Memory K V) (n : Node K V) : Memory K V :=
  { m with nodes := Function.update m.nodes m.fresh n, fresh := m.fresh + 1 }

/-- Write the pointer of a bucket. -/
def Memory.setBucket (m : Memory K V) (b : Nat) (new : Option Nat) : Memory K V :=
  { m with buckets := Function.update m.buckets b new }

/-- Give a node back to a pool; nothing happens for the null pointer. -/
def Memory.free (m : Memory K V) (pool : Node K V → Pool) : Option Nat → Memory K V
  | none => m
  | some a => { m with freed := (a, pool (m.nodes a)) :: m.freed }

section Steps

variable (E : Keys K) (bits : Nat) (build : Build)

/-- `old_node != nullptr && old_node->find_index(k) != -1` -/
def Memory.found (m : Memory K V) (old : Option Nat) (k : K) : Option Bool :=
  match old with
  | none => some false
  | some a => ((m.nodes a).findIndex E k).map Option.isSome

/-- A call that changes nothing returns at once, or validates its load under `read_lock`. -/
def refuse (old : Option Nat) : Pos ⊕ Bool :=
  match build with
  | .useCAS => .inr false
  | .tryLock => .inl (.validate old)

/-- `try_update` starts with a load of the bucket, or with the `try_lock`. -/
def tryUpdate (old new : Option Nat) (retVal : Bool) : Pos :=
  match build with
  | .useCAS => .check old new retVal
  | .tryLock => .install old new retVal

/-- `try_insert_at` up to the install; `old` is the node that was loaded. -/
def tryInsertAt (m : Memory K V) (old : Option Nat) (k : K) (v : V) : Option (Memory K V × (Pos ⊕ Bool)) := do
  let found ← m.found E old k
  if found then
    some (m, refuse build old)
  else do
    let new ← insertToNode (old.map m.nodes) k v
    some (m.newObj new, .inl (tryUpdate build old (some m.fresh) true))

/-- `try_upsert_at` up to the install; with locks the new node is built under the lock. -/
def tryUpsertAt (m : Memory K V) (old : Option Nat) (k : K) (f : Option V → V) :
    Option (Memory K V × (Pos ⊕ Bool)) := do
  let found ← m.found E old k
  match found, old, build with
  | true, some a, .useCAS => do
      let new ← updateNode E (m.nodes a) k f
      some (m.newObj new, .inl (tryUpdate build old (some m.fresh) false))
  | true, some a, .tryLock => some (m, .inl (.update a))
  | _, _, _ => do
      let new ← insertToNode (old.map m.nodes) k (f none)
      some (m.newObj new, .inl (tryUpdate build old (some m.fresh) true))

/-- `try_remove_at` up to the install; the new node is null when the last entry is removed. -/
def tryRemoveAt (m : Memory K V) (old : Option Nat) (k : K) : Option (Memory K V × (Pos ⊕ Bool)) := do
  let found ← m.found E old k
  match found, old with
  | true, some a => do
      let new ← removeFromNode E (m.nodes a) k
      match new with
      | none => some (m, .inl (tryUpdate build old none true))
      | some n => some (m.newObj n, .inl (tryUpdate build old (some m.fresh) true))
  | _, _ => some (m, refuse build old)

/-- One step of a call; `x` says whether a `try_lock` gets the lock. A call whose install fails starts again. -/
def step (o : Op K V) (m : Memory K V) (x : Bool) : Pos → Option (Memory K V × (Pos ⊕ Bool))
  | .start =>
      match o with
      | .insert k v => tryInsertAt E build m (m.buckets (getBucket E bits k)) k v
      | .upsert k f => tryUpsertAt E build m (m.buckets (getBucket E bits k)) k f
      | .remove k => tryRemoveAt E build m (m.buckets (getBucket E bits k)) k
  | .check old new retVal =>
      let p := if m.buckets (getBucket E bits o.key) = old then .install old new retVal else .destruct new
      some (m, .inl p)
  | .install old new retVal =>
      if (build = .useCAS ∨ x = true) ∧ m.buckets (getBucket E bits o.key) = old then
        some (m.setBucket (getBucket E bits o.key) new, .inl (.retire old retVal))
      else some (m, .inl (.destruct new))
  | .update old =>
      match o with
      | .upsert k f =>
          if x = true ∧ m.buckets (getBucket E bits k) = some old then do
            let new ← updateNode E (m.nodes old) k f
            some ((m.newObj new).setBucket (getBucket E bits k) (some m.fresh), .inl (.retire (some old) false))
          else some (m, .inl .start)
      | _ => none
  | .validate old =>
      some (m, if m.buckets (getBucket E bits o.key) = old then .inr false else .inl .start)
  | .retire old retVal => some (m.free retireNode old, .inr retVal)
  | .destruct new => some (m.free destructNode new, .inl .start)

/-- The calls of the table. -/
def machine : Machine (Op K V) (Memory K V) Pos Bool Bool :=
  ⟨fun _ => .start, step E bits build⟩

/-- At the start all buckets are empty. -/
structure Initial (m : Memory K V) : Prop where
  buckets : ∀ b, m.buckets b = none
  fresh : m.fresh = 0
  freed : m.freed = []

/-! ## The abstract map -/

/-- The value of a key in the node that a pointer leads to. -/
def Memory.value (m : Memory K V) (old : Option Nat) (k : K) : Option V :=
  old.bind fun a => lookup E (m.nodes a).entries k

/-- The value of a key in the table. -/
def Memory.content (m : Memory K V) (k : K) : Option V :=
  m.value E (m.buckets (getBucket E bits k)) k

/-- What an operation stores for its key, which had the value `c`. -/
def Op.stores : Op K V → Option V → Option V
  | .insert _ v, _ => some v
  | .upsert _ f, c => some (f c)
  | .remove _, _ => none

/-- The result of an operation that installs a node says whether the key was new, or present. -/
def Op.Applies : Op K V → Option V → Bool → Prop
  | .insert _ _, c, r => c = none ∧ r = true
  | .upsert _ _, c, r => r = c.isNone
  | .remove _, c, r => c ≠ none ∧ r = true

/-- The result of an operation that installs nothing. -/
def Op.Refuses : Op K V → Option V → Bool → Prop
  | .insert _ _, c, r => c ≠ none ∧ r = false
  | .upsert _ _, _, _ => False
  | .remove _, c, r => c = none ∧ r = false

/-- An operation stores the value of its own key and leaves the other keys alone. -/
structure Effect (o : Op K V) (r : Bool) (m m' : Memory K V) : Prop where
  applies : o.Applies (m.content E bits o.key) r
  content : ∀ k, m'.content E bits k =
    if E.keyEqual o.key k then o.stores (m.content E bits o.key) else m.content E bits k

/-- A call installs a node in one step, with its effect on the map, or installs nothing. -/
def spec : Spec (Op K V) (Memory K V) Bool where
  Same m m' := m'.buckets = m.buckets ∧ m'.content E bits = m.content E bits
  Effect := Effect E bits
  Refused o r m := o.Refuses (m.content E bits o.key) r

end Steps

end Verlib.HashBlock
