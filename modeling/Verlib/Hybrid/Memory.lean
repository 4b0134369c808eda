import Mathlib.Logic.Function.Basic

/-!
# The memory of hybrid versioned pointers

A `versioned_ptr` holds a tagged `versioned*`. Its low bit says whether it points to the object itself
or to a `ver_link` whose `value` is the object. Objects and links carry a write-once time stamp and the
next older version. `set_stamp`, `shortcut` and `get_read_stamp` are used by all operations, so their
steps are defined here, on the memory.
-/

namespace Verlib.Hybrid

/-- A `versioned*`: the address of an object (`none` is the null pointer), or a marked pointer to a
link. -/
inductive Versioned where
  | direct (ptr : Option Nat)
  | indirect (l : Nat)
  deriving DecidableEq

/-- The null pointer. -/
def Versioned.null : Versioned :=
  .direct none

/-- The shared memory: the clock, `done_stamp`, the tagged word of each pointer, the time stamp (`none`
is `tbd`) and `next_version` of each object and link, the `value` of each link, and the next link to be
allocated. The null pointer has no time stamp; its entry is never read. -/
structure Memory (P : Type) where
  stamp : Nat
  done : Nat
  v : P → Nat × Versioned
  timeStamp : Versioned → Option Nat
  next : Versioned → Versioned
  value : Nat → Option Nat
  fresh : Nat

variable {P : Type} [DecidableEq P]

/-- `get_ptr`: the object behind a `versioned*`. -/
def Memory.getPtr (m : Memory P) : Versioned → Option Nat
  | .direct ptr => ptr
  | .indirect l => m.value l

/-- `global_stamp.less`, for a stamp that may be `tbd`, which is above every stamp. -/
def less (ls : Nat) : Option Nat → Bool
  | none => true
  | some t => ls < t

/-- Write a time stamp. -/
def Memory.setTimeStamp (m : Memory P) (y : Versioned) (t : Nat) : Memory P :=
  { m with timeStamp := Function.update m.timeStamp y (some t) }

/-- Write the word of a pointer. -/
def Memory.setWord (m : Memory P) (p : P) (w : Nat × Versioned) : Memory P :=
  { m with v := Function.update m.v p w }

/-- Write `next_version`. -/
def Memory.setNext (m : Memory P) (y z : Versioned) : Memory P :=
  { m with next := Function.update m.next y z }

/-- `link_pool.new_obj(next, value)`: the new link is `m.fresh`. -/
def Memory.newLink (m : Memory P) (z : Versioned) (ptr : Option Nat) : Memory P :=
  { m with
    next := Function.update m.next (.indirect m.fresh) z
    value := Function.update m.value m.fresh ptr
    fresh := m.fresh + 1 }

/-- The initial pointers hold null or objects with the zero stamp; other objects may have it as well. -/
def Memory.initial (init : P → Option Nat) (stamped : Nat → Bool) (tag : P → Nat)
    (older : Versioned → Versioned) : Memory P where
  stamp := 1
  done := 1
  v p := (tag p, .direct (init p))
  timeStamp
    | .direct none => some 0
    | .direct (some o) => if stamped o then some 1 else none
    | .indirect _ => none
  next := older
  value _ := none
  fresh := 0

/-- Positions in `set_stamp(ptr)`: the first load of the stamp, `get_write_stamp`, the second load, and
the compare-and-swap. -/
inductive SetStamp where
  | load
  | clock
  | again (t : Nat)
  | swap (t : Nat)

/-- One step of `set_stamp(ptr)`, and where it goes on; `none` is its return. -/
def setStamp (m : Memory P) (ptr : Versioned) : SetStamp → Memory P × Option SetStamp
  | .load => (m, if ptr ≠ .null ∧ m.timeStamp ptr = none then some .clock else none)
  | .clock => (m, some (.again m.stamp))
  | .again t => (m, if m.timeStamp ptr = none then some (.swap t) else none)
  | .swap t => (if m.timeStamp ptr = none then m.setTimeStamp ptr t else m, none)

/-- Positions in `shortcut(ptr)`: the load of the link's stamp, the comparison with `done_stamp`, and
the two steps of `cas_ni`. -/
inductive Shortcut where
  | load
  | test (t : Option Nat)
  | read
  | swap (w : Nat × Versioned)

/-- One step of `shortcut` of link `l` at pointer `p`, and where it goes on; `none` is its return. The
new word gets the tag `tag`. -/
def shortcut (m : Memory P) (p : P) (l tag : Nat) : Shortcut → Memory P × Option Shortcut
  | .load => (m, some (.test (m.timeStamp (.indirect l))))
  | .test none => (m, none)
  | .test (some t) => (m, if t ≤ m.done then some .read else none)
  | .read => (m, if (m.v p).2 = .indirect l then some (.swap (m.v p)) else none)
  | .swap w => (if m.v p = w then m.setWord p (tag, .direct (m.value l)) else m, none)

/-- Positions in `get_read_stamp` of `timestamp_read`: the load of the clock, and the second load and
the `fetch_add` of `increment_stamp(ts)`. -/
inductive ReadStamp where
  | load
  | again (ts : Nat)
  | add (ts : Nat)

/-- One step of `get_read_stamp`, and where it goes on or the stamp that it returns. -/
def getReadStamp (m : Memory P) : ReadStamp → Memory P × (ReadStamp ⊕ Nat)
  | .load => (m, .inl (.again m.stamp))
  | .again ts => (m, if m.stamp = ts then .inl (.add ts) else .inr ts)
  | .add ts => ({ m with stamp := m.stamp + 1 }, .inr ts)

end Verlib.Hybrid
