import Mathlib.Logic.Function.Basic

/-!
# The memory of fully indirect versioned pointers

In `versioned_indirect.h` a `versioned_ptr` points to a `version_link`, which carries the time stamp, the
next older link and the value. Every store makes a new link, so a link is a version of one pointer only.
-/

namespace Verlib.Indirect

/-- A `version_link`. The stamp `none` is `tbd`. -/
structure Link where
  timeStamp : Option Nat
  next : Option Nat
  value : Option Nat

/-- The shared memory: the clock, the tagged word of each pointer, the links, and the next link to be
allocated. -/
structure Memory (P : Type) where
  stamp : Nat
  v : P → Nat × Nat
  links : Nat → Link
  fresh : Nat

variable {P : Type} [DecidableEq P]

/-- `zero_stamp`. -/
def zeroStamp : Nat :=
  1

/-- Write the word of a pointer. -/
def Memory.setWord (m : Memory P) (p : P) (w : Nat × Nat) : Memory P :=
  { m with v := Function.update m.v p w }

/-- Write a time stamp. -/
def Memory.setTimeStamp (m : Memory P) (l t : Nat) : Memory P :=
  { m with links := Function.update m.links l { m.links l with timeStamp := some t } }

/-- `link_pool.new_obj(time, next, value)`: the new link is `m.fresh`. -/
def Memory.newLink (m : Memory P) (d : Link) : Memory P :=
  { m with links := Function.update m.links m.fresh d, fresh := m.fresh + 1 }

/-- `global_stamp.less`, for a stamp that may be `tbd`, which is above every stamp. -/
def less (ls : Nat) : Option Nat → Bool
  | none => true
  | some t => ls < t

/-- Positions in `set_stamp(ptr)`: the first load of the stamp, `get_write_stamp`, the second load, and
the compare-and-swap. -/
inductive SetStamp where
  | load
  | clock
  | again (t : Nat)
  | swap (t : Nat)

/-- One step of `set_stamp(ptr)` for the link `l`, and where it goes on; `none` is its return. -/
def setStamp (m : Memory P) (l : Nat) : SetStamp → Memory P × Option SetStamp
  | .load => (m, if (m.links l).timeStamp = none then some .clock else none)
  | .clock => (m, some (.again m.stamp))
  | .again t => (m, if (m.links l).timeStamp = none then some (.swap t) else none)
  | .swap t => (if (m.links l).timeStamp = none then m.setTimeStamp l t else m, none)

end Verlib.Indirect
