import Verlib.Flock.Tagged
import Verlib.Interleaving.System

/-!
# Cells of tagged values

The word of an `flck::atomic<V>`, from its `init` through any number of `cas` steps. The new word of a `cas`
depends on the expected word and on the announcements alone, so it does not matter when it is computed, and a
`cas` is one step with any expected word and any announcements.

Two things go wrong. A negative value is widened with its sign and takes the whole tag with it. And `inc_tag`
avoids a zero count while `next` clears the panic bit afterwards, which makes the tag of the last count with the
panic bit come round to zero. `cell_ok` is the contract for all runs without such stores.
-/

namespace Verlib.Flock.Tagged

open Interleaving Packed

variable (s : Scalar)

/-- `init`. -/
def init (v : s.Val) : IT := cntBit ||| s.toWord v

/-- `value`. -/
def value (v : IT) : s.Val := s.ofWord (v &&& dataMask)

/-- `cas_tagged_`: the compare-exchange, which is not made when `skip_if_done_no_log` finds it done. -/
def casTagged (loc oldv newv : IT) (skipped : Bool) : IT × Bool :=
  if skipped then (loc, false) else if loc = oldv then (newv, true) else (loc, false)

/-- `cas` on the location at `addr` that holds `loc`. -/
def cas (addr : IT) (fuel : Nat) (loc oldv : IT) (v : s.Val) (scan rescan : List IT) (skipped : Bool) :
    Option (IT × Bool) :=
  (next fuel oldv (s.toWord v) addr scan rescan).map fun newv => casTagged loc oldv newv skipped

/-- A cell, and the value that was stored last. -/
structure Cell where
  word : IT
  last : s.Val

/-- What can be done with a cell. -/
inductive Action where
  | init (v : s.Value)
  | cas (fuel : Nat) (oldv : IT) (v : s.Value) (scan rescan : List IT) (skipped : Bool)

/-- The next state of the cell, if the action is possible. -/
def step (addr : IT) : Action s → Option (Cell s) → Option (List Empty × Option (Cell s))
  | .init v, none => some ([], some ⟨init s v.1, v.1⟩)
  | .cas fuel oldv v scan rescan skipped, some c =>
      (cas s addr fuel c.word oldv v.1 scan rescan skipped).map fun r =>
        ([], some ⟨r.1, if r.2 then v.1 else c.last⟩)
  | _, _ => none

/-- A cell that is not constructed yet, and everything that can be done with it. -/
def system (addr : IT) : System (Option (Cell s)) (Action s) Empty :=
  System.ofNext (fun st => st = none) (step s addr)

/-- The step stores no negative value, and it does not store over the last count with the panic bit unless an
announcement makes `next` panic. -/
def Calm (addr : IT) : Option (Cell s) → Action s → Prop
  | _, .init v => ¬ s.IsNegative v.1
  | none, .cas .. => True
  | some c, .cas _ oldv v scan _ skipped =>
      c.word = oldv → skipped = false →
        ¬ s.IsNegative v.1 ∧ ((oldv &&& cntMask) = cntMask → mustPanic (incTag oldv) addr scan = true)

instance (addr : IT) (st : Option (Cell s)) (a : Action s) : Decidable (Calm s addr st a) := by
  unfold Calm
  split <;> infer_instance

variable {s} {addr : IT}

/-- A word of a value that is not negative with a tag that is not zero. -/
structure WordOk (s : Scalar) (v : s.Val) (w : IT) : Prop where
  split : ∃ count, w = s.toWord v ||| count ∧ data count = 0
  word_lt : (s.toWord v).toNat < 2 ^ 48
  tag_ne : tag w ≠ 0

end Verlib.Flock.Tagged
