import Verlib.Interleaving.System

/-!
# Calls on a global clock

A clock hands out write stamps (`get_write_stamp`) and read stamps (`get_read_stamp`). Snapshots are
only repeatable when the two kinds of stamp respect real time, and this module states that contract
over the history of calls. Every call is its own process here: a thread is a sequence of calls, and
ordering the calls of one thread only removes interleavings. A stamp (`using TS = long`) is a
natural number: clocks start at a positive value and only ever add to it.
-/

namespace Verlib.Timestamps

/-- Which of the two stamp functions a call runs. -/
inductive Kind where
  | read
  | write
  deriving DecidableEq, Repr

/-- What a history of clock calls records: the first step of a call, and its return value. -/
inductive Event (ι : Type) where
  | call (c : ι)
  | ret (c : ι) (v : Nat)
  deriving DecidableEq, Repr

open Interleaving

/-- A write stamp taken after a read stamp was returned is strictly greater than it. -/
def WriteAfterRead {ι : Type} (kind : ι → Kind) (h : List (Event ι)) : Prop :=
  ∀ c c' r w, kind c = .read → kind c' = .write →
    Before h (.ret c r) (.call c') → .ret c' w ∈ h → r < w

/-- A write stamp that was returned before a read stamp is taken is at most that read stamp. -/
def ReadAfterWrite {ι : Type} (kind : ι → Kind) (h : List (Event ι)) : Prop :=
  ∀ c c' w r, kind c = .write → kind c' = .read →
    Before h (.ret c w) (.call c') → .ret c' r ∈ h → w ≤ r

end Verlib.Timestamps
