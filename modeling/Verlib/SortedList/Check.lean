import Verlib.OrderedMap.Map
import Verlib.SortedList.Runs
import Verlib.Walk.Collect

/-!
# The checker of the sorted list

`check()` of `list/ordered_map.h` counts the nodes on the way to the end node and aborts at a key that is not larger
than the one before it. It accepts exactly the memories in which the nodes from the root on have increasing keys, and
every memory that is reached, with the number of the keys.
-/

namespace Verlib.SortedList

open Interleaving OrderedMap Walk

/-- What `check()` does: it returns a number, or prints two keys and aborts. -/
inductive Verdict (K : Type) where
  | count (n : Nat)
  | badKey (k k' : K)
  deriving DecidableEq

variable {K V : Type} [LinearOrder K]

/-- The loop of `check()`: `k` is the last key and `i` the number of the nodes so far. -/
def checkLoop (m : Memory K V) : Nat → K → Nat → Nat → Option (Verdict K)
  | 0, _, _, _ => none
  | fuel + 1, k, ptr, i =>
      if (m.nodes ptr).isEnd then some (.count i)
      else if k < (m.nodes ptr).key then checkLoop m fuel (m.nodes ptr).key (m.nodes ptr).next (i + 1)
      else some (.badKey k (m.nodes ptr).key)

/-- `check()` -/
def check (fuel : Nat) (m : Memory K V) : Option (Verdict K) :=
  let ptr := (m.nodes root).next
  if (m.nodes ptr).isEnd then some (.count 0) else checkLoop m fuel (m.nodes ptr).key (m.nodes ptr).next 1

section

variable {m : Memory K V} {ns : List Nat} {a e i n fuel : Nat} {k : K}

end

end Verlib.SortedList
