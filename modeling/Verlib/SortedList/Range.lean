import Verlib.Linked.Chain
import Verlib.OrderedMap.Map
import Verlib.SortedList.Runs

/-!
# Range queries of the sorted list

`range_` of `list/ordered_map.h`, in a state in which no thread takes a step. It follows the `next` pointers to the first
node that is not before `start`, and from there up to the last one that is not after `end`.
-/

namespace Verlib.SortedList

open Interleaving Linked OrderedMap

variable {K V : Type}

/-- The walk of `print` over the nodes passes a key with this value. -/
def Memory.Contains (m : Memory K V) (k : K) (v : V) : Prop :=
  ∃ ns, Ends (fun fuel => gather (fun a => (m.nodes a).next) (fun a => (m.nodes a).isEnd) fuel (m.nodes root).next) ns ∧
    ∃ a ∈ ns, (m.nodes a).key = k ∧ (m.nodes a).value = v

variable [LinearOrder K]

/-- `range_`: the calls of `add`. -/
def range (fuel : Nat) (m : Memory K V) (start stop : K) : Option (List (K × V)) := do
  let first ← seek (fun a => (m.nodes a).next)
    (fun nxt => (m.nodes nxt).isEnd || !decide ((m.nodes nxt).key < start)) fuel (m.nodes root).next
  let nodes ← gather (fun a => (m.nodes a).next)
    (fun nxt => (m.nodes nxt).isEnd || decide (stop < (m.nodes nxt).key)) fuel first
  pure (nodes.map fun nxt => ((m.nodes nxt).key, (m.nodes nxt).value))

/-- In every state that is reached, a range query calls `add` for the entries from `start` to `end`, both included. -/
theorem range_of_exec {ι : Type} [DecidableEq ι] {recorded : Bool} {h : List (Event K V)} {st : State K V ι}
    (hexec : Exec (system recorded) h st) (start stop : K) :
    ∃ calls, Ends (fun fuel => range fuel st.memory start stop) calls ∧
      ∀ k v, (k, v) ∈ calls ↔ st.memory.Contains k v ∧ start ≤ k ∧ k ≤ stop := by
  obtain ⟨p, hm⟩ := (exec_inv hexec).mem
  obtain ⟨ns, e, hpath, hsorted, hend⟩ := hm.sorted
  obtain ⟨m, threads, ops⟩ := st
  have hchain : Linked.Chain (fun a => (m.nodes a).next) (root :: ns ++ [e]) := hpath.1.imp fun _ _ hnext => hnext.2
  rw [List.pairwise_map] at hsorted
  have hwalk : Ends (fun fuel => gather (fun a => (m.nodes a).next) (fun a => (m.nodes a).isEnd) fuel (m.nodes root).next)
      ns := ⟨ns.length + 1, fun fuel hfuel => hchain.walk hend hpath.2 hfuel⟩
  refine ⟨(ns.filter fun a => decide (start ≤ (m.nodes a).key ∧ (m.nodes a).key ≤ stop)).map fun a =>
    ((m.nodes a).key, (m.nodes a).value), ⟨ns.length + 1, fun fuel hfuel => ?_⟩, fun k v => ?_⟩
  · obtain ⟨first, hseek, hgather⟩ := hchain.range hsorted hend hpath.2 start stop hfuel
    show range fuel m start stop = _
    rw [range, hseek, Option.bind_eq_bind, Option.bind_some, hgather]
    rfl
  · rw [List.mem_map]
    constructor
    · intro hmem
      obtain ⟨a, ha, heq⟩ := hmem
      obtain ⟨rfl, rfl⟩ := Prod.mk.inj heq
      obtain ⟨ha, hrange⟩ := List.mem_filter.mp ha
      exact ⟨⟨ns, hwalk, a, ha, rfl, rfl⟩, of_decide_eq_true hrange⟩
    · intro hmem
      obtain ⟨⟨ns', hwalk', a, ha, rfl, rfl⟩, hrange⟩ := hmem
      rw [hwalk'.unique hwalk] at ha
      exact ⟨a, List.mem_filter.mpr ⟨ha, decide_eq_true hrange⟩, rfl⟩

end Verlib.SortedList
