import Verlib.BTree.Node
import Verlib.Walk.Collect

/-!
# Range queries of the B-tree

`range_` narrows every node with two searches, the second from the position that the first has found, and goes on in
one child or in several. The entries are clipped in the leaves only.
-/

namespace Verlib.BTree

open Walk

variable {K V : Type} [LinearOrder K]

/-! ## The walk -/

/-- The calls of `add` for a leaf; `none` stands for a read outside of the leaf. -/
def rangeLeaf (keyvals : List (KV K V)) (start stop : K) : Option (List (KV K V)) :=
  let s := prev keyvals start 0
  let e := prev keyvals stop s
  collect (fun i => keyvals[i]?.map fun kv => [kv]) (List.range' s (e - s))

/-- `range_internal`: the entries for which `add` is called, in the order of the calls. `none` stands for a read
outside of a node. -/
def rangeInternal : Node K V → K → K → Option (List (KV K V))
  | .leaf _ keyvals, start, stop => rangeLeaf keyvals start stop
  | .node _ size keys children, start, stop => do
      let s ← find size keys start 0
      let e ← find size keys stop s
      if s = e then rangeInternal (children s) start stop
      else collect (fun i => rangeInternal (children i) start stop) (List.range' s (e + 1 - s))

/-- `range_`. -/
def range (root : Node K V) (start stop : K) : Option (List (KV K V)) :=
  rangeInternal root start stop

/-! ## Leaves -/

section

variable {keyvals : List (KV K V)} {start stop : K}

/-- What `range_internal` does in a leaf. -/
theorem rangeLeaf_spec (hsorted : Sorted keyvals) (start stop : K) :
    rangeLeaf keyvals start stop = some (keyvals.filter fun kv => decide (start ≤ kv.key ∧ kv.key < stop)) := by
  obtain ⟨s, hs, hstart, hbefore, hafter⟩ := prevFrom_spec (k := start) hsorted 0
  have hsorted' : Sorted (keyvals.drop s) := hsorted.sublist (List.drop_sublist _ _)
  obtain ⟨e, he, hstop, hinside, houtside⟩ := prevFrom_spec (k := stop) hsorted' s
  rw [List.length_drop] at he
  have hprev : prev keyvals start 0 = s := by rw [prev, List.drop_zero, hstart, Nat.zero_add]
  have hprev' : prev keyvals stop s = s + e := by rw [prev, hstop]
  rw [rangeLeaf]
  simp only [hprev, hprev', Nat.add_sub_cancel_left]
  rw [collect_getElem? s e (by omega), Option.some.injEq]
  have hsplit : keyvals = keyvals.take s ++ ((keyvals.drop s).take e ++ (keyvals.drop s).drop e) := by
    rw [List.take_append_drop, List.take_append_drop]
  have hleft : (keyvals.take s).filter (fun kv => decide (start ≤ kv.key ∧ kv.key < stop)) = [] := by
    rw [List.filter_eq_nil_iff]
    intro kv hkv hin
    exact absurd (hbefore kv hkv) (not_lt.mpr (of_decide_eq_true hin).1)
  have hmiddle : ((keyvals.drop s).take e).filter (fun kv => decide (start ≤ kv.key ∧ kv.key < stop)) =
      (keyvals.drop s).take e := by
    rw [List.filter_eq_self]
    intro kv hkv
    exact decide_eq_true ⟨hafter kv (List.mem_of_mem_take hkv), hinside kv hkv⟩
  have hright : ((keyvals.drop s).drop e).filter (fun kv => decide (start ≤ kv.key ∧ kv.key < stop)) = [] := by
    rw [List.filter_eq_nil_iff]
    intro kv hkv hin
    exact absurd (of_decide_eq_true hin).2 (not_lt.mpr (houtside kv hkv))
  conv_rhs => rw [hsplit]
  rw [List.filter_append, List.filter_append, hleft, hmiddle, hright, List.nil_append, List.append_nil]

end

/-! ## Trees -/

/-- The entries of a search tree are strictly sorted. -/
theorem SearchTree.sorted {t : Node K V} (h : SearchTree t) : Sorted t.entries := by
  induction t with
  | leaf status keyvals => exact h
  | node status size keys children ih =>
      obtain ⟨_, _, hchildren⟩ := h
      show ((List.range size).flatMap fun i => (children i).entries).Pairwise _
      rw [List.pairwise_flatMap]
      constructor
      · intro i hi
        exact ih i (hchildren i (List.mem_range.mp hi)).1
      · refine List.pairwise_lt_range.imp_of_mem fun {i j} hi hj hlt => ?_
        intro kv hkv kv' hkv'
        have hj' := List.mem_range.mp hj
        have hbefore := ((hchildren i (List.mem_range.mp hi)).2 kv hkv).after i le_rfl (by omega)
        exact hbefore.trans_le (((hchildren j hj').2 kv' hkv').before i hlt)

/-- `range_internal` reads inside of the nodes, and calls `add` for the entries from `start` on and before `end`. -/
theorem rangeInternal_spec {t : Node K V} (h : SearchTree t) {start stop : K} (hle : start ≤ stop) :
    rangeInternal t start stop = some (t.entries.filter fun kv => decide (start ≤ kv.key ∧ kv.key < stop)) := by
  induction t with
  | leaf status keyvals => exact rangeLeaf_spec h start stop
  | node status size keys children ih =>
      obtain ⟨hpos, hkeys, hchildren⟩ := h
      obtain ⟨s, hs, _, hstart⟩ := find_spec (k := start) hkeys hpos fun j hj => absurd hj (Nat.not_lt_zero j)
      obtain ⟨e, he, hse, hstop⟩ := find_spec (k := stop) hkeys hstart.lt_size
        fun j hj => (hstart.before j hj).trans hle
      have hskip : ∀ i ∈ List.range size, decide (s ≤ i ∧ i ≤ e) = false →
          ((children i).entries.filter fun kv => decide (start ≤ kv.key ∧ kv.key < stop)) = [] := by
        intro i hi hout
        have hi' := List.mem_range.mp hi
        rw [List.filter_eq_nil_iff]
        intro kv hkv hin
        obtain ⟨hlow, hhigh⟩ := of_decide_eq_true hin
        have hchild := (hchildren i hi').2 kv hkv
        have hside := of_decide_eq_false hout
        by_cases his : i < s
        · have hkey := hchild.after i le_rfl (by have := hstart.lt_size; omega)
          exact absurd (hkey.trans_le (hstart.before i his)) (not_lt.mpr hlow)
        · have hkey := hchild.before e (by omega)
          have hkey' := hstop.after e le_rfl (by omega)
          exact absurd (hkey'.trans_le hkey) (not_lt.mpr hhigh.le)
      have hvisit : (Node.node status size keys children).entries.filter
            (fun kv => decide (start ≤ kv.key ∧ kv.key < stop)) =
          (List.range' s (e + 1 - s)).flatMap fun i =>
            (children i).entries.filter fun kv => decide (start ≤ kv.key ∧ kv.key < stop) := by
        rw [Node.entries, List.filter_flatMap, ← flatMap_filter hskip, range'_eq_filter hstop.lt_size]
      rw [hvisit]
      simp only [rangeInternal, hs, he, bind, Option.bind_some]
      by_cases heq : s = e
      · rw [if_pos heq, ih s (hchildren s hstart.lt_size).1, ← heq, Nat.add_sub_cancel_left]
        simp
      · rw [if_neg heq]
        cases hcalls : collect (fun i => rangeInternal (children i) start stop) (List.range' s (e + 1 - s)) with
        | none =>
            obtain ⟨i, hi, hnone⟩ := collect_eq_none.mp hcalls
            have hsize := hstop.lt_size
            rw [ih i (hchildren i (by have := List.mem_range'_1.mp hi; omega)).1] at hnone
            cases hnone
        | some calls =>
            rw [Option.some.injEq]
            refine collect_eq_some hcalls fun i hi xs hxs => ?_
            have hsize := hstop.lt_size
            rw [ih i (hchildren i (by have := List.mem_range'_1.mp hi; omega)).1] at hxs
            exact (Option.some.inj hxs).symm

/-- In every search tree a range query reads inside of the nodes, and calls `add` once for every entry from `start` on
and before `end`, for no other entry, and in increasing order of the keys. -/
theorem range_exact {root : Node K V} (h : SearchTree root) {start stop : K} (hle : start ≤ stop) :
    ∃ calls, range root start stop = some calls ∧ (calls.Pairwise fun a b => a.key < b.key) ∧
      ∀ kv, kv ∈ calls ↔ kv ∈ root.entries ∧ start ≤ kv.key ∧ kv.key < stop := by
  refine ⟨_, rangeInternal_spec h hle, h.sorted.sublist List.filter_sublist, fun kv => ?_⟩
  rw [List.mem_filter, decide_eq_true_eq]

/-- Two leaves with the separator 10. -/
def twoLeaves : Node Nat Nat :=
  .node .ok 2 (fun _ => 10) fun i => if i = 0 then .leaf .ok [⟨5, 50⟩, ⟨7, 70⟩] else .leaf .ok [⟨10, 100⟩, ⟨12, 120⟩]

/-- A query from inside of the first leaf to inside of the second. -/
theorem range_exact_run :
    7 ≤ 12 ∧ ∃ calls, range twoLeaves 7 12 = some calls ∧ (calls.Pairwise fun a b => a.key < b.key) ∧
      ∀ kv, kv ∈ calls ↔ kv ∈ twoLeaves.entries ∧ 7 ≤ kv.key ∧ kv.key < 12 := by
  have htree : SearchTree twoLeaves := by
    refine ⟨by decide, fun i j hij hj => absurd hj (by omega), fun i hi => ?_⟩
    have hcases : i = 0 ∨ i = 1 := by omega
    cases hcases with
    | inl hzero =>
        subst hzero
        refine ⟨by simp [SearchTree, Sorted], fun kv hkv => ⟨hi, fun j hj => absurd hj (by omega), fun j _ hj => ?_⟩⟩
        have hkey : kv = ⟨5, 50⟩ ∨ kv = ⟨7, 70⟩ := by simpa [Node.entries] using hkv
        cases hkey with
        | inl heq => rw [heq]; decide
        | inr heq => rw [heq]; decide
    | inr hone =>
        subst hone
        refine ⟨by simp [SearchTree, Sorted], fun kv hkv => ⟨hi, fun j hj => ?_, fun j hj hj' => absurd hj' (by omega)⟩⟩
        have hkey : kv = ⟨10, 100⟩ ∨ kv = ⟨12, 120⟩ := by simpa [Node.entries] using hkv
        cases hkey with
        | inl heq => rw [heq]
        | inr heq => rw [heq]; decide
  exact ⟨by decide, range_exact htree (by decide)⟩

end Verlib.BTree
