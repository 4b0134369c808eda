import Mathlib.Algebra.BigOperators.Group.List.Basic
import Mathlib.Algebra.GroupWithZero.Nat
import Verlib.BTree.Blocks

/-!
# Repairs of the B-tree

What `fix_node` and `fix_root` do. In a sequential run every lock is free and what is checked under it still holds. The
root has one child, which is what is modelled here. A repair takes a bad node away, or moves it up the tree, and only a
root that is split or removed changes the depth of the others.
-/

namespace Verlib.BTree

open Separated

variable {K V : Type}

/-! ## Repairs -/

section

variable (B : BlockSizes)

/-- `overfull_node`: the new copy of `p`; `none` is a fault. -/
def overfullNode (p : Node K V) (cidx : Nat) : Option (Node K V) :=
  match p with
  | .leaf .. => none
  | .node _ size keys children => do
      let newc ← split B (children cidx)
      addChild B size keys children newc cidx

/-- `underfull_node`: the new copy of `p`; `none` is a fault. -/
def underfullNode (p : Node K V) (cidx : Nat) : Option (Node K V) :=
  match p with
  | .leaf .. => none
  | .node _ size keys children =>
      let li := if cidx = 0 then 0 else cidx - 1
      if size ≤ li + 1 then none
      else
        let lc := children li
        let rc := children (li + 1)
        if lc.size + rc.size < joinCutoff B (children cidx) then do
          let j ← join B lc (keys li) rc
          joinChildren B size keys children j li
        else do
          let newc ← rebalance B lc (keys li) rc
          rebalanceChildren B size keys children newc li

/-- `fix_node`. -/
def fixNode (p : Node K V) (cidx : Nat) (c : Node K V) : Option (Node K V) :=
  if c.status = .isOver then overfullNode B p cidx else underfullNode B p cidx

/-- `fix_root`, without `Recorded_Once`: the new child of the root. -/
def fixRoot (c : Node K V) : Option (Node K V) :=
  if c.status = .isOver then (split B c).map rootNode
  else
    match c with
    | .leaf .. => none
    | .node _ _ _ children => some (children 0)

end

/-! ## Bad nodes -/

/-- A bad child is counted. -/
theorem bad_of_not_ok {c : Node K V} {d : Nat} (hbad : c.status ≠ .ok) : c.bad d = d :: c.badBelow d := by
  rw [Node.bad_eq, if_neg hbad]
  rfl

/-- Two neighbours, one of them bad. -/
theorem bad_two {c1 c2 : Node K V} (hbad : c1.status ≠ .ok ∨ c2.status ≠ .ok) (d : Nat) :
    (c1.badBelow d ++ c2.badBelow d).length < (c1.bad d ++ c2.bad d).length ∧
      (c1.badBelow d ++ c2.badBelow d).sum + d ≤ (c1.bad d ++ c2.bad d).sum := by
  rw [Node.bad_eq, Node.bad_eq]
  by_cases hc1 : c1.status = .ok
  · have hc2 : c2.status ≠ .ok := hbad.resolve_left fun hne => hne hc1
    rw [if_pos hc1, if_neg hc2]
    simp only [List.length_append, List.sum_append, List.length_nil, List.sum_nil, List.length_singleton,
      List.sum_singleton]
    omega
  · rw [if_neg hc1]
    simp only [List.length_append, List.sum_append, List.length_singleton, List.sum_singleton]
    omega

/-- The number of bad nodes does not depend on the depth of the root. -/
theorem bad_length (t : Node K V) (d d' : Nat) : (t.bad d).length = (t.bad d').length := by
  induction t generalizing d d' with
  | leaf status keyvals =>
      rw [Node.bad, Node.bad]
      split
      · rfl
      · rfl
  | node status size keys children ih =>
      rw [Node.bad, Node.bad, List.length_append, List.length_append, List.length_flatMap, List.length_flatMap,
        List.map_congr_left fun i _ => ih i (d + 1) (d' + 1)]
      congr 1
      split
      · rfl
      · rfl

theorem badBelow_length (t : Node K V) (d d' : Nat) : (t.badBelow d).length = (t.badBelow d').length := by
  have heq := bad_length t d d'
  rw [Node.bad_eq, Node.bad_eq, List.length_append, List.length_append] at heq
  by_cases hok : t.status = .ok
  · rw [if_pos hok, if_pos hok] at heq
    omega
  · rw [if_neg hok, if_neg hok] at heq
    simpa using heq

/-- The child of the root is full, or an internal node with one child. -/
def NeedsFix (root : Node K V) : Prop := root.status = .isOver ∨ (root.isLeaf = false ∧ root.size = 1)

instance (root : Node K V) : Decidable (NeedsFix root) := inferInstanceAs (Decidable (_ ∨ _))

/-- The depths of all nodes that the search repairs. -/
def badAll (root : Node K V) : List Nat := (if NeedsFix root then [0] else []) ++ root.badBelow 0

/-! ## The child of the root -/

/-- The size and the status of the child of the root. -/
def RootOk (B : BlockSizes) : Node K V → Prop
  | .leaf status keyvals => status = statusOf B.leafMin B.leaf keyvals.length ∧ keyvals.length ≤ B.leaf
  | .node status size _ _ => 0 < size ∧ size ≤ B.node ∧
      (status = statusOf B.nodeMin B.node size ∨ status = .ok ∧ size < B.node)

section

variable {B : BlockSizes} {c root : Node K V}

/-- A node that is right below the root too. -/
theorem SizeOk.rootOk (hsize : SizeOk B c) : RootOk B c := by
  obtain ⟨hmin, -, -, -⟩ := B.min_lt
  cases c with
  | leaf status keyvals => exact ⟨hsize.1, hsize.2.2⟩
  | node status size keys children => exact ⟨hmin.trans_le hsize.2.1, hsize.2.2, .inl hsize.1⟩

/-- A node below the root that the search would repair in the place of the root is bad where it is. -/
theorem SizeOk.bad_of_needsFix (hsize : SizeOk B c) (hneeds : NeedsFix c) : c.status ≠ .ok := by
  obtain ⟨hmin, -, -, -⟩ := B.min_lt
  intro hok
  cases hneeds with
  | inl hover =>
      rw [hok] at hover
      cases hover
  | inr hone =>
      cases c with
      | leaf => cases hone.1
      | node status size keys children =>
          obtain ⟨hstatus, hle, -⟩ := hsize
          have hsize : size = 1 := hone.2
          have hunder : statusOf B.nodeMin B.node size = .isUnder := statusOf_isUnder.mpr (by omega)
          rw [← hstatus] at hunder
          rw [show status = .ok from hok] at hunder
          cases hunder

/-- A root with status `isOver` is full. -/
theorem RootOk.full (hroot : RootOk B root) (hover : root.status = .isOver) : IsFull B root := by
  obtain ⟨_, hnode, _, hleaf⟩ := B.min_lt
  cases root with
  | leaf status keyvals => exact (statusOf_isOver (by omega)).mp (hroot.1.symm.trans hover)
  | node status size keys children =>
      obtain ⟨-, -, hstatus⟩ := hroot
      cases hstatus with
      | inl hstatus => exact (statusOf_isOver (by omega)).mp (hstatus.symm.trans hover)
      | inr hok =>
          have hstatus : status = .isOver := hover
          rw [hstatus] at hok
          cases hok.1

end

variable [LinearOrder K]

/-- The child of the root is the root of a balanced search tree. -/
structure RootGood (B : BlockSizes) (root : Node K V) (h : Nat) : Prop where
  sizeOk : RootOk B root
  good : Good B root h ⊥ ⊤

section

variable {B : BlockSizes} {h : Nat} {lo hi : Bound K} {status : Status} {size cidx : Nat}
  {keys : Nat → K} {children : Nat → Node K V} {root : Node K V}

/-! ## What a repair does -/

/-- A node in the place of `p` that is a repaired copy: it has the same entries, at least one bad node less below it,
and its size differs by at most one. -/
structure Repaired (B : BlockSizes) (p : Node K V) (h : Nat) (lo hi : Bound K) (p' : Node K V) : Prop where
  good : Good B p' h lo hi
  entries : p'.entries = p.entries
  copied : ∃ size keys children, p' = newNode B size keys children ∧ size ≤ p.size + 1 ∧ p.size ≤ size + 1
  count : ∀ d, (p'.badBelow d).length < (p.badBelow d).length
  depth : ∀ d, (p'.badBelow d).sum + (d + 1) ≤ (p.badBelow d).sum

/-- A copy that differs in a stretch of its children only. -/
theorem repaired_of_rows {size' : Nat} {keys' : Nat → K} {children' : Nat → Node K V}
    (left old new right : List (Node K V)) (hc : Chain (Child B h) lo hi size' keys' children')
    (hsize : size' ≤ size + 1 ∧ size ≤ size' + 1)
    (hrow : row size children = left ++ old ++ right) (hrow' : row size' children' = left ++ new ++ right)
    (hentries : new.flatMap Node.entries = old.flatMap Node.entries)
    (hcount : ∀ d, (new.flatMap (Node.bad d)).length < (old.flatMap (Node.bad d)).length)
    (hdepth : ∀ d, (new.flatMap (Node.bad d)).sum + d ≤ (old.flatMap (Node.bad d)).sum) :
    Repaired B (.node status size keys children) (h + 1) lo hi (newNode B size' keys' children') := by
  refine ⟨good_node.mpr ⟨h, rfl, hc⟩, ?_, ⟨_, _, _, rfl, hsize⟩, fun d => ?_, fun d => ?_⟩
  · rw [newNode, Node.entries_node, Node.entries_node, hrow, hrow', List.flatMap_append, List.flatMap_append, hentries,
      List.flatMap_append, List.flatMap_append]
  · show ((row size' children').flatMap _).length < ((row size children).flatMap _).length
    have hlt := hcount (d + 1)
    rw [hrow, hrow']
    simp only [List.flatMap_append, List.length_append]
    omega
  · show ((row size' children').flatMap _).sum + (d + 1) ≤ ((row size children).flatMap _).sum
    have hle := hdepth (d + 1)
    rw [hrow, hrow']
    simp only [List.flatMap_append, List.sum_append]
    omega

/-- `overfull_node` splits a full child. -/
theorem overfullNode_spec (hc : Chain (Child B h) lo hi size keys children) (hcidx : cidx < size)
    (hsize : size < B.node) (hover : (children cidx).status = .isOver) :
    ∃ p', overfullNode B (.node status size keys children) cidx = some p' ∧
      Repaired B (.node status size keys children) (h + 1) lo hi p' := by
  obtain ⟨-, b, hb⟩ := hc
  have hchild := hb.child cidx hcidx
  obtain ⟨nec, hsplit, hhalves⟩ := split_spec hchild.2 (hchild.1.full hover)
  have hbad : (children cidx).status ≠ .ok := by
    rw [hover]
    decide
  have hnew : ∀ d, [nec.1, nec.2.2].flatMap (Node.bad d) = (children cidx).badBelow d := by
    intro d
    rw [List.flatMap_cons, List.flatMap_singleton, Node.bad_of_ok hhalves.left_ok, Node.bad_of_ok hhalves.right_ok]
    exact hhalves.badBelow d
  have hadd : addChild B size keys children nec cidx =
      some (newNode B (size + 1) (insertKey cidx nec.2.1 keys) (replaceByTwo cidx nec.1 nec.2.2 children)) :=
    (if_pos hsize).trans (if_pos hsize)
  refine ⟨_, by rw [overfullNode, hsplit]; exact hadd, ?_⟩
  refine repaired_of_rows (row cidx children) [children cidx] [nec.1, nec.2.2]
    (row (size - (cidx + 1)) fun i => children (i + (cidx + 1)))
    (hb.replaceByTwo hcidx hhalves.lo_lt hhalves.lt_hi hhalves.left hhalves.right) ⟨le_rfl, by omega⟩ ?_ ?_ ?_
    (fun d => ?_) fun d => ?_
  · rw [row_at hcidx, List.append_assoc]
    rfl
  · rw [row_replaceByTwo hcidx, List.append_assoc]
    rfl
  · rw [List.flatMap_cons, List.flatMap_singleton, List.flatMap_singleton]
    exact hhalves.entries
  · rw [hnew, List.flatMap_singleton, bad_of_not_ok hbad, List.length_cons]
    omega
  · rw [hnew, List.flatMap_singleton, bad_of_not_ok hbad, List.sum_cons]
    omega

/-- `underfull_node` joins a child of the least size with a neighbour, or rebalances the two. -/
theorem underfullNode_spec (hc : Chain (Child B h) lo hi size keys children) (hcidx : cidx < size)
    (hsize : 1 < size ∧ size < B.node) (hunder : (children cidx).status = .isUnder) :
    ∃ p', underfullNode B (.node status size keys children) cidx = some p' ∧
      Repaired B (.node status size keys children) (h + 1) lo hi p' := by
  obtain ⟨-, b, hb⟩ := hc
  obtain ⟨li, hli⟩ : ∃ li, li = if cidx = 0 then 0 else cidx - 1 := ⟨_, rfl⟩
  have hlt : li + 1 < size := by
    rw [hli]
    split
    · omega
    · omega
  have hside : children cidx = children li ∨ children cidx = children (li + 1) := by
    rw [hli]
    split
    next hzero => exact .inl (by rw [hzero])
    next hzero => exact .inr (by rw [Nat.sub_add_cancel (by omega)])
  have hbad : (children li).status ≠ .ok ∨ (children (li + 1)).status ≠ .ok := by
    cases hside with
    | inl heq =>
        rw [← heq, hunder]
        exact .inl (by decide)
    | inr heq =>
        rw [← heq, hunder]
        exact .inr (by decide)
  have hlo := hb.lt li (by omega)
  have hhi := hb.lt (li + 1) hlt
  have hleft := hb.child li (by omega)
  have hright := hb.child (li + 1) hlt
  rw [hb.key li hlt] at hlo hhi hleft hright
  have hrow : row size children = row li children ++ [children li, children (li + 1)] ++
      row (size - (li + 2)) fun i => children (i + (li + 2)) := by
    rw [row_at_two hlt, List.append_assoc]
    rfl
  rw [underfullNode]
  simp only [← hli]
  rw [if_neg (by omega)]
  by_cases hcutoff : (children li).size + (children (li + 1)).size < joinCutoff B (children cidx)
  · obtain ⟨j, hjoin, hj, hjOk, hjEntries, hjBad⟩ := join_spec hleft hright hlo hhi hside hcutoff
    have hnew : ∀ d, [j].flatMap (Node.bad d) = (children li).badBelow d ++ (children (li + 1)).badBelow d := by
      intro d
      rw [List.flatMap_singleton, Node.bad_of_ok hjOk, hjBad]
    have hblock : size - 1 ≤ B.node := by omega
    rw [if_pos hcutoff, hjoin]
    refine ⟨newNode B (size - 1) (dropKey li keys) (replaceTwo li j children), if_pos hblock, ?_⟩
    refine repaired_of_rows _ _ [j] _ (hb.replaceTwo hlt hj) ⟨by omega, by omega⟩ hrow ?_ ?_ (fun d => ?_)
      fun d => ?_
    · rw [row_replaceTwo hlt, List.append_assoc]
      rfl
    · rw [List.flatMap_singleton, List.flatMap_cons, List.flatMap_singleton]
      exact hjEntries
    · rw [hnew, List.flatMap_cons, List.flatMap_singleton]
      exact (bad_two hbad d).1
    · rw [hnew, List.flatMap_cons, List.flatMap_singleton]
      exact (bad_two hbad d).2
  · obtain ⟨nec, hrebalance, hhalves⟩ := rebalance_spec hleft hright hlo hhi hside hunder hcutoff
    have hnew : ∀ d, [nec.1, nec.2.2].flatMap (Node.bad d) =
        (children li).badBelow d ++ (children (li + 1)).badBelow d := by
      intro d
      rw [List.flatMap_cons, List.flatMap_singleton, Node.bad_of_ok hhalves.left_ok, Node.bad_of_ok hhalves.right_ok]
      exact hhalves.badBelow d
    rw [if_neg hcutoff, hrebalance]
    refine ⟨newNode B size (setKey li nec.2.1 keys) (setTwo li nec.1 nec.2.2 children), if_pos hsize.2.le, ?_⟩
    refine repaired_of_rows _ _ [nec.1, nec.2.2] _
      (hb.setTwo hlt hhalves.lo_lt hhalves.lt_hi hhalves.left hhalves.right) ⟨by omega, by omega⟩ hrow ?_ ?_
      (fun d => ?_) fun d => ?_
    · rw [row_setTwo hlt, List.append_assoc]
      rfl
    · rw [List.flatMap_cons, List.flatMap_singleton, List.flatMap_cons, List.flatMap_singleton]
      exact hhalves.entries
    · rw [hnew, List.flatMap_cons, List.flatMap_singleton]
      exact (bad_two hbad d).1
    · rw [hnew, List.flatMap_cons, List.flatMap_singleton]
      exact (bad_two hbad d).2

/-- `fix_node` repairs a bad child of a node with at least two children. -/
theorem fixNode_spec (status : Status) (hc : Chain (Child B h) lo hi size keys children) (hcidx : cidx < size)
    (hsize : 1 < size ∧ size < B.node) (hbad : (children cidx).status ≠ .ok) :
    ∃ p', fixNode B (.node status size keys children) cidx (children cidx) = some p' ∧
      Repaired B (.node status size keys children) (h + 1) lo hi p' := by
  rw [fixNode]
  by_cases hover : (children cidx).status = .isOver
  · rw [if_pos hover]
    exact overfullNode_spec hc hcidx hsize.2 hover
  · have hunder : (children cidx).status = .isUnder := by
      cases hstatus : (children cidx).status with
      | isOver => exact absurd hstatus hover
      | isUnder => rfl
      | ok => exact absurd hstatus hbad
    rw [if_neg hover]
    exact underfullNode_spec hc hcidx hsize hunder

/-- `fix_root` leaves fewer nodes to repair. -/
theorem fixRoot_spec (hroot : RootGood B root h) (hneeds : NeedsFix root) :
    ∃ root' h', fixRoot B root = some root' ∧ RootGood B root' h' ∧ root'.entries = root.entries ∧
      (badAll root').length < (badAll root).length := by
  have hall : badAll root = 0 :: root.badBelow 0 := by
    rw [badAll, if_pos hneeds]
    rfl
  by_cases hover : root.status = .isOver
  · obtain ⟨nec, hsplit, hhalves⟩ := split_spec hroot.good (hroot.sizeOk.full hover)
    have hchain := Chain.two hhalves.lo_lt hhalves.lt_hi hhalves.left hhalves.right
    have hnot : ¬ NeedsFix (rootNode nec) := by
      intro hneeds'
      cases hneeds' with
      | inl hstatus => cases hstatus
      | inr hone => cases hone.2
    have hbelow : (rootNode nec).badBelow 0 = root.badBelow 1 := by
      show nec.1.bad 1 ++ (nec.2.2.bad 1 ++ []) = _
      rw [Node.bad_of_ok hhalves.left_ok, Node.bad_of_ok hhalves.right_ok, List.append_nil]
      exact hhalves.badBelow 1
    refine ⟨rootNode nec, h + 1, (if_pos hover).trans (by rw [hsplit]; rfl), ⟨?_, good_node.mpr ⟨h, rfl, hchain⟩⟩,
      ?_, ?_⟩
    · have hnode := B.node_ge
      exact ⟨by omega, by omega, .inr ⟨rfl, by omega⟩⟩
    · show nec.1.entries ++ (nec.2.2.entries ++ []) = _
      rw [List.append_nil]
      exact hhalves.entries
    · rw [hall, badAll, if_neg hnot, List.nil_append, hbelow, badBelow_length root 1 0, List.length_cons]
      omega
  · obtain ⟨hinternal, hone⟩ := hneeds.resolve_left hover
    cases root with
    | leaf => cases hinternal
    | node status size keys children =>
        obtain rfl : size = 1 := hone
        obtain ⟨h', rfl, -, b, hb⟩ := good_node.mp hroot.good
        obtain ⟨hsize, hgood⟩ := hb.child 0 (by omega)
        rw [hb.first, hb.last] at hgood
        have hbelow : (Node.node status 1 keys children).badBelow 0 = (children 0).bad 1 := List.flatMap_singleton ..
        refine ⟨children 0, h', if_neg hover, ⟨hsize.rootOk, hgood⟩, ?_, ?_⟩
        · rw [Node.entries_node]
          exact (List.flatMap_singleton ..).symm
        · rw [hall, hbelow, badAll, List.length_cons, bad_length _ 1 0, Node.bad_eq, List.length_append,
            List.length_append]
          by_cases hneeds' : NeedsFix (children 0)
          · rw [if_pos hneeds', if_neg (hsize.bad_of_needsFix hneeds')]
            omega
          · rw [if_neg hneeds', List.length_nil]
            omega

end

end Verlib.BTree
