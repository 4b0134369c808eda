import Verlib.BTree.Node
import Verlib.Separated.Chain

/-!
# Blocks of the B-tree

How nodes are split, joined and rebalanced, and the invariant of a balanced tree of blocks. The sizes of the blocks are
those of `node_block_size` and `leaf_block_size`. A node that is split, joined or rebalanced has a size strictly between
its least size and its block size afterwards, whatever the sizes of the blocks.
-/

namespace Verlib.BTree

open Separated

variable {K V : Type}

/-! ## Sizes -/

/-- The sizes of the blocks, which are at least 5. -/
structure BlockSizes where
  node : Nat
  leaf : Nat
  node_ge : 5 ≤ node
  leaf_ge : 5 ≤ leaf

namespace BlockSizes

variable (B : BlockSizes)

/-- `node_min_size`. -/
def nodeMin : Nat := B.node / 5

/-- `node_join_cutoff`. -/
def nodeJoinCutoff : Nat := B.nodeMin * 4

/-- `leaf_min_size`. -/
def leafMin : Nat := B.leaf / 5

/-- `leaf_join_cutoff`. -/
def leafJoinCutoff : Nat := B.leafMin * 4

end BlockSizes

/-- The status of a new block. -/
def statusOf (min block size : Nat) : Status :=
  if size = min then .isUnder else if size = block then .isOver else .ok

section

variable (B : BlockSizes)

/-! ## New nodes -/

/-- `node(int size)`, with its keys and children. -/
def newNode (size : Nat) (keys : Nat → K) (children : Nat → Node K V) : Node K V :=
  .node (statusOf B.nodeMin B.node size) size keys children

/-- `leaf(int size)`, with its entries. -/
def newLeaf (keyvals : List (KV K V)) : Node K V :=
  .leaf (statusOf B.leafMin B.leaf keyvals.length) keyvals

/-- `copy`; `none` stands for a write outside of the block. -/
def copy (size : Nat) (getKey : Nat → K) (getChild : Nat → Node K V) : Option (Node K V) :=
  if size ≤ B.node then some (newNode B size getKey getChild) else none

/-- The loops that fill a leaf; `none` stands for a write outside of the block. -/
def fillLeaf (keyvals : List (KV K V)) : Option (Node K V) :=
  if keyvals.length ≤ B.leaf then some (newLeaf B keyvals) else none

/-- `node(std::tuple<node*,K,node*> nec)`: a new root node. -/
def rootNode (nec : Node K V × K × Node K V) : Node K V :=
  .node .ok 2 (fun _ => nec.2.1) fun i => if i = 0 then nec.1 else nec.2.2

/-- `split_mid`. -/
def splitMid (size : Nat) (getKey : Nat → K) (getChild : Nat → Node K V) : Option (Node K V × K × Node K V) := do
  let lsize := size / 2
  let newL ← copy B lsize getKey getChild
  let newR ← copy B (size - lsize) (fun i => getKey (i + lsize)) fun i => getChild (i + lsize)
  pure (newL, getKey (lsize - 1), newR)

/-- `split_mid_leaf`; `none` stands for a read outside of the entries too. -/
def splitMidLeaf (keyvals : List (KV K V)) : Option (Node K V × K × Node K V) := do
  let lsize := keyvals.length / 2
  let newL ← fillLeaf B (keyvals.take lsize)
  let newR ← fillLeaf B (keyvals.drop lsize)
  let mid ← keyvals[lsize]?
  pure (newL, mid.key, newR)

/-- `split_leaf` or `split`; `none` stands for a failed assertion too. -/
def split : Node K V → Option (Node K V × K × Node K V)
  | .leaf _ keyvals => if keyvals.length = B.leaf then splitMidLeaf B keyvals else none
  | .node _ size keys children => if size = B.node then splitMid B size keys children else none

/-- `rebalance_leaf` or `rebalance`; `none` stands for a leaf that is used as an internal node too. -/
def rebalance : Node K V → K → Node K V → Option (Node K V × K × Node K V)
  | .leaf _ l, _, .leaf _ r => splitMidLeaf B (l ++ r)
  | .node _ size1 keys1 children1, k, .node _ size2 keys2 children2 =>
      splitMid B (size1 + size2) (appendKeys size1 keys1 k keys2) (append size1 children1 children2)
  | _, _, _ => none

/-- `join_leaf` or `join`. -/
def join : Node K V → K → Node K V → Option (Node K V)
  | .leaf _ l, _, .leaf _ r => fillLeaf B (l ++ r)
  | .node _ size1 keys1 children1, k, .node _ size2 keys2 children2 =>
      copy B (size1 + size2) (appendKeys size1 keys1 k keys2) (append size1 children1 children2)
  | _, _, _ => none

/-- The sum of the sizes from which on two nodes are rebalanced. -/
def joinCutoff : Node K V → Nat
  | .leaf .. => B.leafJoinCutoff
  | .node .. => B.nodeJoinCutoff

/-- `add_child`; `none` stands for a failed assertion. -/
def addChild (size : Nat) (keys : Nat → K) (children : Nat → Node K V) (newc : Node K V × K × Node K V) (pos : Nat) :
    Option (Node K V) :=
  if size < B.node then copy B (size + 1) (insertKey pos newc.2.1 keys) (replaceByTwo pos newc.1 newc.2.2 children)
  else none

/-- `join_children`. -/
def joinChildren (size : Nat) (keys : Nat → K) (children : Nat → Node K V) (c : Node K V) (pos : Nat) :
    Option (Node K V) :=
  copy B (size - 1) (dropKey pos keys) (replaceTwo pos c children)

/-- `rebalance_children`. -/
def rebalanceChildren (size : Nat) (keys : Nat → K) (children : Nat → Node K V) (newc : Node K V × K × Node K V)
    (pos : Nat) : Option (Node K V) :=
  copy B size (setKey pos newc.2.1 keys) (setTwo pos newc.1 newc.2.2 children)

/-! ## The invariant -/

/-- The size and the status of a node that is not the child of the root. -/
def SizeOk : Node K V → Prop
  | .leaf status keyvals => status = statusOf B.leafMin B.leaf keyvals.length ∧ B.leafMin ≤ keyvals.length ∧
      keyvals.length ≤ B.leaf
  | .node status size _ _ => status = statusOf B.nodeMin B.node size ∧ B.nodeMin ≤ size ∧ size ≤ B.node

theorem statusOf_ok {min block size : Nat} (hmin : min < size) (hblock : size < block) :
    statusOf min block size = .ok := by
  rw [statusOf, if_neg (by omega), if_neg (by omega)]

theorem ne_of_statusOf_ok {min block size : Nat} (h : statusOf min block size = .ok) : size ≠ min ∧ size ≠ block := by
  rw [statusOf] at h
  split at h
  · cases h
  · split at h
    · cases h
    next hmin hblock => exact ⟨hmin, hblock⟩

theorem statusOf_isUnder {min block size : Nat} : statusOf min block size = .isUnder ↔ size = min := by
  rw [statusOf]
  split
  next h => simp [h]
  next h =>
      split
      · simp [h]
      · simp [h]

theorem statusOf_isOver {min block size : Nat} (h : min < block) :
    statusOf min block size = .isOver ↔ size = block := by
  rw [statusOf]
  split
  next hmin =>
      refine iff_of_false (by simp) ?_
      omega
  · split
    next heq => simp [heq]
    next hne => simp [hne]

/-- The block is full. -/
def IsFull : Node K V → Prop
  | .leaf _ keyvals => keyvals.length = B.leaf
  | .node _ size _ _ => size = B.node

/-- The least size is below the block size. -/
theorem BlockSizes.min_lt :
    0 < B.nodeMin ∧ 2 * B.nodeMin < B.node ∧ 0 < B.leafMin ∧ 2 * B.leafMin < B.leaf := by
  have hnode := B.node_ge
  have hleaf := B.leaf_ge
  rw [nodeMin, leafMin]
  omega

/-- A node with status `isOver` is full, and one with status `isUnder` has the least size. -/
theorem SizeOk.full {B : BlockSizes} {c : Node K V} (hsize : SizeOk B c) (hover : c.status = .isOver) : IsFull B c := by
  obtain ⟨_, hnode, _, hleaf⟩ := B.min_lt
  cases c with
  | leaf status keyvals => exact (statusOf_isOver (by omega)).mp (hsize.1.symm.trans hover)
  | node status size keys children => exact (statusOf_isOver (by omega)).mp (hsize.1.symm.trans hover)

variable [LinearOrder K]

/-- A search tree of the given height, with keys from `lo` on and before `hi`, and with nodes of the right sizes below
its root. -/
def Good : Node K V → Nat → Bound K → Bound K → Prop
  | .leaf _ keyvals, h, lo, hi => h = 0 ∧ Sorted keyvals ∧ ∀ kv ∈ keyvals, lo ≤ ofKey kv.key ∧ ofKey kv.key < hi
  | .node _ size keys children, h, lo, hi => ∃ h', h = h' + 1 ∧
      Chain (fun lo hi i => SizeOk B (children i) ∧ Good (children i) h' lo hi) lo hi size keys id

/-- A node below another one. -/
def Child (h : Nat) (lo hi : Bound K) (c : Node K V) : Prop := SizeOk B c ∧ Good B c h lo hi

end

/-! ## Contents and bad nodes -/

namespace Node

/-- The depths of the nodes with a status other than `OK`, if the root of the tree is at depth `d`. -/
def bad : Nat → Node K V → List Nat
  | d, leaf status _ => if status = .ok then [] else [d]
  | d, node status size _ children =>
      (if status = .ok then [] else [d]) ++ (List.range size).flatMap fun i => (children i).bad (d + 1)

/-- The depths of these nodes below the root. -/
def badBelow (d : Nat) : Node K V → List Nat
  | leaf .. => []
  | node _ size _ children => (row size children).flatMap (bad (d + 1))

theorem bad_eq (d : Nat) (t : Node K V) : t.bad d = (if t.status = .ok then [] else [d]) ++ t.badBelow d := by
  cases t with
  | leaf status keyvals => exact (List.append_nil _).symm
  | node status size keys children =>
      rw [bad, badBelow, row, List.flatMap_map]
      rfl

theorem bad_of_ok {t : Node K V} (h : t.status = .ok) (d : Nat) : t.bad d = t.badBelow d := by
  rw [bad_eq, if_pos h, List.nil_append]

theorem entries_node (status : Status) (size : Nat) (keys : Nat → K) (children : Nat → Node K V) :
    (node status size keys children).entries = (row size children).flatMap entries := by
  rw [entries, row, List.flatMap_map]

end Node

section

variable {B : BlockSizes} [LinearOrder K] {h : Nat} {lo mid hi : Bound K} {status : Status} {size : Nat}
  {keys : Nat → K} {children : Nat → Node K V} {k : K} {c c1 c2 : Node K V} {keyvals : List (KV K V)}

theorem good_node : Good B (.node status size keys children) h lo hi ↔
    ∃ h', h = h' + 1 ∧ Chain (Child B h') lo hi size keys children := by
  rw [Good]
  refine exists_congr fun h' => and_congr_right fun _ => ⟨fun hc => ?_, fun hc => ?_⟩
  · obtain ⟨hpos, b, hb⟩ := hc
    exact ⟨hpos, b, hb.first, hb.last, hb.key, hb.lt, hb.child⟩
  · obtain ⟨hpos, b, hb⟩ := hc
    exact ⟨hpos, b, hb.first, hb.last, hb.key, hb.lt, hb.child⟩

/-- The keys of the entries lie in the interval of the tree. -/
theorem Good.mem_interval {t : Node K V} (hgood : Good B t h lo hi) {kv : KV K V} (hkv : kv ∈ t.entries) :
    lo ≤ ofKey kv.key ∧ ofKey kv.key < hi := by
  induction t generalizing h lo hi with
  | leaf status keyvals => exact hgood.2.2 kv hkv
  | node status size keys children ih =>
      obtain ⟨h', rfl, -, b, hb⟩ := good_node.mp hgood
      rw [Node.entries_node, List.mem_flatMap] at hkv
      obtain ⟨c, hc, hkv⟩ := hkv
      obtain ⟨i, hi', rfl⟩ := mem_row.mp hc
      obtain ⟨hlo, hhi⟩ := ih i (hb.child i hi').2 hkv
      rw [← hb.first, ← hb.last]
      exact ⟨(hb.le_of_le (Nat.zero_le i) hi'.le).trans hlo, hhi.trans_le (hb.le_of_le hi' le_rfl)⟩

/-- A new internal node with a size strictly between the least size and the block size. -/
theorem newNode_child (hc : Chain (Child B h) lo hi size keys children) (hmin : B.nodeMin < size)
    (hblock : size < B.node) :
    copy B size keys children = some (newNode B size keys children) ∧
      Child B (h + 1) lo hi (newNode B size keys children) ∧ (newNode B size keys children).status = .ok :=
  ⟨if_pos hblock.le, ⟨⟨rfl, hmin.le, hblock.le⟩, good_node.mpr ⟨h, rfl, hc⟩⟩, statusOf_ok hmin hblock⟩

/-- A new leaf with a size strictly between the least size and the block size. -/
theorem newLeaf_child (hsorted : Sorted keyvals) (hin : ∀ kv ∈ keyvals, lo ≤ ofKey kv.key ∧ ofKey kv.key < hi)
    (hmin : B.leafMin < keyvals.length) (hblock : keyvals.length < B.leaf) :
    fillLeaf B keyvals = some (newLeaf B keyvals) ∧ Child B 0 lo hi (newLeaf B keyvals) ∧
      (newLeaf B keyvals).status = .ok :=
  ⟨if_pos hblock.le, ⟨⟨rfl, hmin.le, hblock.le⟩, rfl, hsorted, hin⟩, statusOf_ok hmin hblock⟩

/-! ## Splitting, joining and rebalancing -/

/-- Two new nodes with a key between them, in the place of nodes with the given entries and the given bad nodes below
them. -/
structure Halves (B : BlockSizes) (h : Nat) (lo hi : Bound K) (entries : List (KV K V)) (below : Nat → List Nat)
    (nec : Node K V × K × Node K V) : Prop where
  lo_lt : lo < ofKey nec.2.1
  lt_hi : ofKey nec.2.1 < hi
  left : Child B h lo (ofKey nec.2.1) nec.1
  right : Child B h (ofKey nec.2.1) hi nec.2.2
  left_ok : nec.1.status = .ok
  right_ok : nec.2.2.status = .ok
  entries : nec.1.entries ++ nec.2.2.entries = entries
  badBelow : ∀ d, nec.1.badBelow d ++ nec.2.2.badBelow d = below d

/-- `split_mid` of children that are enough for two nodes. -/
theorem splitMid_spec (hc : Chain (Child B h) lo hi size keys children) (hmin : 2 * (B.nodeMin + 1) ≤ size)
    (hblock : size + 1 < 2 * B.node) :
    ∃ nec, splitMid B size keys children = some nec ∧
      Halves B (h + 1) lo hi ((row size children).flatMap Node.entries)
        (fun d => (row size children).flatMap (Node.bad (d + 1))) nec := by
  have hrow : row size children =
      row (size / 2) children ++ row (size - size / 2) fun i => children (i + size / 2) := by
    rw [← row_add, Nat.add_sub_cancel' (Nat.div_le_self _ _)]
  have hmid := hc.key_mem (i := size / 2 - 1) (by omega)
  obtain ⟨hnewL, hleft, hleftOk⟩ := newNode_child (hc.left (n := size / 2) (by omega) (by omega)) (by omega) (by omega)
  obtain ⟨hnewR, hright, hrightOk⟩ :=
    newNode_child (hc.right (n := size / 2) (by omega) (by omega)) (by omega) (by omega)
  refine ⟨_, by rw [splitMid, hnewL, hnewR]; rfl, hmid.1, hmid.2, hleft, hright, hleftOk, hrightOk, ?_, fun d => ?_⟩
  · rw [hrow, List.flatMap_append]
    exact congrArg₂ _ (Node.entries_node ..) (Node.entries_node ..)
  · rw [hrow, List.flatMap_append]
    rfl

/-- `split_mid_leaf` of entries that are enough for two leaves. -/
theorem splitMidLeaf_spec (hsorted : Sorted keyvals) (hin : ∀ kv ∈ keyvals, lo ≤ ofKey kv.key ∧ ofKey kv.key < hi)
    (hmin : 2 * (B.leafMin + 1) ≤ keyvals.length) (hblock : keyvals.length + 1 < 2 * B.leaf) :
    ∃ nec, splitMidLeaf B keyvals = some nec ∧ Halves B 0 lo hi keyvals (fun _ => []) nec := by
  have hlt : keyvals.length / 2 < keyvals.length := by omega
  have hdrop := List.drop_eq_getElem_cons hlt
  have hparts : keyvals.take (keyvals.length / 2) ++ keyvals.drop (keyvals.length / 2) = keyvals :=
    List.take_append_drop _ _
  have hsplit := hsorted
  rw [Sorted, ← hparts, List.pairwise_append] at hsplit
  obtain ⟨hleft, hright, hcross⟩ := hsplit
  have hmid : keyvals[keyvals.length / 2] ∈ keyvals.drop (keyvals.length / 2) := by
    rw [hdrop]
    exact List.mem_cons_self
  have hright' := hright
  rw [hdrop, List.pairwise_cons] at hright'
  have hleftIn : ∀ kv ∈ keyvals.take (keyvals.length / 2), lo ≤ ofKey kv.key ∧
      ofKey kv.key < ofKey keyvals[keyvals.length / 2].key := fun kv hkv =>
    ⟨(hin kv (List.mem_of_mem_take hkv)).1, ofKey_lt_ofKey.mpr (hcross kv hkv _ hmid)⟩
  obtain ⟨hnewL, hleftChild, hleftOk⟩ := newLeaf_child (B := B) hleft hleftIn (by rw [List.length_take]; omega)
    (by rw [List.length_take]; omega)
  have hge : ∀ kv ∈ keyvals.drop (keyvals.length / 2), keyvals[keyvals.length / 2].key ≤ kv.key := by
    intro kv hkv
    rw [hdrop, List.mem_cons] at hkv
    cases hkv with
    | inl heq => rw [heq]
    | inr hkv => exact (hright'.1 kv hkv).le
  have hrightIn : ∀ kv ∈ keyvals.drop (keyvals.length / 2),
      ofKey keyvals[keyvals.length / 2].key ≤ ofKey kv.key ∧ ofKey kv.key < hi := fun kv hkv =>
    ⟨ofKey_le_ofKey.mpr (hge kv hkv), (hin kv (List.mem_of_mem_drop hkv)).2⟩
  obtain ⟨hnewR, hrightChild, hrightOk⟩ := newLeaf_child (B := B) hright hrightIn (by rw [List.length_drop]; omega)
    (by rw [List.length_drop]; omega)
  have hfirst : keyvals[0] ∈ keyvals.take (keyvals.length / 2) := by
    rw [List.mem_take_iff_getElem]
    exact ⟨0, by omega, rfl⟩
  refine ⟨(newLeaf B (keyvals.take (keyvals.length / 2)), keyvals[keyvals.length / 2].key,
    newLeaf B (keyvals.drop (keyvals.length / 2))),
    by rw [splitMidLeaf, hnewL, hnewR, List.getElem?_eq_getElem hlt]; rfl,
    ?_, ?_, hleftChild, hrightChild, hleftOk, hrightOk, hparts, fun d => rfl⟩
  · exact (hin _ (List.mem_of_mem_take hfirst)).1.trans_lt (ofKey_lt_ofKey.mpr (hcross _ hfirst _ hmid))
  · exact (hin _ (List.getElem_mem hlt)).2

/-- A full node is split. -/
theorem split_spec (hgood : Good B c h lo hi) (hfull : IsFull B c) :
    ∃ nec, split B c = some nec ∧ Halves B h lo hi c.entries (fun d => c.badBelow d) nec := by
  have hmin := B.min_lt
  have hnode := B.node_ge
  have hleaf := B.leaf_ge
  have hnodeMin : B.nodeMin = B.node / 5 := rfl
  have hleafMin : B.leafMin = B.leaf / 5 := rfl
  cases c with
  | leaf status keyvals =>
      obtain ⟨rfl, hsorted, hin⟩ := hgood
      have hlength : keyvals.length = B.leaf := hfull
      rw [split, if_pos hlength]
      exact splitMidLeaf_spec hsorted hin (by omega) (by omega)
  | node status size keys children =>
      obtain ⟨h', rfl, hc⟩ := good_node.mp hgood
      have hsize : size = B.node := hfull
      rw [split, if_pos hsize, Node.entries_node]
      exact splitMid_spec hc (by omega) (by omega)

/-- Two leaves, one after the other. -/
theorem sorted_append {l r : List (KV K V)} (hl : Sorted l) (hr : Sorted r)
    (hlin : ∀ kv ∈ l, lo ≤ ofKey kv.key ∧ ofKey kv.key < mid) (hrin : ∀ kv ∈ r, mid ≤ ofKey kv.key ∧ ofKey kv.key < hi)
    (hlo : lo < mid) (hhi : mid < hi) :
    Sorted (l ++ r) ∧ ∀ kv ∈ l ++ r, lo ≤ ofKey kv.key ∧ ofKey kv.key < hi := by
  refine ⟨List.pairwise_append.mpr ⟨hl, hr, fun kv hkv kv' hkv' => ?_⟩, fun kv hkv => ?_⟩
  · exact ofKey_lt_ofKey.mp ((hlin kv hkv).2.trans_le (hrin kv' hkv').1)
  · cases List.mem_append.mp hkv with
    | inl hkv => exact ⟨(hlin kv hkv).1, (hlin kv hkv).2.trans hhi⟩
    | inr hkv => exact ⟨hlo.le.trans (hrin kv hkv).1, (hrin kv hkv).2⟩

/-- Two small neighbours are joined. -/
theorem join_spec (h1 : Child B h lo (ofKey k) c1) (h2 : Child B h (ofKey k) hi c2) (hlo : lo < ofKey k)
    (hhi : ofKey k < hi) (hc : c = c1 ∨ c = c2) (hcutoff : c1.size + c2.size < joinCutoff B c) :
    ∃ j, join B c1 k c2 = some j ∧ Child B h lo hi j ∧ j.status = .ok ∧ j.entries = c1.entries ++ c2.entries ∧
      ∀ d, j.badBelow d = c1.badBelow d ++ c2.badBelow d := by
  have hmin := B.min_lt
  have hnode := B.node_ge
  have hleaf := B.leaf_ge
  have hnodeMin : B.nodeMin = B.node / 5 := rfl
  have hleafMin : B.leafMin = B.leaf / 5 := rfl
  obtain ⟨hsize1, hgood1⟩ := h1
  obtain ⟨hsize2, hgood2⟩ := h2
  cases c1 with
  | leaf status1 l =>
      obtain ⟨rfl, hl, hlin⟩ := hgood1
      cases c2 with
      | leaf status2 r =>
          obtain ⟨-, hr, hrin⟩ := hgood2
          obtain ⟨hsorted, hin⟩ := sorted_append hl hr hlin hrin hlo hhi
          have hcut : l.length + r.length < B.leafMin * 4 := by
            cases hc with
            | inl hc => rw [hc] at hcutoff; exact hcutoff
            | inr hc => rw [hc] at hcutoff; exact hcutoff
          have hmin1 := hsize1.2.1
          have hmin2 := hsize2.2.1
          obtain ⟨hnew, hchild, hok⟩ := newLeaf_child (B := B) hsorted hin (by rw [List.length_append]; omega)
            (by rw [List.length_append]; omega)
          exact ⟨_, hnew, hchild, hok, rfl, fun d => rfl⟩
      | node =>
          obtain ⟨_, heq, _⟩ := good_node.mp hgood2
          cases heq
  | node status1 size1 keys1 children1 =>
      obtain ⟨h', rfl, hc1⟩ := good_node.mp hgood1
      cases c2 with
      | leaf => cases hgood2.1
      | node status2 size2 keys2 children2 =>
          obtain ⟨_, heq, hc2⟩ := good_node.mp hgood2
          cases heq
          have hcut : size1 + size2 < B.nodeMin * 4 := by
            cases hc with
            | inl hc => rw [hc] at hcutoff; exact hcutoff
            | inr hc => rw [hc] at hcutoff; exact hcutoff
          have hmin1 := hsize1.2.1
          have hmin2 := hsize2.2.1
          obtain ⟨hnew, hchild, hok⟩ := newNode_child (B := B) (hc1.append hc2) (by omega) (by omega)
          refine ⟨_, hnew, hchild, hok, ?_, fun d => ?_⟩
          · rw [newNode, Node.entries_node, Node.entries_node, Node.entries_node, row_append, List.flatMap_append]
          · rw [newNode, Node.badBelow, Node.badBelow, Node.badBelow, row_append, List.flatMap_append]

/-- A node of the least size and a neighbour are rebalanced. -/
theorem rebalance_spec (h1 : Child B h lo (ofKey k) c1) (h2 : Child B h (ofKey k) hi c2) (hlo : lo < ofKey k)
    (hhi : ofKey k < hi) (hc : c = c1 ∨ c = c2) (hunder : c.status = .isUnder)
    (hcutoff : ¬ c1.size + c2.size < joinCutoff B c) :
    ∃ nec, rebalance B c1 k c2 = some nec ∧
      Halves B h lo hi (c1.entries ++ c2.entries) (fun d => c1.badBelow d ++ c2.badBelow d) nec := by
  have hmin := B.min_lt
  have hnode := B.node_ge
  have hleaf := B.leaf_ge
  have hnodeMin : B.nodeMin = B.node / 5 := rfl
  have hleafMin : B.leafMin = B.leaf / 5 := rfl
  obtain ⟨hsize1, hgood1⟩ := h1
  obtain ⟨hsize2, hgood2⟩ := h2
  cases c1 with
  | leaf status1 l =>
      obtain ⟨rfl, hl, hlin⟩ := hgood1
      cases c2 with
      | leaf status2 r =>
          obtain ⟨-, hr, hrin⟩ := hgood2
          obtain ⟨hsorted, hin⟩ := sorted_append hl hr hlin hrin hlo hhi
          have hcut : ¬ l.length + r.length < B.leafMin * 4 ∧ (l.length = B.leafMin ∨ r.length = B.leafMin) := by
            cases hc with
            | inl hc =>
                rw [hc] at hcutoff hunder
                exact ⟨hcutoff, .inl (statusOf_isUnder.mp (hsize1.1.symm.trans hunder))⟩
            | inr hc =>
                rw [hc] at hcutoff hunder
                exact ⟨hcutoff, .inr (statusOf_isUnder.mp (hsize2.1.symm.trans hunder))⟩
          have hmax1 := hsize1.2.2
          have hmax2 := hsize2.2.2
          exact splitMidLeaf_spec hsorted hin (by rw [List.length_append]; omega) (by rw [List.length_append]; omega)
      | node =>
          obtain ⟨_, heq, _⟩ := good_node.mp hgood2
          cases heq
  | node status1 size1 keys1 children1 =>
      obtain ⟨h', rfl, hc1⟩ := good_node.mp hgood1
      cases c2 with
      | leaf => cases hgood2.1
      | node status2 size2 keys2 children2 =>
          obtain ⟨_, heq, hc2⟩ := good_node.mp hgood2
          cases heq
          have hcut : ¬ size1 + size2 < B.nodeMin * 4 ∧ (size1 = B.nodeMin ∨ size2 = B.nodeMin) := by
            cases hc with
            | inl hc =>
                rw [hc] at hcutoff hunder
                exact ⟨hcutoff, .inl (statusOf_isUnder.mp (hsize1.1.symm.trans hunder))⟩
            | inr hc =>
                rw [hc] at hcutoff hunder
                exact ⟨hcutoff, .inr (statusOf_isUnder.mp (hsize2.1.symm.trans hunder))⟩
          have hmax1 := hsize1.2.2
          have hmax2 := hsize2.2.2
          rw [Node.entries_node, Node.entries_node, ← List.flatMap_append, ← row_append]
          simp only [Node.badBelow, ← List.flatMap_append, ← row_append]
          exact splitMid_spec (hc1.append hc2) (by omega) (by omega)

end

end Verlib.BTree
