import Verlib.BTree.Layout

/-!
# Copies of nodes

`copy`, `split`, `rebalance` and `join` in a memory. They do not fail on nodes of the sizes for which they are called,
and the new nodes have the children and the entries of the old ones.
-/

namespace Verlib.BTree.Concurrent

open Separated

variable {K V : Type}

/-- The children of some nodes. -/
def Memory.kids (m : Memory K V) (as : List Nat) : List Nat := as.flatMap fun a => (m.blocks a).kids

/-- The entries of some nodes. -/
def Memory.entries (m : Memory K V) (as : List Nat) : List (KV K V) := as.flatMap fun a => (m.blocks a).entries

/-- The new nodes `news` have the children and the entries of the nodes `olds`. -/
structure Rebuilt (L : Layout K) (m : Memory K V) (L' : Layout K) (m' : Memory K V) (olds news : List Nat) : Prop where
  ext : Extends L m L' m'
  new : ∀ x ∈ news, m.fresh ≤ x ∧ x < m'.fresh
  only : ∀ x, m.fresh ≤ x → x < m'.fresh → x ∈ news
  kids : m'.kids news = m.kids olds
  entries : m'.entries news = m.entries olds

section

variable {m : Memory K V} {as : List Nat} {x : Nat}

theorem mem_kids : x ∈ m.kids as ↔ ∃ a ∈ as, x ∈ (m.blocks a).kids := List.mem_flatMap

theorem mem_entries {kv : KV K V} : kv ∈ m.entries as ↔ ∃ a ∈ as, kv ∈ (m.blocks a).entries :=
  List.mem_flatMap

theorem kids_one (m : Memory K V) (a : Nat) : m.kids [a] = (m.blocks a).kids := List.flatMap_singleton ..

theorem kids_two (m : Memory K V) (a a' : Nat) : m.kids [a, a'] = (m.blocks a).kids ++ (m.blocks a').kids := by
  rw [Memory.kids, List.flatMap_cons, List.flatMap_singleton]

theorem entries_one (m : Memory K V) (a : Nat) : m.entries [a] = (m.blocks a).entries := List.flatMap_singleton ..

theorem entries_two (m : Memory K V) (a a' : Nat) :
    m.entries [a, a'] = (m.blocks a).entries ++ (m.blocks a').entries := by
  rw [Memory.entries, List.flatMap_cons, List.flatMap_singleton]

end

variable [LinearOrder K]

/-- Two new nodes with a key between them, in the place of the nodes `olds`. -/
structure Parts (B : BlockSizes) (L : Layout K) (m : Memory K V) (L' : Layout K) (m' : Memory K V) (h : Nat)
    (lo hi : Bound K) (olds : List Nat) (nec : Nat × K × Nat) : Prop where
  rebuilt : Rebuilt L m L' m' olds [nec.1, nec.2.2]
  wf : WellFormed B L' m'
  lo_lt : lo < ofKey nec.2.1
  lt_hi : ofKey nec.2.1 < hi
  left : ChildOk B L' m' h lo (ofKey nec.2.1) nec.1
  right : ChildOk B L' m' h (ofKey nec.2.1) hi nec.2.2

section

variable {B : BlockSizes} {L L₁ L' : Layout K} {m m₁ m' : Memory K V} {h : Nat} {lo hi : Bound K} {c c1 c2 l r x : Nat}
  {b bl br : Block K V} {size : Nat} {keys : Nat → K} {children : Nat → Nat} {k : K} {olds : List Nat} {t : Node K V}
  {entries : List (KV K V)} {below : Nat → List Nat} {nec : Node K V × K × Node K V}

/-- A node that has a place is a block with that place. -/
theorem WellFormed.block (hwf : WellFormed B L m) (hx : Placed L m h lo hi x) : BlockOk B L m h lo hi (m.blocks x) := by
  have hb := hwf.blocks x hx.alloc hx.ne_root
  rw [hx.lo_eq, hx.hi_eq, hx.height_eq] at hb
  exact hb

theorem New.childOk (hnew : New B L m L' m' h lo hi x b) (hsize : SizeOk B b.header) : ChildOk B L' m' h lo hi x := by
  refine ⟨hnew.placed, ?_⟩
  rw [hnew.block]
  exact hsize

/-- One new node. -/
theorem New.rebuilt (hnew : New B L m L' m' h lo hi x b) (hkids : b.kids = m.kids olds)
    (hentries : b.entries = m.entries olds) : Rebuilt L m L' m' olds [x] := by
  have hx := hnew.eq_fresh
  have hfresh := hnew.fresh
  refine ⟨hnew.ext, fun y hy => ?_, fun y hle hlt => ?_, ?_, ?_⟩
  · rw [List.mem_singleton.mp hy]
    omega
  · rw [List.mem_singleton]
    omega
  · rw [kids_one, hnew.block, hkids]
  · rw [entries_one, hnew.block, hentries]

/-- Two new nodes. -/
theorem New.parts (hl : New B L m L₁ m₁ h lo (ofKey k) l bl) (hr : New B L₁ m₁ L' m' h (ofKey k) hi r br)
    (hlo : lo < ofKey k) (hhi : ofKey k < hi) (hlsize : SizeOk B bl.header) (hrsize : SizeOk B br.header)
    (hkids : bl.kids ++ br.kids = m.kids olds) (hentries : bl.entries ++ br.entries = m.entries olds) :
    Parts B L m L' m' h lo hi olds (l, k, r) := by
  have hle := hl.eq_fresh
  have hlfresh := hl.fresh
  have hre := hr.eq_fresh
  have hrfresh := hr.fresh
  have hlblock : m'.blocks l = bl := (hr.ext.blocks l (by omega)).trans hl.block
  refine ⟨⟨hl.ext.trans hr.ext, fun y hy => ?_, fun y hle' hlt => ?_, ?_, ?_⟩, hr.wf, hlo, hhi,
    (hl.childOk hlsize).mono hr.ext.toGrows, hr.childOk hrsize⟩
  · have hy : y = l ∨ y = r := List.mem_pair.mp hy
    omega
  · show y ∈ [l, r]
    rw [List.mem_pair]
    omega
  · rw [kids_two, hlblock, hr.block, hkids]
  · rw [entries_two, hlblock, hr.block, hentries]

/-! ## Internal nodes -/

/-- `copy` of children that fit into a node. -/
theorem copy_spec (hwf : WellFormed B L m) (hc : Chain (ChildOk B L m h) lo hi size keys children)
    (hblock : size ≤ B.node) :
    ∃ L' m' x, copy B size keys children m = some (m', x) ∧
      New B L m L' m' (h + 1) lo hi x (.node (statusOf B.nodeMin B.node size) size keys children) := by
  obtain ⟨L', hnew⟩ := hwf.alloc (b := .node (statusOf B.nodeMin B.node size) size keys children)
    ⟨hc.size_pos, hblock, .inl rfl⟩ ⟨h, rfl, hc⟩
  exact ⟨L', _, _, if_pos hblock, hnew⟩

/-- `split_mid` of children that are enough for two nodes. -/
theorem splitMid_spec (hwf : WellFormed B L m) (hc : Chain (ChildOk B L m h) lo hi size keys children)
    (hmin : 2 * (B.nodeMin + 1) ≤ size) (hblock : size + 1 < 2 * B.node) (hkids : row size children = m.kids olds)
    (hentries : m.entries olds = []) :
    ∃ L' m' nec, splitMid B size keys children m = some (m', nec) ∧ Parts B L m L' m' (h + 1) lo hi olds nec := by
  have hmid := hc.key_mem (i := size / 2 - 1) (by omega)
  obtain ⟨L₁, m₁, l, hcopyL, hl⟩ := copy_spec hwf (hc.left (n := size / 2) (by omega) (by omega)) (by omega)
  have hright := (hc.right (n := size / 2) (by omega) (by omega)).imp fun _ _ _ hx => hx.mono hl.ext.toGrows
  obtain ⟨L', m', r, hcopyR, hr⟩ := copy_spec hl.wf hright (by omega)
  refine ⟨L', m', (l, keys (size / 2 - 1), r), by rw [splitMid, hcopyL]; simp only [bind, Option.bind, hcopyR]; rfl,
    hl.parts hr hmid.1 hmid.2 ⟨rfl, by omega, by omega⟩ ⟨rfl, by omega, by omega⟩ ?_ hentries.symm⟩
  rw [← hkids]
  show row _ _ ++ row _ _ = _
  rw [← row_add, Nat.add_sub_cancel' (Nat.div_le_self _ _)]

/-! ## Leaves -/

/-- A new leaf gets its place. -/
theorem placeLeaf_spec (hwf : WellFormed B L m) (hgood : Good B t 0 lo hi) (hroot : RootOk B t) :
    ∃ L' m' x status, placeLeaf t m = some (m', x) ∧ t = .leaf status t.entries ∧
      New B L m L' m' 0 lo hi x (.leaf status t.entries) := by
  cases t with
  | leaf status keyvals =>
      obtain ⟨L', hnew⟩ := hwf.alloc (b := .leaf status keyvals) hroot hgood
      exact ⟨L', _, _, status, rfl, rfl, hnew⟩
  | node status size keys children =>
      obtain ⟨_, heq, _⟩ := good_node.mp hgood
      cases heq

/-- Two new leaves get their places. -/
theorem placeLeaves_spec (hwf : WellFormed B L m) (hhalves : Halves B 0 lo hi entries below nec)
    (hkids : m.kids olds = []) (hentries : m.entries olds = entries) :
    ∃ L' m' nec', placeLeaves nec m = some (m', nec') ∧ Parts B L m L' m' 0 lo hi olds nec' := by
  obtain ⟨hlsize, hlgood⟩ := hhalves.left
  obtain ⟨hrsize, hrgood⟩ := hhalves.right
  obtain ⟨L₁, m₁, l, lstatus, hplaceL, hleq, hl⟩ := placeLeaf_spec hwf hlgood hlsize.rootOk
  obtain ⟨L', m', r, rstatus, hplaceR, hreq, hr⟩ := placeLeaf_spec hl.wf hrgood hrsize.rootOk
  refine ⟨L', m', (l, nec.2.1, r), by rw [placeLeaves, hplaceL]; simp only [bind, Option.bind, hplaceR]; rfl,
    hl.parts hr hhalves.lo_lt hhalves.lt_hi ?_ ?_ hkids.symm (hhalves.entries.trans hentries.symm)⟩
  · rw [hleq] at hlsize
    exact hlsize
  · rw [hreq] at hrsize
    exact hrsize

/-! ## Splitting, joining and rebalancing -/

/-- A full node is split. -/
theorem split_spec (hwf : WellFormed B L m) (hc : Placed L m h lo hi c) (hfull : IsFull B (m.blocks c).header) :
    ∃ L' m' nec, split B c m = some (m', nec) ∧ Parts B L m L' m' h lo hi [c] nec := by
  have hmin := B.min_lt
  have hnode := B.node_ge
  have hnodeMin : B.nodeMin = B.node / 5 := rfl
  have hblock := hwf.block hc
  have hkids := kids_one m c
  have hentries := entries_one m c
  rw [split]
  cases hb : m.blocks c with
  | leaf status keyvals =>
      rw [hb] at hblock hfull hkids hentries
      obtain ⟨rfl, hsorted, hin⟩ := hblock
      have hgood : Good B (.leaf status keyvals) 0 lo hi := ⟨rfl, hsorted, hin⟩
      obtain ⟨nec, hsplit, hhalves⟩ := BTree.split_spec hgood hfull
      simp only [hsplit]
      exact placeLeaves_spec hwf hhalves hkids hentries
  | node status size keys children =>
      rw [hb] at hblock hfull hkids hentries
      obtain ⟨h', rfl, hchain⟩ := hblock
      have hsize : size = B.node := hfull
      simp only [if_pos hsize]
      exact splitMid_spec hwf hchain (by omega) (by omega) hkids.symm hentries

/-- A node of the least size and a neighbour are rebalanced. -/
theorem rebalance_spec (hwf : WellFormed B L m) (h1 : ChildOk B L m h lo (ofKey k) c1)
    (h2 : ChildOk B L m h (ofKey k) hi c2) (hlo : lo < ofKey k) (hhi : ofKey k < hi) (hc : c = c1 ∨ c = c2)
    (hunder : (m.blocks c).header.status = .isUnder)
    (hcutoff : ¬ (m.blocks c1).header.size + (m.blocks c2).header.size < joinCutoff B (m.blocks c).header) :
    ∃ L' m' nec, rebalance B c1 k c2 m = some (m', nec) ∧ Parts B L m L' m' h lo hi [c1, c2] nec := by
  have hmin := B.min_lt
  have hnodeMin : B.nodeMin = B.node / 5 := rfl
  obtain ⟨hplaced1, hsize1⟩ := h1
  obtain ⟨hplaced2, hsize2⟩ := h2
  have hblock1 := hwf.block hplaced1
  have hblock2 := hwf.block hplaced2
  have hkids := kids_two m c1 c2
  have hentries := entries_two m c1 c2
  have hside : (m.blocks c).header = (m.blocks c1).header ∨ (m.blocks c).header = (m.blocks c2).header :=
    hc.imp (congrArg fun a => (m.blocks a).header) (congrArg fun a => (m.blocks a).header)
  rw [rebalance]
  cases hb1 : m.blocks c1 with
  | leaf status1 l =>
      rw [hb1] at hblock1 hsize1 hcutoff hside hkids hentries
      obtain ⟨rfl, hl, hlin⟩ := hblock1
      cases hb2 : m.blocks c2 with
      | leaf status2 r =>
          rw [hb2] at hblock2 hsize2 hcutoff hside hkids hentries
          obtain ⟨-, hr, hrin⟩ := hblock2
          have hchild1 : Child B 0 lo (ofKey k) (.leaf status1 l) := ⟨hsize1, rfl, hl, hlin⟩
          have hchild2 : Child B 0 (ofKey k) hi (.leaf status2 r) := ⟨hsize2, rfl, hr, hrin⟩
          obtain ⟨nec, hrebalance, hhalves⟩ := BTree.rebalance_spec hchild1 hchild2 hlo hhi hside hunder hcutoff
          simp only [hrebalance]
          exact placeLeaves_spec hwf hhalves hkids hentries
      | node status2 size2 keys2 children2 =>
          rw [hb2] at hblock2
          obtain ⟨_, heq, _⟩ := hblock2
          cases heq
  | node status1 size1 keys1 children1 =>
      rw [hb1] at hblock1 hsize1 hcutoff hside hkids hentries
      obtain ⟨h', rfl, hchain1⟩ := hblock1
      cases hb2 : m.blocks c2 with
      | leaf status2 r =>
          rw [hb2] at hblock2
          cases hblock2.1
      | node status2 size2 keys2 children2 =>
          rw [hb2] at hblock2 hsize2 hcutoff hside hkids hentries
          obtain ⟨_, heq, hchain2⟩ := hblock2
          cases heq
          have hcut : ¬ size1 + size2 < B.nodeMin * 4 ∧ (size1 = B.nodeMin ∨ size2 = B.nodeMin) := by
            cases hside with
            | inl hside =>
                rw [hside] at hcutoff hunder
                exact ⟨hcutoff, .inl (statusOf_isUnder.mp (hsize1.1.symm.trans hunder))⟩
            | inr hside =>
                rw [hside] at hcutoff hunder
                exact ⟨hcutoff, .inr (statusOf_isUnder.mp (hsize2.1.symm.trans hunder))⟩
          have hmax1 := hsize1.2.2
          have hmax2 := hsize2.2.2
          exact splitMid_spec hwf (hchain1.append hchain2) (by omega) (by omega) (row_append.trans hkids.symm) hentries

/-- Two small neighbours are joined. -/
theorem join_spec (hwf : WellFormed B L m) (h1 : ChildOk B L m h lo (ofKey k) c1)
    (h2 : ChildOk B L m h (ofKey k) hi c2) (hlo : lo < ofKey k) (hhi : ofKey k < hi) (hc : c = c1 ∨ c = c2)
    (hcutoff : (m.blocks c1).header.size + (m.blocks c2).header.size < joinCutoff B (m.blocks c).header) :
    ∃ L' m' j, join B c1 k c2 m = some (m', j) ∧ WellFormed B L' m' ∧ ChildOk B L' m' h lo hi j ∧
      Rebuilt L m L' m' [c1, c2] [j] := by
  have hmin := B.min_lt
  have hnodeMin : B.nodeMin = B.node / 5 := rfl
  obtain ⟨hplaced1, hsize1⟩ := h1
  obtain ⟨hplaced2, hsize2⟩ := h2
  have hblock1 := hwf.block hplaced1
  have hblock2 := hwf.block hplaced2
  have hkids := kids_two m c1 c2
  have hentries := entries_two m c1 c2
  have hside : (m.blocks c).header = (m.blocks c1).header ∨ (m.blocks c).header = (m.blocks c2).header :=
    hc.imp (congrArg fun a => (m.blocks a).header) (congrArg fun a => (m.blocks a).header)
  rw [join]
  cases hb1 : m.blocks c1 with
  | leaf status1 l =>
      rw [hb1] at hblock1 hsize1 hcutoff hside hkids hentries
      obtain ⟨rfl, hl, hlin⟩ := hblock1
      cases hb2 : m.blocks c2 with
      | leaf status2 r =>
          rw [hb2] at hblock2 hsize2 hcutoff hside hkids hentries
          obtain ⟨-, hr, hrin⟩ := hblock2
          have hchild1 : Child B 0 lo (ofKey k) (.leaf status1 l) := ⟨hsize1, rfl, hl, hlin⟩
          have hchild2 : Child B 0 (ofKey k) hi (.leaf status2 r) := ⟨hsize2, rfl, hr, hrin⟩
          obtain ⟨t, hjoin, hchild, -, hte, -⟩ := BTree.join_spec hchild1 hchild2 hlo hhi hside hcutoff
          obtain ⟨L', m', j, status, hplace, hteq, hnew⟩ := placeLeaf_spec hwf hchild.2 hchild.1.rootOk
          have hsize := hchild.1
          rw [hteq] at hsize
          simp only [hjoin]
          exact ⟨L', m', j, hplace, hnew.wf, hnew.childOk hsize, hnew.rebuilt hkids.symm (hte.trans hentries.symm)⟩
      | node status2 size2 keys2 children2 =>
          rw [hb2] at hblock2
          obtain ⟨_, heq, _⟩ := hblock2
          cases heq
  | node status1 size1 keys1 children1 =>
      rw [hb1] at hblock1 hsize1 hcutoff hside hkids hentries
      obtain ⟨h', rfl, hchain1⟩ := hblock1
      cases hb2 : m.blocks c2 with
      | leaf status2 r =>
          rw [hb2] at hblock2
          cases hblock2.1
      | node status2 size2 keys2 children2 =>
          rw [hb2] at hblock2 hsize2 hcutoff hside hkids hentries
          obtain ⟨_, heq, hchain2⟩ := hblock2
          cases heq
          have hcut : size1 + size2 < B.nodeMin * 4 := by
            cases hside with
            | inl hside => rw [hside] at hcutoff; exact hcutoff
            | inr hside => rw [hside] at hcutoff; exact hcutoff
          have hmin1 := hsize1.2.1
          have hmin2 := hsize2.2.1
          obtain ⟨L', m', j, hcopy, hnew⟩ := copy_spec hwf (hchain1.append hchain2) (by omega)
          exact ⟨L', m', j, hcopy, hnew.wf, hnew.childOk ⟨rfl, by omega, by omega⟩,
            hnew.rebuilt (row_append.trans hkids.symm) hentries.symm⟩

end

end Verlib.BTree.Concurrent
