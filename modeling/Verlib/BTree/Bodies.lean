import Verlib.BTree.Replace

/-!
# The repairs in the memory

`overfull_node`, `underfull_node` and `fix_root`. They do not fail where `find_and_fix` calls them, whatever other
threads have done since, and the contents of the tree stay as they are.
-/

namespace Verlib.BTree.Concurrent

open Separated

variable {K V : Type} [LinearOrder K]

/-! ## Copies of a parent -/

/-- A copy `x` of `p` with new nodes in the place of the children `olds`. -/
structure Copied (B : BlockSizes) (L : Layout K) (m : Memory K V) (L' : Layout K) (m' : Memory K V) (olds : List Nat)
    (p x : Nat) : Prop where
  wf : WellFormed B L' m'
  placed : Placed L' m' (L.height p) (L.lo p) (L.hi p) x
  replaces : Replaces L m L' m' (p :: olds) p x
  entries : SameEntries m m' (p :: olds)
  size : SizeOk B (m.blocks p).header → (m.blocks p).header.status = .ok → SizeOk B (m'.blocks x).header

section

variable {B : BlockSizes} {L L₁ L' : Layout K} {m m₁ m' : Memory K V} {h c cidx li p x : Nat} {lo hi : Bound K}
  {b : Block K V} {status : Status} {size size' : Nat} {keys keys' : Nat → K} {children children' : Nat → Nat}
  {left right olds news : List Nat}

/-- A new node `x` above the new nodes `news`. The nodes `tops` are internal nodes, and the nodes `olds` have been
rebuilt as `news`. -/
theorem replaces_of_new (tops : List Nat) (hrebuilt : Rebuilt L m L₁ m₁ olds news)
    (hnew : New B L₁ m₁ L' m' h lo hi x b) (hentries : b.entries = []) (htops : m.entries tops = [])
    (hkids : ∀ y ∈ m.kids tops, y ∈ olds ∨ y ∈ b.kids) (hkids' : ∀ y ∈ b.kids, y ∈ news ∨ y ∈ m.kids tops)
    (hnews : ∀ y ∈ news, y ∈ b.kids) (hp : p ∈ tops ++ olds)
    (hbelow : ∀ d ∈ tops ++ olds, d ≠ root ∧ d < m.fresh ∧ L.height d ≤ L.height p)
    (hlinked : ∀ d ∈ tops ++ olds, Reach m.blocks p → Reach m.blocks d) :
    Replaces L m L' m' (tops ++ olds) p x ∧ SameEntries m m' (tops ++ olds) := by
  have hle := hrebuilt.ext.fresh
  have hx := hnew.eq_fresh
  have hfresh := hnew.fresh
  have hblocks : ∀ y ∈ news, m'.blocks y = m₁.blocks y := fun y hy => hnew.ext.blocks y (hrebuilt.new y hy).2
  have hgone : ∀ {y}, y ∈ m.kids (tops ++ olds) ↔ y ∈ m.kids tops ∨ y ∈ m₁.kids news := by
    intro y
    rw [hrebuilt.kids, Memory.kids, List.flatMap_append, List.mem_append]
    rfl
  have hent : ∀ {kv}, kv ∈ m.entries (tops ++ olds) ↔ kv ∈ m₁.entries news := by
    intro kv
    have happ : m.entries (tops ++ olds) = m.entries tops ++ m.entries olds := List.flatMap_append ..
    rw [hrebuilt.entries, happ, htops, List.nil_append]
  have hcases : ∀ a, m.fresh ≤ a → a < m'.fresh → a = x ∨ a ∈ news := by
    intro a hle' hlt
    by_cases hax : a = x
    · exact .inl hax
    · exact .inr (hrebuilt.only a hle' (by omega))
  have hlead : ∀ y ∈ b.kids, Leads m.fresh m' x y := by
    intro y hy blocks hblocks hreach
    refine .kid hreach ?_
    rw [hblocks x (by omega) (by omega), hnew.block]
    exact hy
  refine ⟨⟨hrebuilt.ext.trans hnew.ext, hp, hbelow, hlinked, fun y hy => ?_, fun a hle' hlt => ?_, .inl (by omega),
    fun a hle' hlt y hy => ?_⟩, fun kv hkv => ?_, fun a hle' hlt kv hkv => ?_⟩
  · cases hgone.mp hy with
    | inl hy => exact (hkids y hy).imp (List.mem_append_right _) (hlead y)
    | inr hy =>
        obtain ⟨z, hz, hy⟩ := mem_kids.mp hy
        have hz' := hrebuilt.new z hz
        refine .inr fun blocks hblocks' hreach => .kid (hlead z (hnews z hz) blocks hblocks' hreach) ?_
        rw [hblocks' z hz'.1 (by omega), hblocks z hz]
        exact hy
  · cases hcases a hle' hlt with
    | inl hax =>
        rw [hax]
        exact fun _ _ hreach => hreach
    | inr ha => exact hlead a (hnews a ha)
  · cases hcases a hle' hlt with
    | inl hax =>
        rw [hax, hnew.block] at hy
        exact (hkids' y hy).imp (fun hy => (hrebuilt.new y hy).1) fun hy => hgone.mpr (.inl hy)
    | inr ha =>
        rw [hblocks a ha] at hy
        exact .inr (hgone.mpr (.inr (mem_kids.mpr ⟨a, ha, hy⟩)))
  · obtain ⟨z, hz, hkv⟩ := mem_entries.mp (hent.mp hkv)
    have hz' := hrebuilt.new z hz
    refine ⟨z, hz'.1, by omega, ?_⟩
    rw [hblocks z hz]
    exact hkv
  · cases hcases a hle' hlt with
    | inl hax =>
        rw [hax, hnew.block, hentries] at hkv
        cases hkv
    | inr ha =>
        rw [hblocks a ha] at hkv
        exact hent.mpr (mem_entries.mpr ⟨a, ha, hkv⟩)

/-- New nodes and the other children of `p` get a new parent. -/
theorem copied_of_rows (hwf : WellFormed B L m) (hp : p < m.fresh) (hroot : p ≠ root)
    (hblock : m.blocks p = .node status size keys children) (hheight : L.height p = h + 1)
    (hrebuilt : Rebuilt L m L₁ m₁ olds news) (hwf₁ : WellFormed B L₁ m₁)
    (hc : Chain (ChildOk B L₁ m₁ h) (L.lo p) (L.hi p) size' keys' children')
    (hsize : size' ≤ size + 1 ∧ size ≤ size' + 1) (hfit : size' ≤ B.node)
    (hrow : row size children = left ++ olds ++ right) (hrow' : row size' children' = left ++ news ++ right) :
    ∃ L' m' x, copy B size' keys' children' m₁ = some (m', x) ∧ Copied B L m L' m' olds p x := by
  obtain ⟨L', m', x, hcopy, hnew⟩ := copy_spec hwf₁ hc hfit
  have hkids : m.kids [p] = left ++ olds ++ right := by
    rw [kids_one, hblock]
    exact hrow
  have hold : ∀ d ∈ olds, d ∈ (m.blocks p).kids := fun d hd => by
    rw [← kids_one, hkids]
    exact List.mem_append_left _ (List.mem_append_right _ hd)
  have hentries : m.entries [p] = [] := by
    rw [entries_one, hblock]
    rfl
  have hboth : Replaces L m L' m' (p :: olds) p x ∧ SameEntries m m' (p :: olds) := by
    refine replaces_of_new [p] hrebuilt hnew rfl hentries (fun y hy => ?_) (fun y hy => ?_) (fun y hy => ?_)
      List.mem_cons_self (fun d hd => ?_) fun d hd hreach => ?_
    · show y ∈ olds ∨ y ∈ row size' children'
      simp only [hkids, hrow', List.mem_append] at hy ⊢
      tauto
    · replace hy : y ∈ row size' children' := hy
      simp only [hkids, hrow', List.mem_append] at hy ⊢
      tauto
    · show y ∈ row size' children'
      rw [hrow']
      exact List.mem_append_left _ (List.mem_append_right _ hy)
    · cases List.mem_cons.mp hd with
      | inl hd =>
          rw [hd]
          exact ⟨hroot, hp, le_rfl⟩
      | inr hd =>
          obtain ⟨hne, hlt, hup⟩ := hwf.kid hp (hold d hd)
          have hheight := hup hroot
          exact ⟨hne, hlt, by omega⟩
    · cases List.mem_cons.mp hd with
      | inl hd =>
          rw [hd]
          exact hreach
      | inr hd => exact .kid hreach (hold d hd)
  refine ⟨L', m', x, hcopy, hnew.wf, by rw [hheight]; exact hnew.placed, hboth.1, hboth.2, fun hpsize hok => ?_⟩
  rw [hblock] at hpsize hok
  obtain ⟨hstatus, hmin, hmax⟩ := hpsize
  obtain ⟨hne, hne'⟩ := ne_of_statusOf_ok (hstatus.symm.trans hok)
  rw [hnew.block]
  exact ⟨rfl, by omega, hfit⟩

/-- `overfull_node` splits a full child. -/
theorem overfullCopy_spec (hwf : WellFormed B L m) (hp : p < m.fresh) (hroot : p ≠ root)
    (hblock : m.blocks p = .node status size keys children) (hcidx : cidx < size) (hsize : size < B.node)
    (hover : (m.blocks (children cidx)).header.status = .isOver) :
    ∃ L' m' x, overfullCopy B p cidx (children cidx) m = some (m', x) ∧
      Copied B L m L' m' [children cidx] p x := by
  have hplace := hwf.blocks p hp hroot
  rw [hblock] at hplace
  obtain ⟨h, hheight, -, b, hb⟩ := hplace
  obtain ⟨hplaced, hchild⟩ := hb.child cidx hcidx
  obtain ⟨L₁, m₁, nec, hsplit, hparts⟩ := split_spec hwf hplaced (hchild.full hover)
  have hb₁ := hb.imp fun _ _ _ hx => hx.mono hparts.rebuilt.ext.toGrows
  have hrow : row size children = row cidx children ++ [children cidx] ++
      row (size - (cidx + 1)) fun i => children (i + (cidx + 1)) := by
    rw [row_at hcidx, List.append_assoc]
    rfl
  have hrow' : row (size + 1) (replaceByTwo cidx nec.1 nec.2.2 children) = row cidx children ++ [nec.1, nec.2.2] ++
      row (size - (cidx + 1)) fun i => children (i + (cidx + 1)) := by
    rw [row_replaceByTwo hcidx, List.append_assoc]
    rfl
  obtain ⟨L', m', x, hcopy, hcopied⟩ := copied_of_rows hwf hp hroot hblock hheight hparts.rebuilt hparts.wf
    (hb₁.replaceByTwo hcidx hparts.lo_lt hparts.lt_hi hparts.left hparts.right) ⟨le_rfl, by omega⟩ hsize hrow hrow'
  refine ⟨L', m', x, ?_, hcopied⟩
  rw [overfullCopy, hblock]
  simp only [hsplit, bind, Option.bind, addChild, if_pos hsize]
  exact hcopy

/-- `underfull_node` joins a child of the least size with a neighbour, or rebalances the two. -/
theorem underfullCopy_spec (hwf : WellFormed B L m) (hp : p < m.fresh) (hroot : p ≠ root)
    (hblock : m.blocks p = .node status size keys children) (hli : li + 1 < size) (hsize : size < B.node)
    (hc : c = children li ∨ c = children (li + 1)) (hunder : (m.blocks c).header.status = .isUnder) :
    ∃ L' m' x, underfullCopy B p li (children li) (children (li + 1)) c m = some (m', x) ∧
      Copied B L m L' m' [children li, children (li + 1)] p x := by
  have hplace := hwf.blocks p hp hroot
  rw [hblock] at hplace
  obtain ⟨h, hheight, -, b, hb⟩ := hplace
  have hlo := hb.lt li (by omega)
  have hhi := hb.lt (li + 1) hli
  have hleft := hb.child li (by omega)
  have hright := hb.child (li + 1) hli
  rw [hb.key li hli] at hlo hhi hleft hright
  have hrow : row size children = row li children ++ [children li, children (li + 1)] ++
      row (size - (li + 2)) fun i => children (i + (li + 2)) := by
    rw [row_at_two hli, List.append_assoc]
    rfl
  rw [underfullCopy, hblock]
  by_cases hcutoff : (m.blocks (children li)).header.size + (m.blocks (children (li + 1))).header.size <
      joinCutoff B (m.blocks c).header
  · obtain ⟨L₁, m₁, j, hjoin, hwf₁, hj, hrebuilt⟩ := join_spec hwf hleft hright hlo hhi hc hcutoff
    have hb₁ := hb.imp fun _ _ _ hx => hx.mono hrebuilt.ext.toGrows
    have hrow' : row (size - 1) (replaceTwo li j children) = row li children ++ [j] ++
        row (size - (li + 2)) fun i => children (i + (li + 2)) := by
      rw [row_replaceTwo hli, List.append_assoc]
      rfl
    simp only [if_pos hcutoff, hjoin, bind, Option.bind, joinChildren]
    exact copied_of_rows hwf hp hroot hblock hheight hrebuilt hwf₁ (hb₁.replaceTwo hli hj) ⟨by omega, by omega⟩
      (by omega) hrow hrow'
  · obtain ⟨L₁, m₁, nec, hrebalance, hparts⟩ := rebalance_spec hwf hleft hright hlo hhi hc hunder hcutoff
    have hb₁ := hb.imp fun _ _ _ hx => hx.mono hparts.rebuilt.ext.toGrows
    have hrow' : row size (setTwo li nec.1 nec.2.2 children) = row li children ++ [nec.1, nec.2.2] ++
        row (size - (li + 2)) fun i => children (i + (li + 2)) := by
      rw [row_setTwo hli, List.append_assoc]
      rfl
    simp only [if_neg hcutoff, hrebalance, bind, Option.bind, rebalanceChildren]
    exact copied_of_rows hwf hp hroot hblock hheight hparts.rebuilt hparts.wf
      (hb₁.setTwo hli hparts.lo_lt hparts.lt_hi hparts.left hparts.right) ⟨by omega, by omega⟩ hsize.le hrow hrow'

end

/-! ## Nodes that a search has entered -/

/-- The key lies in the interval of the node. -/
def Covers (L : Layout K) (k : K) (a : Nat) : Prop := a = root ∨ L.lo a ≤ ofKey k ∧ ofKey k < L.hi a

/-- A search for `k` has entered the node `p`, and has found the slot `i`. -/
structure Entered (L : Layout K) (m : Memory K V) (k : K) (p i : Nat) : Prop where
  alloc : p < m.fresh
  index : ∃ status size keys children, m.blocks p = .node status size keys children ∧ Position size keys k i
  covers : Covers L k p
  noFix : p ≠ root → ¬ NeedsFix (m.blocks p).header

/-- A step that keeps the invariant and the contents. -/
def Repairs (B : BlockSizes) (L : Layout K) (m m' : Memory K V) : Prop :=
  ∃ L', Inv B L' m' ∧ Ext L m L' m' ∧ ∀ k v, Contains m' k v ↔ Contains m k v

section

variable {B : BlockSizes} {L L' : Layout K} {m m' : Memory K V} {k : K} {c cidx gp pidx p x g i : Nat}
  {olds : List Nat}

theorem Entered.slot (he : Entered L m k p i) : Slot m p i (m.child p i) := by
  obtain ⟨status, size, keys, children, hb, hpos⟩ := he.index
  refine ⟨status, size, keys, children, hb, hpos.lt_size, ?_⟩
  rw [Memory.child, hb]

/-- A node that has been entered and is not marked is reachable. -/
theorem Entered.reach (he : Entered L m k p i) (hinv : Inv B L m) (hlive : m.removed p = false) :
    Reach m.blocks p := by
  by_cases hroot : p = root
  · rw [hroot]
    exact .root
  · obtain ⟨status, size, keys, children, hb, -⟩ := he.index
    refine hinv.live p he.alloc ?_ (he.noFix hroot) hlive
    rw [hb]
    rfl

/-- What a slot holds. -/
theorem WellFormed.slot (hwf : WellFormed B L m) (hg : g < m.fresh) (hs : Slot m g i p) :
    (g = root → ∃ h, Placed L m h ⊥ ⊤ p) ∧
      (g ≠ root → ∃ h lo hi, L.height g = h + 1 ∧ ChildOk B L m h lo hi p) := by
  obtain ⟨status, size, keys, children, hb, hi, rfl⟩ := hs
  constructor
  · intro hroot
    obtain ⟨keys', children', htop, h, hplaced⟩ := hwf.top
    rw [hroot, htop] at hb
    cases hb
    obtain rfl : i = 0 := by omega
    exact ⟨h, hplaced⟩
  · intro hroot
    have hblock := hwf.blocks g hg hroot
    rw [hb] at hblock
    obtain ⟨h, hheight, -, b, hcuts⟩ := hblock
    exact ⟨h, _, _, hheight, hcuts.child i hi⟩

/-- A step that does nothing. -/
theorem Repairs.refl (hinv : Inv B L m) : Repairs B L m m :=
  ⟨L, hinv, ⟨Grows.refl L m, fun _ _ _ _ => .inl rfl⟩, fun _ _ => Iff.rfl⟩

/-- The copy of a parent takes its place. -/
theorem Copied.repairs (marked : List Nat) (hc : Copied B L m L' m' olds p x) (hinv : Inv B L m)
    (hgp : Entered L m k gp pidx) (hlive : m.removed gp = false) (hp : m.child gp pidx = p) (hok : gp ≠ root → (m.blocks p).header.status = .ok)
    (hmarked : ∀ d ∈ marked, d = p ∨ d ∈ olds) (hpmarked : p ∈ marked)
    (holds : ∀ d ∈ olds, d ∈ marked ∨ (m.blocks d).header.isLeaf = true) :
    Repairs B L m ((m'.setChild gp pidx x).mark marked) := by
  have hreach := hgp.reach hinv hlive
  have hslot := hgp.slot
  rw [hp] at hslot
  obtain ⟨htop, hchild⟩ := hinv.wf.slot hgp.alloc hslot
  obtain ⟨hinv', hext⟩ : Inv B L' ((m'.setChild gp pidx x).mark marked) ∧
      Ext L m L' ((m'.setChild gp pidx x).mark marked) := by
    refine hc.replaces.inv marked hinv hc.wf hreach hslot (fun hroot => ?_) (fun hroot => ?_) hok
      (fun d hd => List.mem_cons.mpr (hmarked d hd)) fun d hd => ?_
    · obtain ⟨h, hplaced⟩ := htop hroot
      have hx := hc.placed
      rw [hplaced.lo_eq, hplaced.hi_eq] at hx
      exact ⟨_, hx⟩
    · obtain ⟨h, lo, hi, -, -, hsize⟩ := hchild hroot
      exact ⟨hc.placed, hc.size hsize (hok hroot)⟩
    · cases List.mem_cons.mp hd with
      | inl hd =>
          rw [hd]
          exact .inl hpmarked
      | inr hd => exact (holds d hd).imp_right .inl
  exact ⟨L', hinv', hext, hc.replaces.contains hc.entries hinv.wf hinv'.wf hreach hslot⟩

/-- A parent that has been entered has room, and its children have their places. -/
theorem Entered.room (he : Entered L m k p i) (hwf : WellFormed B L m) (hroot : p ≠ root) :
    ∃ status size keys children, m.blocks p = .node status size keys children ∧ i < size ∧ 1 < size ∧
      size < B.node := by
  obtain ⟨status, size, keys, children, hb, hpos⟩ := he.index
  have hsize := hwf.size p he.alloc hroot
  have hno := he.noFix hroot
  rw [hb] at hsize hno
  obtain ⟨hlt, hroom⟩ := hsize.room hno
  exact ⟨status, size, keys, children, hb, hpos.lt_size, hlt, hroom⟩

/-- `overfull_node`. -/
theorem overfullNode_spec (locks : Nat → Bool) (hinv : Inv B L m) (hgp : Entered L m k gp pidx)
    (hp : Entered L m k p cidx) (hroot : p ≠ root) (hok : gp ≠ root → (m.blocks p).header.status = .ok)
    (hover : (m.blocks c).header.status = .isOver) :
    ∃ m', overfullNode B locks gp pidx p cidx c m = some m' ∧ Repairs B L m m' := by
  rw [overfullNode]
  by_cases htest : locks 0 ∧ m.removed gp = false ∧ m.child gp pidx = p ∧ locks 1 ∧ m.child p cidx = c
  · obtain ⟨-, hlive, hgpp, -, hpc⟩ := id htest
    obtain ⟨status, size, keys, children, hb, hcidx, -, hsize⟩ := hp.room hinv.wf hroot
    have hc : children cidx = c := by
      rw [← hpc, Memory.child, hb]
    rw [← hc] at hover
    obtain ⟨L', m', x, hcopy, hcopied⟩ := overfullCopy_spec hinv.wf hp.alloc hroot hb hcidx hsize hover
    rw [hc] at hcopy hcopied
    rw [if_pos htest]
    by_cases hleaf : (m.blocks c).header.isLeaf = true
    · rw [if_pos hleaf, hcopy]
      refine ⟨_, rfl, hcopied.repairs [p] hinv hgp hlive hgpp hok (fun d hd => ?_) (List.mem_singleton_self p)
        fun d hd => ?_⟩
      · exact .inl (List.mem_singleton.mp hd)
      · rw [List.mem_singleton.mp hd]
        exact .inr hleaf
    · rw [if_neg hleaf]
      by_cases hlock : locks 2
      · rw [if_pos hlock, hcopy]
        refine ⟨_, rfl, hcopied.repairs [p, c] hinv hgp hlive hgpp hok (fun d hd => ?_) List.mem_cons_self
          fun d hd => ?_⟩
        · exact List.mem_cons.mp hd
        · exact .inl (List.mem_cons_of_mem _ hd)
      · rw [if_neg hlock]
        exact ⟨m, rfl, Repairs.refl hinv⟩
  · rw [if_neg htest]
    exact ⟨m, rfl, Repairs.refl hinv⟩

/-- The leaves are the nodes of height 0. -/
theorem WellFormed.isLeaf (hwf : WellFormed B L m) (hx : x < m.fresh) (hroot : x ≠ root) :
    (m.blocks x).header.isLeaf = true ↔ L.height x = 0 := by
  have hblock := hwf.blocks x hx hroot
  cases hb : m.blocks x with
  | leaf status keyvals =>
      rw [hb] at hblock
      exact iff_of_true rfl hblock.1
  | node status size keys children =>
      rw [hb] at hblock
      obtain ⟨h', hh, -⟩ := hblock
      exact iff_of_false Bool.false_ne_true (by omega)

/-- `underfull_node`. -/
theorem underfullNode_spec (locks : Nat → Bool) (hinv : Inv B L m) (hgp : Entered L m k gp pidx)
    (hp : Entered L m k p cidx) (hroot : p ≠ root) (hok : gp ≠ root → (m.blocks p).header.status = .ok) (hpc : m.child p cidx = c)
    (hunder : (m.blocks c).header.status = .isUnder) :
    ∃ m', underfullNode B locks gp pidx p cidx c m = some m' ∧ Repairs B L m m' := by
  rw [underfullNode]
  by_cases htest : locks 0 ∧ m.removed gp = false ∧ m.child gp pidx = p ∧ locks 1
  · obtain ⟨-, hlive, hgpp, -⟩ := id htest
    obtain ⟨status, size, keys, children, hb, hcidx, hone, hsize⟩ := hp.room hinv.wf hroot
    have hchild : ∀ i, m.child p i = children i := fun i => by rw [Memory.child, hb]
    have hc : c = children cidx := by rw [← hpc, hchild]
    have hpsize : (m.blocks p).header.size = size := by rw [hb]; rfl
    obtain ⟨li, hli⟩ : ∃ li, li = if cidx = 0 then 0 else cidx - 1 := ⟨_, rfl⟩
    have hlt : li + 1 < size := by
      rw [hli]
      split
      · omega
      · omega
    have hlc : (if cidx = 0 then c else m.child p (if cidx = 0 then cidx + 1 else cidx - 1)) = children li := by
      rw [hli, hc, hchild]
      split
      next hzero => rw [hzero]
      · rfl
    have hrc : (if cidx = 0 then m.child p (if cidx = 0 then cidx + 1 else cidx - 1) else c) =
        children (li + 1) := by
      rw [hli, hc, hchild]
      split
      next hzero => rw [hzero]
      next hzero => rw [Nat.sub_add_cancel (by omega)]
    have hside : c = children li ∨ c = children (li + 1) := by
      rw [hc, hli]
      split
      next hzero => exact .inl (by rw [hzero])
      next hzero => exact .inr (by rw [Nat.sub_add_cancel (by omega)])
    obtain ⟨L', m', x, hcopy, hcopied⟩ := underfullCopy_spec hinv.wf hp.alloc hroot hb hlt hsize hside hunder
    rw [if_pos htest]
    simp only [← hli, hlc, hrc, hpsize, if_neg (Nat.not_le.mpr hlt)]
    by_cases hleaf : (m.blocks c).header.isLeaf = true
    · -- the neighbour of a leaf is a leaf
      have hleaves : ∀ j < size, (m.blocks (children j)).header.isLeaf = true := by
        intro j hj
        have hkid : ∀ {j}, j < size → children j ∈ (m.blocks p).kids := fun hj => by
          rw [hb]
          exact mem_row.mpr ⟨_, hj, rfl⟩
        obtain ⟨hcroot, hclt, hcheight⟩ := hinv.wf.kid hp.alloc (hkid hcidx)
        obtain ⟨hdroot, hdlt, hdheight⟩ := hinv.wf.kid hp.alloc (hkid hj)
        rw [hc, hinv.wf.isLeaf hclt hcroot] at hleaf
        have hc' := hcheight hroot
        have hd' := hdheight hroot
        rw [hinv.wf.isLeaf hdlt hdroot]
        omega
      rw [if_pos hleaf, hcopy]
      refine ⟨_, rfl, hcopied.repairs [p] hinv hgp hlive hgpp hok (fun d hd => ?_)
        (List.mem_singleton_self p) fun d hd => .inr ?_⟩
      · exact .inl (List.mem_singleton.mp hd)
      · cases List.mem_pair.mp hd with
        | inl hd =>
            rw [hd]
            exact hleaves li (by omega)
        | inr hd =>
            rw [hd]
            exact hleaves (li + 1) hlt
    · rw [if_neg hleaf]
      by_cases hlock : locks 2 ∧ locks 3
      · rw [if_pos hlock, hcopy]
        refine ⟨_, rfl, hcopied.repairs [children li, children (li + 1), p] hinv hgp hlive hgpp hok
          (fun d hd => ?_) (by simp) fun d hd => .inl ?_⟩
        · rw [List.mem_cons, List.mem_pair] at hd
          rw [List.mem_pair]
          tauto
        · rw [List.mem_pair] at hd
          rw [List.mem_cons, List.mem_pair]
          tauto
      · rw [if_neg hlock]
        exact ⟨m, rfl, Repairs.refl hinv⟩
  · rw [if_neg htest]
    exact ⟨m, rfl, Repairs.refl hinv⟩

/-- `fix_node` of a child that needs a repair. -/
theorem fixNode_spec (locks : Nat → Bool) (hinv : Inv B L m) (hgp : Entered L m k gp pidx)
    (hp : Entered L m k p cidx) (hroot : p ≠ root) (hok : gp ≠ root → (m.blocks p).header.status = .ok) (hpc : m.child p cidx = c)
    (hbad : (m.blocks c).header.status ≠ .ok) :
    ∃ m', fixNode B locks gp pidx p cidx c m = some m' ∧ Repairs B L m m' := by
  rw [fixNode]
  by_cases hover : (m.blocks c).header.status = .isOver
  · rw [if_pos hover]
    exact overfullNode_spec locks hinv hgp hp hroot hok hover
  · rw [if_neg hover]
    refine underfullNode_spec locks hinv hgp hp hroot hok hpc ?_
    cases hstatus : (m.blocks c).header.status with
    | isOver => exact absurd hstatus hover
    | isUnder => rfl
    | ok => exact absurd hstatus hbad

/-- The new root node of the halves of `c`. -/
theorem rootNode_spec {nec : Nat × K × Nat} {m₁ : Memory K V} {L₁ : Layout K} {h : Nat} (hc : Placed L m h ⊥ ⊤ c)
    (hparts : Parts B L m L₁ m₁ h ⊥ ⊤ [c] nec) :
    ∃ L' m' x, rootNode nec m₁ = (m', x) ∧ WellFormed B L' m' ∧ Placed L' m' (h + 1) ⊥ ⊤ x ∧
      Replaces L m L' m' [c] c x ∧ SameEntries m m' [c] := by
  have hnode := B.node_ge
  have hchain := Chain.two hparts.lo_lt hparts.lt_hi hparts.left hparts.right
  obtain ⟨L', hnew⟩ := hparts.wf.alloc
    (b := .node .ok 2 (fun _ => nec.2.1) fun i => if i = 0 then nec.1 else nec.2.2)
    ⟨by omega, by omega, .inr ⟨rfl, by omega⟩⟩ ⟨h, rfl, hchain⟩
  refine ⟨L', _, _, rfl, hnew.wf, hnew.placed, ?_⟩
  refine replaces_of_new [] hparts.rebuilt hnew rfl rfl (fun y hy => absurd hy List.not_mem_nil)
    (fun y hy => .inl hy) (fun y hy => hy) (List.mem_singleton_self c) (fun d hd => ?_) fun d hd hreach => ?_
  · rw [List.mem_singleton.mp hd]
    exact ⟨hc.ne_root, hc.alloc, le_rfl⟩
  · rw [List.mem_singleton.mp hd]
    exact hreach

/-- `fix_root`. -/
theorem fixRoot_spec (locks : Nat → Bool) (hinv : Inv B L m) (hneeds : NeedsFix (m.blocks c).header) :
    ∃ m', fixRoot B locks c m = some m' ∧ Repairs B L m m' := by
  rw [fixRoot]
  by_cases htest : locks 0 ∧ m.child root 0 = c
  · obtain ⟨keys, children, htop, h, hplaced⟩ := hinv.wf.top
    have hc : children 0 = c := by
      rw [← htest.2, Memory.child, htop]
    have hslot : Slot m root 0 c := ⟨.ok, 1, keys, children, htop, by omega, hc⟩
    rw [hc] at hplaced
    have hrepairs : ∀ {L' m' h' x}, WellFormed B L' m' → Placed L' m' h' ⊥ ⊤ x → Replaces L m L' m' [c] c x →
        SameEntries m m' [c] → Repairs B L m (m'.setChild root 0 x) := by
      intro L' m' h' x hwf' hx hreplaces hsame
      obtain ⟨hinv', hext⟩ := hreplaces.inv [] hinv hwf' .root hslot (fun _ => ⟨h', hx⟩) (fun hne => absurd rfl hne)
        (fun hne => absurd rfl hne) (fun d hd => absurd hd List.not_mem_nil) fun d hd => by
          rw [List.mem_singleton.mp hd]
          exact .inr (.inr hneeds)
      exact ⟨L', hinv', hext, hreplaces.contains hsame hinv.wf hinv'.wf .root hslot⟩
    rw [if_pos htest]
    by_cases hover : (m.blocks c).header.status = .isOver
    · obtain ⟨L₁, m₁, nec, hsplit, hparts⟩ := split_spec hinv.wf hplaced
        ((hinv.wf.size c hplaced.alloc hplaced.ne_root).full hover)
      obtain ⟨L', m', x, hnode, hwf', hx, hreplaces, hsame⟩ := rootNode_spec hplaced hparts
      rw [if_pos hover, hsplit]
      simp only [bind, Option.bind, hnode]
      exact ⟨_, rfl, hrepairs hwf' hx hreplaces hsame⟩
    · obtain ⟨hinternal, hone⟩ := hneeds.resolve_left hover
      rw [if_neg hover]
      have hblock := hinv.wf.block hplaced
      cases hb : m.blocks c with
      | leaf status keyvals =>
          rw [hb] at hinternal
          cases hinternal
      | node status size keys' children' =>
          rw [hb] at hone hblock
          obtain rfl : size = 1 := hone
          obtain ⟨h', rfl, -, b, hcuts⟩ := hblock
          have hx := (hcuts.child 0 (by omega)).1
          rw [hcuts.first, hcuts.last] at hx
          have hkids : m.kids [c] = [children' 0] := by
            rw [kids_one, hb]
            rfl
          have hentries : m.entries [c] = [] := by
            rw [entries_one, hb]
            rfl
          refine ⟨_, rfl, hrepairs hinv.wf hx ⟨Extends.refl L m, List.mem_singleton_self c, fun d hd => ?_,
            fun d hd hreach => ?_, fun y hy => ?_, fun a hle hlt => absurd hlt (by omega), .inr ?_,
            fun a hle hlt => absurd hlt (by omega)⟩ ⟨fun kv hkv => ?_, fun a hle hlt => absurd hlt (by omega)⟩⟩
          · rw [List.mem_singleton.mp hd]
            exact ⟨hplaced.ne_root, hplaced.alloc, le_rfl⟩
          · rw [List.mem_singleton.mp hd]
            exact hreach
          · rw [hkids] at hy
            rw [List.mem_singleton.mp hy]
            exact .inr fun _ _ hreach => hreach
          · rw [hkids]
            exact List.mem_singleton_self _
          · rw [hentries] at hkv
            cases hkv
  · rw [if_neg htest]
    exact ⟨m, rfl, Repairs.refl hinv⟩

end

end Verlib.BTree.Concurrent
