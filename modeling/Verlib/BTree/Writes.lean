import Verlib.BTree.Bodies

/-!
# What a body writes

A body allocates nodes, writes one slot of one old node, and marks nodes. The node is the one whose lock it takes first,
and it is not marked. This is read off the bodies, and holds in all memories.
-/

namespace Verlib.BTree.Concurrent

variable {K V : Type}

/-- Nodes are allocated, and the old ones stay as they are. -/
structure Allocates (m m' : Memory K V) : Prop where
  fresh : m.fresh ≤ m'.fresh
  blocks : ∀ a < m.fresh, m'.blocks a = m.blocks a
  removed : ∀ a < m.fresh, m'.removed a = m.removed a

/-- Old nodes but `g` keep their children, and no mark is taken away. -/
structure Writes (g : Nat) (m m' : Memory K V) : Prop where
  fresh : m.fresh ≤ m'.fresh
  blocks : ∀ a < m.fresh, a ≠ g → m'.blocks a = m.blocks a
  removed : ∀ a < m.fresh, m.removed a = true → m'.removed a = true

section

variable {m m' m'' : Memory K V} {g i x : Nat}

theorem Allocates.refl (m : Memory K V) : Allocates m m where
  fresh := le_rfl
  blocks _ _ := rfl
  removed _ _ := rfl

theorem Allocates.trans (h : Allocates m m') (h' : Allocates m' m'') : Allocates m m'' where
  fresh := h.fresh.trans h'.fresh
  blocks a ha := (h'.blocks a (ha.trans_le h.fresh)).trans (h.blocks a ha)
  removed a ha := (h'.removed a (ha.trans_le h.fresh)).trans (h.removed a ha)

theorem allocates_alloc (m : Memory K V) (b : Block K V) : Allocates m (m.alloc b).1 where
  fresh := Nat.le_succ _
  blocks _ ha := Function.update_of_ne ha.ne _ _
  removed _ ha := Function.update_of_ne ha.ne _ _

theorem Writes.refl (g : Nat) (m : Memory K V) : Writes g m m where
  fresh := le_rfl
  blocks _ _ _ := rfl
  removed _ _ hmark := hmark

/-- Nodes are allocated, then a slot of `g` is written. -/
theorem Allocates.setChild (h : Allocates m m') : Writes g m (m'.setChild g i x) := by
  refine ⟨?_, fun a ha hne => ?_, fun a ha hmark => ?_⟩
  · rw [setChild_fresh]
    exact h.fresh
  · rw [setChild_of_ne hne]
    exact h.blocks a ha
  · rw [setChild_removed, h.removed a ha]
    exact hmark

/-- A node is marked. -/
theorem Writes.setRemoved (h : Writes g m m') (d : Nat) : Writes g m (m'.setRemoved d) := by
  refine ⟨h.fresh, h.blocks, fun a ha hmark => ?_⟩
  by_cases had : a = d
  · rw [had]
    exact Function.update_self ..
  · exact (Function.update_of_ne had ..).trans (h.removed a ha hmark)

end

/-! ## New nodes -/

section

variable {B : BlockSizes} {m m' : Memory K V} {t : Node K V} {nec : Node K V × K × Node K V} {newc : Nat × K × Nat}
  {keys : Nat → K} {children : Nat → Nat} {size pos c c1 c2 p cidx li lc rc x : Nat} {k : K}

theorem placeLeaf_allocates (h : placeLeaf t m = some (m', x)) : Allocates m m' := by
  unfold placeLeaf at h
  split at h
  · cases h
    exact allocates_alloc ..
  · cases h

theorem placeLeaves_allocates (h : placeLeaves nec m = some (m', newc)) : Allocates m m' := by
  simp only [placeLeaves, bind, Option.bind_eq_some_iff, pure, Option.some.injEq, Prod.mk.injEq] at h
  obtain ⟨⟨m₁, l⟩, hl, ⟨m₂, r⟩, hr, rfl, -⟩ := h
  exact (placeLeaf_allocates hl).trans (placeLeaf_allocates hr)

theorem copy_allocates (h : copy B size keys children m = some (m', x)) : Allocates m m' := by
  unfold copy at h
  split at h
  · cases h
    exact allocates_alloc ..
  · cases h

theorem splitMid_allocates (h : splitMid B size keys children m = some (m', newc)) : Allocates m m' := by
  simp only [splitMid, bind, Option.bind_eq_some_iff, pure, Option.some.injEq, Prod.mk.injEq] at h
  obtain ⟨⟨m₁, l⟩, hl, ⟨m₂, r⟩, hr, rfl, -⟩ := h
  exact (copy_allocates hl).trans (copy_allocates hr)

theorem split_allocates (h : split B c m = some (m', newc)) : Allocates m m' := by
  unfold split at h
  split at h
  · obtain ⟨nec, -, hplace⟩ := Option.bind_eq_some_iff.mp h
    exact placeLeaves_allocates hplace
  · split at h
    · exact splitMid_allocates h
    · cases h

theorem rebalance_allocates (h : rebalance B c1 k c2 m = some (m', newc)) : Allocates m m' := by
  unfold rebalance at h
  split at h
  · obtain ⟨nec, -, hplace⟩ := Option.bind_eq_some_iff.mp h
    exact placeLeaves_allocates hplace
  · exact splitMid_allocates h
  · cases h

theorem join_allocates (h : join B c1 k c2 m = some (m', x)) : Allocates m m' := by
  unfold join at h
  split at h
  · obtain ⟨t, -, hplace⟩ := Option.bind_eq_some_iff.mp h
    exact placeLeaf_allocates hplace
  · exact copy_allocates h
  · cases h

theorem addChild_allocates (h : addChild B size keys children newc pos m = some (m', x)) : Allocates m m' := by
  unfold addChild at h
  split at h
  · exact copy_allocates h
  · cases h

/-! ## Bodies -/

theorem overfullCopy_allocates (h : overfullCopy B p cidx c m = some (m', x)) : Allocates m m' := by
  unfold overfullCopy at h
  split at h
  · cases h
  · obtain ⟨⟨m₁, newc⟩, hsplit, hadd⟩ := Option.bind_eq_some_iff.mp h
    exact (split_allocates hsplit).trans (addChild_allocates hadd)

theorem underfullCopy_allocates (h : underfullCopy B p li lc rc c m = some (m', x)) : Allocates m m' := by
  unfold underfullCopy at h
  split at h
  · cases h
  · split at h
    · obtain ⟨⟨m₁, j⟩, hjoin, hcopy⟩ := Option.bind_eq_some_iff.mp h
      exact (join_allocates hjoin).trans (copy_allocates hcopy)
    · obtain ⟨⟨m₁, newc⟩, hreb, hcopy⟩ := Option.bind_eq_some_iff.mp h
      exact (rebalance_allocates hreb).trans (copy_allocates hcopy)

variable {locks : Nat → Bool} {gp pidx l : Nat}

/-- A body does nothing, or it writes a node that is not marked. -/
def WritesLive (g : Nat) (m m' : Memory K V) : Prop :=
  Writes g m m' ∧ (m' = m ∨ g = root ∨ m.removed g = false)

theorem WritesLive.refl (g : Nat) (m : Memory K V) : WritesLive g m m := ⟨.refl g m, .inl rfl⟩

theorem overfullNode_writes (h : overfullNode B locks gp pidx p cidx c m = some m') : WritesLive gp m m' := by
  unfold overfullNode at h
  split at h
  · rename_i htest
    have hlive : m.removed gp = false := htest.2.1
    split at h
    · obtain ⟨⟨m₁, x⟩, hcopy, heq⟩ := Option.bind_eq_some_iff.mp h
      cases heq
      exact ⟨(overfullCopy_allocates hcopy).setChild.setRemoved p, .inr (.inr hlive)⟩
    · split at h
      · obtain ⟨⟨m₁, x⟩, hcopy, heq⟩ := Option.bind_eq_some_iff.mp h
        cases heq
        exact ⟨((overfullCopy_allocates hcopy).setChild.setRemoved p).setRemoved c, .inr (.inr hlive)⟩
      · cases h
        exact .refl gp m
  · cases h
    exact .refl gp m

theorem underfullNode_writes (h : underfullNode B locks gp pidx p cidx c m = some m') : WritesLive gp m m' := by
  unfold underfullNode at h
  split at h
  · rename_i htest
    have hlive : m.removed gp = false := htest.2.1
    -- which of the two children is the left one makes no difference here
    dsimp only at h
    generalize (if cidx = 0 then 0 else cidx - 1) = li,
      (if cidx = 0 then c else m.child p (if cidx = 0 then cidx + 1 else cidx - 1)) = lc,
      (if cidx = 0 then m.child p (if cidx = 0 then cidx + 1 else cidx - 1) else c) = rc at h
    split at h
    · cases h
    · split at h
      · obtain ⟨⟨m₁, x⟩, hcopy, heq⟩ := Option.bind_eq_some_iff.mp h
        cases heq
        exact ⟨(underfullCopy_allocates hcopy).setChild.setRemoved p, .inr (.inr hlive)⟩
      · split at h
        · obtain ⟨⟨m₁, x⟩, hcopy, heq⟩ := Option.bind_eq_some_iff.mp h
          cases heq
          exact ⟨(((underfullCopy_allocates hcopy).setChild.setRemoved _).setRemoved _).setRemoved p,
            .inr (.inr hlive)⟩
        · cases h
          exact .refl gp m
  · cases h
    exact .refl gp m

theorem fixNode_writes (h : fixNode B locks gp pidx p cidx c m = some m') : WritesLive gp m m' := by
  unfold fixNode at h
  split at h
  · exact overfullNode_writes h
  · exact underfullNode_writes h

theorem fixRoot_writes (h : fixRoot B locks c m = some m') : WritesLive root m m' := by
  unfold fixRoot at h
  split at h
  · split at h
    · obtain ⟨⟨m₁, newc⟩, hsplit, heq⟩ := Option.bind_eq_some_iff.mp h
      cases heq
      exact ⟨((split_allocates hsplit).trans (allocates_alloc ..)).setChild, .inr (.inl rfl)⟩
    · split at h
      · cases h
      · cases h
        exact ⟨(Allocates.refl m).setChild, .inr (.inl rfl)⟩
  · cases h
    exact .refl root m

variable [LinearOrder K] {o : Op K V} {r : Bool}

theorem body_writes (h : o.body B locks p cidx l m = some (m', r)) : WritesLive p m m' := by
  unfold Op.body at h
  split at h
  · rename_i htest
    obtain ⟨t, -, hrest⟩ := Option.bind_eq_some_iff.mp h
    obtain ⟨⟨m₁, l'⟩, hplace, heq⟩ := Option.bind_eq_some_iff.mp hrest
    cases heq
    exact ⟨(placeLeaf_allocates hplace).setChild, .inr (.inr htest.2.1)⟩
  · cases h
    exact .refl p m

end

end Verlib.BTree.Concurrent
