import Verlib.LeafTree.Machine

/-!
# Trees in a memory

A write to one child pointer of a node that a search visits changes the tree of the memory where the search goes on:
the leaf below the node is replaced, or the internal node below it by its child on the other side.
-/

namespace Verlib.LeafTree.Concurrent

open ExternalTree

variable {K V : Type} {m m' : Memory K V} {t t' x : ExtTree Nat Nat} {a p gp : Nat} {go : Nat → Bool}

/-- A node of the memory is internal or a leaf, and so is the tree from there on. -/
theorem Memory.Shape.leaf_iff (h : m.Shape t a) : (m.nodes a).isLeaf = true ↔ t = .leaf a := by
  cases t with
  | leaf l =>
      obtain ⟨rfl, hleaf⟩ := h
      exact iff_of_true hleaf rfl
  | node b left right =>
      obtain ⟨rfl, hleaf, -, -⟩ := h
      rw [hleaf]
      exact iff_of_false Bool.false_ne_true fun heq => by cases heq

/-- An internal node of the memory. -/
theorem Memory.Shape.node (h : m.Shape t a) (hinner : (m.nodes a).isLeaf = false) :
    ∃ left right, t = .node a left right ∧ m.Shape left (m.child a true) ∧ m.Shape right (m.child a false) := by
  cases t with
  | leaf l =>
      obtain ⟨rfl, hleaf⟩ := h
      rw [hinner] at hleaf
      cases hleaf
  | node b left right =>
      obtain ⟨rfl, -, hleft, hright⟩ := h
      exact ⟨left, right, rfl, hleft, hright⟩

/-- The routers are the internal nodes. -/
theorem Memory.Shape.isLeaf_router (h : m.Shape t a) (hp : p ∈ t.routers) : (m.nodes p).isLeaf = false := by
  induction t generalizing a with
  | leaf l => cases hp
  | node b left right ihl ihr =>
      obtain ⟨rfl, hinner, hleft, hright⟩ := h
      rw [ExtTree.routers, List.mem_cons, List.mem_append] at hp
      obtain rfl | hp | hp := hp
      · exact hinner
      · exact ihl hleft hp
      · exact ihr hright hp

/-- There is one tree from an address on. -/
theorem Memory.Shape.unique (h : m.Shape t a) (h' : m.Shape t' a) : t = t' := by
  induction t generalizing a t' with
  | leaf l =>
      obtain ⟨rfl, hleaf⟩ := h
      exact (h'.leaf_iff.mp hleaf).symm
  | node b left right ihl ihr =>
      obtain ⟨rfl, hinner, hleft, hright⟩ := h
      obtain ⟨left', right', rfl, hleft', hright'⟩ := h'.node hinner
      rw [ihl hleft hleft', ihr hright hright']

/-- A tree whose nodes are not written. -/
theorem Memory.Shape.congr (h : m.Shape t a) (hrouters : ∀ b ∈ t.routers, (m'.nodes b).isLeaf = (m.nodes b).isLeaf)
    (hleaves : ∀ l ∈ t.leaves, (m'.nodes l).isLeaf = (m.nodes l).isLeaf)
    (hchild : ∀ b ∈ t.routers, ∀ side, m'.child b side = m.child b side) : m'.Shape t a := by
  induction t generalizing a with
  | leaf l =>
      obtain ⟨rfl, hleaf⟩ := h
      exact ⟨rfl, (hleaves a (List.mem_singleton_self a)).trans hleaf⟩
  | node b left right ihl ihr =>
      obtain ⟨rfl, hinner, hleft, hright⟩ := h
      simp only [ExtTree.routers, ExtTree.leaves, List.forall_mem_cons, List.forall_mem_append] at hrouters hleaves hchild
      refine ⟨rfl, hrouters.1.trans hinner, ?_, ?_⟩
      · show m'.Shape left (m'.child a true)
        rw [hchild.1 true]
        exact ihl hleft hrouters.2.1 hleaves.1 hchild.2.1
      · show m'.Shape right (m'.child a false)
        rw [hchild.1 false]
        exact ihr hright hrouters.2.2 hleaves.2 hchild.2.2

/-- The search goes on below a node that it visits, or ends there. -/
theorem Memory.Shape.visited_child (h : m.Shape t a) (hp : p ∈ t.visited go) :
    ((m.nodes (m.child p (go p))).isLeaf = true → t.search go = m.child p (go p) ∧ (t.visited go).getLast? = some p) ∧
      ((m.nodes (m.child p (go p))).isLeaf = false → m.child p (go p) ∈ t.visited go) := by
  induction t generalizing a with
  | leaf l => cases hp
  | node b left right ihl ihr =>
      obtain ⟨rfl, hinner, hleft, hright⟩ := h
      have hchild : ∀ side, m.Shape (if side then left else right) (m.child a side) := by
        intro side
        cases side with
        | true => exact hleft
        | false => exact hright
      have hbelow : ∀ s : ExtTree Nat Nat, p ∈ s.visited go → (s.visited go).getLast? = some p →
          (a :: s.visited go).getLast? = some p := by
        intro s hs hlast
        rw [List.getLast?_cons, hlast]
        rfl
      rw [ExtTree.visited, ExtTree.search]
      cases List.mem_cons.mp hp with
      | inl heq =>
          subst heq
          have hshape := hchild (go p)
          constructor
          · intro hleaf
            have heq := hshape.leaf_iff.mp hleaf
            cases hgo : go p with
            | true =>
                rw [hgo, if_pos rfl] at heq
                rw [heq]
                exact ⟨rfl, rfl⟩
            | false =>
                rw [hgo, if_neg Bool.false_ne_true] at heq
                rw [heq]
                exact ⟨rfl, rfl⟩
          · intro hinner'
            obtain ⟨left', right', heq, -, -⟩ := hshape.node hinner'
            refine List.mem_cons_of_mem _ ?_
            cases hgo : go p with
            | true =>
                rw [hgo, if_pos rfl] at heq
                rw [if_pos rfl, heq]
                exact List.mem_cons_self
            | false =>
                rw [hgo, if_neg Bool.false_ne_true] at heq
                rw [if_neg Bool.false_ne_true, heq]
                exact List.mem_cons_self
      | inr hp =>
          cases hgo : go a with
          | true =>
              rw [hgo, if_pos rfl] at hp
              obtain ⟨hleaf, hmem⟩ := ihl hleft hp
              exact ⟨fun h => ⟨(hleaf h).1, hbelow left hp (hleaf h).2⟩, fun h => List.mem_cons_of_mem _ (hmem h)⟩
          | false =>
              rw [hgo, if_neg Bool.false_ne_true] at hp
              obtain ⟨hleaf, hmem⟩ := ihr hright hp
              exact ⟨fun h => ⟨(hleaf h).1, hbelow right hp (hleaf h).2⟩, fun h => List.mem_cons_of_mem _ (hmem h)⟩

/-! ## A write to one child pointer -/

/-- The child pointers of a memory after one of them has been written, and the kinds of the nodes of the tree. -/
structure Written (m m' : Memory K V) (t : ExtTree Nat Nat) (p : Nat) (side : Bool) : Prop where
  routers : ∀ b ∈ t.routers, (m'.nodes b).isLeaf = (m.nodes b).isLeaf
  leaves : ∀ l ∈ t.leaves, (m'.nodes l).isLeaf = (m.nodes l).isLeaf
  child : ∀ b ∈ t.routers, ∀ s, ¬ (b = p ∧ s = side) → m'.child b s = m.child b s

section

variable {b : Nat} {left right : ExtTree Nat Nat} {side : Bool}

theorem Written.leftTree (h : Written m m' (.node b left right) p side) : Written m m' left p side :=
  ⟨fun c hc => h.routers c (by simp [ExtTree.routers, hc]), fun l hl => h.leaves l (by simp [ExtTree.leaves, hl]),
    fun c hc => h.child c (by simp [ExtTree.routers, hc])⟩

theorem Written.rightTree (h : Written m m' (.node b left right) p side) : Written m m' right p side :=
  ⟨fun c hc => h.routers c (by simp [ExtTree.routers, hc]), fun l hl => h.leaves l (by simp [ExtTree.leaves, hl]),
    fun c hc => h.child c (by simp [ExtTree.routers, hc])⟩

/-- A tree without the node that is written. -/
theorem Written.shape (h : Written m m' t p side) (hshape : m.Shape t a) (hp : p ∉ t.routers) : m'.Shape t a :=
  hshape.congr h.routers h.leaves fun c hc s => h.child c hc s fun heq => hp (heq.1 ▸ hc)

/-- The parts of a tree whose internal nodes are different. -/
theorem nodup_node (h : (ExtTree.node b left right : ExtTree Nat Nat).routers.Nodup) :
    b ∉ left.routers ∧ b ∉ right.routers ∧ left.routers.Nodup ∧ right.routers.Nodup ∧
      ∀ c ∈ left.routers, c ∉ right.routers := by
  rw [ExtTree.routers, List.nodup_cons, List.mem_append, not_or, List.nodup_append] at h
  obtain ⟨⟨hleft, hright⟩, hl, hr, hne⟩ := h
  exact ⟨hleft, hright, hl, hr, fun c hc hc' => hne c hc c hc' rfl⟩

end

/-- A write to the last node that a search visits replaces the leaf where the search ends. -/
theorem Memory.Shape.graft (h : m.Shape t a) (hnodup : t.routers.Nodup) (hp : p ∈ t.visited go)
    (hleaf : (m.nodes (m.child p (go p))).isLeaf = true) (hw : Written m m' t p (go p))
    (hx : m'.Shape x (m'.child p (go p))) : m'.Shape (t.graft go x) a := by
  induction t generalizing a with
  | leaf l => cases hp
  | node b left right ihl ihr =>
      obtain ⟨rfl, hinner, hleft, hright⟩ := h
      obtain ⟨hbl, hbr, hnodupl, hnodupr, hdisj⟩ := nodup_node hnodup
      have hinner' : (m'.nodes a).isLeaf = false := by rw [hw.routers a (by simp [ExtTree.routers]), hinner]
      have hkeep : ∀ s, ¬ (a = p ∧ s = go p) → m'.child a s = m.child a s :=
        hw.child a (by simp [ExtTree.routers])
      rw [ExtTree.graft]
      rw [ExtTree.visited, List.mem_cons] at hp
      cases hgo : go a with
      | true =>
          rw [hgo, if_pos rfl] at hp
          have hrest : m'.Shape right (m'.child a false) := by
            rw [hkeep false fun heq => by rw [← heq.1, hgo] at heq; cases heq.2]
            refine hw.rightTree.shape hright fun hmem => ?_
            cases hp with
            | inl heq => exact hbr (heq ▸ hmem)
            | inr hp => exact hdisj p (ExtTree.mem_routers_of_mem_visited hp) hmem
          refine ⟨rfl, hinner', ?_, hrest⟩
          show m'.Shape (left.graft go x) (m'.child a true)
          cases hp with
          | inl heq =>
              subst heq
              rw [hgo] at hleaf hx
              have hleft' : m.Shape left (m.child p true) := hleft
              rw [hleft'.leaf_iff.mp hleaf]
              exact hx
          | inr hp =>
              have hne : a ≠ p := fun heq => hbl (heq ▸ ExtTree.mem_routers_of_mem_visited hp)
              rw [hkeep true fun heq => hne heq.1]
              exact ihl hleft hnodupl hp hw.leftTree
      | false =>
          rw [hgo, if_neg Bool.false_ne_true] at hp
          have hrest : m'.Shape left (m'.child a true) := by
            rw [hkeep true fun heq => by rw [← heq.1, hgo] at heq; cases heq.2]
            refine hw.leftTree.shape hleft fun hmem => ?_
            cases hp with
            | inl heq => exact hbl (heq ▸ hmem)
            | inr hp => exact hdisj p hmem (ExtTree.mem_routers_of_mem_visited hp)
          refine ⟨rfl, hinner', hrest, ?_⟩
          show m'.Shape (right.graft go x) (m'.child a false)
          cases hp with
          | inl heq =>
              subst heq
              rw [hgo] at hleaf hx
              have hright' : m.Shape right (m.child p false) := hright
              rw [hright'.leaf_iff.mp hleaf]
              exact hx
          | inr hp =>
              have hne : a ≠ p := fun heq => hbr (heq ▸ ExtTree.mem_routers_of_mem_visited hp)
              rw [hkeep false fun heq => hne heq.1]
              exact ihr hright hnodupr hp hw.rightTree

/-- The node above the leaf where a search ends is pruned to its other child. -/
theorem Memory.Shape.prune_parent (h : m.Shape t p) (hinner : (m.nodes p).isLeaf = false)
    (hleaf : (m.nodes (m.child p (go p))).isLeaf = true) (h' : m'.Shape t p) :
    m'.Shape (t.prune go) (m'.child p !go p) := by
  obtain ⟨left, right, rfl, hleft, hright⟩ := h.node hinner
  obtain ⟨-, -, hleft', hright'⟩ := h'
  cases hgo : go p with
  | true =>
      rw [hgo] at hleaf
      rw [hleft.leaf_iff.mp hleaf]
      simpa [ExtTree.prune, hgo, Memory.child] using hright'
  | false =>
      rw [hgo] at hleaf
      rw [hright.leaf_iff.mp hleaf]
      simpa [ExtTree.prune, hgo, Memory.child] using hleft'

/-- A write to the last node but one that a search visits replaces the last one by its other child. -/
theorem Memory.Shape.prune (h : m.Shape t a) (hnodup : t.routers.Nodup) (hgp : gp ∈ t.visited go)
    (hp : m.child gp (go gp) = p) (hinner : (m.nodes p).isLeaf = false)
    (hleaf : (m.nodes (m.child p (go p))).isLeaf = true) (hw : Written m m' t gp (go gp))
    (hnew : m'.child gp (go gp) = m.child p !go p) : m'.Shape (t.prune go) a := by
  induction t generalizing a with
  | leaf l => cases hgp
  | node b left right ihl ihr =>
      obtain ⟨rfl, hinnera, hleft, hright⟩ := h
      obtain ⟨hbl, hbr, hnodupl, hnodupr, hdisj⟩ := nodup_node hnodup
      have hinner' : (m'.nodes a).isLeaf = false := by rw [hw.routers a (by simp [ExtTree.routers]), hinnera]
      have hkeep : ∀ s, ¬ (a = gp ∧ s = go gp) → m'.child a s = m.child a s :=
        hw.child a (by simp [ExtTree.routers])
      rw [ExtTree.visited, List.mem_cons] at hgp
      cases hgo : go a with
      | true =>
          rw [hgo, if_pos rfl] at hgp
          have hrest : m'.Shape right (m'.child a false) := by
            rw [hkeep false fun heq => by rw [← heq.1, hgo] at heq; cases heq.2]
            refine hw.rightTree.shape hright fun hmem => ?_
            cases hgp with
            | inl heq => exact hbr (heq ▸ hmem)
            | inr hgp => exact hdisj gp (ExtTree.mem_routers_of_mem_visited hgp) hmem
          have hnode : ∃ key' left' right', left = .node key' left' right' := by
            cases hgp with
            | inl heq =>
                subst heq
                rw [hgo] at hp
                obtain ⟨left', right', heq, -, -⟩ := (show m.Shape left (m.child gp true) from hleft).node (hp ▸ hinner)
                exact ⟨_, left', right', heq⟩
            | inr hgp =>
                cases left with
                | leaf l => cases hgp
                | node key' left' right' => exact ⟨key', left', right', rfl⟩
          obtain ⟨key', left', right', rfl⟩ := hnode
          rw [ExtTree.prune_left hgo]
          refine ⟨rfl, hinner', ?_, hrest⟩
          show m'.Shape _ (m'.child a true)
          cases hgp with
          | inl heq =>
              subst heq
              rw [hgo] at hp hnew
              rw [hnew]
              have hleft' : m.Shape (.node key' left' right') p := by
                rw [← hp]
                exact hleft
              obtain rfl := hleft'.1
              rw [← hw.leftTree.child p (by simp [ExtTree.routers]) _ fun heq => hbl (by simp [ExtTree.routers, heq.1])]
              exact hleft'.prune_parent hinner hleaf (hw.leftTree.shape hleft' hbl)
          | inr hgp =>
              have hne : a ≠ gp := fun heq => hbl (heq ▸ ExtTree.mem_routers_of_mem_visited hgp)
              rw [hkeep true fun heq => hne heq.1]
              exact ihl hleft hnodupl hgp hw.leftTree
      | false =>
          rw [hgo, if_neg Bool.false_ne_true] at hgp
          have hrest : m'.Shape left (m'.child a true) := by
            rw [hkeep true fun heq => by rw [← heq.1, hgo] at heq; cases heq.2]
            refine hw.leftTree.shape hleft fun hmem => ?_
            cases hgp with
            | inl heq => exact hbl (heq ▸ hmem)
            | inr hgp => exact hdisj gp hmem (ExtTree.mem_routers_of_mem_visited hgp)
          have hnode : ∃ key' left' right', right = .node key' left' right' := by
            cases hgp with
            | inl heq =>
                subst heq
                rw [hgo] at hp
                obtain ⟨left', right', heq, -, -⟩ :=
                  (show m.Shape right (m.child gp false) from hright).node (hp ▸ hinner)
                exact ⟨_, left', right', heq⟩
            | inr hgp =>
                cases right with
                | leaf l => cases hgp
                | node key' left' right' => exact ⟨key', left', right', rfl⟩
          obtain ⟨key', left', right', rfl⟩ := hnode
          rw [ExtTree.prune_right hgo]
          refine ⟨rfl, hinner', hrest, ?_⟩
          show m'.Shape _ (m'.child a false)
          cases hgp with
          | inl heq =>
              subst heq
              rw [hgo] at hp hnew
              rw [hnew]
              have hright' : m.Shape (.node key' left' right') p := by
                rw [← hp]
                exact hright
              obtain rfl := hright'.1
              rw [← hw.rightTree.child p (by simp [ExtTree.routers]) _ fun heq => hbr (by simp [ExtTree.routers, heq.1])]
              exact hright'.prune_parent hinner hleaf (hw.rightTree.shape hright' hbr)
          | inr hgp =>
              have hne : a ≠ gp := fun heq => hbr (heq ▸ ExtTree.mem_routers_of_mem_visited hgp)
              rw [hkeep false fun heq => hne heq.1]
              exact ihr hright hnodupr hgp hw.rightTree

end Verlib.LeafTree.Concurrent
