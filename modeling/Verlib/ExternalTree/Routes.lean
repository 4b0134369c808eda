import Mathlib.Data.List.Perm.Basic
import Mathlib.Data.List.Nodup
import Verlib.ExternalTree.Tree

/-!
# The routers of an external tree

Which routers a search visits, and what an update does to the routers of a tree and to those that another search
visits: a search keeps the routers it visits, except for the one that is pruned.
-/

namespace ExternalTree.ExtTree

variable {R R' L L' : Type}

/-- The routers. -/
def routers : ExtTree R L → List R
  | leaf _ => []
  | node key left right => key :: (left.routers ++ right.routers)

/-- The routers that a search visits, in this order. -/
def visited (go : R → Bool) : ExtTree R L → List R
  | leaf _ => []
  | node key left right => key :: if go key then left.visited go else right.visited go

/-- The same tree with other labels. -/
def map (f : R → R') (g : L → L') : ExtTree R L → ExtTree R' L'
  | leaf l => leaf (g l)
  | node key left right => node (f key) (left.map f g) (right.map f g)

section

variable {go go' : R → Bool} {t x : ExtTree R L} {q : R}

theorem mem_routers_of_mem_visited (h : q ∈ t.visited go) : q ∈ t.routers := by
  induction t with
  | leaf l => cases h
  | node key left right ihl ihr =>
      rw [visited] at h
      rw [routers, List.mem_cons, List.mem_append]
      cases List.mem_cons.mp h with
      | inl heq => exact .inl heq
      | inr h =>
          cases hgo : go key with
          | true =>
              rw [hgo, if_pos rfl] at h
              exact .inr (.inl (ihl h))
          | false =>
              rw [hgo, if_neg Bool.false_ne_true] at h
              exact .inr (.inr (ihr h))

/-- What a search visits depends on the routers of the tree only. -/
theorem visited_congr (h : ∀ r ∈ t.routers, go r = go' r) : t.visited go = t.visited go' := by
  induction t with
  | leaf l => rfl
  | node key left right ihl ihr =>
      simp only [routers, List.forall_mem_cons, List.forall_mem_append] at h
      rw [visited, visited, h.1, ihl h.2.1, ihr h.2.2]

/-- Labels that the new functions agree on. -/
theorem map_congr {f f' : R → R'} {g g' : L → L'} (hf : ∀ r ∈ t.routers, f r = f' r)
    (hg : ∀ l ∈ t.leaves, g l = g' l) : t.map f g = t.map f' g' := by
  induction t with
  | leaf l => rw [map, map, hg l (List.mem_singleton_self l)]
  | node key left right ihl ihr =>
      simp only [routers, leaves, List.forall_mem_cons, List.forall_mem_append] at hf hg
      rw [map, map, hf.1, ihl hf.2.1 hg.1, ihr hf.2.2 hg.2]

/-! ## Updates -/

/-- Grafting adds the routers of the new tree. -/
theorem routers_graft : (t.graft go x).routers.Perm (t.routers ++ x.routers) := by
  induction t with
  | leaf l => exact List.Perm.refl _
  | node key left right ihl ihr =>
      rw [graft]
      cases go key with
      | true =>
          show (key :: ((left.graft go x).routers ++ right.routers)).Perm
            (key :: (left.routers ++ right.routers ++ x.routers))
          refine List.Perm.cons key ((ihl.append_right _).trans ?_)
          rw [List.append_assoc, List.append_assoc]
          exact List.perm_append_comm.append_left _
      | false =>
          show (key :: (left.routers ++ (right.graft go x).routers)).Perm
            (key :: (left.routers ++ right.routers ++ x.routers))
          rw [List.append_assoc]
          exact List.Perm.cons key (ihr.append_left _)

/-- The leaves after grafting are old ones or those of the new tree. -/
theorem mem_leaves_graft {l : L} (h : l ∈ (t.graft go x).leaves) : l ∈ t.leaves ∨ l ∈ x.leaves := by
  induction t with
  | leaf _ => exact .inr h
  | node key left right ihl ihr =>
      rw [leaves, List.mem_append]
      rw [graft] at h
      cases hgo : go key with
      | true =>
          rw [hgo, if_pos rfl, leaves, List.mem_append] at h
          cases h with
          | inl h => exact (ihl h).imp_left .inl
          | inr h => exact .inl (.inr h)
      | false =>
          rw [hgo, if_neg Bool.false_ne_true, leaves, List.mem_append] at h
          cases h with
          | inl h => exact .inl (.inl h)
          | inr h => exact (ihr h).imp_left .inr

/-- The leaves after pruning are old ones. -/
theorem mem_leaves_prune {l : L} (h : l ∈ (t.prune go).leaves) : l ∈ t.leaves := by
  induction t with
  | leaf _ => exact h
  | node key left right ihl ihr =>
      rw [leaves, List.mem_append]
      cases hgo : go key with
      | true =>
          cases left with
          | leaf l => exact .inr (by simpa [prune, hgo] using h)
          | node key' left' right' =>
              rw [prune_left hgo, leaves, List.mem_append] at h
              exact h.imp_left ihl
      | false =>
          cases right with
          | leaf l => exact .inl (by simpa [prune, hgo] using h)
          | node key' left' right' =>
              rw [prune_right hgo, leaves, List.mem_append] at h
              exact h.imp_right ihr

/-- Another search still visits what it has visited. -/
theorem mem_visited_graft (h : q ∈ t.visited go') : q ∈ (t.graft go x).visited go' := by
  induction t with
  | leaf l => cases h
  | node key left right ihl ihr =>
      have hgraft : (node key left right).graft go x =
          node key (if go key then left.graft go x else left) (if go key then right else right.graft go x) := by
        rw [graft]
        cases go key with
        | true => rfl
        | false => rfl
      rw [visited] at h
      rw [hgraft, visited]
      cases List.mem_cons.mp h with
      | inl heq => exact List.mem_cons.mpr (.inl heq)
      | inr h =>
          refine List.mem_cons_of_mem _ ?_
          cases hgo' : go' key with
          | true =>
              rw [hgo', if_pos rfl] at h
              rw [if_pos rfl]
              cases go key with
              | true => exact ihl h
              | false => exact h
          | false =>
              rw [hgo', if_neg Bool.false_ne_true] at h
              rw [if_neg Bool.false_ne_true]
              cases go key with
              | true => exact h
              | false => exact ihr h

/-- The last router that a search visits is the root, or it is below. -/
theorem getLast?_visited {key p : R} {left right : ExtTree R L}
    (h : ((node key left right).visited go).getLast? = some p) :
    (∃ l, (if go key then left else right) = leaf l ∧ p = key) ∨
      (∃ key' left' right', (if go key then left else right) = node key' left' right') ∧
        ((if go key then left else right).visited go).getLast? = some p := by
  have hvisited : (node key left right).visited go = key :: (if go key then left else right).visited go := by
    rw [visited]
    cases go key with
    | true => rfl
    | false => rfl
  rw [hvisited] at h
  cases hchild : if go key then left else right with
  | leaf l =>
      rw [hchild] at h
      exact .inl ⟨l, rfl, (Option.some.inj h).symm⟩
  | node key' left' right' =>
      rw [hchild, visited, List.getLast?_cons_cons] at h
      exact .inr ⟨⟨key', left', right', rfl⟩, h⟩

/-- Pruning takes out the last router that the search visits. -/
theorem routers_prune {p : R} (h : (t.visited go).getLast? = some p) : t.routers.Perm (p :: (t.prune go).routers) := by
  induction t with
  | leaf l => cases h
  | node key left right ihl ihr =>
      have hcases := getLast?_visited h
      cases hgo : go key with
      | true =>
          rw [hgo, if_pos rfl] at hcases
          cases hcases with
          | inl hleaf =>
              obtain ⟨l, rfl, rfl⟩ := hleaf
              simp [prune, hgo, routers]
          | inr hnode =>
              obtain ⟨⟨key', left', right', rfl⟩, hlast⟩ := hnode
              rw [prune_left hgo]
              exact ((ihl hlast).append_right right.routers |>.cons key).trans (List.Perm.swap _ _ _)
      | false =>
          rw [hgo, if_neg Bool.false_ne_true] at hcases
          cases hcases with
          | inl hleaf =>
              obtain ⟨l, rfl, rfl⟩ := hleaf
              simp [prune, hgo, routers]
          | inr hnode =>
              obtain ⟨⟨key', left', right', rfl⟩, hlast⟩ := hnode
              rw [prune_right hgo]
              refine (((ihr hlast).append_left left.routers).trans List.perm_middle |>.cons key).trans ?_
              exact List.Perm.swap _ _ _

/-- Another search still visits what it has visited, except for the pruned router. -/
theorem mem_visited_prune {p : R} (hp : (t.visited go).getLast? = some p) (h : q ∈ t.visited go') (hne : q ≠ p) :
    q ∈ (t.prune go).visited go' := by
  induction t with
  | leaf l => cases h
  | node key left right ihl ihr =>
      rw [visited, List.mem_cons] at h
      have hcases := getLast?_visited hp
      cases hgo : go key with
      | true =>
          rw [hgo, if_pos rfl] at hcases
          cases hcases with
          | inl hleaf =>
              obtain ⟨l, rfl, rfl⟩ := hleaf
              have hright := h.resolve_left hne
              cases hgo' : go' p with
              | true =>
                  rw [hgo', if_pos rfl] at hright
                  cases hright
              | false =>
                  rw [hgo', if_neg Bool.false_ne_true] at hright
                  simpa [prune, hgo] using hright
          | inr hnode =>
              obtain ⟨⟨key', left', right', rfl⟩, hlast⟩ := hnode
              rw [prune_left hgo, visited, List.mem_cons]
              refine h.imp_right fun h => ?_
              cases hgo' : go' key with
              | true =>
                  rw [hgo', if_pos rfl] at h
                  exact ihl hlast h
              | false =>
                  rw [hgo', if_neg Bool.false_ne_true] at h
                  exact h
      | false =>
          rw [hgo, if_neg Bool.false_ne_true] at hcases
          cases hcases with
          | inl hleaf =>
              obtain ⟨l, rfl, rfl⟩ := hleaf
              have hleft := h.resolve_left hne
              cases hgo' : go' p with
              | true =>
                  rw [hgo', if_pos rfl] at hleft
                  simpa [prune, hgo] using hleft
              | false =>
                  rw [hgo', if_neg Bool.false_ne_true] at hleft
                  cases hleft
          | inr hnode =>
              obtain ⟨⟨key', left', right', rfl⟩, hlast⟩ := hnode
              rw [prune_right hgo, visited, List.mem_cons]
              refine h.imp_right fun h => ?_
              cases hgo' : go' key with
              | true =>
                  rw [hgo', if_pos rfl] at h
                  exact h
              | false =>
                  rw [hgo', if_neg Bool.false_ne_true] at h
                  exact ihr hlast h

/-! ## Labels -/

section

variable {f : R → R'} {g : L → L'} {turn : R' → Bool}

theorem leaves_map : (t.map f g).leaves = t.leaves.map g := by
  induction t with
  | leaf l => rfl
  | node key left right ihl ihr => rw [map, leaves, ihl, ihr, leaves, List.map_append]

theorem search_map : (t.map f g).search turn = g (t.search fun r => turn (f r)) := by
  induction t with
  | leaf l => rfl
  | node key left right ihl ihr =>
      rw [map, search, ihl, ihr, search]
      cases turn (f key) with
      | true => rfl
      | false => rfl

theorem graft_map : (t.graft (fun r => turn (f r)) x).map f g = (t.map f g).graft turn (x.map f g) := by
  induction t with
  | leaf l => rfl
  | node key left right ihl ihr =>
      rw [map, graft, graft]
      cases turn (f key) with
      | true => exact congrArg (fun left' => node (f key) left' (right.map f g)) ihl
      | false => exact congrArg (node (f key) (left.map f g)) ihr

theorem prune_map : (t.prune fun r => turn (f r)).map f g = (t.map f g).prune turn := by
  induction t with
  | leaf l => rfl
  | node key left right ihl ihr =>
      cases hturn : turn (f key) with
      | true =>
          cases left with
          | leaf l => simp [prune, map, hturn]
          | node key' left' right' =>
              rw [@prune_left R L (fun r => turn (f r)) key key' left' right' right hturn, map, ihl]
              exact (prune_left hturn).symm
      | false =>
          cases right with
          | leaf l => simp [prune, map, hturn]
          | node key' left' right' =>
              rw [@prune_right R L (fun r => turn (f r)) key key' left' right' left hturn, map, ihr]
              exact (prune_right hturn).symm

end

end

end ExternalTree.ExtTree
