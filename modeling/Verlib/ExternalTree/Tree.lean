import Mathlib.Order.Lattice

/-!
# External binary search trees

A tree whose internal nodes only route the search and whose data is in the leaves. A header above the tree has the
whole tree as its left child, so that every leaf has a parent. A search is a choice between the two children of every
internal node on its way; an update replaces the leaf where the search ends by a tree (`graft`), or the parent of this
leaf by the other child (`prune`). What an update does to the leaves from left to right is the same for all trees
grafted: those before and those after the end of the search stay.
-/

namespace ExternalTree

/-- A tree with routers of type `R` and leaves of type `L`. -/
inductive ExtTree (R L : Type) where
  | leaf (l : L)
  | node (key : R) (left right : ExtTree R L)

variable {R L : Type}

namespace ExtTree

/-- The leaves from left to right. -/
def leaves : ExtTree R L → List L
  | leaf l => [l]
  | node _ left right => left.leaves ++ right.leaves

/-- The leaf where a search ends; `go` says for which routers it goes left. -/
def search (go : R → Bool) : ExtTree R L → L
  | leaf l => l
  | node key left right => if go key then left.search go else right.search go

/-- Replace the leaf where a search ends. -/
def graft (go : R → Bool) : ExtTree R L → ExtTree R L → ExtTree R L
  | leaf _, x => x
  | node key left right, x =>
      if go key then node key (left.graft go x) right else node key left (right.graft go x)

/-- Replace the parent of the leaf where a search ends by its other child. A tree without a parent stays. -/
def prune (go : R → Bool) : ExtTree R L → ExtTree R L
  | leaf l => leaf l
  | node key left right =>
      if go key then
        match left with
        | leaf _ => right
        | node .. => node key (left.prune go) right
      else
        match right with
        | leaf _ => left
        | node .. => node key left (right.prune go)

/-! ## Addresses -/

/-- The turns of a search, `true` being left. -/
def path (go : R → Bool) : ExtTree R L → List Bool
  | leaf _ => []
  | node key left right => go key :: if go key then left.path go else right.path go

/-- The subtree at the end of some turns. -/
def get : ExtTree R L → List Bool → Option (ExtTree R L)
  | t, [] => some t
  | leaf _, _ :: _ => none
  | node _ left right, turn :: rest => if turn then left.get rest else right.get rest

/-- Replace the subtree at the end of some turns. -/
def set : ExtTree R L → List Bool → ExtTree R L → ExtTree R L
  | _, [], x => x
  | leaf l, _ :: _, _ => leaf l
  | node key left right, turn :: rest, x =>
      if turn then node key (left.set rest x) right else node key left (right.set rest x)

end ExtTree

/-- The turns from the header to a node; the first one is left. -/
abbrev Address := List Bool

/-- Load from the address below the header. -/
def load (t : ExtTree R L) : Address → Option (ExtTree R L)
  | true :: rest => t.get rest
  | _ => none

/-- Store to the address below the header. -/
def store (t : ExtTree R L) (a : Address) (x : ExtTree R L) : ExtTree R L :=
  match a with
  | true :: rest => t.set rest x
  | _ => t

/-- The end of a search: the grandparent, if the parent is not the header, and the parent, each with the turn that is
taken there, and the leaf. -/
structure Location (L : Type) where
  gp : Option Address
  gpLeft : Bool
  p : Address
  pLeft : Bool
  l : L

/-- A search that has come to the child `t` of `p`. -/
def locateFrom (go : R → Bool) : Option Address → Bool → Address → Bool → ExtTree R L → Location L
  | gp, gpLeft, p, pLeft, .leaf l => ⟨gp, gpLeft, p, pLeft, l⟩
  | _, _, p, pLeft, .node key left right =>
      if go key then locateFrom go (some p) pLeft (p ++ [pLeft]) true left
      else locateFrom go (some p) pLeft (p ++ [pLeft]) false right

/-- A search from the header. -/
def locate (go : R → Bool) (t : ExtTree R L) : Location L :=
  locateFrom go none false [] true t

/-- The other child of the parent takes the place of the parent. It needs a grandparent. -/
def unlink (t : ExtTree R L) (loc : Location L) : Option (ExtTree R L) := do
  let gp ← loc.gp
  match load t loc.p with
  | some (.node _ left right) => pure (store t (gp ++ [loc.gpLeft]) (if loc.pLeft then right else left))
  | _ => none

section

variable {go : R → Bool} {t x : ExtTree R L}

/-- Storing at the end of a search. -/
theorem ExtTree.set_path : t.set (t.path go) x = t.graft go x := by
  induction t with
  | leaf l => rfl
  | node key left right ihl ihr =>
      cases hgo : go key with
      | true => simp only [path, set, graft, hgo, if_true, ihl]
      | false => simp only [path, set, graft, hgo, if_false, ihr, Bool.false_eq_true]

/-- Where a search ends. -/
theorem locateFrom_spec (go : R → Bool) (t : ExtTree R L) (gp : Option Address) (gpLeft : Bool) (p : Address)
    (pLeft : Bool) :
    (locateFrom go gp gpLeft p pLeft t).l = t.search go ∧
    (locateFrom go gp gpLeft p pLeft t).p ++ [(locateFrom go gp gpLeft p pLeft t).pLeft] =
      p ++ pLeft :: t.path go ∧
    (t.path go = [] → (locateFrom go gp gpLeft p pLeft t).gp = gp) ∧
    (t.path go ≠ [] → ∃ g, (locateFrom go gp gpLeft p pLeft t).gp = some g ∧
      g ++ [(locateFrom go gp gpLeft p pLeft t).gpLeft] = (locateFrom go gp gpLeft p pLeft t).p) := by
  induction t generalizing gp gpLeft p pLeft with
  | leaf l => exact ⟨rfl, rfl, fun _ => rfl, fun h => absurd rfl h⟩
  | node key left right ihl ihr =>
      have hsame : ∀ (child : ExtTree R L) (gp' : Option Address) (gpLeft' pLeft' : Bool), child.path go = [] →
          (locateFrom go gp' gpLeft' (p ++ [pLeft]) pLeft' child).gp = gp' ∧
          (locateFrom go gp' gpLeft' (p ++ [pLeft]) pLeft' child).gpLeft = gpLeft' ∧
          (locateFrom go gp' gpLeft' (p ++ [pLeft]) pLeft' child).p = p ++ [pLeft] := by
        intro child gp' gpLeft' pLeft' hpath
        cases child with
        | leaf l => exact ⟨rfl, rfl, rfl⟩
        | node => cases hpath
      rw [locateFrom, ExtTree.search, ExtTree.path]
      cases hgo : go key with
      | true =>
          obtain ⟨hl, hp, -, hgp⟩ := ihl (some p) pLeft (p ++ [pLeft]) true
          simp only [if_true]
          refine ⟨hl, by rw [hp, List.append_assoc]; rfl, fun h => (by cases h), fun _ => ?_⟩
          by_cases hpath : left.path go = []
          · obtain ⟨hsgp, hsturn, hsp⟩ := hsame left (some p) pLeft true hpath
            exact ⟨p, hsgp, by rw [hsturn, hsp]⟩
          · exact hgp hpath
      | false =>
          obtain ⟨hl, hp, -, hgp⟩ := ihr (some p) pLeft (p ++ [pLeft]) false
          simp only [if_false, Bool.false_eq_true]
          refine ⟨hl, by rw [hp, List.append_assoc]; rfl, fun h => (by cases h), fun _ => ?_⟩
          by_cases hpath : right.path go = []
          · obtain ⟨hsgp, hsturn, hsp⟩ := hsame right (some p) pLeft false hpath
            exact ⟨p, hsgp, by rw [hsturn, hsp]⟩
          · exact hgp hpath

/-- Pruning further down, on the left. -/
theorem ExtTree.prune_left {key key' : R} {left right left' : ExtTree R L} (hgo : go key = true) :
    (node key (node key' left right) left').prune go = node key ((node key' left right).prune go) left' := by
  rw [prune.eq_def]
  simp only [hgo, if_true]

/-- Pruning further down, on the right. -/
theorem ExtTree.prune_right {key key' : R} {left right left' : ExtTree R L} (hgo : go key = false) :
    (node key left' (node key' left right)).prune go = node key left' ((node key' left right).prune go) := by
  rw [prune.eq_def]
  simp only [hgo, if_false, Bool.false_eq_true]

/-- The parent of the leaf where a search ends, and what takes its place when it is pruned. -/
theorem ExtTree.exists_parent (h : t.path go ≠ []) :
    ∃ turns key left right, t.path go = turns ++ [go key] ∧ t.get turns = some (node key left right) ∧
      t.set turns (if go key then right else left) = t.prune go := by
  induction t with
  | leaf l => exact absurd rfl h
  | node key left right ihl ihr =>
      cases hgo : go key with
      | true =>
          cases left with
          | leaf l => exact ⟨[], key, leaf l, right, by simp [path, hgo], rfl, by simp [set, prune, hgo]⟩
          | node key' left' right' =>
              obtain ⟨turns, key'', left'', right'', hpath, hget, hset⟩ := ihl (by simp [path])
              refine ⟨true :: turns, key'', left'', right'', ?_, by simpa [get] using hget, ?_⟩
              · rw [path, hgo, if_pos rfl, hpath]
                rfl
              · rw [set, if_pos rfl, hset, prune_left hgo]
      | false =>
          cases right with
          | leaf l => exact ⟨[], key, left, leaf l, by simp [path, hgo], rfl, by simp [set, prune, hgo]⟩
          | node key' left' right' =>
              obtain ⟨turns, key'', left'', right'', hpath, hget, hset⟩ := ihr (by simp [path])
              refine ⟨false :: turns, key'', left'', right'', ?_, by simpa [get] using hget, ?_⟩
              · rw [path, hgo, if_neg Bool.false_ne_true, hpath]
                rfl
              · rw [set, if_neg Bool.false_ne_true, hset, prune_right hgo]

/-- Grafting the leaf that is there. -/
theorem ExtTree.graft_search : t.graft go (.leaf (t.search go)) = t := by
  induction t with
  | leaf l => rfl
  | node key left right ihl ihr =>
      cases hgo : go key with
      | true => simp only [graft, search, hgo, if_true, ihl]
      | false => simp only [graft, search, hgo, if_false, ihr, Bool.false_eq_true]

/-- A search from the header ends at the leaf of the search, and storing there grafts. -/
theorem locate_leaf (go : R → Bool) (t : ExtTree R L) :
    (locate go t).l = t.search go ∧
      ∀ x, store t ((locate go t).p ++ [(locate go t).pLeft]) x = t.graft go x := by
  obtain ⟨hl, hp, -, -⟩ := locateFrom_spec go t none false [] true
  refine ⟨hl, fun x => ?_⟩
  rw [locate, hp]
  exact ExtTree.set_path

/-- The parent of a leaf is the header if the tree is a leaf; otherwise it is pruned. -/
theorem unlink_locate (go : R → Bool) (t : ExtTree R L) :
    (∃ l, t = .leaf l ∧ (locate go t).gp = none) ∨
      (∀ l, t ≠ .leaf l) ∧ (locate go t).gp.isSome ∧ unlink t (locate go t) = some (t.prune go) := by
  obtain ⟨-, hp, hnil, hgp⟩ := locateFrom_spec go t none false [] true
  cases t with
  | leaf l => exact .inl ⟨l, rfl, hnil rfl⟩
  | node key left right =>
      have hpath : (ExtTree.node key left right).path go ≠ [] := fun h => by cases h
      obtain ⟨gp, hsome, hturn⟩ := hgp hpath
      obtain ⟨turns, key', left', right', hturns, hget, hset⟩ := ExtTree.exists_parent hpath
      rw [hturns, List.nil_append, ← List.cons_append] at hp
      obtain ⟨hparent, hlast⟩ := List.append_inj' hp rfl
      have hleft := (List.cons.inj hlast).1
      refine .inr ⟨fun l hl => (by cases hl), by rw [locate, hsome]; rfl, ?_⟩
      rw [unlink, locate, hsome]
      simp only [bind, Option.bind_some, hturn, hparent, hleft, load, hget, pure, store, hset]

/-! ## Leaves -/

/-- Where a search ends among the leaves: `before` are those to its left, and `after` those to its right. -/
structure Split (go : R → Bool) (t : ExtTree R L) (before after : List L) : Prop where
  leaves : t.leaves = before ++ t.search go :: after
  graft : ∀ x, (t.graft go x).leaves = before ++ x.leaves ++ after
  prune : (∀ l, t ≠ .leaf l) → (t.prune go).leaves = before ++ after

/-- A leaf where a search ends is the only one of its tree. -/
theorem Split.nil {l : L} {before after : List L} (h : Split go (.leaf l : ExtTree R L) before after) :
    before = [] ∧ after = [] := by
  have hlen := congrArg List.length h.leaves
  simp only [ExtTree.leaves, List.length_append, List.length_cons, List.length_nil] at hlen
  exact ⟨List.length_eq_zero_iff.mp (by omega), List.length_eq_zero_iff.mp (by omega)⟩

/-- The split of a tree where the search goes left. -/
theorem Split.left {key : R} {left right : ExtTree R L} {before after : List L} (hgo : go key = true)
    (h : Split go left before after) : Split go (.node key left right) before (after ++ right.leaves) := by
  refine ⟨?_, fun x => ?_, fun _ => ?_⟩
  · rw [ExtTree.leaves, ExtTree.search, hgo, if_pos rfl, h.leaves, List.append_assoc, List.cons_append]
  · rw [ExtTree.graft, hgo, if_pos rfl, ExtTree.leaves, h.graft, List.append_assoc]
  · cases left with
    | leaf l =>
        obtain ⟨rfl, rfl⟩ := h.nil
        simp [ExtTree.prune, hgo]
    | node key' left' right' =>
        rw [ExtTree.prune_left hgo, ExtTree.leaves, h.prune (fun l hl => by cases hl), List.append_assoc]

/-- The split of a tree where the search goes right. -/
theorem Split.right {key : R} {left right : ExtTree R L} {before after : List L} (hgo : go key = false)
    (h : Split go right before after) : Split go (.node key left right) (left.leaves ++ before) after := by
  refine ⟨?_, fun x => ?_, fun _ => ?_⟩
  · rw [ExtTree.leaves, ExtTree.search, hgo, if_neg Bool.false_ne_true, h.leaves, List.append_assoc]
  · rw [ExtTree.graft, hgo, if_neg Bool.false_ne_true, ExtTree.leaves, h.graft, List.append_assoc, List.append_assoc,
      List.append_assoc]
  · cases right with
    | leaf l =>
        obtain ⟨rfl, rfl⟩ := h.nil
        simp [ExtTree.prune, hgo]
    | node key' left' right' =>
        rw [ExtTree.prune_right hgo, ExtTree.leaves, h.prune (fun l hl => by cases hl), List.append_assoc]

/-- The leaves, by the end of a search. -/
theorem Split.mem_leaves {before after : List L} (h : Split go t before after) {l : L} :
    l ∈ t.leaves ↔ l ∈ before ++ after ∨ l = t.search go := by
  rw [h.leaves, List.mem_append, List.mem_append, List.mem_cons, or_left_comm, or_comm]

/-- The leaves after grafting. -/
theorem Split.mem_graft {before after : List L} (h : Split go t before after) {l : L} :
    l ∈ (t.graft go x).leaves ↔ l ∈ before ++ after ∨ l ∈ x.leaves := by
  rw [h.graft, List.mem_append, List.mem_append, List.mem_append, or_right_comm]

end

/-! ## Routers -/

section

variable {K : Type} [LinearOrder K] {has : L → K → Prop} {t x : ExtTree K L} {k : K}

/-- The search for a key. -/
def toward (k key : K) : Bool := decide (k < key)

/-- The routers separate the keys: those to the left of a router are smaller, and those to the right are not. `has` says
which keys a leaf has. -/
def Routed (has : L → K → Prop) : ExtTree K L → Prop
  | .leaf _ => True
  | .node key left right =>
      (∀ l ∈ left.leaves, ∀ k, has l k → k < key) ∧ (∀ l ∈ right.leaves, ∀ k, has l k → key ≤ k) ∧
        Routed has left ∧ Routed has right

/-- A search splits the leaves, and the keys with them. -/
theorem Routed.split (h : Routed has t) (k : K) :
    ∃ before after, Split (toward k) t before after ∧ (∀ l ∈ before, ∀ k', has l k' → k' < k) ∧
      ∀ l ∈ after, ∀ k', has l k' → k < k' := by
  induction t with
  | leaf l =>
      refine ⟨[], [], ⟨rfl, fun x => (List.append_nil _).symm, fun hne => absurd rfl (hne l)⟩,
        fun l hl => (by cases hl), fun l hl => by cases hl⟩
  | node key left right ihl ihr =>
      obtain ⟨hleft, hright, hrl, hrr⟩ := h
      by_cases hlt : k < key
      · obtain ⟨before, after, hsplit, hbefore, hafter⟩ := ihl hrl
        refine ⟨_, _, hsplit.left (decide_eq_true hlt), hbefore, fun l hl k' hk' => ?_⟩
        cases List.mem_append.mp hl with
        | inl hl => exact hafter l hl k' hk'
        | inr hl => exact hlt.trans_le (hright l hl k' hk')
      · obtain ⟨before, after, hsplit, hbefore, hafter⟩ := ihr hrr
        refine ⟨_, _, hsplit.right (decide_eq_false hlt), fun l hl k' hk' => ?_, hafter⟩
        cases List.mem_append.mp hl with
        | inl hl => exact (hleft l hl k' hk').trans_le (not_lt.mp hlt)
        | inr hl => exact hbefore l hl k' hk'

/-- Grafting a tree with no other keys than the leaf had and the one that is searched for. -/
theorem Routed.graft (h : Routed has t) (hx : Routed has x)
    (hkeys : ∀ l ∈ x.leaves, ∀ k', has l k' → has (t.search (toward k)) k' ∨ k' = k) :
    Routed has (t.graft (toward k) x) := by
  induction t with
  | leaf l => exact hx
  | node key left right ihl ihr =>
      obtain ⟨hleft, hright, hrl, hrr⟩ := h
      rw [ExtTree.search] at hkeys
      by_cases hlt : k < key
      · have hgo : toward k key = true := decide_eq_true hlt
        rw [hgo, if_pos rfl] at hkeys
        rw [ExtTree.graft, hgo, if_pos rfl]
        obtain ⟨before, after, hsplit, -⟩ := hrl.split k
        refine ⟨fun l hl k' hk' => ?_, hright, ihl hrl hkeys, hrr⟩
        rw [hsplit.leaves] at hleft
        rw [hsplit.graft, List.append_assoc, List.mem_append, List.mem_append] at hl
        cases hl with
        | inl hl => exact hleft l (List.mem_append_left _ hl) k' hk'
        | inr hl =>
            cases hl with
            | inl hl =>
                cases hkeys l hl k' hk' with
                | inl hold => exact hleft _ (by simp) k' hold
                | inr heq => rw [heq]; exact hlt
            | inr hl => exact hleft l (by simp [hl]) k' hk'
      · have hgo : toward k key = false := decide_eq_false hlt
        rw [hgo, if_neg Bool.false_ne_true] at hkeys
        rw [ExtTree.graft, hgo, if_neg Bool.false_ne_true]
        obtain ⟨before, after, hsplit, -⟩ := hrr.split k
        refine ⟨hleft, fun l hl k' hk' => ?_, hrl, ihr hrr hkeys⟩
        rw [hsplit.leaves] at hright
        rw [hsplit.graft, List.append_assoc, List.mem_append, List.mem_append] at hl
        cases hl with
        | inl hl => exact hright l (List.mem_append_left _ hl) k' hk'
        | inr hl =>
            cases hl with
            | inl hl =>
                cases hkeys l hl k' hk' with
                | inl hold => exact hright _ (by simp) k' hold
                | inr heq => rw [heq]; exact not_lt.mp hlt
            | inr hl => exact hright l (by simp [hl]) k' hk'

/-- Pruning. -/
theorem Routed.prune (h : Routed has t) : Routed has (t.prune (toward k)) := by
  induction t with
  | leaf l => exact h
  | node key left right ihl ihr =>
      obtain ⟨hleft, hright, hrl, hrr⟩ := h
      by_cases hlt : k < key
      · have hgo : toward k key = true := decide_eq_true hlt
        cases left with
        | leaf l => simpa [ExtTree.prune, hgo] using hrr
        | node key' left' right' =>
            obtain ⟨before, after, hsplit, -⟩ := hrl.split k
            rw [ExtTree.prune_left hgo]
            refine ⟨fun l hl k' hk' => ?_, hright, ihl hrl, hrr⟩
            rw [hsplit.leaves] at hleft
            rw [hsplit.prune (fun l hl => by cases hl), List.mem_append] at hl
            exact hleft l (by cases hl with | inl hl => simp [hl] | inr hl => simp [hl]) k' hk'
      · have hgo : toward k key = false := decide_eq_false hlt
        cases right with
        | leaf l => simpa [ExtTree.prune, hgo] using hrl
        | node key' left' right' =>
            obtain ⟨before, after, hsplit, -⟩ := hrr.split k
            rw [ExtTree.prune_right hgo]
            refine ⟨hleft, fun l hl k' hk' => ?_, hrl, ihr hrr⟩
            rw [hsplit.leaves] at hright
            rw [hsplit.prune (fun l hl => by cases hl), List.mem_append] at hl
            exact hright l (by cases hl with | inl hl => simp [hl] | inr hl => simp [hl]) k' hk'

end

end ExternalTree
