import Verlib.ExternalTree.Tree
import Verlib.OrderedMap.Map

/-!
# The leaf-oriented tree

The operations of `leaftree/ordered_map.h`. The `root` has the tree as its left child, and every leaf but the sentinel
has one key. In a sequential run every lock is free, and what is checked under it still holds, so every attempt
succeeds. Nodes are retired when they have been replaced, and an internal node is marked as removed then, so neither is
part of the tree. A fault (`none`) is the use of a null `gp`.
-/

namespace Verlib.LeafTree

open ExternalTree OrderedMap

/-- A leaf. -/
inductive Leaf (K V : Type) where
  | sentinal
  | leaf (key : K) (value : V)

/-- The sentinel stays the leftmost leaf only, if it is the first of the new leaves just when it was there before. -/
theorem sentinal_replace {K V : Type} {l first : Leaf K V} {before after new : List (Leaf K V)}
    (h : ∃ rest, before ++ l :: after = .sentinal :: rest ∧ .sentinal ∉ rest) (hnew : .sentinal ∉ new)
    (hfirst : first = .sentinal ↔ l = .sentinal) :
    ∃ rest, before ++ (first :: new) ++ after = .sentinal :: rest ∧ .sentinal ∉ rest := by
  obtain ⟨rest, heq, hrest⟩ := h
  cases before with
  | nil =>
      obtain ⟨hl, rfl⟩ := List.cons.inj heq
      exact ⟨new ++ after, by rw [hfirst.mpr hl]; rfl, by simp [hnew, hrest]⟩
  | cons b before =>
      obtain ⟨rfl, rfl⟩ := List.cons.inj heq
      have hparts : .sentinal ∉ before ++ l :: after := hrest
      rw [List.mem_append, List.mem_cons, not_or, not_or] at hparts
      obtain ⟨hbefore, hl, hafter⟩ := hparts
      have hne : Leaf.sentinal ≠ first := fun hs => hl (hfirst.mp hs.symm).symm
      refine ⟨before ++ (first :: new) ++ after, rfl, ?_⟩
      rw [List.mem_append, List.mem_append, List.mem_cons, not_or, not_or, not_or]
      exact ⟨⟨hbefore, hne, hnew⟩, hafter⟩

variable {K V : Type} [LinearOrder K]

namespace Leaf

def isSentinal : Leaf K V → Bool
  | sentinal => true
  | leaf .. => false

/-- `Less`, of a leaf. -/
def less (k : K) : Leaf K V → Bool
  | sentinal => false
  | leaf key _ => decide (k < key)

/-- `Equal`. -/
def equal (k : K) : Leaf K V → Bool
  | sentinal => false
  | leaf key _ => !(decide (k < key) || decide (key < k))

/-- The value of a leaf with the key. -/
def valueFor (k : K) : Leaf K V → Option V
  | sentinal => none
  | leaf key value => if (leaf key value).equal k then some value else none

end Leaf

/-- `find_location`. No internal node below the root is the sentinel. -/
def findLocation (t : ExtTree K (Leaf K V)) (k : K) : Location (Leaf K V) :=
  locate (toward k) t

/-- The subtree with a new leaf that `try_insert` writes in the place of the leaf `l`. -/
def newInternal (l : Leaf K V) (k : K) (v : V) : ExtTree K (Leaf K V) :=
  match l with
  | .sentinal => .node k (.leaf .sentinal) (.leaf (.leaf k v))
  | .leaf key value =>
      if (Leaf.leaf key value).less k then .node key (.leaf (.leaf k v)) (.leaf (.leaf key value))
      else .node k (.leaf (.leaf key value)) (.leaf (.leaf k v))

/-- `try_insert`. The code that would use the flag `upsert` is commented out. -/
def tryInsert (t : ExtTree K (Leaf K V)) (k : K) (v : V) (_upsert : Bool) : ExtTree K (Leaf K V) × Bool :=
  let loc := findLocation t k
  if loc.l.equal k then (t, false)
  else (store t (loc.p ++ [loc.pLeft]) (newInternal loc.l k v), !loc.l.equal k)

/-- `insert`. -/
def insert (t : ExtTree K (Leaf K V)) (k : K) (v : V) : ExtTree K (Leaf K V) × Bool := tryInsert t k v false

/-- `upsert`. -/
def upsert (t : ExtTree K (Leaf K V)) (k : K) (v : V) : ExtTree K (Leaf K V) × Bool := tryInsert t k v true

/-- `try_remove`. -/
def remove (t : ExtTree K (Leaf K V)) (k : K) : Option (ExtTree K (Leaf K V) × Bool) :=
  let loc := findLocation t k
  if loc.l.isSentinal then some (t, false)
  else if !loc.l.equal k then loc.gp.map fun _ => (t, false)
  else (unlink t loc).map fun t' => (t', true)

/-- `find_`. -/
def find (t : ExtTree K (Leaf K V)) (k : K) : Option V :=
  (t.search (toward k)).valueFor k

/-- The constructor of the map: the tree below the root is the sentinel. -/
def empty : ExtTree K (Leaf K V) := .leaf .sentinal

/-- An operation. -/
def perform (t : ExtTree K (Leaf K V)) : UpsertOp K V → Option (ExtTree K (Leaf K V) × Result V)
  | .plain (.insert k v) => some ((insert t k v).1, .changed (insert t k v).2)
  | .plain (.remove k) => (remove t k).map fun r => (r.1, .changed r.2)
  | .plain (.find k) => some (t, .found (find t k))
  | .upsert k v => some ((upsert t k v).1, .changed (upsert t k v).2)

/-! ## The invariant -/

/-- The leaf has the key. -/
def HasKey (l : Leaf K V) (k : K) : Prop := ∃ v, l = .leaf k v

/-- The tree is a search tree with the sentinel as its leftmost leaf only, and its leaves hold the map. -/
structure Represents (t : ExtTree K (Leaf K V)) (m : K → Option V) : Prop where
  leaves : ∃ rest, t.leaves = .sentinal :: rest ∧ .sentinal ∉ rest
  routed : Routed HasKey t
  mem : ∀ k v, .leaf k v ∈ t.leaves ↔ m k = some v

section

variable {t : ExtTree K (Leaf K V)} {m : K → Option V} {k : K} {v : V} {before after : List (Leaf K V)}

theorem Leaf.equal_iff {l : Leaf K V} : l.equal k = true ↔ HasKey l k := by
  cases l with
  | sentinal => exact iff_of_false Bool.false_ne_true fun h => by obtain ⟨_, h⟩ := h; cases h
  | leaf key value =>
      rw [equal, Bool.not_eq_true', Bool.or_eq_false_iff, decide_eq_false_iff_not, decide_eq_false_iff_not, not_lt,
        not_lt]
      constructor
      · intro h
        exact ⟨value, by rw [le_antisymm h.1 h.2]⟩
      · intro h
        obtain ⟨_, h⟩ := h
        cases h
        exact ⟨le_rfl, le_rfl⟩

/-- The empty map. -/
theorem represents_empty : Represents (empty : ExtTree K (Leaf K V)) fun _ => none := by
  refine ⟨⟨[], rfl, List.not_mem_nil⟩, trivial, fun k v => iff_of_false (fun h => ?_) fun h => by cases h⟩
  rw [empty, ExtTree.leaves, List.mem_singleton] at h
  cases h

/-- Where a search for a key ends: the key is in no leaf but the one found. -/
structure Found (t : ExtTree K (Leaf K V)) (m : K → Option V) (k : K) (before after : List (Leaf K V)) : Prop where
  split : Split (toward k) t before after
  valueFor : (t.search (toward k)).valueFor k = m k
  other : ∀ v, .leaf k v ∉ before ++ after

/-- The end of a search. -/
theorem Represents.search (h : Represents t m) (k : K) : ∃ before after, Found t m k before after := by
  obtain ⟨before, after, hsplit, hbefore, hafter⟩ := h.routed.split k
  have hother : ∀ v, .leaf k v ∉ before ++ after := by
    intro v hmem
    cases List.mem_append.mp hmem with
    | inl hmem => exact lt_irrefl k (hbefore _ hmem k ⟨v, rfl⟩)
    | inr hmem => exact lt_irrefl k (hafter _ hmem k ⟨v, rfl⟩)
  have hiff : ∀ v, t.search (toward k) = .leaf k v ↔ m k = some v := by
    intro v
    rw [← h.mem, hsplit.leaves]
    constructor
    · intro heq
      simp [heq]
    · intro hmem
      rw [List.mem_append, List.mem_cons, or_left_comm, ← List.mem_append] at hmem
      exact (hmem.resolve_right (hother v)).symm
  refine ⟨before, after, hsplit, Option.ext fun v => ?_, hother⟩
  rw [← hiff v]
  cases hl : t.search (toward k) with
  | sentinal => simp [Leaf.valueFor]
  | leaf key value =>
      rw [Leaf.valueFor]
      by_cases heq : (Leaf.leaf key value).equal k = true
      · obtain ⟨_, hkey⟩ := Leaf.equal_iff.mp heq
        cases hkey
        simp [heq]
      · have hne : key ≠ k := fun hkey => heq (Leaf.equal_iff.mpr ⟨value, by rw [hkey]⟩)
        simp [heq, hne]

/-- `find`. -/
theorem Represents.find (h : Represents t m) : find t k = m k := by
  obtain ⟨before, after, hfound⟩ := h.search k
  exact hfound.valueFor

/-- The leaf found has the key if and only if the map has it. -/
theorem Found.equal (h : Found t m k before after) : (t.search (toward k)).equal k = (m k).isSome := by
  rw [← h.valueFor]
  cases t.search (toward k) with
  | sentinal => rfl
  | leaf key value =>
      rw [Leaf.valueFor]
      cases (Leaf.leaf key value).equal k with
      | true => rfl
      | false => rfl

/-! ## The operations -/

/-- The subtree with a new leaf. -/
theorem newInternal_spec {l : Leaf K V} (hl : ¬ HasKey l k) :
    (∃ first rest, (newInternal l k v).leaves = first :: rest ∧ .sentinal ∉ rest ∧
      (first = .sentinal ↔ l = .sentinal)) ∧
    (∀ l', l' ∈ (newInternal l k v).leaves ↔ l' = .leaf k v ∨ l' = l) ∧ Routed HasKey (newInternal l k v) := by
  cases l with
  | sentinal =>
      refine ⟨⟨.sentinal, [.leaf k v], rfl, by simp, Iff.rfl⟩,
        fun l' => by simp [newInternal, ExtTree.leaves, or_comm], ?_⟩
      refine ⟨fun l' hl' k' hk' => ?_, fun l' hl' k' hk' => ?_, trivial, trivial⟩
      · obtain ⟨_, rfl⟩ := hk'
        simp [ExtTree.leaves] at hl'
      · obtain ⟨_, rfl⟩ := hk'
        simp [ExtTree.leaves] at hl'
        exact hl'.1.ge
  | leaf key value =>
      have hne : key ≠ k := fun heq => hl ⟨value, by rw [heq]⟩
      rw [newInternal, Leaf.less]
      by_cases hlt : k < key
      · rw [if_pos (decide_eq_true hlt)]
        refine ⟨⟨.leaf k v, [.leaf key value], rfl, by simp, by simp⟩, fun l' => by simp [ExtTree.leaves], ?_⟩
        refine ⟨fun l' hl' k' hk' => ?_, fun l' hl' k' hk' => ?_, trivial, trivial⟩
        · obtain ⟨_, rfl⟩ := hk'
          simp [ExtTree.leaves] at hl'
          rw [hl'.1]
          exact hlt
        · obtain ⟨_, rfl⟩ := hk'
          simp [ExtTree.leaves] at hl'
          exact hl'.1.ge
      · rw [if_neg (by simpa using hlt)]
        refine ⟨⟨.leaf key value, [.leaf k v], rfl, by simp, by simp⟩, fun l' => by simp [ExtTree.leaves, or_comm], ?_⟩
        refine ⟨fun l' hl' k' hk' => ?_, fun l' hl' k' hk' => ?_, trivial, trivial⟩
        · obtain ⟨_, rfl⟩ := hk'
          simp [ExtTree.leaves] at hl'
          rw [hl'.1]
          exact lt_of_le_of_ne (not_lt.mp hlt) hne
        · obtain ⟨_, rfl⟩ := hk'
          simp [ExtTree.leaves] at hl'
          exact hl'.1.ge

/-- `try_insert` acts as an insertion, with or without the flag. -/
theorem Represents.tryInsert (h : Represents t m) (k : K) (v : V) (upsert : Bool) :
    (tryInsert t k v upsert).2 = (m k).isNone ∧
      Represents (tryInsert t k v upsert).1 (if (m k).isSome then m else Function.update m k (some v)) := by
  obtain ⟨before, after, hfound⟩ := h.search k
  obtain ⟨hleaf, hstore⟩ := locate_leaf (toward k) t
  rw [LeafTree.tryInsert]
  simp only [findLocation, hleaf, hstore, hfound.equal]
  cases hk : m k with
  | some old => exact ⟨rfl, h⟩
  | none =>
      have hnot : ¬ HasKey (t.search (toward k)) k := by
        rw [← Leaf.equal_iff, hfound.equal, hk]
        exact Bool.false_ne_true
      obtain ⟨⟨first, new, hleaves, hnew, hfirst⟩, hmem, hrouted⟩ := newInternal_spec (v := v) hnot
      refine ⟨rfl, ?_, h.routed.graft hrouted ?_, fun k' v' => ?_⟩
      · have hold := h.leaves
        rw [hfound.split.leaves] at hold
        show ∃ rest, (t.graft (toward k) _).leaves = .sentinal :: rest ∧ _
        rw [hfound.split.graft, hleaves]
        exact sentinal_replace hold hnew hfirst
      · intro l hl k' hk'
        cases (hmem l).mp hl with
        | inl heq =>
            obtain ⟨_, hk'⟩ := hk'
            rw [heq] at hk'
            cases hk'
            exact .inr rfl
        | inr heq =>
            rw [← heq]
            exact .inl hk'
      · show Leaf.leaf k' v' ∈ (t.graft (toward k) _).leaves ↔ Function.update m k (some v) k' = some v'
        rw [hfound.split.mem_graft, hmem, or_left_comm, ← hfound.split.mem_leaves, h.mem, Leaf.leaf.injEq,
          Function.update_apply]
        by_cases heq : k' = k
        · rw [if_pos heq, heq, hk, Option.some.injEq]
          constructor
          · intro hv
            cases hv with
            | inl hv => exact hv.2.symm
            | inr hv => cases hv
          · exact fun hv => .inl ⟨rfl, hv.symm⟩
        · rw [if_neg heq]
          exact or_iff_right fun hv => heq hv.1

/-- `try_remove` acts as a removal. -/
theorem Represents.remove (h : Represents t m) (k : K) :
    ∃ t', remove t k = some (t', (m k).isSome) ∧
      Represents t' (if (m k).isSome then Function.update m k none else m) := by
  obtain ⟨before, after, hfound⟩ := h.search k
  obtain ⟨hleaf, -⟩ := locate_leaf (toward k) t
  obtain ⟨rest, hrest, hsentinal⟩ := h.leaves
  rw [LeafTree.remove]
  simp only [findLocation, hleaf, hfound.equal]
  cases hl : t.search (toward k) with
  | sentinal =>
      have hk : m k = none := by rw [← hfound.valueFor, hl]; rfl
      rw [hk]
      exact ⟨t, rfl, h⟩
  | leaf key value =>
      have hsplit := hfound.split.leaves
      rw [hrest, hl] at hsplit
      -- The sentinel is to the left, so the parent is not the root.
      cases unlink_locate (toward k) t with
      | inl hheader =>
          obtain ⟨l, rfl, -⟩ := hheader
          obtain ⟨rfl, rfl⟩ := hfound.split.nil
          cases hsplit
      | inr hparent =>
          obtain ⟨hnode, hgp, hunlink⟩ := hparent
          cases hk : m k with
          | none =>
              obtain ⟨gp, hgp⟩ := Option.isSome_iff_exists.mp hgp
              exact ⟨t, by simp [Leaf.isSentinal, hgp], h⟩
          | some v =>
              have hprune := hfound.split.prune hnode
              refine ⟨t.prune (toward k), by simp [Leaf.isSentinal, hunlink], ?_, h.routed.prune, fun k' v' => ?_⟩
              · cases before with
                | nil => cases hsplit
                | cons b before =>
                    obtain ⟨rfl, rfl⟩ := List.cons.inj hsplit
                    refine ⟨before ++ after, hprune, fun hs => hsentinal ?_⟩
                    cases List.mem_append.mp hs with
                    | inl hs => exact List.mem_append_left _ hs
                    | inr hs => exact List.mem_append_right _ (List.mem_cons_of_mem _ hs)
              · rw [hprune]
                show _ ↔ Function.update m k none k' = some v'
                rw [Function.update_apply]
                by_cases heq : k' = k
                · rw [if_pos heq, heq]
                  exact iff_of_false (hfound.other v') fun hnone => by cases hnone
                · rw [if_neg heq, ← h.mem, hfound.split.mem_leaves]
                  refine (or_iff_left fun hin => heq ?_).symm
                  have hkey : HasKey (t.search (toward k)) k := by
                    rw [← Leaf.equal_iff, hfound.equal, hk]
                    rfl
                  obtain ⟨_, hkey⟩ := hkey
                  rw [hkey] at hin
                  cases hin
                  rfl

end

/-! ## Runs -/

/-- What the operations do to a map: `upsert` is an insertion. -/
def act (m : K → Option V) : UpsertOp K V → (K → Option V) × Result V
  | .plain op => op.act m
  | .upsert k v => (Op.insert k v).act m

/-- Every operation acts as on the map. -/
theorem Represents.perform {t : ExtTree K (Leaf K V)} {m : K → Option V} (h : Represents t m) (op : UpsertOp K V) :
    ∃ t', perform t op = some (t', (act m op).2) ∧ Represents t' (act m op).1 := by
  have hinsert : ∀ k v upsert, Result.changed (LeafTree.tryInsert t k v upsert).2 = ((Op.insert k v).act m).2 ∧
      Represents (LeafTree.tryInsert t k v upsert).1 ((Op.insert k v).act m).1 := by
    intro k v upsert
    obtain ⟨hr, ht⟩ := h.tryInsert k v upsert
    rw [Op.act_insert, hr]
    exact ⟨rfl, ht⟩
  cases op with
  | plain op =>
      cases op with
      | insert k v =>
          obtain ⟨hr, ht⟩ := hinsert k v false
          exact ⟨_, congrArg (fun r => some (_, r)) hr, ht⟩
      | remove k =>
          obtain ⟨t', hremove, ht'⟩ := h.remove k
          rw [LeafTree.perform, hremove, act, Op.act_remove]
          exact ⟨t', rfl, ht'⟩
      | find k => exact ⟨t, by rw [LeafTree.perform, h.find]; rfl, h⟩
  | upsert k v =>
      obtain ⟨hr, ht⟩ := hinsert k v true
      exact ⟨_, congrArg (fun r => some (_, r)) hr, ht⟩

/-- Every sequence of operations on the empty map ends well, and leaves a tree for a map. -/
theorem represents_of_run (ops : List (UpsertOp K V)) :
    ∃ t, run perform ops (empty : ExtTree K (Leaf K V)) = some (t, (acts act ops fun _ => none).2) ∧
      Represents t (acts act ops fun _ => none).1 :=
  run_acts Represents (fun _ _ op ht => ht.perform op) represents_empty

/-- `upsert` stores the value if and only if the key is new or has the value already; the other keys keep theirs. -/
theorem Represents.upsert {t : ExtTree K (Leaf K V)} {m : K → Option V} (h : Represents t m) (k : K) (v : V) :
    (LeafTree.find (upsert t k v).1 k = some v ∧
      ∀ k' ≠ k, LeafTree.find (upsert t k v).1 k' = LeafTree.find t k') ↔
      LeafTree.find t k = none ∨ LeafTree.find t k = some v := by
  obtain ⟨-, ht⟩ := h.tryInsert k v true
  rw [LeafTree.upsert]
  simp only [ht.find, h.find]
  cases hk : m k with
  | none => simp +contextual
  | some old => simp [hk]

end Verlib.LeafTree
