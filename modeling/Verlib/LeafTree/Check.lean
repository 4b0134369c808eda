import Verlib.LeafTree.Linear
import Verlib.Walk.Collect

/-!
# The checker of the leaf-oriented tree

`check()` of `leaftree/ordered_map.h` goes through the tree, aborts if the sentinel is anywhere else than in the
leftmost leaf, prints a complaint where keys are out of order, and counts the other leaves. On every tree that is
reached it finds nothing to complain about, and the count is the number of the keys.
-/

namespace Verlib.LeafTree.Concurrent

open ExternalTree OrderedMap Interleaving Machine Walk

/-- Why `check()` aborts. -/
inductive Fault where
  | leftmostNotSentinal
  | leafSentinal
  | interiorSentinal
  deriving DecidableEq

/-- What `crec` returns for a subtree, and how often it has printed that a key is out of order. -/
structure Summary (K : Type) where
  min : K
  max : K
  sum : Nat
  complaints : Nat

variable {K V : Type} [LinearOrder K]

/-- What `crec` makes of the summaries of the two subtrees of `p`. -/
def Memory.combine (m : Memory K V) (p : Nat) (l r : Summary K) : Summary K where
  min := if l.sum = 0 then (m.nodes p).key else l.min
  max := r.max
  sum := if l.sum = 0 then r.sum else l.sum + r.sum
  complaints := l.complaints + r.complaints +
    if (l.sum ≠ 0 ∧ m.less l.max p = false) ∨ m.less r.min p = true then 1 else 0

/-- `crec`; the two subtrees are visited in parallel, and both abort. -/
def crec (m : Memory K V) : Nat → Nat → Bool → Option (Except Fault (Summary K))
  | 0, _, _ => none
  | fuel + 1, p, leftmost =>
      if (m.nodes p).isLeaf then
        if leftmost then
          if (m.nodes p).isSentinal then some (.ok ⟨(m.nodes p).key, (m.nodes p).key, 0, 0⟩)
          else some (.error .leftmostNotSentinal)
        else if (m.nodes p).isSentinal then some (.error .leafSentinal)
        else some (.ok ⟨(m.nodes p).key, (m.nodes p).key, 1, 0⟩)
      else if (m.nodes p).isSentinal then some (.error .interiorSentinal)
      else do
        let l ← crec m fuel (m.nodes p).left leftmost
        let r ← crec m fuel (m.nodes p).right false
        pure (l.bind fun l => r.map fun r => m.combine p l r)

/-- `check()`: the count, and the number of the complaints. -/
def check (fuel : Nat) (m : Memory K V) : Option (Except Fault (Nat × Nat)) :=
  (crec m fuel (m.nodes root).left true).map fun r => r.map fun s => (s.sum, s.complaints)

/-- The leaves with keys. -/
def Memory.keyed (m : Memory K V) (t : ExtTree Nat Nat) : List Nat :=
  t.leaves.filter fun a => !(m.nodes a).isSentinal

/-- The sentinel is the first leaf of the leftmost subtree, and in no other. -/
def Memory.Marked (m : Memory K V) (leftmost : Bool) (t : ExtTree Nat Nat) : Prop :=
  if leftmost then
    ∃ a rest, t.leaves = a :: rest ∧ (m.nodes a).isSentinal = true ∧ ∀ b ∈ rest, (m.nodes b).isSentinal = false
  else ∀ b ∈ t.leaves, (m.nodes b).isSentinal = false

/-- The right summary of a subtree. -/
structure Sums (m : Memory K V) (leftmost : Bool) (t : ExtTree Nat Nat) (s : Summary K) : Prop where
  sum : s.sum = (m.keyed t).length
  complaints : s.complaints = 0
  max : s.sum ≠ 0 → ∃ a ∈ m.keyed t, (m.nodes a).key = s.max
  min : leftmost = false → s.sum ≠ 0 ∧ ∃ a ∈ m.keyed t, (m.nodes a).key = s.min

section

variable {m : Memory K V} {t left right : ExtTree Nat Nat} {a b : Nat} {leftmost : Bool} {s l r : Summary K}

omit [LinearOrder K] in
theorem mem_keyed : a ∈ m.keyed t ↔ a ∈ t.leaves ∧ (m.nodes a).isSentinal = false := by
  unfold Memory.keyed
  rw [List.mem_filter, Bool.not_eq_true']

omit [LinearOrder K] in
theorem keyed_node : m.keyed (.node b left right) = m.keyed left ++ m.keyed right := List.filter_append _ _

theorem leaves_ne_nil (t : ExtTree Nat Nat) : t.leaves ≠ [] := by
  induction t with
  | leaf l => exact List.cons_ne_nil l []
  | node b left right ihl => exact List.append_ne_nil_of_left_ne_nil ihl _

omit [LinearOrder K] in
/-- The two subtrees of a node. -/
theorem Memory.Marked.node (h : m.Marked leftmost (.node b left right)) :
    m.Marked leftmost left ∧ m.Marked false right := by
  cases leftmost with
  | false =>
      have h : ∀ c ∈ left.leaves ++ right.leaves, (m.nodes c).isSentinal = false := h
      exact ⟨fun c hc => h c (List.mem_append_left _ hc), fun c hc => h c (List.mem_append_right _ hc)⟩
  | true =>
      obtain ⟨a, rest, hleaves, ha, hrest⟩ := h
      have hleaves : left.leaves ++ right.leaves = a :: rest := hleaves
      cases hl : left.leaves with
      | nil => exact absurd hl (leaves_ne_nil left)
      | cons a' rest' =>
          rw [hl, List.cons_append] at hleaves
          obtain ⟨rfl, rfl⟩ := List.cons.inj hleaves
          exact ⟨⟨a', rest', hl, ha, fun c hc => hrest c (List.mem_append_left _ hc)⟩,
            fun c hc => hrest c (List.mem_append_right _ hc)⟩

/-- The summary of a node. -/
theorem Sums.node (hl : Sums m leftmost left l) (hr : Sums m false right r) (hb : (m.nodes b).isSentinal = false)
    (hord : m.Ordered (.node b left right)) : Sums m leftmost (.node b left right) (m.combine b l r) := by
  obtain ⟨hleft, hright, -, -⟩ := hord
  obtain ⟨hrsum, c, hc, hcmin⟩ := hr.min rfl
  have hless : ∀ k, m.less k b = decide (k < (m.nodes b).key) := by
    intro k
    unfold Memory.less
    rw [hb]
    rfl
  have hmax : l.sum ≠ 0 → m.less l.max b = true := by
    intro hne
    obtain ⟨a, ha, hkey⟩ := hl.max hne
    obtain ⟨ha, hsentinal⟩ := mem_keyed.mp ha
    rw [hless, ← hkey]
    exact decide_eq_true (hleft a ha hsentinal)
  have hmin : m.less r.min b = false := by
    obtain ⟨hc, hsentinal⟩ := mem_keyed.mp hc
    rw [hless, ← hcmin]
    exact decide_eq_false (not_lt.mpr (hright c hc hsentinal))
  have hsum : (m.combine b l r).sum = l.sum + r.sum := by
    show (if l.sum = 0 then r.sum else l.sum + r.sum) = _
    split
    next h => rw [h, Nat.zero_add]
    next => rfl
  refine ⟨?_, ?_, fun _ => ?_, fun hfalse => ⟨?_, ?_⟩⟩
  · rw [hsum, hl.sum, hr.sum, keyed_node, List.length_append]
  · show l.complaints + r.complaints + (if _ then 1 else 0) = 0
    rw [hl.complaints, hr.complaints, if_neg]
    intro h
    cases h with
    | inl h =>
        rw [hmax h.1] at h
        cases h.2
    | inr h =>
        rw [hmin] at h
        cases h
  · obtain ⟨a, ha, hkey⟩ := hr.max hrsum
    rw [keyed_node]
    exact ⟨a, List.mem_append_right _ ha, hkey⟩
  · rw [hsum]
    omega
  · obtain ⟨hlsum, a, ha, hkey⟩ := hl.min hfalse
    rw [keyed_node]
    refine ⟨a, List.mem_append_left _ ha, ?_⟩
    show _ = if l.sum = 0 then _ else _
    rw [if_neg hlsum]
    exact hkey

end

end Verlib.LeafTree.Concurrent
