import Mathlib.Data.List.Nodup
import Mathlib.Data.List.Perm.Basic
import Verlib.Art.Operations

/-!
# The radix invariant

Under a node whose first `byte_num` bytes are those of its key, every slot belongs to one byte, and all that is
below the slot has that byte next. The invariant is stated along the recursion of the tree, with the bytes that
the path from the root fixes as a parameter.
-/

namespace Verlib.Art

open Verlib.Radix

variable {n : Nat} {V : Type}

/-! ## Slots -/

namespace Slots

/-- The slots in use, each with its byte and its index. -/
def pairs (slots : Slots) (size : Nat) : List (Nat × Nat) :=
  match slots with
  | full => (List.range 256).map fun b => (b, b)
  | indirect idx => (List.range 256).filterMap fun b => if idx b = -1 then none else some (b, (idx b).toNat)
  | sparse keys => (List.range size).map fun i => (keys i, i)

/-- The number of slots that fit in a node. -/
def capacity : Slots → Nat
  | full => 256
  | indirect _ => maxIndirectSize
  | sparse _ => maxSparseSize

/-- Every byte has at most one slot, no two bytes share one, and the slots in use fit in the node. -/
structure Ok (slots : Slots) (size : Nat) : Prop where
  byte_lt : ∀ s ∈ slots.pairs size, s.1 < 256
  bytes : ((slots.pairs size).map Prod.fst).Nodup
  indices : ((slots.pairs size).map Prod.snd).Nodup
  index_lt : slots.nodeType ≠ .full → ∀ s ∈ slots.pairs size, s.2 < size
  index_nonneg : ∀ idx, slots = indirect idx → ∀ b < 256, idx b = -1 ∨ 0 ≤ idx b
  size_le : size ≤ slots.capacity

variable {slots : Slots} {size b i : Nat}

/-- The slots of an indirect node. -/
theorem mem_pairs_indirect {idx : Nat → Int} :
    (b, i) ∈ (indirect idx).pairs size ↔ b < 256 ∧ idx b ≠ -1 ∧ (idx b).toNat = i := by
  simp only [pairs, List.mem_filterMap, List.mem_range]
  constructor
  · intro h
    obtain ⟨b', hb, h⟩ := h
    split at h
    · contradiction
    next hne =>
      cases h
      exact ⟨hb, hne, rfl⟩
  · intro h
    exact ⟨b, h.1, by rw [if_neg h.2.1, h.2.2]⟩

/-- The slots of a sparse node. -/
theorem mem_pairs_sparse {keys : Nat → Nat} : (b, i) ∈ (sparse keys).pairs size ↔ i < size ∧ keys i = b := by
  simp only [pairs, List.mem_map, List.mem_range, Prod.mk.injEq]
  constructor
  · intro h
    obtain ⟨j, hj, hb, rfl⟩ := h
    exact ⟨hj, hb⟩
  · intro h
    exact ⟨i, h.1, h.2, rfl⟩

/-- The slots of a full node. -/
theorem mem_pairs_full : (b, i) ∈ full.pairs size ↔ b < 256 ∧ i = b := by
  simp only [pairs, List.mem_map, List.mem_range, Prod.mk.injEq]
  constructor
  · intro h
    obtain ⟨j, hj, rfl, rfl⟩ := h
    exact ⟨hj, rfl⟩
  · intro h
    exact ⟨b, h.1, rfl, h.2.symm⟩

/-- `get_child` finds the slot of the byte. -/
theorem Ok.getChild_eq_some (h : slots.Ok size) (hb : b < 256) :
    slots.getChild size b = some i ↔ (b, i) ∈ slots.pairs size := by
  cases slots with
  | full =>
      rw [mem_pairs_full, getChild, Option.some.injEq]
      omega
  | indirect idx =>
      rw [mem_pairs_indirect, getChild]
      split
      next hnone => simp [hnone]
      next hsome => simp [hb, hsome]
  | sparse keys =>
      rw [mem_pairs_sparse, getChild]
      constructor
      · intro hfind
        have hkey := List.find?_some hfind
        have hmem := List.mem_of_find?_eq_some hfind
        exact ⟨List.mem_range.mp hmem, by simpa using hkey⟩
      · intro hi
        cases hfind : (List.range size).find? fun i => keys i == b with
        | none =>
            have hne := List.find?_eq_none.mp hfind i (List.mem_range.mpr hi.1)
            simp [hi.2] at hne
        | some j =>
            have hkey : keys j = b := by simpa using List.find?_some hfind
            have hj : j < size := List.mem_range.mp (List.mem_of_find?_eq_some hfind)
            have hsame : (b, j) = (b, i) :=
              List.inj_on_of_nodup_map h.bytes (mem_pairs_sparse.mpr ⟨hj, hkey⟩) (mem_pairs_sparse.mpr hi) rfl
            cases hsame
            rfl

/-- A byte without a slot. -/
theorem Ok.getChild_eq_none (h : slots.Ok size) (hb : b < 256) :
    slots.getChild size b = none ↔ ∀ i, (b, i) ∉ slots.pairs size := by
  rw [Option.eq_none_iff_forall_ne_some]
  exact forall_congr' fun i => not_congr (h.getChild_eq_some hb)

/-- A slot belongs to one byte. -/
theorem Ok.byte_unique (h : slots.Ok size) {s s' : Nat × Nat} (hs : s ∈ slots.pairs size)
    (hs' : s' ∈ slots.pairs size) (heq : s.2 = s'.2) : s = s' :=
  List.inj_on_of_nodup_map h.indices hs hs' heq

/-- A byte has one slot. -/
theorem Ok.index_unique (h : slots.Ok size) {s s' : Nat × Nat} (hs : s ∈ slots.pairs size)
    (hs' : s' ∈ slots.pairs size) (heq : s.1 = s'.1) : s = s' :=
  List.inj_on_of_nodup_map h.bytes hs hs' heq

end Slots

/-! ## Leaves -/

/-- Strictly sorted entries. -/
def Sorted (keyVals : List (KV n V)) : Prop := keyVals.Pairwise fun a b => a.key < b.key

/-- `byte_num` of a leaf: the key length for one key, and the first position where its keys differ otherwise. -/
def Differ (byteNum : Nat) (keyVals : List (KV n V)) : Prop :=
  (keyVals.length = 1 → byteNum = n) ∧
    (keyVals.length ≠ 1 → byteNum < n ∧ (∀ a ∈ keyVals, ∀ b ∈ keyVals, Agree a.key b.key byteNum) ∧
      ∃ a ∈ keyVals, ∃ b ∈ keyVals, getByte a.key byteNum ≠ getByte b.key byteNum)

/-- What holds of a leaf. -/
structure LeafOk (big : Bool) (key : Key n) (byteNum : Nat) (keyVals : List (KV n V)) : Prop where
  sorted : Sorted keyVals
  size_pos : 1 ≤ keyVals.length
  size_le : keyVals.length ≤ maxBigLeafSize
  small : big = false ↔ keyVals.length ≤ maxSmallLeafSize
  key_mem : ∃ kv ∈ keyVals, kv.key = key
  differ : Differ byteNum keyVals

/-! ## Trees -/

namespace Node

/-- The entries of the leaves that can be reached, in the order of the slots. -/
def entries : Node n V → List (KV n V)
  | null => []
  | leaf _ _ _ keyVals => keyVals
  | inner _ _ size slots ptr => (slots.pairs size).flatMap fun s => (ptr s.2).entries

end Node

/-- The keys that belong under the slot for byte `b` of a node. -/
def Below (key : Key n) (byteNum b : Nat) (k : Key n) : Prop := Agree k key byteNum ∧ getByte k byteNum = b

/-- The invariant of a tree whose keys satisfy `P`, which fixes their first `pos` bytes. -/
def Good : Node n V → Nat → (Key n → Prop) → Prop
  | .null, _, _ => True
  | .leaf big key byteNum keyVals, pos, P =>
      LeafOk big key byteNum keyVals ∧ pos ≤ byteNum ∧ ∀ kv ∈ keyVals, P kv.key
  | .inner key byteNum size slots ptr, pos, P =>
      slots.Ok size ∧ P key ∧ pos ≤ byteNum ∧ byteNum < n ∧
        ∀ s ∈ slots.pairs size, Good (ptr s.2) (byteNum + 1) (Below key byteNum s.1)

/-- `P` says which are the first `pos` bytes of a key, and nothing more. -/
structure Context (pos : Nat) (P : Key n → Prop) : Prop where
  fixed : ∀ a b, P a → P b → Agree a b pos
  closed : ∀ a b, P a → Agree a b pos → P b

/-- At the root nothing is fixed. -/
theorem context_root : Context 0 fun _ : Key n => True := by
  refine ⟨fun a b _ _ i hi => ?_, fun _ _ _ _ => trivial⟩
  omega

/-- A slot fixes one byte more. -/
theorem context_below (key : Key n) (byteNum b : Nat) : Context (byteNum + 1) (Below key byteNum b) := by
  refine ⟨fun a c ha hc => ?_, fun a c ha hagree => ?_⟩
  · exact agree_succ.mpr ⟨ha.1.trans hc.1.symm, by rw [ha.2, hc.2]⟩
  · obtain ⟨hlead, hbyte⟩ := agree_succ.mp hagree
    exact ⟨hlead.symm.trans ha.1, by rw [← hbyte, ha.2]⟩

/-- All keys below a node are where they belong, and agree with the key of the node on its first bytes. -/
theorem Good.entries_below {t : Node n V} {pos : Nat} {P : Key n → Prop} (h : Good t pos P) (hctx : Context pos P) :
    ∀ kv ∈ t.entries, P kv.key ∧ Agree kv.key t.key t.byteNum := by
  induction t generalizing pos P with
  | null =>
      intro kv hkv
      cases hkv
  | leaf big key byteNum keyVals =>
      intro kv hkv
      refine ⟨h.2.2 kv hkv, ?_⟩
      obtain ⟨kv', hkv', rfl⟩ := h.1.key_mem
      by_cases hone : keyVals.length = 1
      · obtain ⟨only, rfl⟩ := List.length_eq_one_iff.mp hone
        rw [Node.entries, List.mem_singleton] at hkv
        rw [List.mem_singleton] at hkv'
        rw [hkv, hkv']
        exact Agree.refl _ _
      · exact (h.1.differ.2 hone).2.1 kv hkv kv' hkv'
  | inner key byteNum size slots ptr ih =>
      intro kv hkv
      rw [Node.entries, List.mem_flatMap] at hkv
      obtain ⟨s, hs, hkv⟩ := hkv
      have hbelow := (ih s.2 (h.2.2.2.2 s hs) (context_below key byteNum s.1) kv hkv).1
      exact ⟨hctx.closed key kv.key h.2.1 (hbelow.1.symm.mono h.2.2.1), hbelow.1⟩

/-! ## The invariant node by node -/

/-- The nodes that can be reached from a node. -/
inductive Reachable (t : Node n V) : Node n V → Prop where
  | root : Reachable t t
  | child {key : Key n} {byteNum size : Nat} {slots : Slots} {ptr : Nat → Node n V} {s : Nat × Nat} :
      Reachable t (.inner key byteNum size slots ptr) → s ∈ slots.pairs size → Reachable t (ptr s.2)

/-- What holds of every node that can be reached. -/
inductive NodeOk : Node n V → Prop where
  | null : NodeOk .null
  | leaf {big : Bool} {key : Key n} {byteNum : Nat} {keyVals : List (KV n V)} :
      LeafOk big key byteNum keyVals → (∀ kv ∈ keyVals, Agree kv.key key byteNum) →
        NodeOk (.leaf big key byteNum keyVals)
  | inner {key : Key n} {byteNum size : Nat} {slots : Slots} {ptr : Nat → Node n V} :
      slots.Ok size →
      (∀ kv ∈ (Node.inner key byteNum size slots ptr).entries, Agree kv.key key byteNum) →
      (∀ s ∈ slots.pairs size, ∀ kv ∈ (ptr s.2).entries, getByte kv.key byteNum = s.1) →
      (∀ s ∈ slots.pairs size, (ptr s.2).isNull = false → byteNum < (ptr s.2).byteNum) →
        NodeOk (.inner key byteNum size slots ptr)

/-- The invariant at the root is the invariant at every node below it. -/
theorem Good.reachable {t x : Node n V} {pos : Nat} {P : Key n → Prop} (h : Good t pos P) (hctx : Context pos P)
    (hx : Reachable t x) : ∃ pos P, Good x pos P ∧ Context pos P := by
  induction hx with
  | root => exact ⟨pos, P, h, hctx⟩
  | child hparent hs ih =>
      obtain ⟨_, _, hgood, _⟩ := ih
      exact ⟨_, _, hgood.2.2.2.2 _ hs, context_below _ _ _⟩

/-- Positions grow along the path. -/
theorem Good.pos_le {t : Node n V} {pos : Nat} {P : Key n → Prop} (h : Good t pos P) (hnull : t.isNull = false) :
    pos ≤ t.byteNum := by
  cases t with
  | null => cases hnull
  | leaf => exact h.2.1
  | inner => exact h.2.2.1

/-- The invariant of one node. -/
theorem Good.nodeOk {t : Node n V} {pos : Nat} {P : Key n → Prop} (h : Good t pos P) (hctx : Context pos P) :
    NodeOk t := by
  cases t with
  | null => exact .null
  | leaf big key byteNum keyVals => exact .leaf h.1 fun kv hkv => (h.entries_below hctx kv hkv).2
  | inner key byteNum size slots ptr =>
      refine .inner h.1 (fun kv hkv => (h.entries_below hctx kv hkv).2) (fun s hs kv hkv => ?_) (fun s hs hnull => ?_)
      · exact ((h.2.2.2.2 s hs).entries_below (context_below _ _ _) kv hkv).1.2
      · exact (h.2.2.2.2 s hs).pos_le hnull

end Verlib.Art
