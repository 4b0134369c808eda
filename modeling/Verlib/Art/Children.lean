import Verlib.Art.Invariant

/-!
# The children of a node by byte

The entries below an internal node and its invariant depend on its slots only through the child of every byte, so
that the copies of `add_child`, each with its own encoding of the slots, need one property only: they have the
same child for every byte, and the new one for its own.
-/

namespace Verlib.Art

open Verlib.Radix

variable {n : Nat} {V : Type}

/-! ## Well-formed slots -/

namespace Slots

/-- A full node has a slot for every byte. -/
theorem ok_full : full.Ok 0 := by
  refine ⟨fun s hs => ?_, ?_, ?_, fun h => absurd rfl h, fun _ h => (by cases h), by decide⟩
  · exact (mem_pairs_full.mp hs).1
  · rw [pairs, List.map_map]
    exact (List.map_id (List.range 256)).symm ▸ List.nodup_range
  · rw [pairs, List.map_map]
    exact (List.map_id (List.range 256)).symm ▸ List.nodup_range

/-- A sparse node with distinct bytes. -/
theorem ok_sparse {keys : Nat → Nat} {size : Nat} (hsize : size ≤ maxSparseSize) (hbyte : ∀ i < size, keys i < 256)
    (hne : ∀ i j, i < j → j < size → keys i ≠ keys j) : (sparse keys).Ok size := by
  refine ⟨fun s hs => ?_, ?_, ?_, fun _ s hs => ?_, fun _ h => (by cases h), hsize⟩
  · obtain ⟨hi, hkey⟩ := mem_pairs_sparse.mp hs
    rw [← hkey]
    exact hbyte _ hi
  · rw [pairs, List.map_map]
    refine List.Nodup.map_on (fun i hi j hj heq => ?_) List.nodup_range
    rw [List.mem_range] at hi hj
    by_contra hij
    cases Nat.lt_or_gt_of_ne hij with
    | inl h => exact hne i j h hj heq
    | inr h => exact hne j i h hi heq.symm
  · rw [pairs, List.map_map]
    exact (List.map_id (List.range size)).symm ▸ List.nodup_range
  · exact (mem_pairs_sparse.mp hs).1

/-- An indirect node in which no two bytes have the same entry. -/
theorem ok_indirect {idx : Nat → Int} {size : Nat} (hsize : size ≤ maxIndirectSize)
    (hrange : ∀ b < 256, idx b = -1 ∨ (0 ≤ idx b ∧ idx b < size))
    (hne : ∀ b < 256, ∀ b' < 256, idx b ≠ -1 → idx b = idx b' → b = b') : (indirect idx).Ok size := by
  have hmem : ∀ s ∈ (indirect idx).pairs size, s.1 < 256 ∧ idx s.1 = s.2 ∧ idx s.1 ≠ -1 ∧ s.2 < size := by
    intro s hs
    obtain ⟨hb, hsome, htoNat⟩ := mem_pairs_indirect.mp hs
    have hr := hrange s.1 hb
    omega
  have hsublist : ((indirect idx).pairs size).map Prod.fst = (List.range 256).filter fun b => idx b ≠ -1 := by
    rw [pairs, List.map_filterMap, ← List.filterMap_eq_filter]
    refine List.filterMap_congr fun b _ => ?_
    by_cases h : idx b = -1 <;> simp [h, Option.guard]
  have hbytes : (((indirect idx).pairs size).map Prod.fst).Nodup := by
    rw [hsublist]
    exact List.nodup_range.filter _
  refine ⟨fun s hs => (hmem s hs).1, hbytes, ?_, fun _ s hs => (hmem s hs).2.2.2, fun idx' h b hb => ?_, hsize⟩
  · refine List.Nodup.map_on (fun s hs s' hs' heq => ?_) hbytes.of_map
    have hs := hmem s hs
    have hs' := hmem s' hs'
    have hfst : s.1 = s'.1 := hne s.1 hs.1 s'.1 hs'.1 hs.2.2.1 (by omega)
    exact Prod.ext hfst heq
  · cases h
    have hr := hrange b hb
    omega

end Slots

/-! ## The child of a byte -/

/-- The child for a byte, null if there is none. -/
def childOf (slots : Slots) (size : Nat) (ptr : Nat → Node n V) (b : Nat) : Node n V :=
  (slots.getChild size b).elim .null ptr

section

variable {key : Key n} {byteNum size : Nat} {slots : Slots} {ptr : Nat → Node n V}

/-- The child in a slot. -/
theorem childOf_eq (ptr : Nat → Node n V) (hok : slots.Ok size) {s : Nat × Nat} (hs : s ∈ slots.pairs size) :
    childOf slots size ptr s.1 = ptr s.2 := by
  have hslot : slots.getChild size s.1 = some s.2 := (hok.getChild_eq_some (hok.byte_lt s hs)).mpr hs
  rw [childOf, hslot]
  rfl

/-- A byte without a slot has no child. -/
theorem childOf_eq_null {b : Nat} (hslot : slots.getChild size b = none) : childOf slots size ptr b = .null := by
  rw [childOf, hslot]
  rfl

/-- The entries below a node are those below the children of all bytes. -/
theorem entries_inner (key : Key n) (byteNum : Nat) (ptr : Nat → Node n V) (hok : slots.Ok size) :
    (Node.inner key byteNum size slots ptr).entries.Perm
      ((List.range 256).flatMap fun b => (childOf slots size ptr b).entries) := by
  have hpairs : (slots.pairs size).flatMap (fun s => (ptr s.2).entries) =
      ((slots.pairs size).map Prod.fst).flatMap fun b => (childOf slots size ptr b).entries := by
    rw [List.flatMap_map]
    exact List.flatMap_congr fun s hs => by rw [childOf_eq ptr hok hs]
  have hrange : (List.range 256).Perm ((slots.pairs size).map Prod.fst ++
      (List.range 256).filter fun b => b ∉ (slots.pairs size).map Prod.fst) := by
    rw [List.perm_ext_iff_of_nodup List.nodup_range]
    · intro b
      rw [List.mem_append, List.mem_filter, decide_eq_true_eq]
      constructor
      · intro hb
        by_cases hmem : b ∈ (slots.pairs size).map Prod.fst
        · exact .inl hmem
        · exact .inr ⟨hb, hmem⟩
      · intro hb
        cases hb with
        | inl hb =>
            obtain ⟨s, hs, rfl⟩ := List.mem_map.mp hb
            exact List.mem_range.mpr (hok.byte_lt s hs)
        | inr hb => exact hb.1
    · refine List.nodup_append.mpr ⟨hok.bytes, List.nodup_range.filter _, fun b hb b' hb' heq => ?_⟩
      rw [List.mem_filter, decide_eq_true_eq] at hb'
      exact hb'.2 (heq ▸ hb)
  have hnone : ((List.range 256).filter fun b => b ∉ (slots.pairs size).map Prod.fst).flatMap
      (fun b => (childOf slots size ptr b).entries) = [] := by
    rw [List.flatMap_eq_nil_iff]
    intro b hb
    rw [List.mem_filter, List.mem_range, decide_eq_true_eq] at hb
    have hslot : slots.getChild size b = none :=
      (hok.getChild_eq_none hb.1).mpr fun i hi => hb.2 (List.mem_map.mpr ⟨_, hi, rfl⟩)
    rw [childOf_eq_null hslot]
    rfl
  rw [Node.entries, hpairs]
  refine .trans ?_ (hrange.symm.flatMap_right _)
  rw [List.flatMap_append, hnone, List.append_nil]

/-- The children of all bytes satisfy the invariant. -/
theorem Good.childOf {pos : Nat} {P : Key n → Prop} (h : Good (.inner key byteNum size slots ptr) pos P) {b : Nat}
    (hb : b < 256) : Good (childOf slots size ptr b) (byteNum + 1) (Below key byteNum b) := by
  cases hslot : slots.getChild size b with
  | none =>
      rw [childOf_eq_null hslot]
      trivial
  | some i =>
      have hs := (h.1.getChild_eq_some hb).mp hslot
      rw [childOf_eq ptr h.1 hs]
      exact h.2.2.2.2 _ hs

/-- A node `y` that has, for every byte, the child that the node `x` has, but `c` for the byte of `k`. -/
structure Grown (key : Key n) (byteNum size : Nat) (slots : Slots) (ptr : Nat → Node n V) (k : Key n) (c : Node n V)
    (y : Node n V) : Prop where
  inner : ∃ size' slots' ptr', y = .inner key byteNum size' slots' ptr' ∧ slots'.Ok size' ∧
    ∀ b < 256, Art.childOf slots' size' ptr' b =
      if b = getByte k byteNum then c else Art.childOf slots size ptr b

/-- A copy with one more child satisfies the invariant and has the entries of the new child as well. -/
theorem Grown.good {k : Key n} {c y : Node n V} {pos : Nat} {P : Key n → Prop}
    (hy : Grown key byteNum size slots ptr k c y) (h : Good (.inner key byteNum size slots ptr) pos P)
    (hnone : slots.getChild size (getByte k byteNum) = none)
    (hc : Good c (byteNum + 1) (Below key byteNum (getByte k byteNum))) :
    Good y pos P ∧ y.entries.Perm (c.entries ++ (Node.inner key byteNum size slots ptr).entries) := by
  obtain ⟨size', slots', ptr', rfl, hok, hchild⟩ := hy.inner
  refine ⟨⟨hok, h.2.1, h.2.2.1, h.2.2.2.1, fun s hs => ?_⟩, ?_⟩
  · rw [← childOf_eq ptr' hok hs, hchild s.1 (hok.byte_lt s hs)]
    split
    next heq =>
      rw [heq]
      exact hc
    next => exact h.childOf (hok.byte_lt s hs)
  · have hb := getByte_lt k byteNum
    obtain ⟨front, back, hsplit⟩ := List.append_of_mem (List.mem_range.mpr hb)
    have hperm : (List.range 256).Perm (getByte k byteNum :: (front ++ back)) := by
      rw [hsplit]
      exact List.perm_middle
    have hnodup := hperm.nodup_iff.mp List.nodup_range
    rw [List.nodup_cons] at hnodup
    have hothers : (front ++ back).flatMap (fun b => (Art.childOf slots' size' ptr' b).entries) =
        (front ++ back).flatMap fun b => (Art.childOf slots size ptr b).entries := by
      refine List.flatMap_congr fun b hb' => ?_
      have hlt : b < 256 := List.mem_range.mp (hperm.mem_iff.mpr (List.mem_cons_of_mem _ hb'))
      have hne : b ≠ getByte k byteNum := by
        intro heq
        rw [heq] at hb'
        exact hnodup.1 hb'
      rw [hchild b hlt, if_neg hne]
    have hafter := (entries_inner key byteNum ptr' hok).trans (hperm.flatMap_right _)
    have hbefore := (entries_inner key byteNum ptr h.1).trans (hperm.flatMap_right _)
    rw [List.flatMap_cons, hchild _ hb, if_pos rfl, hothers] at hafter
    rw [List.flatMap_cons, childOf_eq_null hnone] at hbefore
    exact hafter.trans (hbefore.symm.append_left _)

end

/-! ## The copies of `add_child` -/

section

variable {key k : Key n} {byteNum size : Nat} {ptr : Nat → Node n V} {c : Node n V}

/-- Indirect to full. -/
theorem grown_indirectToFull (idx : Nat → Int) :
    Grown key byteNum size (.indirect idx) ptr k c (Node.indirectToFull key byteNum idx ptr k c) := by
  refine ⟨_, _, _, rfl, Slots.ok_full, fun b hb => ?_⟩
  show Function.update (fun i => if idx i ≠ -1 then ptr (idx i).toNat else .null) (getByte k byteNum) c b = _
  split
  next heq => rw [heq, Function.update_self]
  next hne =>
    rw [Function.update_of_ne hne, childOf, Slots.getChild]
    by_cases hidx : idx b = -1
    · rw [if_pos hidx, if_neg (by simp [hidx])]
      rfl
    · rw [if_neg hidx, if_pos hidx]
      rfl

/-- The child of a byte in an indirect node. -/
theorem childOf_indirect (idx : Nat → Int) (b : Nat) :
    childOf (.indirect idx) size ptr b = if idx b = -1 then .null else ptr (idx b).toNat := by
  rw [childOf, Slots.getChild]
  split <;> rfl

/-- A new entry at the end of an indirect node. -/
theorem grown_indirect {slots : Slots} {oldSize : Nat} {old : Nat → Node n V} (ptr' : Nat → Node n V)
    (idx : Nat → Int) (hsize : size + 1 ≤ maxIndirectSize) (hrange : ∀ b < 256, idx b = -1 ∨ (0 ≤ idx b ∧ idx b < size))
    (hne : ∀ b < 256, ∀ b' < 256, idx b ≠ -1 → idx b = idx b' → b = b')
    (hold : ∀ b < 256, childOf slots oldSize old b = if idx b = -1 then .null else ptr' (idx b).toNat) :
    Grown key byteNum oldSize slots old k c
      (.inner key byteNum (size + 1) (.indirect (Function.update idx (getByte k byteNum) size))
        (Function.update ptr' size c)) := by
  refine ⟨_, _, _, rfl, Slots.ok_indirect hsize (fun b hb => ?_) (fun b hb b' hb' hsome heq => ?_), fun b hb => ?_⟩
  · have hr := hrange b hb
    by_cases h : b = getByte k byteNum
    · rw [h, Function.update_self]
      omega
    · rw [Function.update_of_ne h]
      omega
  · have hr := hrange b hb
    have hr' := hrange b' hb'
    by_cases h : b = getByte k byteNum
    · by_cases h' : b' = getByte k byteNum
      · rw [h, h']
      · rw [h, Function.update_self, Function.update_of_ne h'] at heq
        omega
    · by_cases h' : b' = getByte k byteNum
      · rw [h', Function.update_self, Function.update_of_ne h] at heq
        omega
      · rw [Function.update_of_ne h] at hsome
        rw [Function.update_of_ne h, Function.update_of_ne h'] at heq
        exact hne b hb b' hb' hsome heq
  · rw [childOf_indirect]
    by_cases h : b = getByte k byteNum
    · rw [h, Function.update_self, if_pos rfl, if_neg (by omega), Int.toNat_natCast, Function.update_self]
    · rw [Function.update_of_ne h, if_neg h, hold b hb]
      have hr := hrange b hb
      split
      next => rfl
      next => rw [Function.update_of_ne (by omega)]

/-- Indirect to indirect. -/
theorem grown_indirectToIndirect {idx : Nat → Int} (hok : (Slots.indirect idx).Ok size) (hfull : size ≠ maxIndirectSize) :
    Grown key byteNum size (.indirect idx) ptr k c (Node.indirectToIndirect key byteNum size idx ptr k c) := by
  have hrange : ∀ b < 256, idx b = -1 ∨ (0 ≤ idx b ∧ idx b < size) := by
    intro b hb
    by_cases hnone : idx b = -1
    · exact .inl hnone
    · have hlt := hok.index_lt (by simp [Slots.nodeType]) _ (Slots.mem_pairs_indirect.mpr ⟨hb, hnone, rfl⟩)
      have hnonneg := hok.index_nonneg idx rfl b hb
      simp only at hlt
      omega
  have hsize : size + 1 ≤ maxIndirectSize := by
    have hle := hok.size_le
    simp only [Slots.capacity] at hle
    omega
  have hidx : (((size + 1 : Nat) : Int) - 1) = size := by omega
  rw [Node.indirectToIndirect, Node.initChild, Nat.add_sub_cancel, hidx]
  refine grown_indirect (fun i => if i < size then ptr i else .null) idx hsize hrange
    (fun b hb b' hb' hsome heq => ?_) (fun b hb => ?_)
  · have hpair : (b, (idx b).toNat) ∈ (Slots.indirect idx).pairs size :=
      Slots.mem_pairs_indirect.mpr ⟨hb, hsome, rfl⟩
    have hpair' : (b', (idx b).toNat) ∈ (Slots.indirect idx).pairs size :=
      Slots.mem_pairs_indirect.mpr ⟨hb', heq ▸ hsome, by rw [heq]⟩
    exact congrArg Prod.fst (hok.byte_unique hpair hpair' rfl)
  · rw [childOf_indirect]
    have hr := hrange b hb
    split
    next => rfl
    next => rw [if_pos (by omega)]

/-- What the loop that fills `idx` leaves there. -/
theorem fillIdx_eq (keys : Nat → Nat) (m b : Nat) (hne : ∀ i j, i < j → j < m → keys i ≠ keys j) :
    (Node.fillIdx keys m b = -1 ∧ ∀ i < m, keys i ≠ b) ∨ ∃ i < m, keys i = b ∧ Node.fillIdx keys m b = i := by
  induction m with
  | zero => exact .inl ⟨rfl, fun i hi => absurd hi (Nat.not_lt_zero i)⟩
  | succ m ih =>
      by_cases h : b = keys m
      · exact .inr ⟨m, Nat.lt_succ_self m, h.symm, by rw [Node.fillIdx, h, Function.update_self]⟩
      · rw [Node.fillIdx, Function.update_of_ne h]
        cases ih fun i j hij hj => hne i j hij (by omega) with
        | inl hnone =>
            refine .inl ⟨hnone.1, fun i hi => ?_⟩
            by_cases him : i = m
            · rw [him]
              exact Ne.symm h
            · exact hnone.2 i (by omega)
        | inr hsome =>
            obtain ⟨i, hi, hkey, hidx⟩ := hsome
            exact .inr ⟨i, by omega, hkey, hidx⟩

/-- Distinct entries of a sparse node have distinct bytes. -/
theorem keys_ne {keys : Nat → Nat} (hok : (Slots.sparse keys).Ok size) :
    ∀ i j, i < j → j < size → keys i ≠ keys j := by
  intro i j hij hj heq
  have hsame := hok.index_unique (Slots.mem_pairs_sparse.mpr ⟨Nat.lt_trans hij hj, rfl⟩)
    (Slots.mem_pairs_sparse.mpr ⟨hj, rfl⟩) heq
  have hidx : i = j := congrArg Prod.snd hsame
  omega

/-- Sparse to indirect. -/
theorem grown_sparseToIndirect {keys : Nat → Nat} (hok : (Slots.sparse keys).Ok maxSparseSize) :
    Grown key byteNum maxSparseSize (.sparse keys) ptr k c (Node.sparseToIndirect key byteNum keys ptr k c) := by
  have hfill := fun b => fillIdx_eq keys maxSparseSize b (keys_ne hok)
  have hidx : (((maxSparseSize + 1 : Nat) : Int) - 1) = (maxSparseSize : Nat) := by omega
  rw [Node.sparseToIndirect, Node.initChild, Nat.add_sub_cancel, hidx]
  refine grown_indirect (fun i => if i < maxSparseSize then ptr i else .null) (Node.fillIdx keys maxSparseSize)
    (by decide) (fun b _ => ?_) (fun b _ b' _ hsome heq => ?_) (fun b hb => ?_)
  · cases hfill b with
    | inl h => exact .inl h.1
    | inr h =>
        obtain ⟨i, hi, -, h⟩ := h
        omega
  · cases hfill b with
    | inl h => exact absurd h.1 hsome
    | inr h =>
        obtain ⟨i, hi, hkey, h⟩ := h
        cases hfill b' with
        | inl h' => omega
        | inr h' =>
            obtain ⟨i', hi', hkey', h'⟩ := h'
            have hii : i = i' := by omega
            rw [← hkey, ← hkey', hii]
  · cases hfill b with
    | inl h =>
        rw [if_pos h.1, childOf_eq_null]
        rw [hok.getChild_eq_none hb]
        intro i hi
        obtain ⟨hlt, hkey⟩ := Slots.mem_pairs_sparse.mp hi
        exact h.2 i hlt hkey
    | inr h =>
        obtain ⟨i, hi, hkey, h⟩ := h
        rw [h, if_neg (by omega), Int.toNat_natCast, if_pos hi]
        exact childOf_eq (s := (b, i)) ptr hok (Slots.mem_pairs_sparse.mpr ⟨hi, hkey⟩)

/-- Sparse to sparse. -/
theorem grown_sparseToSparse {keys : Nat → Nat} (hok : (Slots.sparse keys).Ok size) (hfull : size ≠ maxSparseSize)
    (hnone : (Slots.sparse keys).getChild size (getByte k byteNum) = none) :
    Grown key byteNum size (.sparse keys) ptr k c (Node.sparseToSparse key byteNum size keys ptr k c) := by
  have hnew := (hok.getChild_eq_none (getByte_lt k byteNum)).mp hnone
  generalize hkeys : Function.update (fun i => if i < size then keys i else 0) size (getByte k byteNum) = keys'
  have hlast : keys' size = getByte k byteNum := by rw [← hkeys, Function.update_self]
  have hfirst : ∀ i < size, keys' i = keys i := by
    intro i hi
    rw [← hkeys, Function.update_of_ne (by omega), if_pos hi]
  have hok' : (Slots.sparse keys').Ok (size + 1) := by
    refine Slots.ok_sparse ?_ (fun i hi => ?_) (fun i j hij hj => ?_)
    · have hle := hok.size_le
      simp only [Slots.capacity] at hle
      omega
    · by_cases h : i = size
      · rw [h, hlast]
        exact getByte_lt k byteNum
      · rw [hfirst i (by omega)]
        exact hok.byte_lt _ (Slots.mem_pairs_sparse.mpr ⟨(by omega : i < size), rfl⟩)
    · rw [hfirst i (by omega)]
      by_cases h : j = size
      · rw [h, hlast]
        intro heq
        exact hnew i (Slots.mem_pairs_sparse.mpr ⟨by omega, heq⟩)
      · rw [hfirst j (by omega)]
        exact keys_ne hok i j hij (by omega)
  have hptr : Node.sparseToSparse key byteNum size keys ptr k c = .inner key byteNum (size + 1) (.sparse keys')
      (Function.update (fun i => if i < size then ptr i else .null) size c) := by
    rw [Node.sparseToSparse, Node.initChild, Nat.add_sub_cancel, hkeys]
  refine ⟨_, _, _, hptr, hok', fun b hb => ?_⟩
  split
  next heq =>
    have hs : (b, size) ∈ (Slots.sparse keys').pairs (size + 1) :=
      Slots.mem_pairs_sparse.mpr ⟨Nat.lt_succ_self size, by rw [hlast, heq]⟩
    rw [childOf_eq (s := (b, size)) _ hok' hs, Function.update_self]
  next hne =>
    cases hslot : (Slots.sparse keys).getChild size b with
    | none =>
        rw [childOf_eq_null hslot, childOf_eq_null]
        rw [hok'.getChild_eq_none hb]
        intro i hi
        obtain ⟨hlt, hkey⟩ := Slots.mem_pairs_sparse.mp hi
        by_cases h : i = size
        · rw [h, hlast] at hkey
          exact hne hkey.symm
        · rw [hfirst i (by omega)] at hkey
          exact (hok.getChild_eq_none hb).mp hslot i (Slots.mem_pairs_sparse.mpr ⟨by omega, hkey⟩)
    | some i =>
        have hs := (hok.getChild_eq_some hb).mp hslot
        obtain ⟨hlt, hkey⟩ := Slots.mem_pairs_sparse.mp hs
        have hs' : (b, i) ∈ (Slots.sparse keys').pairs (size + 1) :=
          Slots.mem_pairs_sparse.mpr ⟨by omega, by rw [hfirst i hlt, hkey]⟩
        rw [childOf_eq (s := (b, i)) ptr hok hs, childOf_eq (s := (b, i)) _ hok' hs',
          Function.update_of_ne (Nat.ne_of_lt hlt)]
        exact if_pos hlt

/-- The type of a node after a sparse node or after an indirect node. -/
def NodeType.larger : NodeType → NodeType
  | sparse => indirect
  | indirect => full
  | nt => nt

/-- The copy has the same type if there is room, and the next one otherwise. -/
theorem copyWithChild_nodeType {slots : Slots} (hnone : slots.getChild size (getByte k byteNum) = none) :
    ((Node.inner key byteNum size slots ptr).copyWithChild k c).nodeType =
      some (if slots.isFull size then slots.nodeType.larger else slots.nodeType) := by
  cases slots with
  | full => cases hnone
  | indirect idx =>
      rw [Node.copyWithChild]
      split <;> rfl
  | sparse keys =>
      rw [Node.copyWithChild]
      split <;> rfl

/-- The copy that `add_child` makes of a node without a child for the byte of `k`. -/
theorem grown_copyWithChild {slots : Slots} (hok : slots.Ok size)
    (hnone : slots.getChild size (getByte k byteNum) = none) :
    Grown key byteNum size slots ptr k c ((Node.inner key byteNum size slots ptr).copyWithChild k c) := by
  cases slots with
  | full => cases hnone
  | indirect idx =>
      rw [Node.copyWithChild]
      split
      next => exact grown_indirectToFull idx
      next hfull => exact grown_indirectToIndirect hok (by simpa [Slots.isFull] using hfull)
  | sparse keys =>
      rw [Node.copyWithChild]
      split
      next hfull =>
        have hsize : size = maxSparseSize := by simpa [Slots.isFull] using hfull
        subst hsize
        exact grown_sparseToIndirect hok
      next hfull => exact grown_sparseToSparse hok (by simpa [Slots.isFull] using hfull) hnone

end

end Verlib.Art
