import Verlib.BlockLeafTree.Operations

/-!
# Sequential runs of the block-leaf tree

The sentinel stays the leftmost leaf, and no other leaf is empty. So a leaf that is removed has a leaf to its left, and
with it a grandparent.
-/

namespace Verlib.BlockLeafTree

open ExternalTree OrderedMap

variable {K V : Type}

/-! ## Entries -/

/-- The keys of a leaf. -/
def HasKey (l : Leaf K V) (k : K) : Prop := ∃ v, ⟨k, v⟩ ∈ l.keyvals

/-- The entries of some leaves. -/
def entries (leaves : List (Leaf K V)) : List (KV K V) := leaves.flatMap Leaf.keyvals

/-- The entries of some leaves, and those of the others. -/
theorem mem_entries {kv : KV K V} {before new after : List (Leaf K V)} :
    kv ∈ entries (before ++ new ++ after) ↔ kv ∈ entries before ++ entries after ∨ kv ∈ entries new := by
  simp only [entries, List.flatMap_append, List.mem_append]
  rw [or_right_comm]

/-- The keys of the leaves that come for a leaf. -/
theorem hasKey_of_perm {new : List (Leaf K V)} {keyvals : List (KV K V)} {k : K} {v : V}
    (hperm : (entries new).Perm (⟨k, v⟩ :: keyvals)) {l' : Leaf K V} (hl' : l' ∈ new) {k' : K} (hk' : HasKey l' k') :
    (∃ v', ⟨k', v'⟩ ∈ keyvals) ∨ k' = k := by
  obtain ⟨v', hmem⟩ := hk'
  cases List.mem_cons.mp (hperm.mem_iff.mp (List.mem_flatMap.mpr ⟨l', hl', hmem⟩)) with
  | inl heq => exact .inr (congrArg KV.key heq)
  | inr hmem => exact .inl ⟨v', hmem⟩

/-! ## The invariant -/

variable [LinearOrder K]

/-- A leaf that is not the sentinel. -/
structure LeafOk (blockSize : Nat) (l : Leaf K V) : Prop where
  isSentinal : l.isSentinal = false
  sorted : Sorted l.keyvals
  size_pos : 1 ≤ l.keyvals.length
  size_le : l.keyvals.length ≤ blockSize

/-- The leaves from left to right are the sentinel, which is empty, and leaves that are not. -/
def LeavesOk (blockSize : Nat) (leaves : List (Leaf K V)) : Prop :=
  ∃ rest, leaves = ⟨true, []⟩ :: rest ∧ ∀ l ∈ rest, LeafOk blockSize l

/-- The tree is a search tree with the sentinel on the left, and its leaves hold the map. -/
structure Represents (blockSize : Nat) (t : ExtTree K (Leaf K V)) (m : K → Option V) : Prop where
  leaves : LeavesOk blockSize t.leaves
  routed : Routed HasKey t
  mem : ∀ k v, ⟨k, v⟩ ∈ entries t.leaves ↔ m k = some v

section

variable {blockSize : Nat} {t : ExtTree K (Leaf K V)} {m : K → Option V} {k : K} {v : V}
  {before after : List (Leaf K V)} {l : Leaf K V}

/-- The empty map. -/
theorem represents_empty : Represents blockSize (empty : ExtTree K (Leaf K V)) fun _ => none := by
  refine ⟨⟨[], rfl, fun l hl => (by cases hl)⟩, trivial, fun k v => iff_of_false (fun h => ?_) (fun h => by cases h)⟩
  simp [entries, empty, ExtTree.leaves] at h

/-- A leaf in the middle is the sentinel, and then the leftmost one, or it comes after the sentinel. -/
theorem LeavesOk.middle (h : LeavesOk blockSize (before ++ l :: after)) :
    (∀ l' ∈ after, LeafOk blockSize l') ∧
      ((before = [] ∧ l = ⟨true, []⟩) ∨
        LeafOk blockSize l ∧ ∃ rest, before = ⟨true, []⟩ :: rest ∧ ∀ l' ∈ rest, LeafOk blockSize l') := by
  obtain ⟨rest, heq, hrest⟩ := h
  cases before with
  | nil =>
      obtain ⟨hl, rfl⟩ := List.cons.inj heq
      exact ⟨hrest, .inl ⟨rfl, hl⟩⟩
  | cons first before =>
      obtain ⟨hfirst, rfl⟩ := List.cons.inj heq
      refine ⟨fun l' hl' => hrest l' (by simp [hl']), .inr ⟨hrest l (by simp), before, by rw [hfirst], ?_⟩⟩
      exact fun l' hl' => hrest l' (by simp [hl'])

/-- Replacing a leaf that is not the sentinel. -/
theorem LeavesOk.replace (h : LeavesOk blockSize (before ++ l :: after)) (hl : l.isSentinal = false)
    {new : List (Leaf K V)} (hnew : ∀ l' ∈ new, LeafOk blockSize l') : LeavesOk blockSize (before ++ new ++ after) := by
  obtain ⟨hafter, hcases⟩ := h.middle
  cases hcases with
  | inl hfirst =>
      rw [hfirst.2] at hl
      cases hl
  | inr hrest =>
      obtain ⟨_, rest, rfl, hrest⟩ := hrest
      refine ⟨rest ++ new ++ after, rfl, fun l' hl' => ?_⟩
      rw [List.append_assoc, List.mem_append, List.mem_append] at hl'
      cases hl' with
      | inl hl' => exact hrest l' hl'
      | inr hl' =>
          cases hl' with
          | inl hl' => exact hnew l' hl'
          | inr hl' => exact hafter l' hl'

/-- Where a search for a key ends: the key is in no leaf but the one found. -/
structure Found (t : ExtTree K (Leaf K V)) (m : K → Option V) (k : K) (before after : List (Leaf K V)) : Prop where
  split : Split (toward k) t before after
  sorted : Sorted (t.search (toward k)).keyvals
  mem : ∀ v, ⟨k, v⟩ ∈ (t.search (toward k)).keyvals ↔ m k = some v
  other : ∀ kv ∈ entries before ++ entries after, kv.key ≠ k

/-- The end of a search. -/
theorem Represents.search (h : Represents blockSize t m) (k : K) : ∃ before after, Found t m k before after := by
  obtain ⟨before, after, hsplit, hbefore, hafter⟩ := h.routed.split k
  have hother : ∀ kv ∈ entries before ++ entries after, kv.key ≠ k := by
    intro kv hkv
    cases List.mem_append.mp hkv with
    | inl hkv =>
        obtain ⟨l, hl, hkv⟩ := List.mem_flatMap.mp hkv
        exact (hbefore l hl kv.key ⟨kv.value, hkv⟩).ne
    | inr hkv =>
        obtain ⟨l, hl, hkv⟩ := List.mem_flatMap.mp hkv
        exact (hafter l hl kv.key ⟨kv.value, hkv⟩).ne'
  refine ⟨before, after, hsplit, ?_, fun v => ?_, hother⟩
  · have hleaves := h.leaves
    rw [hsplit.leaves] at hleaves
    cases hleaves.middle.2 with
    | inl hfirst =>
        rw [hfirst.2]
        exact List.Pairwise.nil
    | inr hrest => exact hrest.1.sorted
  · rw [← h.mem, hsplit.leaves, List.append_cons, mem_entries]
    constructor
    · exact fun hmem => .inr (List.mem_flatMap.mpr ⟨_, List.mem_singleton_self _, hmem⟩)
    · intro hmem
      cases hmem with
      | inl hmem => exact absurd rfl (hother _ hmem)
      | inr hmem => simpa [entries] using hmem

/-- The search in the leaf where a search ends. -/
theorem Found.findIn (h : Found t m k before after) : findIn k (t.search (toward k)).keyvals = m k := by
  refine Option.ext fun v => ?_
  rw [findIn_eq_some h.sorted]
  exact h.mem v

/-- One entry more. -/
theorem Represents.grow (h : Represents blockSize t m) (hfound : Found t m k before after) (hk : m k = none)
    {t' : ExtTree K (Leaf K V)} {new : List (Leaf K V)} (ht' : t'.leaves = before ++ new ++ after)
    (hperm : (entries new).Perm (⟨k, v⟩ :: (t.search (toward k)).keyvals)) (hleaves : LeavesOk blockSize t'.leaves)
    (hrouted : Routed HasKey t') : Represents blockSize t' (Function.update m k (some v)) := by
  refine ⟨hleaves, hrouted, fun k' v' => ?_⟩
  have hmem := h.mem k' v'
  rw [hfound.split.leaves, List.append_cons, mem_entries] at hmem
  rw [ht', mem_entries, hperm.mem_iff, List.mem_cons, or_left_comm, Function.update_apply, KV.mk.injEq]
  have hsingle : entries [t.search (toward k)] = (t.search (toward k)).keyvals := List.flatMap_singleton _ _
  rw [hsingle] at hmem
  rw [hmem]
  by_cases heq : k' = k
  · rw [if_pos heq, heq, hk, Option.some.injEq]
    constructor
    · intro hv
      cases hv with
      | inl hv => exact hv.2.symm
      | inr hv => cases hv
    · exact fun hv => .inl ⟨rfl, hv.symm⟩
  · rw [if_neg heq]
    exact or_iff_right fun hv => heq hv.1

/-- One entry less. -/
theorem Represents.shrink (h : Represents blockSize t m) (hfound : Found t m k before after)
    {t' : ExtTree K (Leaf K V)} {new : List (Leaf K V)} (ht' : t'.leaves = before ++ new ++ after)
    (hperm : (t.search (toward k)).keyvals.Perm (⟨k, v⟩ :: entries new)) (hleaves : LeavesOk blockSize t'.leaves)
    (hrouted : Routed HasKey t') : Represents blockSize t' (Function.update m k none) := by
  refine ⟨hleaves, hrouted, fun k' v' => ?_⟩
  have hmem := h.mem k' v'
  have hsingle : entries [t.search (toward k)] = (t.search (toward k)).keyvals := List.flatMap_singleton _ _
  rw [hfound.split.leaves, List.append_cons, mem_entries, hsingle, hperm.mem_iff, List.mem_cons] at hmem
  rw [ht', mem_entries, Function.update_apply]
  by_cases heq : k' = k
  · rw [if_pos heq, heq]
    refine iff_of_false (fun hmem => ?_) (fun hnone => by cases hnone)
    cases hmem with
    | inl hmem => exact hfound.other _ hmem rfl
    | inr hmem =>
        have hkeys : ((⟨k, v⟩ :: entries new).map KV.key).Nodup := by
          rw [← (hperm.map KV.key).nodup_iff]
          exact (List.pairwise_map.mpr hfound.sorted).imp ne_of_lt
        exact (List.nodup_cons.mp hkeys).1 (List.mem_map.mpr ⟨_, hmem, rfl⟩)
  · rw [if_neg heq, ← hmem, KV.mk.injEq]
    exact or_congr_right (or_iff_right fun hv => heq hv.1).symm

end

/-! ## The operations -/

section

variable {blockSize : Nat} {t : ExtTree K (Leaf K V)} {m : K → Option V} {k : K} {v : V}
  {before after : List (Leaf K V)} {keyvals : List (KV K V)}

/-- What takes the place of a block. -/
theorem newBlock_spec (hbs : 1 ≤ blockSize) (hsorted : Sorted keyvals) (hpos : 1 ≤ keyvals.length)
    (hle : keyvals.length ≤ blockSize + 1) :
    ∃ x, newBlock blockSize keyvals = some x ∧ entries x.leaves = keyvals ∧ (∀ l ∈ x.leaves, LeafOk blockSize l) ∧
      Routed HasKey x := by
  rw [newBlock]
  by_cases hover : blockSize < keyvals.length
  · have hmid : keyvals.length / 2 < keyvals.length := by omega
    have hdrop := List.drop_eq_getElem_cons hmid
    have hparts : keyvals.take (keyvals.length / 2) ++ keyvals.drop (keyvals.length / 2) = keyvals :=
      List.take_append_drop _ _
    have hparts' := hsorted
    rw [Sorted, ← hparts, List.pairwise_append] at hparts'
    obtain ⟨hleft, hright, hcross⟩ := hparts'
    rw [if_pos hover, List.getElem?_eq_getElem hmid]
    refine ⟨_, rfl, ?_, ?_, fun l hl k' hk' => ?_, fun l hl k' hk' => ?_, trivial, trivial⟩
    · simp only [entries, ExtTree.leaves, List.singleton_append, List.flatMap_cons, List.flatMap_nil, List.append_nil]
      exact hparts
    · intro l hl
      have hcases : l = ⟨false, keyvals.take (keyvals.length / 2)⟩ ∨
          l = ⟨false, keyvals.drop (keyvals.length / 2)⟩ := by
        simpa [ExtTree.leaves] using hl
      cases hcases with
      | inl heq =>
          rw [heq]
          refine ⟨rfl, hleft, ?_, ?_⟩
          · rw [List.length_take]
            omega
          · rw [List.length_take]
            omega
      | inr heq =>
          rw [heq]
          refine ⟨rfl, hright, ?_, ?_⟩
          · rw [List.length_drop]
            omega
          · rw [List.length_drop]
            omega
    · rw [ExtTree.leaves, List.mem_singleton] at hl
      rw [hl] at hk'
      obtain ⟨v', hmem⟩ := hk'
      exact hcross _ hmem _ (by rw [hdrop]; exact List.mem_cons_self)
    · rw [ExtTree.leaves, List.mem_singleton] at hl
      rw [hl] at hk'
      obtain ⟨v', hmem⟩ := hk'
      rw [hdrop] at hmem hright
      cases List.mem_cons.mp hmem with
      | inl heq => rw [← heq]
      | inr hmem => exact ((List.pairwise_cons.mp hright).1 _ hmem).le
  · rw [if_neg hover]
    refine ⟨_, rfl, List.flatMap_singleton _ _, fun l hl => ?_, trivial⟩
    rw [ExtTree.leaves, List.mem_singleton] at hl
    rw [hl]
    exact ⟨rfl, hsorted, hpos, by show keyvals.length ≤ blockSize; omega⟩

/-- `insert` of a key that is not in the map. -/
theorem Represents.insert (h : Represents blockSize t m) (hbs : 1 ≤ blockSize) (hk : m k = none) (v : V) :
    ∃ t', insert blockSize t k v = some (t', true) ∧ Represents blockSize t' (Function.update m k (some v)) := by
  obtain ⟨before, after, hfound⟩ := h.search k
  obtain ⟨hleaf, hstore⟩ := locate_leaf (toward k) t
  have hleaves := h.leaves
  rw [hfound.split.leaves] at hleaves
  have habsent : ∀ kv ∈ (t.search (toward k)).keyvals, kv.key ≠ k := by
    intro kv hkv heq
    cases kv with
    | mk key value =>
        cases heq
        have hsome := (hfound.mem value).mp hkv
        rw [hk] at hsome
        cases hsome
  rw [BlockLeafTree.insert]
  simp only [findLocation, hleaf, hstore, hfound.findIn, hk, Option.isSome_none, Bool.false_eq_true, if_false]
  cases hleaves.middle.2 with
  | inl hfirst =>
      obtain ⟨hbefore, hsent⟩ := hfirst
      rw [hsent, if_pos rfl]
      have hperm : (entries (ExtTree.node k (.leaf ⟨true, []⟩) (.leaf ⟨false, [⟨k, v⟩]⟩)).leaves).Perm
          (⟨k, v⟩ :: (t.search (toward k)).keyvals) := by
        rw [hsent]
        exact List.Perm.refl _
      refine ⟨_, rfl, h.grow hfound hk (hfound.split.graft _) hperm ?_
        (h.routed.graft ?_ fun l hl k' hk' => hasKey_of_perm hperm hl hk')⟩
      · rw [hfound.split.graft, hbefore]
        refine ⟨⟨false, [⟨k, v⟩]⟩ :: after, rfl, List.forall_mem_cons.mpr ⟨?_, hleaves.middle.1⟩⟩
        exact ⟨rfl, List.pairwise_singleton _ _, le_rfl, hbs⟩
      · refine ⟨fun l hl k' hk' => ?_, fun l hl k' hk' => ?_, trivial, trivial⟩
        · obtain ⟨v', hmem⟩ := hk'
          rw [ExtTree.leaves, List.mem_singleton] at hl
          rw [hl] at hmem
          cases hmem
        · obtain ⟨v', hmem⟩ := hk'
          rw [ExtTree.leaves, List.mem_singleton] at hl
          rw [hl, List.mem_singleton] at hmem
          cases hmem
          exact le_rfl
  | inr hrest =>
      obtain ⟨hok, -⟩ := hrest
      obtain ⟨out, hinsert, hout, hperm⟩ := insertIn_spec hfound.sorted (⟨k, v⟩ : KV K V) habsent
      have hlength : out.length = (t.search (toward k)).keyvals.length + 1 := by
        rw [hperm.length_eq, List.length_cons]
      have hsize := hok.size_le
      obtain ⟨x, hnew, hentries, hxok, hrouted⟩ := newBlock_spec hbs hout (by omega) (by omega)
      rw [hok.isSentinal, hinsert]
      simp only [Bool.false_eq_true, if_false, bind, Option.bind_some, hnew, pure]
      rw [← hentries] at hperm
      refine ⟨_, rfl, h.grow hfound hk (hfound.split.graft x) hperm ?_ (h.routed.graft hrouted ?_)⟩
      · rw [hfound.split.graft]
        exact hleaves.replace hok.isSentinal hxok
      · exact fun l hl k' hk' => hasKey_of_perm hperm hl hk'

/-- `remove` of a key that is in the map. -/
theorem Represents.remove (h : Represents blockSize t m) (hk : m k = some v) :
    ∃ t', remove t k = some (t', true) ∧ Represents blockSize t' (Function.update m k none) := by
  obtain ⟨before, after, hfound⟩ := h.search k
  obtain ⟨hleaf, hstore⟩ := locate_leaf (toward k) t
  have hleaves := h.leaves
  rw [hfound.split.leaves] at hleaves
  have hmem : ⟨k, v⟩ ∈ (t.search (toward k)).keyvals := (hfound.mem v).mpr hk
  have hnot : ¬ (before = [] ∧ t.search (toward k) = ⟨true, []⟩) := by
    intro hfirst
    rw [hfirst.2] at hmem
    cases hmem
  obtain ⟨hok, rest, hbefore, hrest⟩ := hleaves.middle.2.resolve_left hnot
  obtain ⟨out, hremove, hout, hperm⟩ := removeFrom_spec hfound.sorted hmem
  have hlength : (t.search (toward k)).keyvals.length = out.length + 1 := by rw [hperm.length_eq, List.length_cons]
  have hsize := hok.size_le
  rw [BlockLeafTree.remove]
  simp only [findLocation, hleaf, hstore, hfound.findIn, hk, Option.isNone_some, Bool.false_eq_true, if_false]
  by_cases hone : 1 < (t.search (toward k)).keyvals.length
  · rw [if_pos hone, hremove]
    have hentries : entries (ExtTree.leaf (R := K) (⟨false, out⟩ : Leaf K V)).leaves = out := List.flatMap_singleton _ _
    rw [← hentries] at hperm
    refine ⟨_, rfl, h.shrink hfound (hfound.split.graft _) hperm ?_ (h.routed.graft trivial ?_)⟩
    · rw [hfound.split.graft]
      refine hleaves.replace hok.isSentinal fun l hl => ?_
      rw [ExtTree.leaves, List.mem_singleton] at hl
      rw [hl]
      exact ⟨rfl, hout, by show 1 ≤ out.length; omega, by show out.length ≤ blockSize; omega⟩
    · intro l hl k' hk'
      obtain ⟨v', hmem'⟩ := hk'
      exact .inl ⟨v', hperm.mem_iff.mpr (List.mem_cons_of_mem _ (List.mem_flatMap.mpr ⟨l, hl, hmem'⟩))⟩
  · have hnil : out = [] := List.length_eq_zero_iff.mp (by omega)
    rw [hnil, List.perm_singleton] at hperm
    rw [if_neg hone, hperm]
    simp only [equal_iff.mpr, if_true]
    -- The sentinel is to the left, so the parent is not the root.
    cases unlink_locate (toward k) t with
    | inl hheader =>
        obtain ⟨l, rfl, -⟩ := hheader
        obtain ⟨hnone, -⟩ := hfound.split.nil
        rw [hnone] at hbefore
        cases hbefore
    | inr hparent =>
        obtain ⟨hnode, -, hunlink⟩ := hparent
        have hleaves' := hfound.split.prune hnode
        rw [hunlink]
        refine ⟨_, rfl, h.shrink (v := v) hfound (show _ = before ++ [] ++ after by rw [hleaves', List.append_nil]) ?_ ?_
          h.routed.prune⟩
        · rw [hperm]
          exact List.Perm.refl _
        · rw [hleaves', ← List.append_nil before]
          exact hleaves.replace hok.isSentinal fun l hl => by cases hl

/-- `find`. -/
theorem Represents.find (h : Represents blockSize t m) : find t k = m k := by
  obtain ⟨before, after, hfound⟩ := h.search k
  rw [BlockLeafTree.find, findLocation, (locate_leaf (toward k) t).1, hfound.findIn]

/-- An update that finds nothing to do. -/
theorem Represents.unchanged (h : Represents blockSize t m) (k : K) :
    ((m k).isSome → ∀ v, BlockLeafTree.insert blockSize t k v = some (t, false)) ∧
      (m k = none → BlockLeafTree.remove t k = some (t, false)) := by
  obtain ⟨before, after, hfound⟩ := h.search k
  rw [BlockLeafTree.remove]
  simp only [BlockLeafTree.insert, findLocation, (locate_leaf (toward k) t).1, hfound.findIn]
  refine ⟨fun hsome v => by rw [if_pos hsome], fun hnone => ?_⟩
  rw [if_pos (by rw [hnone]; rfl)]

/-- Every operation acts as on the map. -/
theorem Represents.perform (h : Represents blockSize t m) (hbs : 1 ≤ blockSize) (op : Op K V) :
    ∃ t', perform blockSize t op = some (t', (op.act m).2) ∧ Represents blockSize t' (op.act m).1 := by
  cases op with
  | insert k v =>
      rw [BlockLeafTree.perform, Op.act]
      cases hk : m k with
      | none =>
          obtain ⟨t', hinsert, ht'⟩ := h.insert hbs hk v
          exact ⟨t', by rw [hinsert]; rfl, ht'⟩
      | some old => exact ⟨t, by rw [(h.unchanged k).1 (by rw [hk]; rfl)]; rfl, h⟩
  | remove k =>
      rw [BlockLeafTree.perform, Op.act]
      cases hk : m k with
      | none => exact ⟨t, by rw [(h.unchanged k).2 hk]; rfl, h⟩
      | some v =>
          obtain ⟨t', hremove, ht'⟩ := h.remove hk
          exact ⟨t', by rw [hremove]; rfl, ht'⟩
  | find k => exact ⟨t, by rw [BlockLeafTree.perform, h.find]; rfl, h⟩

end

/-- A sequence of insertions, removals and searches, from the empty tree, implements a finite map, and no operation uses
a null `gp`. After it the leftmost leaf is the sentinel, which is empty; every other leaf is strictly sorted and has
between 1 and `blockSize` entries; and the keys to the left of the key of an internal node are smaller, and those to its
right are not. -/
theorem blockLeafTree_exact {blockSize : Nat} (hbs : 1 ≤ blockSize) (ops : List (Op K V)) :
    ∃ t, run (perform blockSize) ops empty = some (t, (acts Op.act ops fun _ => none).2) ∧
      (∀ k v, (∃ l ∈ t.leaves, ⟨k, v⟩ ∈ l.keyvals) ↔ (acts Op.act ops fun _ => none).1 k = some v) ∧
      (∃ rest, t.leaves = ⟨true, []⟩ :: rest ∧ ∀ l ∈ rest, l.isSentinal = false ∧
        (l.keyvals.Pairwise fun a b => a.key < b.key) ∧ 1 ≤ l.keyvals.length ∧ l.keyvals.length ≤ blockSize) ∧
      Routed (fun l k => ∃ v, ⟨k, v⟩ ∈ l.keyvals) t := by
  obtain ⟨t, hrun, h⟩ := run_acts (Represents blockSize) (fun t m op ht => ht.perform hbs op)
    (represents_empty (K := K) (V := V))
  obtain ⟨rest, hleaves, hrest⟩ := h.leaves
  refine ⟨t, hrun, fun k v => ?_, ⟨rest, hleaves, fun l hl => ?_⟩, h.routed⟩
  · rw [← h.mem, entries, List.mem_flatMap]
  · exact ⟨(hrest l hl).isSentinal, (hrest l hl).sorted, (hrest l hl).size_pos, (hrest l hl).size_le⟩

/-- With blocks of one entry: the second insertion splits a block, and the removals take the leaves out again. -/
theorem blockLeafTree_exact_run :
    ∃ t, run (perform 1) [.insert 2 20, .insert 1 10, .remove 2, .find 1, .remove 1]
        (empty : ExtTree Nat (Leaf Nat Nat)) =
        some (t, [.changed true, .changed true, .changed true, .found (some 10), .changed true]) ∧
      t.leaves = [⟨true, []⟩] := by
  obtain ⟨t, hrun, hmem, ⟨rest, hleaves, hrest⟩, -⟩ := blockLeafTree_exact (le_refl 1)
    ([.insert 2 20, .insert 1 10, .remove 2, .find 1, .remove 1] : List (Op Nat Nat))
  refine ⟨t, hrun, ?_⟩
  cases rest with
  | nil => exact hleaves
  | cons l rest =>
      obtain ⟨_, _, hpos, _⟩ := hrest l List.mem_cons_self
      obtain ⟨kv, hkv⟩ := List.exists_mem_of_length_pos hpos
      have hkey := (hmem kv.key kv.value).mp ⟨l, by rw [hleaves]; simp, hkv⟩
      simp [acts, Op.act, Function.update_apply] at hkey
      simp [hkey.1, hkey.2.1] at hkey

end Verlib.BlockLeafTree
