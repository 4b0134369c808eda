import Verlib.Art.Leaf

/-!
# Updates implement a map

`insert` and `remove` act on the tree as on a finite map, and keep the radix invariant.
-/

namespace Verlib.Art

open Verlib.Radix

variable {n : Nat} {V : Type}

/-! ## One operation -/

/-- The invariant of the tree: the root is a full node at byte 0. -/
structure Root (t : Node n V) : Prop where
  good : Good t 0 fun _ => True
  full : ∃ key ptr, t = .inner key 0 0 .full ptr

/-- A new map. -/
theorem root_empty (hn : 0 < n) (key : Key n) : Root (empty key : Node n V) := by
  refine ⟨⟨Slots.ok_full, trivial, le_rfl, hn, fun s _ => ?_⟩, key, _, rfl⟩
  trivial

section

variable {t : Node n V} {k : Key n} {v : V}

/-- A store below the root keeps the root. -/
theorem Root.store {a : List Nat} {c : Node n V} (h : Root t) (ha : a ≠ []) (hgood : Good (t.store a c) 0 fun _ => True) :
    Root (t.store a c) := by
  obtain ⟨key, ptr, rfl⟩ := h.full
  cases a with
  | nil => exact absurd rfl ha
  | cons i rest => exact ⟨hgood, key, _, rfl⟩

/-- The address of a node below another one. -/
theorem Node.at_append (t : Node n V) (a b : List Nat) : t.at_ (a ++ b) = (t.at_ a).at_ b := by
  induction a generalizing t with
  | nil => rfl
  | cons i rest ih => exact ih (t.child i)

/-- Where a search from the root stops. -/
theorem Root.located (h : Root t) (k : Key n) :
    ∃ x pos P i, Descent k t 0 (fun _ => True) (findLocation k t 0).p x pos P ∧ Agree k x.key x.byteNum ∧
      Stop k x i (findLocation k t 0).c (findLocation k t 0).bytePos ∧
      (findLocation k t 0).cptr = i.map (fun i => (findLocation k t 0).p ++ [i]) ∧
      Above t (findLocation k t 0).gp (findLocation k t 0).p := by
  obtain ⟨key, ptr, rfl⟩ := h.full
  refine findLocation_spec h.good context_root trivial (fun i hi => ?_) rfl rfl
  exact absurd hi (Nat.not_lt_zero i)

/-- The keys below a node whose byte has no slot are different. -/
theorem Good.different_of_noChild {key : Key n} {byteNum size pos : Nat} {slots : Slots} {ptr : Nat → Node n V}
    {P : Key n → Prop} (hgood : Good (.inner key byteNum size slots ptr) pos P)
    (hslot : slots.getChild size (getByte k byteNum) = none) :
    ∀ kv ∈ (Node.inner key byteNum size slots ptr).entries, kv.key ≠ k := by
  intro kv hkv heq
  rw [Node.entries, List.mem_flatMap] at hkv
  obtain ⟨s, hs, hkv⟩ := hkv
  have hbyte := ((hgood.2.2.2.2 s hs).entries_below (context_below _ _ _) kv hkv).1.2
  rw [heq] at hbyte
  refine (hgood.1.getChild_eq_none (getByte_lt k byteNum)).mp hslot s.2 ?_
  rw [hbyte]
  exact hs

/-- The keys below a node whose first bytes are not those of `k` are different. -/
theorem Good.different_of_cutEdge {c : Node n V} {pos stop : Nat} {P : Key n → Prop} (hgood : Good c pos P)
    (hctx : Context pos P) (hmatched : Matched k c.key c.byteNum stop) (hcut : stop < c.byteNum) :
    ∀ kv ∈ c.entries, kv.key ≠ k := by
  intro kv hkv heq
  have hagree := (hgood.entries_below hctx kv hkv).2
  rw [heq] at hagree
  exact hmatched.differ hcut (hagree stop hcut)

/-- What the slot holds in which a search for `k` ends; `pos` is the first position that the path leaves open. -/
inductive Held (k : Key n) (pos stop : Nat) : Node n V → Prop where
  | null : Held k pos stop .null
  | leaf {big : Bool} {key : Key n} {byteNum : Nat} {keyVals : List (KV n V)} :
      Matched k key byteNum stop → pos ≤ stop → Held k pos stop (.leaf big key byteNum keyVals)
  | cutEdge {key : Key n} {byteNum size : Nat} {slots : Slots} {ptr : Nat → Node n V} :
      Matched k key byteNum stop → pos ≤ stop → stop < byteNum →
        Held k pos stop (.inner key byteNum size slots ptr)

/-- The slot in which a search ends. -/
structure SlotFound (k : Key n) (t : Node n V) (a : List Nat) (c : Node n V) (stop pos : Nat) (P : Key n → Prop)
    (others : List (KV n V)) : Prop where
  address : a ≠ []
  pos_le : pos ≤ n
  belongs : P k
  context : Context pos P
  good : Good c pos P
  outside : Outside k t 0 (fun _ => True) a c pos P others
  held : Held k pos stop c

/-- A search that ends in a slot. -/
theorem Root.slotFound (h : Root t) {a : List Nat} (hcptr : (findLocation k t 0).cptr = some a) :
    ∃ pos P others, SlotFound k t a (findLocation k t 0).c (findLocation k t 0).bytePos pos P others := by
  obtain ⟨x, pos, P, i, hdescent, hagree, hstop, hslot, _⟩ := h.located k
  rw [hcptr] at hslot
  generalize findLocation k t 0 = l at *
  have hgo : ∀ {key : Key n} {byteNum size i : Nat} {slots : Slots} {ptr : Nat → Node n V} {c : Node n V} {stop : Nat},
      Descent k t 0 (fun _ => True) l.p (.inner key byteNum size slots ptr) pos P →
      Agree k key byteNum → some a = (some i).map (fun i => l.p ++ [i]) →
      slots.getChild size (getByte k byteNum) = some i → ptr i = c → Held k (byteNum + 1) stop c →
      ∃ pos P others, SlotFound k t a c stop pos P others := by
    intro key byteNum size i slots ptr c stop hdescent hagree ha hslot hc hheld
    have hlast := hdescent.snoc hagree hslot
    rw [hc] at hlast
    obtain ⟨others, houtside⟩ := hlast.outside h.good
    have hpath : a = l.p ++ [i] := Option.some.inj ha
    rw [← hpath] at houtside hlast
    refine ⟨_, _, others, ⟨by simp [hpath], (hdescent.good h.good).2.2.2.1, ⟨hagree, rfl⟩, context_below _ _ _,
      hlast.good h.good, houtside, hheld⟩⟩
  obtain ⟨gp, p, cptr, c, bytePos⟩ := l
  simp only at *
  cases hstop with
  | noChild => cases hslot
  | emptyChild hchild hnull => exact hgo hdescent hagree hslot hchild hnull .null
  | leaf hchild hc hmatched hlt => exact hgo hdescent hagree hslot hchild hc (.leaf hmatched hlt)
  | cutEdge hchild hc hmatched hlt hcut => exact hgo hdescent hagree hslot hchild hc (.cutEdge hmatched hlt hcut)

/-- The node without a slot for the byte in which a search ends, and the node above it. -/
structure NoSlotFound (k : Key n) (t : Node n V) (gp : List Nat) (i : Nat) (key : Key n) (byteNum size : Nat)
    (slots : Slots) (ptr : Nat → Node n V) (pos : Nat) (P : Key n → Prop) (others : List (KV n V)) : Prop where
  at_ : t.at_ (gp ++ [i]) = .inner key byteNum size slots ptr
  parent : (t.at_ gp).getChild key = some i
  noChild : slots.getChild size (getByte k byteNum) = none
  agree : Agree k key byteNum
  good : Good (.inner key byteNum size slots ptr) pos P
  outside : Outside k t 0 (fun _ => True) (gp ++ [i]) (.inner key byteNum size slots ptr) pos P others

/-- A search that ends without a slot. -/
theorem Root.noSlotFound (h : Root t) (hcptr : (findLocation k t 0).cptr = none) :
    (findLocation k t 0).c = .null ∧ ∃ gp i, (findLocation k t 0).gp = some gp ∧ (findLocation k t 0).p = gp ++ [i] ∧
      ∃ key byteNum size slots ptr pos P others,
        NoSlotFound k t gp i key byteNum size slots ptr pos P others := by
  obtain ⟨x, pos, P, i, hdescent, hagree, hstop, hslot, habove⟩ := h.located k
  rw [hcptr] at hslot
  generalize findLocation k t 0 = l at *
  obtain ⟨gp, p, cptr, c, bytePos⟩ := l
  simp only at *
  cases hstop with
  | emptyChild => cases hslot
  | leaf => cases hslot
  | cutEdge => cases hslot
  | @noChild key byteNum size slots ptr hnone =>
      refine ⟨rfl, ?_⟩
      cases habove with
      | root =>
          -- the root has a slot for every byte
          obtain ⟨_, _, rfl⟩ := h.full
          cases hdescent
          cases hnone
      | @node gp pkey pbyteNum psize j pslots pptr hat hb =>
          obtain ⟨b, hchild, rfl⟩ := hb
          have hx : t.at_ (gp ++ [j]) = .inner key bytePos size slots ptr := hdescent.at_
          have hy : pptr j = .inner key bytePos size slots ptr := by
            rw [← hx, Node.at_append, hat]
            rfl
          obtain ⟨others, houtside⟩ := hdescent.outside h.good
          refine ⟨gp, j, rfl, rfl, key, bytePos, size, slots, ptr, pos, P, others,
            ⟨hx, ?_, hnone, hagree, hdescent.good h.good, houtside⟩⟩
          rw [hat]
          rw [hy] at hchild
          exact hchild

/-- A leaf with the key was found if the key is in the tree. -/
theorem SlotFound.leafHas {a : List Nat} {c : Node n V} {stop pos : Nat} {P : Key n → Prop} {others : List (KV n V)}
    (h : SlotFound k t a c stop pos P others) : leafHas c k = true ↔ ∃ kv ∈ t.entries, kv.key = k := by
  have hinside : (∃ kv ∈ t.entries, kv.key = k) ↔ ∃ kv ∈ c.entries, kv.key = k := by
    constructor
    · intro hkey
      obtain ⟨kv, hkv, heq⟩ := hkey
      rw [h.outside.entries.mem_iff, List.mem_append] at hkv
      cases hkv with
      | inl hkv => exact ⟨kv, hkv, heq⟩
      | inr hkv => exact absurd heq (h.outside.different kv hkv)
    · intro hkey
      obtain ⟨kv, hkv, heq⟩ := hkey
      exact ⟨kv, h.outside.entries.mem_iff.mpr (List.mem_append_left _ hkv), heq⟩
  rw [hinside]
  have hgood := h.good
  have hctx := h.context
  cases h.held with
  | null => simp [Art.leafHas, Node.entries]
  | leaf => exact findIn_isSome hgood.1.sorted
  | cutEdge hmatched hpos hcut =>
      refine iff_of_false (by simp [Art.leafHas]) fun hkey => ?_
      obtain ⟨kv, hkv, heq⟩ := hkey
      exact hgood.different_of_cutEdge hctx hmatched hcut kv hkv heq

/-- What `try_insert` writes to the slot. -/
theorem Held.replacement {pos stop : Nat} {c : Node n V} {P : Key n → Prop} (h : Held k pos stop c)
    (hgood : Good c pos P) (hpos : pos ≤ n) (hk : P k) (hnew : ∀ kv ∈ c.entries, kv.key ≠ k) :
    Good (replacement c stop k v) pos P ∧ (replacement c stop k v).entries.Perm (⟨k, v⟩ :: c.entries) := by
  cases h with
  | null => exact ⟨singleton_good hpos hk, List.Perm.refl _⟩
  | @leaf big key byteNum keyVals hmatched hle =>
      have hperm := insertIn_perm keyVals (⟨k, v⟩ : KV n V)
      rw [Art.replacement]
      split
      next hlt =>
        exact ⟨addToLeaf_good hgood hmatched hnew (Nat.lt_of_lt_of_le hlt (by decide)) (iff_of_true rfl hlt) hle hk, hperm⟩
      next hge =>
        have hbig : true = false ↔ keyVals.length < maxSmallLeafSize := iff_of_false (by decide) hge
        split
        next heq => exact ⟨addToLeaf_good hgood hmatched hnew (by rw [heq]; decide) hbig hle hk, hperm⟩
        next =>
          split
          next hroom => exact ⟨addToLeaf_good hgood hmatched hnew hroom hbig hle hk, hperm⟩
          next hfull =>
            have hlen : (insertIn keyVals ⟨k, v⟩).length = maxBigLeafSize + 1 := by
              have hsize := hgood.1.size_le
              rw [hperm.length_eq, List.length_cons]
              omega
            have hsorted : Sorted (insertIn keyVals ⟨k, v⟩) := insertIn_sorted hgood.1.sorted hnew
            have hP : ∀ kv ∈ insertIn keyVals ⟨k, v⟩, P kv.key := by
              intro kv hkv
              cases List.mem_cons.mp (hperm.mem_iff.mp hkv) with
              | inl heq =>
                  rw [heq]
                  exact hk
              | inr hkv => exact hgood.2.2 kv hkv
            obtain ⟨hsplit, hentries⟩ :=
              splitLeaf_good hsorted hlen (differ_insertIn hgood.1 hmatched hnew).1 hle hP
            rw [hentries]
            exact ⟨hsplit, hperm⟩
  | cutEdge hmatched hle hcut =>
      obtain ⟨hpair, hentries⟩ := sparsePair_good (v := v) hgood hmatched hcut hle
      refine ⟨hpair, ?_⟩
      rw [Art.replacement, hentries]
      exact List.perm_append_singleton _ _

/-- `try_insert` of a key that is in the tree. -/
theorem tryInsert_present (h : Root t) (hkey : ∃ kv ∈ t.entries, kv.key = k) :
    tryInsert t k v = .ok (t, some false) := by
  rw [tryInsert]
  cases hcptr : (findLocation k t 0).cptr with
  | none =>
      obtain ⟨_, gp, i, _, _, _, _, _, _, _, _, _, others, hfound⟩ := h.noSlotFound hcptr
      obtain ⟨kv, hkv, heq⟩ := hkey
      rw [hfound.outside.entries.mem_iff, List.mem_append] at hkv
      cases hkv with
      | inl hkv => exact absurd heq (hfound.good.different_of_noChild hfound.noChild kv hkv)
      | inr hkv => exact absurd heq (hfound.outside.different kv hkv)
  | some a =>
      obtain ⟨pos, P, others, hfound⟩ := h.slotFound hcptr
      exact if_pos (hfound.leafHas.mpr hkey)

/-- `try_insert` of a key that is not in the tree. -/
theorem tryInsert_absent (h : Root t) (hkey : ∀ kv ∈ t.entries, kv.key ≠ k) :
    ∃ t', tryInsert t k v = .ok (t', some true) ∧ Root t' ∧ t'.entries.Perm (⟨k, v⟩ :: t.entries) := by
  rw [tryInsert]
  cases hcptr : (findLocation k t 0).cptr with
  | none =>
      obtain ⟨hnull, gp, i, hgp, hp, key, byteNum, size, slots, ptr, pos, P, others, hfound⟩ := h.noSlotFound hcptr
      have hc : Good (Node.singleton k v) (byteNum + 1) (Below key byteNum (getByte k byteNum)) :=
        singleton_good hfound.good.2.2.2.1 ⟨hfound.agree, rfl⟩
      obtain ⟨hgood, hperm⟩ :=
        (grown_copyWithChild hfound.good.1 hfound.noChild).good hfound.good hfound.noChild hc
      refine ⟨t.store (gp ++ [i]) ((Node.inner key byteNum size slots ptr).copyWithChild k (.singleton k v)), ?_,
        h.store (by simp) (hfound.outside.good _ hgood), ?_⟩
      · have hlock : (t.at_ gp).getChild (Node.inner key byteNum size slots ptr).key = some i := hfound.parent
        have hslot : (Node.inner key byteNum size slots ptr).getChild k = none := hfound.noChild
        have hadd : addChild t (some gp) (gp ++ [i]) k v =
            .ok (t.store (gp ++ [i]) ((Node.inner key byteNum size slots ptr).copyWithChild k (.singleton k v)), true) := by
          simp only [addChild]
          rw [hfound.at_]
          simp only [hlock, hslot, ne_eq, not_true_eq_false, if_false]
        simp only [hnull, hgp, hp, hadd]
        rfl
      · refine (hfound.outside.stored _).trans ((hperm.append_right _).trans ?_)
        exact (hfound.outside.entries.symm.cons _)
  | some a =>
      obtain ⟨pos, P, others, hfound⟩ := h.slotFound hcptr
      have hnot : leafHas (findLocation k t 0).c k = false := by
        rw [Bool.eq_false_iff]
        intro hhas
        obtain ⟨kv, hkv, heq⟩ := hfound.leafHas.mp hhas
        exact hkey kv hkv heq
      obtain ⟨hgood, hperm⟩ := hfound.held.replacement hfound.good hfound.pos_le hfound.belongs
        fun kv hkv => hkey kv (hfound.outside.entries.mem_iff.mpr (List.mem_append_left _ hkv))
      refine ⟨t.store a (replacement (findLocation k t 0).c (findLocation k t 0).bytePos k v), ?_,
        h.store hfound.address (hfound.outside.good _ hgood), ?_⟩
      · simp only [hnot]
        rfl
      · refine (hfound.outside.stored _).trans ((hperm.append_right _).trans ?_)
        exact (hfound.outside.entries.symm.cons _)

/-- `try_remove` of a key that is in the tree. -/
theorem tryRemove_present (h : Root t) (hkey : ⟨k, v⟩ ∈ t.entries) :
    ∃ t', tryRemove t k = .ok (t', some true) ∧ Root t' ∧ t.entries.Perm (⟨k, v⟩ :: t'.entries) := by
  rw [tryRemove]
  cases hcptr : (findLocation k t 0).cptr with
  | none =>
      obtain ⟨_, gp, i, _, _, _, _, _, _, _, _, _, others, hfound⟩ := h.noSlotFound hcptr
      rw [hfound.outside.entries.mem_iff, List.mem_append] at hkey
      cases hkey with
      | inl hkv => exact absurd rfl (hfound.good.different_of_noChild hfound.noChild _ hkv)
      | inr hkv => exact absurd rfl (hfound.outside.different _ hkv)
  | some a =>
      obtain ⟨pos, P, others, hfound⟩ := h.slotFound hcptr
      have hhas := hfound.leafHas.mpr ⟨_, hkey, rfl⟩
      have hmem : ⟨k, v⟩ ∈ (findLocation k t 0).c.entries := by
        rw [hfound.outside.entries.mem_iff, List.mem_append] at hkey
        cases hkey with
        | inl hkv => exact hkv
        | inr hkv => exact absurd rfl (hfound.outside.different _ hkv)
      have hgoodc := hfound.good
      simp only [hhas]
      cases hc : (findLocation k t 0).c with
      | null =>
          rw [hc] at hhas
          cases hhas
      | inner =>
          rw [hc] at hhas
          cases hhas
      | leaf big key byteNum keyVals =>
          rw [hc] at hgoodc hmem
          obtain ⟨hgood, hperm⟩ := remainder_good hgoodc hmem
          refine ⟨_, rfl, h.store hfound.address (hfound.outside.good _ hgood), ?_⟩
          have hentries := hfound.outside.entries
          rw [hc] at hentries
          refine hentries.trans ((hperm.append_right _).trans ?_)
          exact ((hfound.outside.stored _).symm.cons _)

/-- `try_remove` of a key that is not in the tree. -/
theorem tryRemove_absent (h : Root t) (hkey : ∀ kv ∈ t.entries, kv.key ≠ k) :
    tryRemove t k = if (findLocation k t 0).cptr = none then .error .nullPointer else .ok (t, some false) := by
  rw [tryRemove]
  cases hcptr : (findLocation k t 0).cptr with
  | none => rfl
  | some a =>
      obtain ⟨pos, P, others, hfound⟩ := h.slotFound hcptr
      have hnot : leafHas (findLocation k t 0).c k = false := by
        rw [Bool.eq_false_iff]
        intro hhas
        obtain ⟨kv, hkv, heq⟩ := hfound.leafHas.mp hhas
        exact hkey kv hkv heq
      simp [hnot]

end

end Verlib.Art
