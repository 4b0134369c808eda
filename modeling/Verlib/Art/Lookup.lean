import Verlib.Art.Runs

/-!
# Lookups and removals of any key

A search for a key passes through every node whose first `byte_num` bytes are those of the key. It ends without a
slot at a sparse or indirect node that has none for the next byte of the key, where `try_remove` and `try_find`
load through a null pointer; and it ends at a cut edge where the bytes of an internal node are not those of the key,
and `find_` searches that node as if it were a leaf.
-/

namespace Verlib.Art

open Verlib.Radix

variable {n : Nat} {V : Type}

/-- Every node whose first bytes are those of the key has a slot for the next byte of the key. -/
def HasSlots (k : Key n) (t : Node n V) : Prop :=
  ∀ key byteNum size slots ptr, Reachable t (.inner key byteNum size slots ptr) → Agree k key byteNum →
    slots.getChild size (getByte k byteNum) ≠ none

/-- An internal node in the slot of the key has the first bytes of the key, if the node above it has. -/
def NoCutEdge (k : Key n) (t : Node n V) : Prop :=
  ∀ key byteNum size slots ptr, Reachable t (.inner key byteNum size slots ptr) → Agree k key byteNum →
    ∀ i key' byteNum' size' slots' ptr', slots.getChild size (getByte k byteNum) = some i →
      ptr i = .inner key' byteNum' size' slots' ptr' → Agree k key' byteNum'

section

variable {k : Key n} {t x : Node n V}

/-! ## The path of a search -/

/-- A search leads to every node whose first bytes are those of the key. -/
theorem Root.descent (h : Root t) (hx : Reachable t x) (hleaf : x.isLeaf = false) (hnull : x.isNull = false)
    (hagree : Agree k x.key x.byteNum) : ∃ a pos P, Descent k t 0 (fun _ => True) a x pos P := by
  induction hx with
  | root => exact ⟨[], 0, _, .here⟩
  | @child key byteNum size slots ptr s hparent hs ih =>
      obtain ⟨pos, P, hgood, _⟩ := h.good.reachable context_root hparent
      have hchild := hgood.2.2.2.2 s hs
      cases hx : ptr s.2 with
      | null =>
          rw [hx] at hnull
          cases hnull
      | leaf =>
          rw [hx] at hleaf
          cases hleaf
      | inner key' byteNum' size' slots' ptr' =>
          rw [hx] at hchild hagree
          have hle : byteNum + 1 ≤ byteNum' := hchild.2.2.1
          have hlead : Agree k key byteNum := (hagree.mono (Nat.le_of_lt hle)).trans hchild.2.1.1
          have hbyte : getByte k byteNum = s.1 := by
            rw [hagree byteNum hle]
            exact hchild.2.1.2
          obtain ⟨a, pos', P', hdescent⟩ := ih rfl rfl hlead
          have hslot : slots.getChild size (getByte k byteNum) = some s.2 := by
            rw [hbyte]
            exact (hgood.1.getChild_eq_some (hgood.1.byte_lt s hs)).mpr hs
          rw [← hx]
          exact ⟨_, _, _, hdescent.snoc hlead hslot⟩

/-- The loop of `find_location` goes to the end if there is no difference. -/
theorem matchBytes_agree {key : Key n} {byteNum bytePos : Nat} (hagree : Agree k key byteNum)
    (hle : bytePos ≤ byteNum) : matchBytes k key (byteNum - bytePos) bytePos = byteNum := by
  obtain ⟨_, hge, hbound, hne⟩ := matchBytes_spec k key (byteNum - bytePos) bytePos (hagree.mono hle)
  by_contra hstop
  exact hne (by omega) (hagree _ (by omega))

/-- The first node of a path to an internal node with the first bytes of the key. -/
theorem Descent.first {pos pos' : Nat} {P P' : Key n → Prop} {a : List Nat} (h : Descent k t pos P a x pos' P')
    (hleaf : x.isLeaf = false) (hnull : x.isNull = false) (hagree : Agree k x.key x.byteNum) :
    t.isLeaf = false ∧ t.isNull = false ∧ Agree k t.key t.byteNum := by
  cases h with
  | here => exact ⟨hleaf, hnull, hagree⟩
  | down hagree _ _ => exact ⟨rfl, rfl, hagree⟩

/-- A search that leads to a node ends where the search from that node ends. -/
theorem Descent.findLocation {pos pos' : Nat} {P P' : Key n → Prop} {a : List Nat}
    (h : Descent k t pos P a x pos' P') (hgood : Good t pos P) (hleaf : x.isLeaf = false) (hnull : x.isNull = false)
    (hagree : Agree k x.key x.byteNum) :
    (findLocation k t t.byteNum).c = (findLocation k x x.byteNum).c ∧
      (findLocation k t t.byteNum).cptr = (findLocation k x x.byteNum).cptr.map fun cptr => a ++ cptr := by
  induction h with
  | here => exact ⟨rfl, Option.map_id'.symm⟩
  | @down key byteNum size slots ptr pos pos' i P P' a c hlead hslot hrest ih =>
      obtain ⟨hfirst, hfirst', hsame⟩ := hrest.first hleaf hnull hagree
      have hchild := hgood.2.2.2.2 _ ((hgood.1.getChild_eq_some (getByte_lt _ _)).mp hslot)
      have hle : byteNum + 1 ≤ (ptr i).byteNum := hchild.pos_le hfirst'
      obtain ⟨hc, hcptr⟩ := ih hchild hleaf hnull hagree
      rw [show (Node.inner key byteNum size slots ptr).byteNum = byteNum from rfl, Art.findLocation]
      simp only [hslot, hfirst, hfirst', matchBytes_agree hsame hle, ne_eq, not_true_eq_false, Bool.false_eq_true,
        or_self, if_false]
      refine ⟨hc, ?_⟩
      show (Art.findLocation k (ptr i) (ptr i).byteNum).cptr.map _ = _
      rw [hcptr, Option.map_map]
      rfl

/-! ## Missing slots -/

/-- A search ends in a slot if and only if no slot is missing. -/
theorem Root.cptr_ne_none (h : Root t) : (findLocation k t 0).cptr ≠ none ↔ HasSlots k t := by
  constructor
  · intro hcptr key byteNum size slots ptr hx hagree hnone
    obtain ⟨a, pos, P, hdescent⟩ := h.descent hx rfl rfl hagree
    have hthrough := (hdescent.findLocation h.good rfl rfl hagree).2
    obtain ⟨_, _, rfl⟩ := h.full
    refine hcptr (hthrough.trans ?_)
    rw [show (Node.inner key byteNum size slots ptr).byteNum = byteNum from rfl, findLocation]
    simp only [hnone]
    rfl
  · intro hslots hcptr
    obtain ⟨x, pos, P, i, hdescent, hagree, hstop, hslot, _⟩ := h.located k
    rw [hcptr] at hslot
    generalize (findLocation k t 0).c = c at hstop
    generalize (findLocation k t 0).bytePos = stop at hstop
    cases hstop with
    | noChild hnone => exact hslots _ _ _ _ _ (hdescent.reachable h.good) hagree hnone
    | emptyChild => cases hslot
    | leaf => cases hslot
    | cutEdge => cases hslot

/-- `try_remove` and `try_find` load through `cptr` only if it is not null. -/
theorem nullPointer_iff (h : Root t) :
    (tryRemove t k = .error .nullPointer ∨ tryFind t k = .error .nullPointer) ↔ (findLocation k t 0).cptr = none := by
  rw [tryRemove, tryFind]
  cases hcptr : (findLocation k t 0).cptr with
  | none => exact iff_of_true (.inl rfl) rfl
  | some a =>
      refine iff_of_false (fun hfault => ?_) (by simp)
      obtain ⟨pos, P, others, hfound⟩ := h.slotFound hcptr
      cases hfault with
      | inl hremove =>
          simp only at hremove
          split at hremove <;> cases hremove
      | inr hfind =>
          simp only at hfind
          split at hfind
          · cases hfind
          · have hheld := hfound.held
            generalize (findLocation k t 0).c = c at *
            cases hheld with
            | null => contradiction
            | leaf => cases hfind
            | cutEdge => cases hfind

/-! ## Cut edges -/

/-- A search ends at an internal node if and only if there is a cut edge. -/
theorem Root.castFind (h : Root t) :
    (∃ key byteNum size slots ptr, (findLocation k t 0).c = .inner key byteNum size slots ptr) ↔ ¬ NoCutEdge k t := by
  constructor
  · intro hc hnoCut
    obtain ⟨key', byteNum', size', slots', ptr', hc⟩ := hc
    obtain ⟨x, pos, P, i, hdescent, hagree, hstop, _⟩ := h.located k
    rw [hc] at hstop
    cases hstop with
    | cutEdge hslot hptr hmatched _ hcut =>
        have hlead := hnoCut _ _ _ _ _ (hdescent.reachable h.good) hagree _ _ _ _ _ _ hslot hptr
        exact hmatched.differ hcut (hlead _ hcut)
  · intro hcut
    by_contra hno
    refine hcut fun key byteNum size slots ptr hx hagree i key' byteNum' size' slots' ptr' hslot hptr => ?_
    by_contra hdiffer
    obtain ⟨a, pos, P, hdescent⟩ := h.descent hx rfl rfl hagree
    have hgood := hdescent.good h.good
    have hctx := (hdescent.context context_root trivial).1
    have hthrough := (hdescent.findLocation h.good rfl rfl hagree).1
    obtain ⟨_, _, rfl⟩ := h.full
    refine hno ⟨key', byteNum', size', slots', ptr', hthrough.trans ?_⟩
    have hstop : matchBytes k key' (byteNum' - (byteNum + 1)) (byteNum + 1) ≠ byteNum' := by
      intro heq
      have hchild := hgood.2.2.2.2 _ ((hgood.1.getChild_eq_some (getByte_lt _ _)).mp hslot)
      simp only [hptr] at hchild
      have hlead : Agree k key' (byteNum + 1) :=
        (context_below key byteNum _).fixed _ _ ⟨hagree, rfl⟩ hchild.2.1
      have hmatch := (matchBytes_spec k key' (byteNum' - (byteNum + 1)) (byteNum + 1) hlead).1
      rw [heq] at hmatch
      exact hdiffer hmatch
    rw [show (Node.inner key byteNum size slots ptr).byteNum = byteNum from rfl, findLocation]
    simp only [hslot, hptr, Node.isNull, Node.key, Node.byteNum, Bool.false_eq_true, if_false]
    rw [if_pos (.inl hstop)]

/-- `find_` returns what the map holds if and only if there is no cut edge. -/
theorem Represents.find {m : Key n → Option V} (h : Represents t m) : find t k = .ok (m k) ↔ NoCutEdge k t := by
  have hcast := h.root.castFind (k := k)
  rw [Art.find]
  cases hcptr : (findLocation k t 0).cptr with
  | none =>
      obtain ⟨hnull, gp, i, _, _, _, _, _, _, _, _, _, others, hfound⟩ := h.root.noSlotFound hcptr
      have hk : m k = none := by
        cases hk : m k with
        | none => rfl
        | some v =>
            have hmem := (h.mem k v).mpr hk
            rw [hfound.outside.entries.mem_iff, List.mem_append] at hmem
            cases hmem with
            | inl hmem => exact absurd rfl (hfound.good.different_of_noChild hfound.noChild _ hmem)
            | inr hmem => exact absurd rfl (hfound.outside.different _ hmem)
      simp only [hnull, Node.isNull, if_true, hk, true_iff]
      by_contra hcut
      obtain ⟨_, _, _, _, _, hinner⟩ := hcast.mpr hcut
      rw [hnull] at hinner
      cases hinner
  | some a =>
      obtain ⟨pos, P, others, hfound⟩ := h.root.slotFound hcptr
      have hheld := hfound.held
      have hgood := hfound.good
      have hmem : ∀ v, m k = some v ↔ ⟨k, v⟩ ∈ (findLocation k t 0).c.entries := by
        intro v
        rw [← h.mem, hfound.outside.entries.mem_iff, List.mem_append]
        exact or_iff_left fun hmem => hfound.outside.different _ hmem rfl
      generalize (findLocation k t 0).c = c at *
      cases hheld with
      | null =>
          have hk : m k = none := Option.eq_none_iff_forall_ne_some.mpr fun v hv => by cases (hmem v).mp hv
          simp only [Node.isNull, if_true, hk, true_iff]
          by_contra hcut
          obtain ⟨_, _, _, _, _, hinner⟩ := hcast.mpr hcut
          cases hinner
      | @leaf big key byteNum keyVals hmatched hpos =>
          have hk : m k = findIn keyVals k := by
            refine Option.ext fun v => ?_
            rw [hmem, findIn_eq_some hgood.1.sorted]
            rfl
          simp only [Node.isNull, Bool.false_eq_true, if_false, castFind, hk, true_iff]
          by_contra hcut
          obtain ⟨_, _, _, _, _, hinner⟩ := hcast.mpr hcut
          cases hinner
      | cutEdge =>
          refine iff_of_false (fun hfind => ?_) (hcast.mp ⟨_, _, _, _, _, rfl⟩)
          cases hfind

end

/-! ## Reachable trees -/

section

variable {attempts : Nat} {key : Key n} {ops : List (Op n V)} {t : Node n V} {rs : List (Option Bool)}

/-- In every tree that insertions and removals lead to, `try_remove` and `try_find` of a key load through a null
`cptr` unless every node whose first bytes are those of the key has a slot for its next byte. -/
theorem missing_slot_exact (hn : 0 < n) (hrun : run (attempts + 1) ops (empty key) = .ok (t, rs)) (k : Key n) :
    ((tryRemove t k ≠ .error .nullPointer ∧ tryFind t k ≠ .error .nullPointer) ∧
      ((findLocation k t 0).cptr = none → ∀ a, perform (a + 1) t (.remove k) = .ok (t, some false) ∧
        findLocked (a + 1) t k = .ok (t, some none))) ↔ HasSlots k t := by
  have hroot := ((represents_empty hn key).run_ok hrun).1.root
  rw [← hroot.cptr_ne_none, ← not_or, nullPointer_iff hroot]
  constructor
  · intro h
    exact h.1
  · intro h
    exact ⟨h, fun hnone => absurd hnone h⟩

/-- The keys 0 to 14: the last one breaks a leaf up into a sparse node with these fifteen bytes. -/
def fifteen : List (Op 8 Nat) := (List.range 15).map fun i => .insert (BitVec.ofNat 64 i) i

/-- With the keys 0 to 14 stored, a removal of 15 loads through a null pointer, since no slot has this byte; and a
search for 256, which differs in the byte before the last one, ends at the sparse node. -/
theorem fifteen_faults :
    ∃ t rs, run 1 fifteen (empty 0) = .ok (t, rs) ∧ tryRemove t 15 = .error .nullPointer ∧
      find t 256 = .error .notALeaf := by
  have hremove : faultOf (run 1 fifteen (empty 0) >>= fun p => tryRemove p.1 15) = some .nullPointer := by
    decide +kernel
  have hfind : faultOf (run 1 fifteen (empty 0) >>= fun p => find p.1 256) = some .notALeaf := by decide +kernel
  obtain ⟨p, hrun⟩ := exists_of_faultOf (show faultOf (run 1 fifteen (empty 0)) = none by decide +kernel)
  rw [hrun] at hremove hfind
  exact ⟨p.1, p.2, hrun, eq_error_of_faultOf hremove, eq_error_of_faultOf hfind⟩

/-- The tree with the keys 0 to 14 has no slot for the last byte of 15. -/
theorem missing_slot_exact_run :
    ∃ t rs, run 1 fifteen (empty 0) = .ok (t, rs) ∧ ¬ HasSlots 15 t := by
  obtain ⟨t, rs, hrun, hremove, _⟩ := fifteen_faults
  refine ⟨t, rs, hrun, fun hslots => ?_⟩
  exact ((missing_slot_exact (by decide) hrun 15).mpr hslots).1.1 hremove

/-- `try_remove` follows a missing child pointer. -/
theorem missing_slot :
    ¬ ∀ (n : Nat) (V : Type) (attempts : Nat) (key : Key n) (ops : List (Op n V)) (t : Node n V)
      (rs : List (Option Bool)) (k : Key n), 0 < n → run (attempts + 1) ops (empty key) = .ok (t, rs) →
        (tryRemove t k ≠ .error .nullPointer ∧ tryFind t k ≠ .error .nullPointer) ∧
          ((findLocation k t 0).cptr = none → ∀ a, perform (a + 1) t (.remove k) = .ok (t, some false) ∧
            findLocked (a + 1) t k = .ok (t, some none)) := by
  intro hall
  obtain ⟨t, rs, hrun, hremove, _⟩ := fifteen_faults
  exact (hall 8 Nat 0 0 fifteen t rs 15 (by decide) hrun).1.1 hremove

/-- In every tree that insertions and removals lead to, `find_` of a key returns what the map holds, without
searching a node that is not a leaf, if and only if no edge on the path of the key is cut at an internal node. -/
theorem lookup_exact (hn : 0 < n) (hrun : run (attempts + 1) ops (empty key) = .ok (t, rs)) (k : Key n) :
    find t k = .ok ((acts ops fun _ => none).1 k) ↔ NoCutEdge k t :=
  ((represents_empty hn key).run_ok hrun).1.find

/-- In the tree with the keys 0 to 14 the search for 256 ends at a cut edge. -/
theorem lookup_exact_run :
    ∃ t rs, run 1 fifteen (empty 0) = .ok (t, rs) ∧ ¬ NoCutEdge 256 t := by
  obtain ⟨t, rs, hrun, _, hfind⟩ := fifteen_faults
  refine ⟨t, rs, hrun, fun hcut => ?_⟩
  have hok := (lookup_exact (by decide) hrun 256).mpr hcut
  rw [hfind] at hok
  cases hok

/-- `find_` searches an internal node as a leaf. -/
theorem lookup_cut_edge :
    ¬ ∀ (n : Nat) (V : Type) (attempts : Nat) (key : Key n) (ops : List (Op n V)) (t : Node n V)
      (rs : List (Option Bool)) (k : Key n), 0 < n → run (attempts + 1) ops (empty key) = .ok (t, rs) →
        find t k = .ok ((acts ops fun _ => none).1 k) := by
  intro hall
  obtain ⟨t, rs, hrun, _, hfind⟩ := fifteen_faults
  have hok := hall 8 Nat 0 0 fifteen t rs 256 (by decide) hrun
  rw [hfind] at hok
  cases hok

end

end Verlib.Art
