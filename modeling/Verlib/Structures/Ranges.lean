import Verlib.Art.Range
import Verlib.BTree.Range
import Verlib.BTree.Runs
import Verlib.SortedList.Range
import Verlib.Structures.Compare

/-!
# Range queries of the four ordered maps

The B-tree, the two lists and the radix tree offer `range_`. The lists and the radix tree report the entries up to `end`
with the one of `end`, the B-tree those before `end`; and the radix tree reads outside of its leaves if one of them is
stray. The keys are unsigned numbers of 64 bits, with `std::less`.
-/

namespace Verlib.Structures

open Interleaving OrderedMap Radix

/-- The order of unsigned numbers. -/
instance : LinearOrder (Key 8) where
  le_refl := BitVec.le_refl
  le_trans _ _ _ := BitVec.le_trans
  lt_iff_le_not_ge a b := by rw [BitVec.not_le, and_iff_right_of_imp BitVec.le_of_lt]
  le_antisymm _ _ := BitVec.le_antisymm
  le_total := BitVec.le_total
  toDecidableLE := inferInstance
  toDecidableEq := inferInstance
  toDecidableLT := inferInstance

variable {V : Type}

/-- Maps with 64-bit keys that hold the same entries, in states in which no operation runs. -/
structure SameEntries (f : Key 8 → Option V) (root : BTree.Node (Key 8) V) (l : SortedList.Memory (Key 8) V)
    (d : DList.Memory (Key 8) V) (t : Art.Node 8 V) : Prop where
  searchTree : BTree.SearchTree root
  btree : ∀ k v, ⟨k, v⟩ ∈ root.entries ↔ f k = some v
  reached : ∃ recorded h, ∃ st : SortedList.State (Key 8) V Nat, Exec (SortedList.system recorded) h st ∧ st.memory = l
  list : ∀ k v, l.Contains k v ↔ f k = some v
  dlist : ∃ ns e, DList.Represents d f ns e
  arttree : Art.Represents t f

/-- The range queries of the four maps end, none reads outside of a leaf, and they report the same entries. -/
def SameRanges (root : BTree.Node (Key 8) V) (l : SortedList.Memory (Key 8) V) (d : DList.Memory (Key 8) V)
    (t : Art.Node 8 V) (start stop : Key 8) : Prop :=
  ∃ inBTree inList inDList inArt, BTree.range root start stop = some inBTree ∧
    Ends (fun fuel => SortedList.range fuel l start stop) inList ∧
    Ends (fun fuel => DList.range fuel d start stop) inDList ∧ Art.range t start stop = some inArt ∧
    ∀ k v, (⟨k, v⟩ ∈ inBTree ↔ (k, v) ∈ inList) ∧ ((k, v) ∈ inDList ↔ (k, v) ∈ inList) ∧
      (⟨k, v⟩ ∈ inArt ↔ (k, v) ∈ inList)

section

variable {f : Key 8 → Option V} {root : BTree.Node (Key 8) V} {l : SortedList.Memory (Key 8) V}
  {d : DList.Memory (Key 8) V} {t : Art.Node 8 V} {start stop : Key 8}

/-- What the four queries report; the one of the radix tree only if it does not read outside of a leaf. -/
theorem SameEntries.ranges (h : SameEntries f root l d t) (hle : start ≤ stop) :
    (∃ calls, BTree.range root start stop = some calls ∧ ∀ k v, ⟨k, v⟩ ∈ calls ↔ f k = some v ∧ start ≤ k ∧ k < stop) ∧
    (∃ calls, Ends (fun fuel => SortedList.range fuel l start stop) calls ∧
      ∀ k v, (k, v) ∈ calls ↔ f k = some v ∧ start ≤ k ∧ k ≤ stop) ∧
    (∃ calls, Ends (fun fuel => DList.range fuel d start stop) calls ∧
      ∀ k v, (k, v) ∈ calls ↔ f k = some v ∧ start ≤ k ∧ k ≤ stop) ∧
    (Art.range t start stop = none ↔ ¬ Art.NoStrayLeaf start stop t) ∧
      ∀ calls, Art.range t start stop = some calls → ∀ k v, ⟨k, v⟩ ∈ calls ↔ f k = some v ∧ start ≤ k ∧ k ≤ stop := by
  refine ⟨⟨_, BTree.rangeInternal_spec h.searchTree hle, fun k v => ?_⟩, ?_, ?_, ?_⟩
  · rw [List.mem_filter, decide_eq_true_eq, h.btree]
  · obtain ⟨recorded, hist, st, hexec, rfl⟩ := h.reached
    obtain ⟨calls, hcalls, hmem⟩ := SortedList.range_of_exec hexec start stop
    exact ⟨calls, hcalls, fun k v => by rw [hmem, h.list]⟩
  · obtain ⟨ns, e, hrep⟩ := h.dlist
    exact hrep.range start stop
  · obtain ⟨hnone, hsome⟩ := h.arttree.range hle
    exact ⟨hnone, fun calls hcalls => (hsome calls hcalls).2⟩

/-- The list reports the entry of `end`, and the B-tree does not. -/
theorem SameEntries.not_stored (h : SameEntries f root l d t) (hle : start ≤ stop)
    (hsame : SameRanges root l d t start stop) : f stop = none := by
  obtain ⟨⟨inBTree, hbtree, hmemB⟩, ⟨inList, hlist, hmemL⟩, -⟩ := h.ranges hle
  obtain ⟨bs, ls, ds, as, hbs, hls, hds, has, heq⟩ := hsame
  rw [Option.eq_none_iff_forall_ne_some]
  intro v hv
  rw [hbs, Option.some.injEq] at hbtree
  have hin : (stop, v) ∈ ls := by
    rw [hls.unique hlist, hmemL]
    exact ⟨hv, hle, le_rfl⟩
  rw [← (heq stop v).1, hbtree, hmemB] at hin
  exact lt_irrefl stop hin.2.2

/-- The four maps report the same entries from `start` to `end` if and only if `end` is not stored and no leaf of the
radix tree is stray. -/
theorem ranges_agree_iff (h : SameEntries f root l d t) (hle : start ≤ stop) :
    SameRanges root l d t start stop ↔ f stop = none ∧ Art.NoStrayLeaf start stop t := by
  obtain ⟨⟨inBTree, hbtree, hmemB⟩, ⟨inList, hlist, hmemL⟩, ⟨inDList, hdlist, hmemD⟩, hnone, hsome⟩ := h.ranges hle
  constructor
  · intro hsame
    refine ⟨h.not_stored hle hsame, ?_⟩
    obtain ⟨_, _, _, as, -, -, -, has, -⟩ := hsame
    by_contra hstray
    rw [hnone.mpr hstray] at has
    cases has
  · intro hcond
    obtain ⟨hstop, hstray⟩ := hcond
    cases hart : Art.range t start stop with
    | none => exact absurd hstray (hnone.mp hart)
    | some inArt =>
        have hmemA := hsome inArt hart
        refine ⟨inBTree, inList, inDList, inArt, hbtree, hlist, hdlist, hart, fun k v => ?_⟩
        rw [hmemB, hmemL, hmemD, hmemA]
        refine ⟨and_congr_right fun hk => and_congr_right fun _ => ?_, Iff.rfl, Iff.rfl⟩
        refine ⟨le_of_lt, fun hkstop => lt_of_le_of_ne hkstop fun heq => ?_⟩
        rw [heq, hstop] at hk
        cases hk

end

/-! ## The states that operations lead to -/

/-- A sequence of operations of the doubly linked list. -/
theorem dlist_of_run {K : Type} [LinearOrder K] (m : DList.Memory K V) (ops : List (Op K V)) :
    ∃ m', (∃ ns e, DList.Represents m' (acts Op.act ops fun _ => none).1 ns e) ∧
      Ends (fun fuel => OrderedMap.run (DList.perform stdLess fuel) ops (DList.init m))
        (m', (acts Op.act ops fun _ => none).2) := by
  have himpl := (DList.implements (V := V) (stdLess : K → K → Bool)).of_guard fun m op => ordered_stdLess m op
  exact run_enough (fun m f => ∃ ns e, DList.Represents m f ns e)
    (fun s f op hs => by
      obtain ⟨s₁, hends, hs₁⟩ := himpl.meets s f op hs trivial
      exact ⟨s₁, hs₁, hends⟩) ops ⟨_, _, DList.represents_init m⟩

/-- Sequences of operations of the B-tree, the doubly linked list and the radix tree, and a run of threads on the sorted
list, after which all of them hold the same entries. -/
theorem sameEntries_of_runs {f : Key 8 → Option V} {B : BTree.BlockSizes} {opsB : List (UpsertOp (Key 8) V)}
    {m : DList.Memory (Key 8) V} {opsD : List (Op (Key 8) V)} {attempts : Nat} {key : Key 8} {opsT : List (Art.Op 8 V)}
    {root : BTree.Node (Key 8) V} {d : DList.Memory (Key 8) V} {t : Art.Node 8 V} {rsB rsD : List (Result V)}
    {rsT : List (Option Bool)} {recorded : Bool} {h : List (SortedList.Event (Key 8) V)}
    {st : SortedList.State (Key 8) V Nat}
    (hbtree : Ends (fun fuel => OrderedMap.run (BTree.perform B fuel) opsB (BTree.empty B)) (root, rsB))
    (hf : (acts UpsertOp.act opsB fun _ => none).1 = f) (hexec : Exec (SortedList.system recorded) h st)
    (hlist : ∀ k v, st.memory.Contains k v ↔ f k = some v)
    (hdlist : Ends (fun fuel => OrderedMap.run (DList.perform stdLess fuel) opsD (DList.init m)) (d, rsD))
    (hfD : (acts Op.act opsD fun _ => none).1 = f)
    (hart : Art.run (attempts + 1) opsT (Art.empty key) = .ok (t, rsT)) (hfT : (Art.acts opsT fun _ => none).1 = f) :
    SameEntries f root st.memory d t := by
  obtain ⟨root', hrep, hends⟩ := BTree.represents_of_run B opsB
  obtain ⟨rfl, -⟩ := Prod.mk.inj (hbtree.unique hends)
  obtain ⟨d', hdrep, hdends⟩ := dlist_of_run m opsD
  obtain ⟨rfl, -⟩ := Prod.mk.inj (hdlist.unique hdends)
  obtain ⟨depth, hroot⟩ := hrep.rootGood
  refine ⟨hroot.good.searchTree, fun k v => ?_, ⟨recorded, h, st, hexec, rfl⟩, hlist, ?_, ?_⟩
  · rw [hrep.mem, hf]
  · rw [← hfD]
    exact hdrep
  · rw [← hfT]
    exact ((Art.represents_empty (by decide) key).run_ok hart).1

/-- The map with the key 5. -/
def five : Key 8 → Option Nat := Function.update (fun _ => none) 5 (some 50)

/-- The empty sorted list. -/
def emptyList : SortedList.State (Key 8) Nat Nat :=
  ⟨⟨fun a => ⟨0, 0, if a = 1 then 2 else 0, a == 2, false⟩, 3⟩, fun _ => .idle, 0⟩

/-- A run after which the sorted list has the key 5. -/
theorem list_five :
    ∃ (h : List (SortedList.Event (Key 8) Nat)) (st : SortedList.State (Key 8) Nat Nat),
      Exec (SortedList.system false) h st ∧ ∀ k v, st.memory.Contains k v ↔ five k = some v := by
  have hrun : (Interleaving.run (SortedList.next false)
      (.call 0 (.insert 5 50) :: List.replicate 3 (.step 0 fun _ => true)) emptyList).any (fun r =>
        decide ((r.2.memory.nodes SortedList.root).next = 3 ∧ (r.2.memory.nodes 3).key = 5 ∧
          (r.2.memory.nodes 3).value = 50 ∧ (r.2.memory.nodes 3).isEnd = false ∧ (r.2.memory.nodes 3).next = 2 ∧
          (r.2.memory.nodes 2).isEnd = true)) = true := by
    decide +kernel
  obtain ⟨⟨h, st⟩, hsome, hfacts⟩ := (Option.any_eq_true _ _).mp hrun
  simp only [decide_eq_true_eq] at hfacts
  obtain ⟨hfirst, hkey, hvalue, hend, hnext, hlast⟩ := hfacts
  refine ⟨h, st, exec_of_run _ ⟨⟨by decide, by decide, rfl⟩, fun _ => rfl, rfl⟩ hsome, fun k v => ?_⟩
  have hwalk : Ends (fun fuel => Linked.gather (fun a => (st.memory.nodes a).next) (fun a => (st.memory.nodes a).isEnd)
      fuel (st.memory.nodes SortedList.root).next) [3] := by
    refine ⟨2, fun fuel hfuel => ?_⟩
    obtain ⟨fuel, rfl⟩ := Nat.exists_eq_add_of_le' hfuel
    simp [Linked.gather, hfirst, hend, hnext, hlast]
  have hfive : five k = some v ↔ (5 : Key 8) = k ∧ 50 = v := by
    rw [five, Function.update_apply]
    by_cases heq : k = 5
    · rw [if_pos heq, Option.some.injEq, heq]
      simp
    · rw [if_neg heq]
      exact iff_of_false (fun h => by cases h) fun h => heq h.1.symm
  rw [hfive]
  constructor
  · intro hcontains
    obtain ⟨ns, hns, a, ha, rfl, rfl⟩ := hcontains
    rw [hns.unique hwalk, List.mem_singleton] at ha
    rw [ha]
    exact ⟨hkey.symm, hvalue.symm⟩
  · intro hkv
    obtain ⟨rfl, rfl⟩ := hkv
    exact ⟨[3], hwalk, 3, List.mem_singleton_self 3, hkey, hvalue⟩

/-- The radix tree with the key 5: no leaf is stray for a query from 5 to 7. -/
theorem art_five :
    ∃ t rs, Art.run 1 [.insert 5 50] (Art.empty 0 : Art.Node 8 Nat) = .ok (t, rs) ∧ Art.NoStrayLeaf 5 7 t := by
  have hsome : (Art.run 1 [.insert 5 50] (Art.empty 0 : Art.Node 8 Nat) >>= fun p =>
      pure (Art.range p.1 5 7).isSome).toOption = some true := by decide +kernel
  obtain ⟨p, hrun⟩ := Art.exists_of_faultOf
    (show Art.faultOf (Art.run 1 [.insert 5 50] (Art.empty 0 : Art.Node 8 Nat)) = none by decide +kernel)
  have hrep := ((Art.represents_empty (by decide) 0).run_ok hrun).1
  refine ⟨p.1, p.2, hrun, ?_⟩
  by_contra hstray
  rw [hrun] at hsome
  have hreads := Option.some.inj hsome
  rw [(hrep.range (by decide)).1.mpr hstray] at hreads
  cases hreads

/-- Four maps with the key 5. -/
theorem exists_five : ∃ root l d t, SameEntries five root l d t ∧ Art.NoStrayLeaf 5 7 t := by
  obtain ⟨root, -, hbtree⟩ := BTree.represents_of_run ⟨22, 30, by decide, by decide⟩ [.plain (.insert (5 : Key 8) 50)]
  obtain ⟨d, -, hdlist⟩ := dlist_of_run (filled (0 : Key 8) 0) [.insert 5 50]
  obtain ⟨h, st, hexec, hlist⟩ := list_five
  obtain ⟨t, rs, hart, hstray⟩ := art_five
  exact ⟨root, st.memory, d, t, sameEntries_of_runs hbtree rfl hexec hlist hdlist rfl hart rfl, hstray⟩

/-- A query of the maps with the key 5 that ends after it. -/
theorem ranges_agree_iff_five :
    ∃ root l d t, SameEntries five root l d t ∧ (5 : Key 8) ≤ 7 ∧ SameRanges root l d t 5 7 := by
  obtain ⟨root, l, d, t, hsame, hstray⟩ := exists_five
  have hle : (5 : Key 8) ≤ 7 := by decide
  exact ⟨root, l, d, t, hsame, hle, (ranges_agree_iff hsame hle).mpr ⟨by decide, hstray⟩⟩

/-- A query of the maps with the key 5 that ends at it. -/
theorem ranges_differ :
    ¬ ∀ (f : Key 8 → Option Nat) (root : BTree.Node (Key 8) Nat) (l : SortedList.Memory (Key 8) Nat)
      (d : DList.Memory (Key 8) Nat) (t : Art.Node 8 Nat) (start stop : Key 8),
      SameEntries f root l d t → start ≤ stop → SameRanges root l d t start stop := by
  intro hall
  obtain ⟨root, l, d, t, hsame, -⟩ := exists_five
  have hnone := hsame.not_stored le_rfl (hall five root l d t 5 5 hsame le_rfl)
  exact absurd hnone (by decide)

end Verlib.Structures
