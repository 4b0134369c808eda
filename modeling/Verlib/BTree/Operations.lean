import Verlib.BTree.FindAndFix
import Verlib.OrderedMap.Map

/-!
# The operations of the B-tree

`insert`, `upsert`, `remove` and `find` of `btree/ordered_map.h`, on the child of the root. In a sequential run the
first attempt of an operation succeeds. The tree represents a map, and every operation comes to an end and acts on the
map.
-/

namespace Verlib.BTree

open Separated OrderedMap

variable {K V : Type} [LinearOrder K]

/-! ## Leaves -/

/-- `leaf::find`. -/
def leafFind (keyvals : List (KV K V)) (k : K) : Option V :=
  match keyvals[prev keyvals k 0]? with
  | none => none
  | some kv => if k < kv.key then none else some kv.value

/-- `insert_leaf`; `none` stands for a failed assertion. -/
def insertLeaf (B : BlockSizes) (keyvals : List (KV K V)) (k : K) (v : V) (upsert : Bool) : Option (Node K V) :=
  let size := keyvals.length
  let i := prev keyvals k 0
  if size < B.leaf then
    fillLeaf B ((keyvals.take i ++ ⟨k, v⟩ :: keyvals.drop (if upsert then i + 1 else i)).take
      (if upsert then size else size + 1))
  else none

/-- `remove_leaf`; `none` stands for a failed assertion. -/
def removeLeaf (B : BlockSizes) (keyvals : List (KV K V)) (k : K) : Option (Node K V) :=
  let size := keyvals.length
  let i := prev keyvals k 0
  if 0 < size then fillLeaf B ((keyvals.take i ++ keyvals.drop (i + 1)).take (size - 1)) else none

/-! ## Operations -/

/-- `find_no_fix`: the leaf. -/
def findNoFix (k : K) : Node K V → Option (List (KV K V))
  | .leaf _ keyvals => some keyvals
  | .node _ size keys children => do
      let cidx ← find size keys k 0
      findNoFix k (children cidx)

/-- `find_`. -/
def find_ (root : Node K V) (k : K) : Option (Option V) :=
  (findNoFix k root).map fun l => leafFind l k

/-- `try_insert`. -/
def tryInsert (B : BlockSizes) (fuel : Nat) (root : Node K V) (k : K) (v : V) (upsert : Bool) :
    Option (Node K V × Bool) := do
  let (root, path) ← findAndFix B k fuel root
  match root.at_ path with
  | some (.leaf _ l) =>
      if !upsert && (leafFind l k).isSome then pure (root, false)
      else do
        let upsertLeaf := upsert && (leafFind l k).isSome
        let l' ← insertLeaf B l k v upsertLeaf
        pure (root.store path l', true)
  | _ => none

/-- `insert`. -/
def insert (B : BlockSizes) (fuel : Nat) (root : Node K V) (k : K) (v : V) : Option (Node K V × Bool) :=
  tryInsert B fuel root k v false

/-- `upsert`. -/
def upsert (B : BlockSizes) (fuel : Nat) (root : Node K V) (k : K) (v : V) : Option (Node K V × Bool) :=
  tryInsert B fuel root k v true

/-- `remove`, which is `try_remove`. -/
def remove (B : BlockSizes) (fuel : Nat) (root : Node K V) (k : K) : Option (Node K V × Bool) := do
  let (root, path) ← findAndFix B k fuel root
  match root.at_ path with
  | some (.leaf _ l) =>
      if !(leafFind l k).isSome then pure (root, false)
      else do
        let l' ← removeLeaf B l k
        pure (root.store path l', true)
  | _ => none

/-- The constructor of the map: the child of the root is an empty leaf. -/
def empty (B : BlockSizes) : Node K V := newLeaf B []

/-- An operation. -/
def perform (B : BlockSizes) (fuel : Nat) (root : Node K V) : UpsertOp K V → Option (Node K V × Result V)
  | .plain (.insert k v) => (insert B fuel root k v).map fun r => (r.1, .changed r.2)
  | .plain (.remove k) => (remove B fuel root k).map fun r => (r.1, .changed r.2)
  | .plain (.find k) => (find_ root k).map fun r => (root, .found r)
  | .upsert k v => (upsert B fuel root k v).map fun r => (r.1, .changed r.2)

/-! ## What happens in a leaf -/

section

variable {B : BlockSizes} {keyvals lows highs : List (KV K V)} {k : K} {v : V}

/-- The place of a key among the entries of a leaf. -/
structure Cut (keyvals : List (KV K V)) (k : K) (lows highs : List (KV K V)) : Prop where
  prev : prev keyvals k 0 = lows.length
  low : ∀ kv ∈ lows, kv.key < k
  high : ∀ kv ∈ highs, k < kv.key
  entries : (leafFind keyvals k = none ∧ keyvals = lows ++ highs) ∨
    ∃ v, leafFind keyvals k = some v ∧ keyvals = lows ++ ⟨k, v⟩ :: highs

/-- A sorted leaf is cut at a key. -/
theorem cut_spec (hsorted : Sorted keyvals) (k : K) : ∃ lows highs, Cut keyvals k lows highs := by
  obtain ⟨j, hj, heq, hlow, hhigh⟩ := prevFrom_spec (k := k) hsorted 0
  have hprev : prev keyvals k 0 = j := by rw [prev, List.drop_zero, heq, Nat.zero_add]
  have hlength : (keyvals.take j).length = j := by rw [List.length_take]; omega
  by_cases hlt : j < keyvals.length
  · have hdrop := List.drop_eq_getElem_cons hlt
    have hrest : ∀ kv ∈ keyvals.drop (j + 1), keyvals[j].key < kv.key := by
      have hpairwise := hsorted.sublist (List.drop_sublist j keyvals)
      rw [hdrop, List.pairwise_cons] at hpairwise
      exact hpairwise.1
    have hle : k ≤ keyvals[j].key := hhigh _ (by rw [hdrop]; exact List.mem_cons_self)
    have hfind : leafFind keyvals k = if k < keyvals[j].key then none else some keyvals[j].value := by
      rw [leafFind, hprev, List.getElem?_eq_getElem hlt]
    have hparts := List.take_append_drop j keyvals
    by_cases hkey : k < keyvals[j].key
    · refine ⟨keyvals.take j, keyvals.drop j, hprev.trans hlength.symm, hlow, fun kv hkv => ?_,
        .inl ⟨hfind.trans (if_pos hkey), hparts.symm⟩⟩
      rw [hdrop, List.mem_cons] at hkv
      cases hkv with
      | inl hkv => rw [hkv]; exact hkey
      | inr hkv => exact hkey.trans (hrest kv hkv)
    · have hk : keyvals[j].key = k := le_antisymm (not_lt.mp hkey) hle
      refine ⟨keyvals.take j, keyvals.drop (j + 1), hprev.trans hlength.symm, hlow, fun kv hkv => ?_,
        .inr ⟨keyvals[j].value, hfind.trans (if_neg hkey), ?_⟩⟩
      · rw [← hk]
        exact hrest kv hkv
      · rw [← hk]
        rw [hdrop] at hparts
        exact hparts.symm
  · refine ⟨keyvals.take j, [], hprev.trans hlength.symm, hlow, fun kv hkv => absurd hkv List.not_mem_nil,
      .inl ⟨?_, ?_⟩⟩
    · rw [leafFind, hprev, List.getElem?_eq_none (by omega)]
    · rw [List.append_nil, List.take_of_length_le (by omega)]

/-- The entries around the place of a key are sorted, with and without an entry for the key. -/
theorem Cut.sorted (hcut : Cut keyvals k lows highs) (hsorted : Sorted keyvals) (v : V) :
    Sorted (lows ++ highs) ∧ Sorted (lows ++ ⟨k, v⟩ :: highs) := by
  have hboth : Sorted (lows ++ highs) := by
    cases hcut.entries with
    | inl habsent =>
        rw [← habsent.2]
        exact hsorted
    | inr hpresent =>
        obtain ⟨old, -, heq⟩ := hpresent
        rw [heq] at hsorted
        exact hsorted.sublist ((List.Sublist.refl lows).append (List.sublist_cons_self _ _))
  refine ⟨hboth, ?_⟩
  obtain ⟨hlows, hhighs, hcross⟩ := List.pairwise_append.mp hboth
  refine List.pairwise_append.mpr ⟨hlows, List.pairwise_cons.mpr ⟨hcut.high, hhighs⟩, fun kv hkv kv' hkv' => ?_⟩
  cases List.mem_cons.mp hkv' with
  | inl heq => rw [heq]; exact hcut.low kv hkv
  | inr hkv' => exact hcross kv hkv kv' hkv'

/-- No entry around the place of a key has the key. -/
theorem Cut.ne (hcut : Cut keyvals k lows highs) : ∀ kv ∈ lows ++ highs, kv.key ≠ k := by
  intro kv hkv
  cases List.mem_append.mp hkv with
  | inl hkv => exact (hcut.low kv hkv).ne
  | inr hkv => exact (hcut.high kv hkv).ne'

/-- `leaf::find` finds what is in the leaf. -/
theorem leafFind_eq_some (hsorted : Sorted keyvals) : leafFind keyvals k = some v ↔ ⟨k, v⟩ ∈ keyvals := by
  obtain ⟨lows, highs, hcut⟩ := cut_spec hsorted k
  cases hcut.entries with
  | inl habsent =>
      obtain ⟨hfind, heq⟩ := habsent
      rw [hfind, heq]
      exact iff_of_false (fun h => by cases h) fun hmem => hcut.ne _ hmem rfl
  | inr hpresent =>
      obtain ⟨old, hfind, heq⟩ := hpresent
      rw [hfind, heq, List.mem_append, List.mem_cons, or_left_comm, ← List.mem_append, Option.some.injEq,
        KV.mk.injEq]
      constructor
      · intro hv
        exact .inl ⟨rfl, hv.symm⟩
      · intro h
        exact (h.resolve_right fun hmem => hcut.ne _ hmem rfl).2.symm

/-- The number of entries around the place of a key. -/
theorem Cut.length_le (hcut : Cut keyvals k lows highs) :
    lows.length + highs.length ≤ keyvals.length ∧ keyvals.length ≤ lows.length + highs.length + 1 := by
  cases hcut.entries with
  | inl habsent =>
      rw [habsent.2, List.length_append]
      omega
  | inr hpresent =>
      obtain ⟨old, -, heq⟩ := hpresent
      rw [heq, List.length_append, List.length_cons]
      omega

/-- `insert_leaf` adds the key, or replaces its value. -/
theorem insertLeaf_spec (hcut : Cut keyvals k lows highs) (hroom : keyvals.length < B.leaf) (v : V) :
    insertLeaf B keyvals k v (leafFind keyvals k).isSome = some (newLeaf B (lows ++ ⟨k, v⟩ :: highs)) := by
  obtain ⟨hle, -⟩ := hcut.length_le
  have hlength : (lows ++ ⟨k, v⟩ :: highs).length = lows.length + highs.length + 1 := by
    rw [List.length_append, List.length_cons, Nat.add_assoc]
  have hfill : fillLeaf B (lows ++ ⟨k, v⟩ :: highs) = some (newLeaf B (lows ++ ⟨k, v⟩ :: highs)) :=
    if_pos (by omega)
  have htake := List.take_of_length_le hlength.le
  rw [insertLeaf]
  simp only [hcut.prev]
  rw [if_pos hroom]
  cases hcut.entries with
  | inl habsent =>
      obtain ⟨hfind, heq⟩ := habsent
      rw [hfind, heq]
      simp [htake, hfill]
  | inr hpresent =>
      obtain ⟨old, hfind, heq⟩ := hpresent
      rw [hfind, heq]
      simp [← Nat.add_assoc, htake, hfill]

/-- `remove_leaf` takes the key away. -/
theorem removeLeaf_spec (hcut : Cut keyvals k lows highs) (hroom : keyvals.length < B.leaf) {old : V}
    (heq : keyvals = lows ++ ⟨k, old⟩ :: highs) : removeLeaf B keyvals k = some (newLeaf B (lows ++ highs)) := by
  obtain ⟨hle, -⟩ := hcut.length_le
  have hlength : (lows ++ highs).length = lows.length + highs.length := List.length_append
  have hfill : fillLeaf B (lows ++ highs) = some (newLeaf B (lows ++ highs)) := if_pos (by omega)
  have htake := List.take_of_length_le hlength.le
  rw [removeLeaf]
  simp only [hcut.prev]
  rw [heq]
  simp [htake, hfill]

end

/-! ## What happens to the tree -/

/-- The tree is balanced, and its leaves hold the map. -/
structure Represents (B : BlockSizes) (root : Node K V) (m : K → Option V) : Prop where
  rootGood : ∃ h, RootGood B root h
  mem : ∀ k v, ⟨k, v⟩ ∈ root.entries ↔ m k = some v

section

variable {B : BlockSizes} {root t : Node K V} {m : K → Option V} {k : K} {v : V} {h h' : Nat} {lo hi lo' hi' : Bound K}
  {status : Status} {keyvals new : List (KV K V)} {path : List Nat}

/-- The empty map. -/
theorem represents_empty : Represents B (empty B : Node K V) fun _ => none :=
  ⟨⟨0, ⟨rfl, Nat.zero_le _⟩, rfl, List.Pairwise.nil, fun _ hkv => absurd hkv List.not_mem_nil⟩,
    fun _ _ => iff_of_false List.not_mem_nil fun h => by cases h⟩

/-- The search for a key without repairs. -/
theorem findNoFix_spec (hgood : Good B t h lo hi) (hlo : lo ≤ ofKey k) (hhi : ofKey k < hi) :
    ∃ path status keyvals h' lo' hi', findNoFix k t = some keyvals ∧
      Zoom B k t h lo hi path (.leaf status keyvals) h' lo' hi' := by
  induction t generalizing h lo hi with
  | leaf status keyvals => exact ⟨[], status, keyvals, h, lo, hi, rfl, Zoom.nil hgood hlo hhi⟩
  | node status size keys children ih =>
      obtain ⟨h', rfl, hchain⟩ := good_node.mp hgood
      obtain ⟨cidx, b, hfind, hlt, hb, hlo', hhi'⟩ := child_spec hchain hlo hhi
      obtain ⟨path, status', keyvals, h'', lo'', hi'', hleaf, hz⟩ := ih cidx (hb.child cidx hlt).2 hlo' hhi'
      refine ⟨cidx :: path, status', keyvals, h'', lo'', hi'', ?_, hz.under hb hlt hlo' hhi'⟩
      rw [findNoFix, hfind]
      exact hleaf

/-- The leaf for a key has what the map has for the key. -/
theorem Represents.leafFind (hrep : Represents B root m) {h : Nat}
    (hz : Zoom B k root h ⊥ ⊤ path (.leaf status keyvals) h' lo' hi') : leafFind keyvals k = m k := by
  refine Option.ext fun v => ?_
  have hmem := hz.mem_store (v := v) (.leaf status keyvals)
  rw [hz.store_self] at hmem
  rw [leafFind_eq_some hz.good.2.1, ← hrep.mem, hmem]
  rfl

/-- `find`. -/
theorem Represents.find_ (hrep : Represents B root m) (k : K) : find_ root k = some (m k) := by
  obtain ⟨h, hroot⟩ := hrep.rootGood
  obtain ⟨path, status, keyvals, h', lo', hi', hleaf, hz⟩ := findNoFix_spec (k := k) hroot.good bot_le (ofKey_lt_top k)
  rw [BTree.find_, hleaf, Option.map_some, hrep.leafFind hz]

/-- A new leaf that differs in the entry for the key only. -/
theorem Represents.storeLeaf (hrep : Represents B root m) (hroot : RootGood B root h)
    (hr : Reached B k root h ⊥ ⊤ path (.leaf status keyvals) h' lo' hi') (hsorted : Sorted new)
    (hsize : new.length ≤ keyvals.length + 1 ∧ keyvals.length ≤ new.length + 1) (r : Option V)
    (hkey : ∀ v, ⟨k, v⟩ ∈ new ↔ r = some v) (hother : ∀ kv, kv.key ≠ k → (kv ∈ new ↔ kv ∈ keyvals)) :
    Represents B (root.store path (newLeaf B new)) (Function.update m k r) := by
  have hroom : keyvals.length < B.leaf := hr.room
  have hgood := hr.zoom.good
  obtain ⟨hzero, -, hin⟩ := hgood
  refine ⟨⟨h, hroot.store hr ⟨hzero, hsorted, fun kv hkv => ?_⟩ ⟨rfl, by omega⟩ fun hne => ⟨rfl, ?_, by omega⟩⟩,
    fun k' v' => ?_⟩
  · by_cases heq : kv.key = k
    · rw [heq]
      exact ⟨hr.zoom.lo_le, hr.zoom.lt_hi⟩
    · exact hin kv ((hother kv heq).mp hkv)
  · obtain ⟨⟨hstatus, hmin, -⟩, hok⟩ := hr.below hne
    obtain ⟨hlt, -⟩ := ne_of_statusOf_ok (hstatus.symm.trans hok)
    omega
  · rw [Function.update_apply]
    by_cases heq : k' = k
    · rw [if_pos heq, heq, hr.zoom.mem_store, ← hkey]
      rfl
    · rw [if_neg heq, ← hrep.mem]
      exact hr.zoom.mem_congr (hother ⟨k', v'⟩ heq)

/-- A map with a repaired tree. -/
theorem Represents.repaired (hrep : Represents B root m) (k : K) :
    ∃ root' h path status keyvals h' lo' hi', Represents B root' m ∧ RootGood B root' h ∧
      Reached B k root' h ⊥ ⊤ path (.leaf status keyvals) h' lo' hi' ∧
      ∃ enough, ∀ fuel ≥ enough, findAndFix B k fuel root = some (root', path) := by
  obtain ⟨h, hroot⟩ := hrep.rootGood
  obtain ⟨root', h', path, hroot', hentries, -, hends, henough⟩ := findAndFix_spec B k hroot
  obtain ⟨status, keyvals, h'', lo', hi', hr⟩ := hends
  refine ⟨root', h', path, status, keyvals, h'', lo', hi', ⟨⟨h', hroot'⟩, ?_⟩, hroot', hr, henough⟩
  rw [hentries]
  exact hrep.mem

/-- `try_insert` leaves a key that is in the map as it is, unless it is an `upsert`. -/
theorem Represents.tryInsert (hrep : Represents B root m) (k : K) (v : V) (upsert : Bool) :
    ∃ root', Represents B root' (if !upsert && (m k).isSome then m else Function.update m k (some v)) ∧
      ∃ enough, ∀ fuel ≥ enough, tryInsert B fuel root k v upsert = some (root', upsert || (m k).isNone) := by
  obtain ⟨root', h, path, status, keyvals, h', lo', hi', hrep', hroot', hr, enough, henough⟩ := hrep.repaired k
  have hfind := hrep'.leafFind hr.zoom
  by_cases hthere : (!upsert && (m k).isSome) = true
  · refine ⟨root', ?_, enough, fun fuel hfuel => ?_⟩
    · rw [if_pos hthere]
      exact hrep'
    · obtain ⟨hflag, hsome⟩ := Bool.and_eq_true_iff.mp hthere
      rw [BTree.tryInsert, henough fuel hfuel]
      simp only [bind, Option.bind_some, hr.zoom.at_eq, hfind, hthere, if_true, pure]
      rw [(Bool.not_eq_true' _).mp hflag, ← Option.not_isSome, hsome]
      rfl
  · obtain ⟨lows, highs, hcut⟩ := cut_spec hr.zoom.good.2.1 k
    obtain ⟨-, hsorted⟩ := hcut.sorted hr.zoom.good.2.1 v
    have hflag : (upsert && (m k).isSome) = (m k).isSome ∧ (upsert || (m k).isNone) = true := by
      cases upsert with
      | true => exact ⟨Bool.true_and _, rfl⟩
      | false =>
          cases hk : m k with
          | none => exact ⟨rfl, rfl⟩
          | some old =>
              rw [hk] at hthere
              exact absurd rfl hthere
    refine ⟨root'.store path (newLeaf B (lows ++ ⟨k, v⟩ :: highs)), ?_, enough, fun fuel hfuel => ?_⟩
    · rw [if_neg hthere]
      refine hrep'.storeLeaf hroot' hr hsorted ?_ _ (fun v' => ?_) fun kv hne => ?_
      · have hlength := hcut.length_le
        rw [List.length_append, List.length_cons]
        omega
      · rw [List.mem_append, List.mem_cons, or_left_comm, ← List.mem_append, KV.mk.injEq, Option.some.injEq]
        constructor
        · intro hmem
          exact (hmem.resolve_right fun hkv => hcut.ne _ hkv rfl).2.symm
        · exact fun heq => .inl ⟨rfl, heq.symm⟩
      · have hkv : ∀ v', kv ≠ ⟨k, v'⟩ := fun v' heq => hne (by rw [heq])
        cases hcut.entries with
        | inl habsent =>
            rw [habsent.2, List.mem_append, List.mem_cons, List.mem_append]
            simp [hkv v]
        | inr hpresent =>
            obtain ⟨old, -, heq⟩ := hpresent
            rw [heq, List.mem_append, List.mem_cons, List.mem_append, List.mem_cons]
            simp [hkv v, hkv old]
    · have hinsert := insertLeaf_spec hcut hr.room v
      rw [hfind] at hinsert
      rw [BTree.tryInsert, henough fuel hfuel]
      simp only [bind, Option.bind_some, hr.zoom.at_eq, hfind, if_neg hthere, hflag.1, hflag.2, hinsert, pure]

/-- `upsert` stores the value, whether or not the key is in the map; the other keys keep theirs. -/
theorem Represents.upsert (hrep : Represents B root m) (k : K) (v : V) :
    ∃ root', (∃ enough, ∀ fuel ≥ enough, upsert B fuel root k v = some (root', true)) ∧
      BTree.find_ root' k = some (some v) ∧ ∀ k' ≠ k, BTree.find_ root' k' = BTree.find_ root k' := by
  obtain ⟨root', hrep', henough⟩ := hrep.tryInsert k v true
  rw [Bool.not_true, Bool.false_and, if_neg Bool.false_ne_true] at hrep'
  refine ⟨root', henough, ?_, fun k' hne => ?_⟩
  · rw [hrep'.find_, Function.update_self]
  · rw [hrep'.find_, hrep.find_, Function.update_of_ne hne]

/-- `try_remove`. -/
theorem Represents.remove (hrep : Represents B root m) (k : K) :
    ∃ root', Represents B root' (if (m k).isSome then Function.update m k none else m) ∧
      ∃ enough, ∀ fuel ≥ enough, remove B fuel root k = some (root', (m k).isSome) := by
  obtain ⟨root', h, path, status, keyvals, h', lo', hi', hrep', hroot', hr, enough, henough⟩ := hrep.repaired k
  have hfind := hrep'.leafFind hr.zoom
  obtain ⟨lows, highs, hcut⟩ := cut_spec hr.zoom.good.2.1 k
  cases hcut.entries with
  | inl habsent =>
      obtain ⟨hnone, -⟩ := habsent
      rw [hfind] at hnone
      rw [hnone]
      refine ⟨root', hrep', enough, fun fuel hfuel => ?_⟩
      rw [BTree.remove, henough fuel hfuel]
      simp only [bind, Option.bind_some, hr.zoom.at_eq, hfind, hnone]
      rfl
  | inr hpresent =>
      obtain ⟨old, hsome, heq⟩ := hpresent
      obtain ⟨hsorted, -⟩ := hcut.sorted hr.zoom.good.2.1 old
      rw [hfind] at hsome
      rw [hsome]
      refine ⟨root'.store path (newLeaf B (lows ++ highs)), ?_, enough, fun fuel hfuel => ?_⟩
      · rw [Option.isSome_some, if_pos rfl]
        refine hrep'.storeLeaf hroot' hr hsorted ?_ _ (fun v' => ?_) fun kv hne => ?_
        · have hlength := hcut.length_le
          rw [List.length_append]
          omega
        · exact iff_of_false (fun hmem => hcut.ne _ hmem rfl) fun hv => by cases hv
        · have hkv : kv ≠ ⟨k, old⟩ := fun heq => hne (by rw [heq])
          rw [heq, List.mem_append, List.mem_append, List.mem_cons]
          simp [hkv]
      · rw [BTree.remove, henough fuel hfuel]
        simp only [bind, Option.bind_some, hr.zoom.at_eq, hfind, hsome, removeLeaf_spec hcut hr.room heq]
        rfl

end

/-! ## Runs -/

/-- Every operation ends, and acts as on the map. -/
theorem Represents.perform {B : BlockSizes} {root : Node K V} {m : K → Option V} (hrep : Represents B root m)
    (op : UpsertOp K V) :
    ∃ root', Represents B root' (op.act m).1 ∧
      ∃ enough, ∀ fuel ≥ enough, perform B fuel root op = some (root', (op.act m).2) := by
  cases op with
  | plain op =>
      cases op with
      | insert k v =>
          obtain ⟨root', hrep', enough, hinsert⟩ := hrep.tryInsert k v false
          rw [Bool.not_false, Bool.true_and] at hrep'
          rw [UpsertOp.act, Op.act_insert]
          refine ⟨root', hrep', enough, fun fuel hfuel => ?_⟩
          rw [BTree.perform, BTree.insert, hinsert fuel hfuel]
          rfl
      | remove k =>
          obtain ⟨root', hrep', enough, hremove⟩ := hrep.remove k
          rw [UpsertOp.act, Op.act_remove]
          refine ⟨root', hrep', enough, fun fuel hfuel => ?_⟩
          rw [BTree.perform, hremove fuel hfuel]
          rfl
      | find k =>
          refine ⟨root, hrep, 0, fun fuel _ => ?_⟩
          rw [BTree.perform, hrep.find_]
          rfl
  | upsert k v =>
      obtain ⟨root', hrep', enough, hupsert⟩ := hrep.tryInsert k v true
      refine ⟨root', hrep', enough, fun fuel hfuel => ?_⟩
      rw [BTree.perform, BTree.upsert, hupsert fuel hfuel]
      rfl

/-- Every sequence of operations on the empty map ends, and leaves a tree for the map. -/
theorem represents_of_run (B : BlockSizes) (ops : List (UpsertOp K V)) :
    ∃ root, Represents B root (acts UpsertOp.act ops fun _ => none).1 ∧
      ∃ enough, ∀ fuel ≥ enough,
        run (perform B fuel) ops (empty B) = some (root, (acts UpsertOp.act ops fun _ => none).2) :=
  run_enough (Represents B) (fun _ _ op hrep => hrep.perform op) ops represents_empty

end Verlib.BTree
