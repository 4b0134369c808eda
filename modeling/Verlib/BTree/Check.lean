import Verlib.BTree.Range
import Verlib.BTree.Runs

/-!
# The checker of the B-tree

`check_recursive` of `btree/ordered_map.h` visits the children of a node, aborts if a node other than the child of the
root is too small or a key of a node does not lie between the keys of the two children around it, and adds up the sizes
of the leaves. After every sequence of operations it accepts the tree and returns the number of the entries.
-/

namespace Verlib.BTree

open OrderedMap Separated Walk

/-- What `check_recursive` returns. The keys of an empty leaf are what happens to stand there, `none`. -/
structure Extent (K : Type) where
  min : Option K
  max : Option K
  total : Nat

variable {K V : Type} [LinearOrder K]

/-- The loop over the entries of a leaf. -/
def leafExtent : List (KV K V) → Extent K
  | [] => ⟨none, none, 0⟩
  | first :: rest =>
      ⟨some (rest.foldl (fun minv kv => if kv.key < minv then kv.key else minv) first.key),
        some (rest.foldl (fun maxv kv => if maxv < kv.key then kv.key else maxv) first.key), rest.length + 1⟩

/-- The test of a key of a node against the children around it; it must not read the keys of an empty leaf. -/
def between (k : K) : Option (Extent K) → Option (Extent K) → Bool
  | some ⟨_, some maxv, _⟩, some ⟨some minv, _, _⟩ => decide (maxv < k) && !decide (minv < k)
  | _, _ => false

/-- `check_recursive`; `none` is an abort. -/
def checkRecursive (B : BlockSizes) : Node K V → Bool → Option (Extent K)
  | .leaf _ keyvals, _ => some (leafExtent keyvals)
  | .node _ size keys children, isRoot =>
      if isRoot = false ∧ size < B.nodeMin then none
      else do
        let r ← collect (fun i => (checkRecursive B (children i) false).map fun x => [x]) (List.range size)
        if (List.range (size - 1)).all fun i => between (keys i) r[i]? r[i + 1]? then
          some ⟨r.head?.bind Extent.min, r.getLast?.bind Extent.max, (r.map Extent.total).sum⟩
        else none

/-- `check()`, of the child of the root. -/
def check (B : BlockSizes) (root : Node K V) : Option Nat := (checkRecursive B root true).map Extent.total

section

variable {B : BlockSizes} {t : Node K V} {h : Nat} {lo hi : Bound K} {keyvals : List (KV K V)} {isRoot : Bool}

omit [LinearOrder K] in
/-- A loop over the entries keeps one of their keys. -/
theorem foldl_key {f : K → KV K V → K} (hf : ∀ k kv, f k kv = k ∨ f k kv = kv.key) (first : KV K V)
    (rest : List (KV K V)) : ∃ kv ∈ first :: rest, rest.foldl f first.key = kv.key := by
  suffices hkey : ∀ k : K, rest.foldl f k = k ∨ ∃ kv ∈ rest, rest.foldl f k = kv.key by
    cases hkey first.key with
    | inl heq => exact ⟨first, List.mem_cons_self, heq⟩
    | inr hrest =>
        obtain ⟨kv, hkv, heq⟩ := hrest
        exact ⟨kv, List.mem_cons_of_mem _ hkv, heq⟩
  induction rest with
  | nil => exact fun k => .inl rfl
  | cons next rest ih =>
      intro k
      rw [List.foldl_cons]
      cases ih (f k next) with
      | inl heq =>
          rw [heq]
          exact (hf k next).imp_right fun hnext => ⟨next, List.mem_cons_self, hnext⟩
      | inr hrest =>
          obtain ⟨kv, hkv, heq⟩ := hrest
          exact .inr ⟨kv, List.mem_cons_of_mem _ hkv, heq⟩

/-- The right extent of a subtree. -/
structure Spans (t : Node K V) (x : Extent K) : Prop where
  total : x.total = t.entries.length
  min : t.entries ≠ [] → ∃ kv ∈ t.entries, x.min = some kv.key
  max : t.entries ≠ [] → ∃ kv ∈ t.entries, x.max = some kv.key

theorem spans_leaf (status : Status) (keyvals : List (KV K V)) : Spans (.leaf status keyvals) (leafExtent keyvals) := by
  cases keyvals with
  | nil => exact ⟨rfl, fun h => absurd rfl h, fun h => absurd rfl h⟩
  | cons first rest =>
      refine ⟨rfl, fun _ => ?_, fun _ => ?_⟩
      · obtain ⟨kv, hkv, heq⟩ := foldl_key (f := fun minv kv => if kv.key < minv then kv.key else minv)
          (fun k kv => by split; exact .inr rfl; exact .inl rfl) first rest
        exact ⟨kv, hkv, congrArg some heq⟩
      · obtain ⟨kv, hkv, heq⟩ := foldl_key (f := fun maxv kv => if maxv < kv.key then kv.key else maxv)
          (fun k kv => by split; exact .inr rfl; exact .inl rfl) first rest
        exact ⟨kv, hkv, congrArg some heq⟩

/-- Only the child of the root can be without entries. -/
theorem entries_ne_nil (hgood : Good B t h lo hi) (hsize : SizeOk B t) : t.entries ≠ [] := by
  induction t generalizing h lo hi with
  | leaf status keyvals =>
      obtain ⟨-, -, hmin, -⟩ := B.min_lt
      have hle := hsize.2.1
      intro hnil
      rw [show keyvals = [] from hnil] at hle
      exact absurd hle (Nat.not_le_of_lt hmin)
  | node status size keys children ih =>
      obtain ⟨h', rfl, hpos, b, hcuts⟩ := good_node.mp hgood
      obtain ⟨hsize, hchild⟩ := hcuts.child 0 hpos
      obtain ⟨kv, hkv⟩ := List.exists_mem_of_ne_nil _ (ih 0 hchild hsize)
      exact List.ne_nil_of_mem (List.mem_flatMap.mpr ⟨0, List.mem_range.mpr hpos, hkv⟩)

/-- The key between two children, whose entries lie in the intervals around it. -/
theorem between_spec {k : K} {l r : Node K V} {x y : Extent K} {mid : Bound K} {h h' : Nat} (hk : mid = ofKey k)
    (hl : Good B l h lo mid) (hr : Good B r h' mid hi) (hx : Spans l x) (hy : Spans r y) (hlne : l.entries ≠ [])
    (hrne : r.entries ≠ []) : between k (some x) (some y) = true := by
  obtain ⟨kv, hkv, hmax⟩ := hx.max hlne
  obtain ⟨kv', hkv', hmin⟩ := hy.min hrne
  have hlt := (hl.mem_interval hkv).2
  have hge := (hr.mem_interval hkv').1
  rw [hk, ofKey_lt_ofKey] at hlt
  rw [hk, ofKey_le_ofKey] at hge
  obtain ⟨minx, maxx, totalx⟩ := x
  obtain ⟨miny, maxy, totaly⟩ := y
  obtain rfl : maxx = some kv.key := hmax
  obtain rfl : miny = some kv'.key := hmin
  show (decide (kv.key < k) && !decide (kv'.key < k)) = true
  rw [decide_eq_true hlt, decide_eq_false (not_lt.mpr hge)]
  rfl

/-- `check_recursive` on a balanced search tree. -/
theorem checkRecursive_spec (hgood : Good B t h lo hi) (hsize : isRoot = false → SizeOk B t) :
    ∃ x, checkRecursive B t isRoot = some x ∧ Spans t x := by
  induction t generalizing h lo hi isRoot with
  | leaf status keyvals => exact ⟨_, rfl, spans_leaf status keyvals⟩
  | node status size keys children ih =>
      obtain ⟨h', rfl, hpos, b, hcuts⟩ := good_node.mp hgood
      have hchild : ∀ i, ∃ x, i < size → checkRecursive B (children i) false = some x ∧ Spans (children i) x := by
        intro i
        by_cases hi : i < size
        · obtain ⟨hok, hgood'⟩ := hcuts.child i hi
          obtain ⟨x, hx⟩ := ih i hgood' fun _ : false = false => hok
          exact ⟨x, fun _ => hx⟩
        · exact ⟨⟨none, none, 0⟩, fun hlt => absurd hlt hi⟩
      obtain ⟨x, hx⟩ := Classical.axiomOfChoice hchild
      have hne : ∀ i < size, (children i).entries ≠ [] := fun i hi =>
        entries_ne_nil (hcuts.child i hi).2 (hcuts.child i hi).1
      have hcollect : collect (fun i => (checkRecursive B (children i) false).map fun x => [x]) (List.range size) =
          some ((List.range size).map x) := by
        cases hc : collect (fun i => (checkRecursive B (children i) false).map fun x => [x]) (List.range size) with
        | none =>
            obtain ⟨i, hi, hnone⟩ := collect_eq_none.mp hc
            rw [(hx i (List.mem_range.mp hi)).1] at hnone
            cases hnone
        | some calls =>
            rw [collect_eq_some (g := fun i => [x i]) hc fun i hi xs hxs => ?_, List.map_eq_flatMap]
            rw [(hx i (List.mem_range.mp hi)).1] at hxs
            cases hxs
            rfl
      have hget : ∀ i < size, ((List.range size).map x)[i]? = some (x i) := fun i hi => by simp [hi]
      have hall : ((List.range (size - 1)).all fun i =>
          between (keys i) ((List.range size).map x)[i]? ((List.range size).map x)[i + 1]?) = true := by
        refine List.all_eq_true.mpr fun i hi => ?_
        have hi : i + 1 < size := Nat.add_lt_of_lt_sub (List.mem_range.mp hi)
        have hi' : i < size := Nat.lt_of_succ_lt hi
        rw [hget i hi', hget (i + 1) hi]
        exact between_spec (hcuts.key i hi) (hcuts.child i hi').2 (hcuts.child (i + 1) hi).2 (hx i hi').2
          (hx (i + 1) hi).2 (hne i hi') (hne (i + 1) hi)
      have hroot : ¬ (isRoot = false ∧ size < B.nodeMin) := fun hsmall =>
        absurd hsmall.2 (Nat.not_lt_of_le (hsize hsmall.1).2.1)
      have hlast : size - 1 < size := Nat.sub_lt hpos Nat.one_pos
      refine ⟨⟨(x 0).min, (x (size - 1)).max, (((List.range size).map x).map Extent.total).sum⟩, ?_, ?_, fun _ => ?_,
        fun _ => ?_⟩
      · rw [checkRecursive, if_neg hroot, hcollect]
        show (if _ then _ else _) = _
        rw [if_pos hall, List.head?_eq_getElem?, hget 0 hpos, List.getLast?_eq_getElem?, List.length_map,
          List.length_range, hget (size - 1) hlast]
        rfl
      · show (((List.range size).map x).map Extent.total).sum = ((List.range size).flatMap _).length
        rw [List.length_flatMap, List.map_map]
        exact congrArg List.sum (List.map_congr_left fun i hi => (hx i (List.mem_range.mp hi)).2.total)
      · obtain ⟨kv, hkv, hmin⟩ := (hx 0 hpos).2.min (hne 0 hpos)
        exact ⟨kv, List.mem_flatMap.mpr ⟨0, List.mem_range.mpr hpos, hkv⟩, hmin⟩
      · obtain ⟨kv, hkv, hmax⟩ := (hx (size - 1) hlast).2.max (hne (size - 1) hlast)
        exact ⟨kv, List.mem_flatMap.mpr ⟨size - 1, List.mem_range.mpr hlast, hkv⟩, hmax⟩

/-- The leaves hold the keys of the map, each once. -/
theorem Represents.ncard {root : Node K V} {m : K → Option V} (hrep : Represents B root m) :
    {k | m k ≠ none}.ncard = root.entries.length := by
  obtain ⟨depth, hroot⟩ := hrep.rootGood
  have hmem : ∀ k, k ∈ {k | m k ≠ none} ↔ k ∈ root.entries.map KV.key := by
    intro k
    constructor
    · intro hk
      obtain ⟨v, hv⟩ := Option.ne_none_iff_exists'.mp hk
      exact List.mem_map.mpr ⟨⟨k, v⟩, (hrep.mem k v).mpr hv, rfl⟩
    · intro hk
      obtain ⟨kv, hkv, rfl⟩ := List.mem_map.mp hk
      exact Option.ne_none_iff_exists'.mpr ⟨kv.value, (hrep.mem kv.key kv.value).mp hkv⟩
  rw [ncard_of_increasing hmem (List.pairwise_map.mpr hroot.good.searchTree.sorted), List.length_map]

end

/-- After every sequence of upserts, insertions and removals the tree that they end with passes `check()`, which returns
the number of the keys. -/
theorem btree_check_exact (B : BlockSizes) (ops : List (UpsertOp K V)) :
    ∃ root enough, (∀ fuel ≥ enough,
        run (perform B fuel) ops (empty B) = some (root, (acts UpsertOp.act ops fun _ => none).2)) ∧
      check B root = some {k | (acts UpsertOp.act ops fun _ => none).1 k ≠ none}.ncard := by
  obtain ⟨root, hrep, enough, hrun⟩ := represents_of_run B ops
  obtain ⟨depth, hroot⟩ := hrep.rootGood
  have hsize : true = false → SizeOk B root := fun hfalse => by cases hfalse
  obtain ⟨x, hx, hspans⟩ := checkRecursive_spec hroot.good hsize
  refine ⟨root, enough, hrun, ?_⟩
  rw [check, hx, hrep.ncard, ← hspans.total]
  rfl

end Verlib.BTree
