import Verlib.LeafTree.Operations
import Verlib.LeafTree.Shape

/-!
# What the bodies do to the tree

The internal nodes that are not removed are the root and those of the tree. A body that finds a node of the search not
removed and its child pointer as expected works where the search for its key goes in the tree as it is then, however old
the search is; and it does there what the sequential operation does.
-/

namespace Verlib.LeafTree.Concurrent

open ExternalTree

variable {K V : Type} [LinearOrder K]

/-! ## Searches -/

/-- The turns of the search for a key. -/
def Memory.goes (m : Memory K V) (k : K) (b : Nat) : Bool := toward k (m.nodes b).key

/-- The turn of `find_location` at a node, which is left at the root. -/
def Memory.turn (m : Memory K V) (k : K) (a : Nat) : Bool := a == root || m.goes k a

/-- The search for a key visits the node, in the tree as it is. -/
def Memory.OnPath (m : Memory K V) (k : K) (a : Nat) : Prop :=
  a = root ∨ ∃ t, m.Shape t (m.nodes root).left ∧ a ∈ t.visited (m.goes k)

/-- A node of the memory. -/
def Memory.Allocated (m : Memory K V) (a : Nat) : Prop := 0 < a ∧ a < m.fresh

/-- The label of a leaf. -/
def Memory.leafOf (m : Memory K V) (a : Nat) : Leaf K V :=
  if (m.nodes a).isSentinal then .sentinal else .leaf (m.nodes a).key (m.nodes a).value

/-- The tree with the labels of its nodes. -/
def Memory.view (m : Memory K V) (t : ExtTree Nat Nat) : ExtTree K (Leaf K V) :=
  t.map (fun b => (m.nodes b).key) m.leafOf

/-- The invariant of the memory, where `t` is the tree below the root. -/
structure MemInv (m : Memory K V) (t : ExtTree Nat Nat) : Prop where
  shape : m.Shape t (m.nodes root).left
  nodup : t.routers.Nodup
  router : ∀ b ∈ t.routers, b ≠ root ∧ m.Allocated b ∧ (m.nodes b).removed = false
  leaf : ∀ l ∈ t.leaves, l < m.fresh
  header : root < m.fresh ∧ (m.nodes root).isLeaf = false ∧ (m.nodes root).removed = false
  live : ∀ b, m.Allocated b → (m.nodes b).isLeaf = false → (m.nodes b).removed = false → b = root ∨ b ∈ t.routers
  child : ∀ b, m.Allocated b → (m.nodes b).isLeaf = false → ∀ side, (b = root → side = true) →
    m.Allocated (m.child b side) ∧ m.child b side ≠ root
  inner : ∀ b, m.Allocated b → (m.nodes b).isLeaf = false → b ≠ root → (m.nodes b).isSentinal = false
  map : ∃ f, Represents (m.view t) f

/-- How a step may change the memory. -/
structure Ext (m m' : Memory K V) : Prop where
  fresh : m.fresh ≤ m'.fresh
  key : ∀ a, a < m.fresh → (m'.nodes a).key = (m.nodes a).key
  isLeaf : ∀ a, a < m.fresh → (m'.nodes a).isLeaf = (m.nodes a).isLeaf
  isSentinal : ∀ a, a < m.fresh → (m'.nodes a).isSentinal = (m.nodes a).isSentinal
  removed : ∀ a, a < m.fresh → (m'.nodes a).removed = false → (m.nodes a).removed = false
  -- The child pointers of a removed node are not written.
  child : ∀ a, a < m.fresh → (m'.nodes a).isLeaf = false →
    (∀ side, m'.child a side = m.child a side) ∨ (m.nodes a).removed = false ∧ (m'.nodes a).removed = false
  onPath : ∀ k a, a < m.fresh → (m'.nodes a).removed = false → m.OnPath k a → m'.OnPath k a

section

variable {m m' : Memory K V} {t : ExtTree Nat Nat} {k : K} {v : V} {a b l p gp : Nat} {f : K → Option V}

theorem Ext.refl (m : Memory K V) : Ext m m :=
  ⟨le_rfl, fun _ _ => rfl, fun _ _ => rfl, fun _ _ => rfl, fun _ _ h => h, fun _ _ _ => .inl fun _ => rfl,
    fun _ _ _ _ h => h⟩

/-- `Less` below the root. -/
theorem MemInv.less (hm : MemInv m t) (ha : m.Allocated a) (hinner : (m.nodes a).isLeaf = false) (hroot : a ≠ root) :
    m.less k a = m.turn k a := by
  rw [Memory.less, hm.inner a ha hinner hroot, Memory.turn, Memory.goes, toward]
  simp [hroot]

theorem equal_leafOf : (m.leafOf a).equal k = m.equal k a := by
  rw [Memory.leafOf, Memory.equal]
  cases (m.nodes a).isSentinal with
  | true => rfl
  | false => rfl

theorem MemInv.onPath (hm : MemInv m t) : m.OnPath k a ↔ a = root ∨ a ∈ t.visited (m.goes k) := by
  refine or_congr_right ⟨fun h => ?_, fun h => ⟨t, hm.shape, h⟩⟩
  obtain ⟨t', hshape, hmem⟩ := h
  rwa [hshape.unique hm.shape] at hmem

/-- A node that is visited is not removed. -/
theorem MemInv.live_of_onPath (hm : MemInv m t) (h : m.OnPath k a) : (m.nodes a).removed = false := by
  cases hm.onPath.mp h with
  | inl heq =>
      rw [heq]
      exact hm.header.2.2
  | inr hmem => exact (hm.router a (ExtTree.mem_routers_of_mem_visited hmem)).2.2

theorem MemInv.alloc_of_onPath (hm : MemInv m t) (h : m.OnPath k a) : m.Allocated a := by
  cases hm.onPath.mp h with
  | inl heq =>
      rw [heq]
      exact ⟨Nat.one_pos, hm.header.1⟩
  | inr hmem => exact (hm.router a (ExtTree.mem_routers_of_mem_visited hmem)).2.1

theorem MemInv.isLeaf_of_onPath (hm : MemInv m t) (h : m.OnPath k a) : (m.nodes a).isLeaf = false := by
  cases hm.onPath.mp h with
  | inl heq =>
      rw [heq]
      exact hm.header.2.1
  | inr hmem => exact hm.shape.isLeaf_router (ExtTree.mem_routers_of_mem_visited hmem)

/-- The child of a node that the search visits. -/
theorem MemInv.child_of_onPath (hm : MemInv m t) (h : m.OnPath k a) :
    m.Allocated (m.child a (m.turn k a)) ∧ m.child a (m.turn k a) ≠ root :=
  hm.child a (hm.alloc_of_onPath h) (hm.isLeaf_of_onPath h) _ fun heq => by simp [Memory.turn, heq]

theorem turn_of_mem (hm : MemInv m t) (h : p ∈ t.visited (m.goes k)) : p ≠ root ∧ m.turn k p = m.goes k p := by
  have hne := (hm.router p (ExtTree.mem_routers_of_mem_visited h)).1
  exact ⟨hne, by simp [Memory.turn, hne]⟩

/-- The search visits the child of a node that it visits. -/
theorem MemInv.onPath_child (hm : MemInv m t) (h : m.OnPath k p)
    (hinner : (m.nodes (m.child p (m.turn k p))).isLeaf = false) : m.OnPath k (m.child p (m.turn k p)) := by
  rw [hm.onPath]
  cases hm.onPath.mp h with
  | inl heq =>
      subst heq
      obtain ⟨left, right, heq, -, -⟩ := hm.shape.node hinner
      rw [heq]
      exact .inr List.mem_cons_self
  | inr hmem =>
      obtain ⟨-, hturn⟩ := turn_of_mem hm hmem
      rw [hturn] at hinner ⊢
      exact .inr ((hm.shape.visited_child hmem).2 hinner)

/-- The search ends at a leaf below a node that it visits. -/
theorem MemInv.search_eq (hm : MemInv m t) (h : m.OnPath k p)
    (hleaf : (m.nodes (m.child p (m.turn k p))).isLeaf = true) : t.search (m.goes k) = m.child p (m.turn k p) := by
  cases hm.onPath.mp h with
  | inl heq =>
      subst heq
      rw [hm.shape.leaf_iff.mp hleaf]
      rfl
  | inr hmem =>
      obtain ⟨-, hturn⟩ := turn_of_mem hm hmem
      rw [hturn] at hleaf ⊢
      exact ((hm.shape.visited_child hmem).1 hleaf).1

/-! ## Content -/

theorem MemInv.mem_content (hm : MemInv m t) (hf : Represents (m.view t) f) : k ∈ m.content ↔ (f k).isSome = true := by
  rw [Option.isSome_iff_exists]
  simp only [← hf.mem, Memory.view, ExtTree.leaves_map, List.mem_map]
  constructor
  · intro h
    obtain ⟨t', hshape, a, ha, hsentinal, rfl⟩ := h
    rw [hshape.unique hm.shape] at ha
    exact ⟨(m.nodes a).value, a, ha, by simp [Memory.leafOf, hsentinal]⟩
  · intro h
    obtain ⟨v, a, ha, hleaf⟩ := h
    refine ⟨t, hm.shape, a, ha, ?_⟩
    rw [Memory.leafOf] at hleaf
    split at hleaf
    next => cases hleaf
    next hsentinal =>
        cases hleaf
        exact ⟨Bool.eq_false_iff.mpr hsentinal, rfl⟩

/-- The key is in the tree if the leaf where the search ends has it. -/
theorem MemInv.content_iff (hm : MemInv m t) : k ∈ m.content ↔ m.equal k (t.search (m.goes k)) = true := by
  obtain ⟨f, hf⟩ := hm.map
  obtain ⟨before, after, hfound⟩ := hf.search k
  rw [hm.mem_content hf, ← hfound.equal, Memory.view, ExtTree.search_map, equal_leafOf]
  rfl

/-- A search that is at a node of the tree with a leaf below knows whether the key is in the tree. -/
theorem MemInv.content_of_onPath (hm : MemInv m t) (h : m.OnPath k p)
    (hleaf : (m.nodes (m.child p (m.turn k p))).isLeaf = true) :
    k ∈ m.content ↔ m.equal k (m.child p (m.turn k p)) = true := by
  rw [hm.content_iff, hm.search_eq h hleaf]

/-! ## Writes -/

/-- The fields of a node that are never written. -/
structure Kept (m m' : Memory K V) (a : Nat) : Prop where
  key : (m'.nodes a).key = (m.nodes a).key
  value : (m'.nodes a).value = (m.nodes a).value
  isLeaf : (m'.nodes a).isLeaf = (m.nodes a).isLeaf
  isSentinal : (m'.nodes a).isSentinal = (m.nodes a).isSentinal

omit [LinearOrder K] in
theorem Kept.leafOf (h : Kept m m' a) : m'.leafOf a = m.leafOf a := by
  rw [Memory.leafOf, Memory.leafOf, h.isSentinal, h.key, h.value]

omit [LinearOrder K] in
theorem Kept.trans {m'' : Memory K V} (h : Kept m m' a) (h' : Kept m' m'' a) : Kept m m'' a :=
  ⟨h'.key.trans h.key, h'.value.trans h.value, h'.isLeaf.trans h.isLeaf, h'.isSentinal.trans h.isSentinal⟩

omit [LinearOrder K] in
theorem Kept.of_eq (h : m'.nodes a = m.nodes a) : Kept m m' a := by
  refine ⟨?_, ?_, ?_, ?_⟩ <;> rw [h]

omit [LinearOrder K] in
/-- A write to a child pointer. -/
theorem setChild_spec (m : Memory K V) (p : Nat) (side : Bool) (b : Nat) :
    (∀ a, Kept m (m.setChild p side b) a) ∧
    (∀ a, ((m.setChild p side b).nodes a).removed = (m.nodes a).removed) ∧
    (m.setChild p side b).child p side = b ∧
    ∀ a s, ¬ (a = p ∧ s = side) → (m.setChild p side b).child a s = m.child a s := by
  have hother : ∀ a, a ≠ p → (m.setChild p side b).nodes a = m.nodes a := fun a ha => Function.update_of_ne ha _ _
  have hself : (m.setChild p side b).nodes p =
      if side then { m.nodes p with left := b } else { m.nodes p with right := b } := Function.update_self ..
  refine ⟨fun a => ?_, fun a => ?_, ?_, fun a s hne => ?_⟩
  · by_cases ha : a = p
    · subst ha
      cases side with
      | true => exact ⟨by rw [hself]; rfl, by rw [hself]; rfl, by rw [hself]; rfl, by rw [hself]; rfl⟩
      | false => exact ⟨by rw [hself]; rfl, by rw [hself]; rfl, by rw [hself]; rfl, by rw [hself]; rfl⟩
    · exact .of_eq (hother a ha)
  · by_cases ha : a = p
    · subst ha
      rw [hself]
      cases side with
      | true => rfl
      | false => rfl
    · rw [hother a ha]
  · rw [Memory.child, hself]
    cases side with
    | true => rfl
    | false => rfl
  · by_cases ha : a = p
    · subst ha
      have hs : s ≠ side := fun heq => hne ⟨rfl, heq⟩
      rw [Memory.child, Memory.child, hself]
      cases side with
      | true =>
          rw [Bool.eq_false_iff.mpr hs]
          rfl
      | false =>
          rw [Bool.eq_true_of_not_eq_false hs]
          rfl
    · rw [Memory.child, Memory.child, hother a ha]

theorem MemInv.view_eq (hm : MemInv m t) (hkept : ∀ a, a < m.fresh → Kept m m' a) : m'.view t = m.view t :=
  ExtTree.map_congr (fun b hb => (hkept b (hm.router b hb).2.1.2).key) fun l hl => (hkept l (hm.leaf l hl)).leafOf

theorem MemInv.visited_eq (hm : MemInv m t) (hkept : ∀ a, a < m.fresh → Kept m m' a) :
    t.visited (m'.goes k) = t.visited (m.goes k) :=
  ExtTree.visited_congr fun b hb => by rw [Memory.goes, Memory.goes, (hkept b (hm.router b hb).2.1.2).key]

theorem MemInv.written {side : Bool} (hm : MemInv m t) (hkept : ∀ a, a < m.fresh → Kept m m' a)
    (hchild : ∀ a, a < m.fresh → ∀ s, ¬ (a = p ∧ s = side) → m'.child a s = m.child a s) : Written m m' t p side :=
  ⟨fun b hb => (hkept b (hm.router b hb).2.1.2).isLeaf, fun l hl => (hkept l (hm.leaf l hl)).isLeaf,
    fun b hb => hchild b (hm.router b hb).2.1.2⟩

/-- The memory after the body of `try_insert`. -/
structure Inserted (m m' : Memory K V) (p : Nat) (side : Bool) (l : Nat) (k : K) (v : V) : Prop where
  fresh : m'.fresh = m.fresh + 2
  kept : ∀ a, a < m.fresh → Kept m m' a
  removed : ∀ a, a < m.fresh → (m'.nodes a).removed = (m.nodes a).removed
  child : ∀ a, a < m.fresh → ∀ s, ¬ (a = p ∧ s = side) → m'.child a s = m.child a s
  written : m'.child p side = m.fresh + 1
  leaf : (m'.nodes m.fresh).isLeaf = true ∧ m'.leafOf m.fresh = .leaf k v
  node : (m'.nodes (m.fresh + 1)).isLeaf = false ∧ (m'.nodes (m.fresh + 1)).isSentinal = false ∧
    (m'.nodes (m.fresh + 1)).removed = false
  router : (m'.nodes (m.fresh + 1)).key = if m.less k l then (m.nodes l).key else k
  left : (m'.nodes (m.fresh + 1)).left = if m.less k l then m.fresh else l
  right : (m'.nodes (m.fresh + 1)).right = if m.less k l then l else m.fresh

theorem inserted (m : Memory K V) (hp : p < m.fresh) (side : Bool) (l : Nat) (k : K) (v : V) :
    Inserted m ((m.build k v l).setChild p side (m.fresh + 1)) p side l k v := by
  have hne : ∀ a, a < m.fresh → a ≠ m.fresh ∧ a ≠ m.fresh + 1 := fun a ha => by omega
  have hbuild : (m.build k v l).fresh = m.fresh + 2 ∧ (∀ a, a < m.fresh → (m.build k v l).nodes a = m.nodes a) ∧
      (m.build k v l).nodes m.fresh = { m.nodes m.fresh with key := k, value := v, isLeaf := true, isSentinal := false } ∧
      (m.build k v l).nodes (m.fresh + 1) = { m.nodes (m.fresh + 1) with
        key := if m.less k l then (m.nodes l).key else k, isLeaf := false, isSentinal := false, removed := false,
        left := if m.less k l then m.fresh else l, right := if m.less k l then l else m.fresh } := by
    rw [Memory.build]
    cases m.less k l with
    | true =>
        refine ⟨rfl, fun a ha => ?_, ?_, ?_⟩
        · simp [Memory.newLeaf, Memory.newInternal, (hne a ha).1, (hne a ha).2]
        · simp [Memory.newLeaf, Memory.newInternal]
        · simp [Memory.newLeaf, Memory.newInternal]
    | false =>
        refine ⟨rfl, fun a ha => ?_, ?_, ?_⟩
        · simp [Memory.newLeaf, Memory.newInternal, (hne a ha).1, (hne a ha).2]
        · simp [Memory.newLeaf, Memory.newInternal]
        · simp [Memory.newLeaf, Memory.newInternal]
  obtain ⟨hfresh, hold, hleaf, hnode⟩ := hbuild
  obtain ⟨hkept, hremoved, hself, hother⟩ := setChild_spec (m.build k v l) p side (m.fresh + 1)
  have hleft : ∀ a, a ≠ p → ((m.build k v l).setChild p side (m.fresh + 1)).nodes a = (m.build k v l).nodes a :=
    fun a ha => Function.update_of_ne ha _ _
  have hleaf' := (hleft m.fresh hp.ne').trans hleaf
  have hnode' := (hleft (m.fresh + 1) (hne p hp).2.symm).trans hnode
  refine ⟨hfresh, fun a ha => (Kept.of_eq (hold a ha)).trans (hkept a), fun a ha => ?_, fun a ha s hs => ?_, hself, ?_,
    ?_, by rw [hnode'], by rw [hnode'], by rw [hnode']⟩
  · rw [hremoved, hold a ha]
  · rw [hother a s hs, Memory.child, Memory.child, hold a ha]
  · rw [Memory.leafOf, hleaf']
    exact ⟨rfl, rfl⟩
  · rw [hnode']
    exact ⟨rfl, rfl, rfl⟩

/-- What `try_insert` puts in the place of the leaf `l`. -/
def grown (m : Memory K V) (k : K) (l : Nat) : ExtTree Nat Nat :=
  if m.less k l then .node (m.fresh + 1) (.leaf m.fresh) (.leaf l) else .node (m.fresh + 1) (.leaf l) (.leaf m.fresh)

theorem Inserted.shape {side : Bool} (h : Inserted m m' p side l k v) (hl : l < m.fresh)
    (hleaf : (m.nodes l).isLeaf = true) : m'.Shape (grown m k l) (m.fresh + 1) := by
  have hold : (m'.nodes l).isLeaf = true := by rw [(h.kept l hl).isLeaf, hleaf]
  rw [grown]
  cases hless : m.less k l with
  | true =>
      refine ⟨rfl, h.node.1, ⟨?_, h.leaf.1⟩, ?_, hold⟩
      · rw [h.left, hless]
        rfl
      · rw [h.right, hless]
        rfl
  | false =>
      refine ⟨rfl, h.node.1, ⟨?_, hold⟩, ?_, h.leaf.1⟩
      · rw [h.left, hless]
        rfl
      · rw [h.right, hless]
        rfl

theorem less_leafOf : (m.leafOf l).less k = m.less k l := by
  rw [Memory.leafOf, Memory.less]
  cases (m.nodes l).isSentinal with
  | true => rfl
  | false => rfl

theorem Inserted.view {side : Bool} (h : Inserted m m' p side l k v) (hl : l < m.fresh) :
    m'.view (grown m k l) = newInternal (m.leafOf l) k v := by
  have hold := (h.kept l hl).leafOf
  have hkey := h.router
  rw [← less_leafOf] at hkey
  rw [grown, ← less_leafOf]
  cases hleaf : m.leafOf l with
  | sentinal =>
      rw [hleaf] at hold hkey
      show ExtTree.node (m'.nodes (m.fresh + 1)).key (.leaf (m'.leafOf l)) (.leaf (m'.leafOf m.fresh)) = _
      rw [hkey, hold, h.leaf.2]
      rfl
  | leaf key value =>
      have hkeyl : key = (m.nodes l).key := by
        rw [Memory.leafOf] at hleaf
        split at hleaf
        next => cases hleaf
        next => exact (Leaf.leaf.inj hleaf).1.symm
      rw [hleaf] at hold hkey
      rw [newInternal]
      cases hless : (Leaf.leaf key value).less k with
      | true =>
          rw [hless, if_pos rfl, ← hkeyl] at hkey
          show ExtTree.node (m'.nodes (m.fresh + 1)).key (.leaf (m'.leafOf m.fresh)) (.leaf (m'.leafOf l)) = _
          rw [hkey, hold, h.leaf.2]
          rfl
      | false =>
          rw [hless, if_neg Bool.false_ne_true] at hkey
          show ExtTree.node (m'.nodes (m.fresh + 1)).key (.leaf (m'.leafOf l)) (.leaf (m'.leafOf m.fresh)) = _
          rw [hkey, hold, h.leaf.2]
          rfl

/-- What the sequential insertion of a new key does to the tree. -/
theorem tryInsert_graft {t : ExtTree K (Leaf K V)} (h : (t.search (toward k)).equal k = false) :
    (tryInsert t k v false).1 = t.graft (toward k) (newInternal (t.search (toward k)) k v) := by
  obtain ⟨hleaf, hstore⟩ := locate_leaf (toward k) t
  rw [tryInsert, findLocation, hleaf, h]
  exact hstore _

/-- What the sequential removal of a key does to the tree. -/
theorem remove_prune {t : ExtTree K (Leaf K V)} (h : (t.search (toward k)).equal k = true)
    (hnode : ∀ l, t ≠ .leaf l) : LeafTree.remove t k = some (t.prune (toward k), true) := by
  obtain ⟨hleaf, -⟩ := locate_leaf (toward k) t
  have hunlink : unlink t (locate (toward k) t) = some (t.prune (toward k)) := by
    cases unlink_locate (toward k) t with
    | inl hheader =>
        obtain ⟨l, heq, -⟩ := hheader
        exact absurd heq (hnode l)
    | inr hparent => exact hparent.2.2
  have hsentinal : (t.search (toward k)).isSentinal = false := by
    cases hl : t.search (toward k) with
    | sentinal =>
        rw [hl] at h
        cases h
    | leaf key value => rfl
  rw [LeafTree.remove, findLocation, hleaf, hsentinal, h, hunlink]
  rfl

/-! ## The body of `try_insert` -/

/-- The body of `try_insert` keeps the invariant. -/
theorem Inserted.memInv (hm : MemInv m t) (h : Inserted m m' p (m.turn k p) l k v) (hp : m.OnPath k p)
    (hl : m.child p (m.turn k p) = l) (hleaf : (m.nodes l).isLeaf = true) (hne : m.equal k l = false) :
    MemInv m' (t.graft (m'.goes k) (grown m k l)) ∧
      m'.view (t.graft (m'.goes k) (grown m k l)) = (tryInsert (m.view t) k v false).1 := by
  obtain ⟨hlalloc, hlroot⟩ := hm.child_of_onPath hp
  rw [hl] at hlalloc hlroot
  obtain ⟨hppos, hplt⟩ := hm.alloc_of_onPath hp
  have hpinner := hm.isLeaf_of_onPath hp
  have hshape := h.shape hlalloc.2 hleaf
  have hrootlt := hm.header.1
  have hgrown : ∀ b, b ∈ (grown m k l).routers ↔ b = m.fresh + 1 := by
    intro b
    rw [grown]
    split <;> simp [ExtTree.routers]
  have hgrownleaf : ∀ b ∈ (grown m k l).leaves, b = m.fresh ∨ b = l := by
    intro b
    rw [grown]
    split <;> simp [ExtTree.leaves, or_comm]
  have hperm : (t.graft (m'.goes k) (grown m k l)).routers.Perm (t.routers ++ (grown m k l).routers) :=
    ExtTree.routers_graft
  have hrouters : ∀ b, b ∈ (t.graft (m'.goes k) (grown m k l)).routers ↔ b ∈ t.routers ∨ b = m.fresh + 1 := by
    intro b
    rw [hperm.mem_iff, List.mem_append, hgrown]
  have hcases : ∀ a, m'.Allocated a → m.Allocated a ∨ a = m.fresh ∨ a = m.fresh + 1 := by
    intro a ha
    obtain ⟨hpos, hlt⟩ := ha
    rw [h.fresh] at hlt
    by_cases hold : a < m.fresh
    · exact .inl ⟨hpos, hold⟩
    · exact .inr (by omega)
  have hview : m'.view (t.graft (m'.goes k) (grown m k l)) = (tryInsert (m.view t) k v false).1 := by
    have hsearch : (m.view t).search (toward k) = m.leafOf l := by
      rw [Memory.view, ExtTree.search_map, ← hl]
      exact congrArg m.leafOf (hm.search_eq hp (hl ▸ hleaf))
    have hequal : ((m.view t).search (toward k)).equal k = false := by rw [hsearch, equal_leafOf, hne]
    rw [tryInsert_graft hequal, hsearch, ← h.view hlalloc.2, ← hm.view_eq h.kept]
    show (t.graft (fun b => toward k (m'.nodes b).key) (grown m k l)).map _ _ = _
    exact ExtTree.graft_map
  refine ⟨⟨?_, ?_, fun b hb => ?_, fun a ha => ?_, ⟨by rw [h.fresh]; omega, ?_, ?_⟩, fun b hb hinner hlive => ?_,
    fun b hb hinner side hside => ?_, fun b hb hinner hroot => ?_, ?_⟩, hview⟩
  · cases hm.onPath.mp hp with
    | inl heq =>
        subst heq
        have hleft : (m'.nodes root).left = m.fresh + 1 := h.written
        have heq := hm.shape.leaf_iff.mp (hl ▸ hleaf : (m.nodes (m.child root true)).isLeaf = true)
        rw [hleft, heq]
        exact hshape
    | inr hmem =>
        obtain ⟨hroot, hturn⟩ := turn_of_mem hm hmem
        have hgoes : m'.goes k p = m.turn k p := by rw [hturn, Memory.goes, Memory.goes, (h.kept p hplt).key]
        have hleft : (m'.nodes root).left = (m.nodes root).left :=
          h.child root hrootlt true fun heq => hroot heq.1.symm
        rw [hleft]
        refine hm.shape.graft hm.nodup (by rw [hm.visited_eq h.kept]; exact hmem) ?_ ?_ ?_
        · rw [hgoes, hl]
          exact hleaf
        · rw [hgoes]
          exact hm.written h.kept h.child
        · rw [hgoes, h.written]
          exact hshape
  · rw [hperm.nodup_iff, List.nodup_append]
    refine ⟨hm.nodup, ?_, fun a ha b hb heq => ?_⟩
    · rw [grown]
      split <;> simp [ExtTree.routers]
    · have hlt := (hm.router a ha).2.1.2
      rw [heq, (hgrown b).mp hb] at hlt
      omega
  · cases (hrouters b).mp hb with
    | inl hb =>
        obtain ⟨hne, ⟨hpos, hlt⟩, hlive⟩ := hm.router b hb
        exact ⟨hne, ⟨hpos, by rw [h.fresh]; omega⟩, by rw [h.removed b hlt, hlive]⟩
    | inr heq =>
        rw [heq]
        exact ⟨by omega, ⟨by omega, by rw [h.fresh]; omega⟩, h.node.2.2⟩
  · rw [h.fresh]
    cases ExtTree.mem_leaves_graft ha with
    | inl ha =>
        have hlt := hm.leaf a ha
        omega
    | inr ha =>
        have hlt := hlalloc.2
        cases hgrownleaf a ha with
        | inl heq => omega
        | inr heq => omega
  · rw [(h.kept root hrootlt).isLeaf]
    exact hm.header.2.1
  · rw [h.removed root hrootlt]
    exact hm.header.2.2
  · obtain hb | rfl | rfl := hcases b hb
    · rw [(h.kept b hb.2).isLeaf] at hinner
      rw [h.removed b hb.2] at hlive
      exact (hm.live b hb hinner hlive).imp_right fun hmem => (hrouters b).mpr (.inl hmem)
    · rw [h.leaf.1] at hinner
      cases hinner
    · exact .inr ((hrouters _).mpr (.inr rfl))
  · have hold : ∀ c, m.Allocated c ∧ c ≠ root → m'.Allocated c ∧ c ≠ root :=
      fun c hc => ⟨⟨hc.1.1, by have := hc.1.2; rw [h.fresh]; omega⟩, hc.2⟩
    have hnew : m'.Allocated (m.fresh + 1) ∧ m.fresh + 1 ≠ root := ⟨⟨by omega, by rw [h.fresh]; omega⟩, by omega⟩
    have hnewleaf : m'.Allocated m.fresh ∧ m.fresh ≠ root := ⟨⟨by omega, by rw [h.fresh]; omega⟩, by omega⟩
    obtain hb | rfl | rfl := hcases b hb
    · by_cases hwritten : b = p ∧ side = m.turn k p
      · rw [hwritten.1, hwritten.2, h.written]
        exact hnew
      · rw [h.child b hb.2 side hwritten]
        rw [(h.kept b hb.2).isLeaf] at hinner
        exact hold _ (hm.child b hb hinner side hside)
    · rw [h.leaf.1] at hinner
      cases hinner
    · rw [Memory.child, h.left, h.right]
      cases side with
      | true =>
          rw [if_pos rfl]
          split
          · exact hnewleaf
          · exact hold l ⟨hlalloc, hlroot⟩
      | false =>
          rw [if_neg Bool.false_ne_true]
          split
          · exact hold l ⟨hlalloc, hlroot⟩
          · exact hnewleaf
  · obtain hb | rfl | rfl := hcases b hb
    · rw [(h.kept b hb.2).isLeaf] at hinner
      rw [(h.kept b hb.2).isSentinal]
      exact hm.inner b hb hinner hroot
    · rw [h.leaf.1] at hinner
      cases hinner
    · exact h.node.2.1
  · obtain ⟨f, hf⟩ := hm.map
    rw [hview]
    exact ⟨_, (hf.tryInsert k v false).2⟩

theorem Inserted.ext (hm : MemInv m t) (h : Inserted m m' p (m.turn k p) l k v) (hp : m.OnPath k p)
    (hm' : MemInv m' (t.graft (m'.goes k) (grown m k l))) : Ext m m' := by
  refine ⟨by rw [h.fresh]; omega, fun a ha => (h.kept a ha).key, fun a ha => (h.kept a ha).isLeaf,
    fun a ha => (h.kept a ha).isSentinal, fun a ha hlive => ?_, fun a ha _ => ?_, fun k' a ha _ hpath => ?_⟩
  · rwa [h.removed a ha] at hlive
  · by_cases heq : a = p
    · rw [heq, h.removed p (hm.alloc_of_onPath hp).2, hm.live_of_onPath hp]
      exact .inr ⟨rfl, rfl⟩
    · exact .inl fun side => h.child a ha side fun hs => heq hs.1
  · rw [hm'.onPath]
    refine (hm.onPath.mp hpath).imp_right fun hmem => ExtTree.mem_visited_graft ?_
    rw [hm.visited_eq h.kept]
    exact hmem

/-- The body of `try_insert` adds its key. -/
theorem MemInv.insert (hm : MemInv m t) (hp : m.OnPath k p) (hl : m.child p (m.turn k p) = l)
    (hleaf : (m.nodes l).isLeaf = true) (hne : m.equal k l = false) (h : Inserted m m' p (m.turn k p) l k v) :
    (∃ t', MemInv m' t') ∧ Ext m m' ∧ k ∉ m.content ∧ m'.content = m.content ∪ {k} := by
  obtain ⟨hm', hview⟩ := h.memInv hm hp hl hleaf hne
  obtain ⟨f, hf⟩ := hm.map
  have hk : k ∉ m.content := by
    rw [hm.content_of_onPath hp (hl ▸ hleaf), hl, hne]
    exact Bool.false_ne_true
  have hnone : (f k).isSome = false := by
    rw [← Bool.not_eq_true, ← hm.mem_content hf]
    exact hk
  have hf' := (hf.tryInsert k v false).2
  rw [← hview, hnone, if_neg Bool.false_ne_true] at hf'
  refine ⟨⟨_, hm'⟩, h.ext hm hp hm', hk, Set.ext fun k' => ?_⟩
  rw [hm'.mem_content hf', Set.mem_union, hm.mem_content hf, Set.mem_singleton_iff, Function.update_apply]
  by_cases heq : k' = k
  · rw [if_pos heq]
    exact iff_of_true rfl (.inr heq)
  · rw [if_neg heq, or_iff_left heq]

/-! ## The body of `try_remove` -/

/-- The memory after the body of `try_remove`. -/
structure Pruned (m m' : Memory K V) (gp p : Nat) (gpSide pSide : Bool) : Prop where
  fresh : m'.fresh = m.fresh
  kept : ∀ a, Kept m m' a
  removed : ∀ a, (m'.nodes a).removed = if a = p then true else (m.nodes a).removed
  child : ∀ a s, ¬ (a = gp ∧ s = gpSide) → m'.child a s = m.child a s
  written : m'.child gp gpSide = m.child p !pSide

omit [LinearOrder K] in
theorem pruned (m : Memory K V) (gp p : Nat) (gpSide pSide : Bool) :
    Pruned m ((m.setRemoved p).setChild gp gpSide (m.child p !pSide)) gp p gpSide pSide := by
  obtain ⟨hkept, hremoved, hself, hother⟩ := setChild_spec (m.setRemoved p) gp gpSide (m.child p !pSide)
  have hnodes : ∀ a, (m.setRemoved p).nodes a = if a = p then { m.nodes p with removed := true } else m.nodes a :=
    fun a => Function.update_apply ..
  have hkept' : ∀ a, Kept m (m.setRemoved p) a := by
    intro a
    by_cases heq : a = p
    · subst heq
      refine ⟨?_, ?_, ?_, ?_⟩ <;> rw [hnodes, if_pos rfl]
    · exact .of_eq (by rw [hnodes, if_neg heq])
  refine ⟨rfl, fun a => (hkept' a).trans (hkept a), fun a => ?_, fun a s hs => ?_, hself⟩
  · rw [hremoved, hnodes]
    split <;> rfl
  · rw [hother a s hs, Memory.child, Memory.child, hnodes]
    by_cases heq : a = p
    · rw [if_pos heq, heq]
    · rw [if_neg heq]

/-- The body of `try_remove` keeps the invariant. -/
theorem Pruned.memInv (hm : MemInv m t) (h : Pruned m m' gp p (m.turn k gp) (m.turn k p)) (hgp : m.OnPath k gp)
    (hp : m.child gp (m.turn k gp) = p) (hinner : (m.nodes p).isLeaf = false)
    (hleaf : (m.nodes (m.child p (m.turn k p))).isLeaf = true) (heq : m.equal k (m.child p (m.turn k p)) = true) :
    MemInv m' (t.prune (m.goes k)) ∧ (t.visited (m.goes k)).getLast? = some p ∧
      LeafTree.remove (m.view t) k = some (m'.view (t.prune (m.goes k)), true) := by
  have hpath : m.OnPath k p := by
    rw [← hp] at hinner ⊢
    exact hm.onPath_child hgp hinner
  obtain ⟨hpalloc, hproot⟩ := hm.child_of_onPath hgp
  rw [hp] at hpalloc hproot
  have hpmem : p ∈ t.visited (m.goes k) := (hm.onPath.mp hpath).resolve_left hproot
  obtain ⟨-, hpturn⟩ := turn_of_mem hm hpmem
  have hsearch := hm.search_eq hpath hleaf
  rw [hpturn] at h hleaf hsearch heq
  have hlast := ((hm.shape.visited_child hpmem).1 hleaf).2
  have hperm := ExtTree.routers_prune hlast
  have hrouters : ∀ b, b ∈ t.routers ↔ b = p ∨ b ∈ (t.prune (m.goes k)).routers := by
    intro b
    rw [hperm.mem_iff, List.mem_cons]
  have hnodup := hperm.nodup_iff.mp hm.nodup
  rw [List.nodup_cons] at hnodup
  have halloc : ∀ a, m'.Allocated a ↔ m.Allocated a := fun a => by rw [Memory.Allocated, Memory.Allocated, h.fresh]
  have hremoved : ∀ a, a ≠ p → (m'.nodes a).removed = (m.nodes a).removed :=
    fun a ha => by rw [h.removed, if_neg ha]
  have hview : LeafTree.remove (m.view t) k = some (m'.view (t.prune (m.goes k)), true) := by
    have hsame : m'.view (t.prune (m.goes k)) = m.view (t.prune (m.goes k)) :=
      ExtTree.map_congr (fun b _ => (h.kept b).key) fun l _ => (h.kept l).leafOf
    have hequal : ((m.view t).search (toward k)).equal k = true := by
      rw [Memory.view, ExtTree.search_map, equal_leafOf, ← heq, ← hsearch]
      rfl
    rw [remove_prune hequal, hsame]
    · have hmap : (t.prune fun b => toward k (m.nodes b).key).map _ m.leafOf = (m.view t).prune (toward k) :=
        ExtTree.prune_map
      rw [← hmap]
      rfl
    · intro l hl
      cases t with
      | leaf _ => cases hpmem
      | node => cases hl
  refine ⟨⟨?_, hnodup.2, fun b hb => ?_, fun a ha => ?_, ⟨by rw [h.fresh]; exact hm.header.1, ?_, ?_⟩,
    fun b hb hinner' hlive => ?_, fun b hb hinner' side hside => ?_, fun b hb hinner' hroot => ?_, ?_⟩, hlast, hview⟩
  · -- The root leads to the tree.
    have hw : Written m m' t gp (m.turn k gp) := hm.written (fun a _ => h.kept a) fun a _ s => h.child a s
    cases hm.onPath.mp hgp with
    | inl hroot =>
        subst hroot
        have hleft : (m'.nodes root).left = m.child p !m.goes k p := h.written
        have hshape : m.Shape t p := by
          rw [← hp]
          exact hm.shape
        rw [hleft, ← h.child p _ fun hs => hproot hs.1]
        exact hshape.prune_parent hinner hleaf
          (hw.shape hshape fun hmem => (hm.router root hmem).1 rfl)
    | inr hmem =>
        obtain ⟨hroot, hturn⟩ := turn_of_mem hm hmem
        have hleft : (m'.nodes root).left = (m.nodes root).left := h.child root true fun hs => hroot hs.1.symm
        rw [hturn] at hw hp
        rw [hleft]
        exact hm.shape.prune hm.nodup hmem hp hinner hleaf hw (hturn ▸ h.written)
  · have hmem := (hrouters b).mpr (.inr hb)
    have hne : b ≠ p := fun heq => hnodup.1 (heq ▸ hb)
    obtain ⟨hroot, hb, hlive⟩ := hm.router b hmem
    exact ⟨hroot, (halloc b).mpr hb, (hremoved b hne).trans hlive⟩
  · rw [h.fresh]
    exact hm.leaf a (ExtTree.mem_leaves_prune ha)
  · rw [(h.kept root).isLeaf]
    exact hm.header.2.1
  · rw [hremoved root hproot.symm]
    exact hm.header.2.2
  · have hne : b ≠ p := fun heq => by
      rw [h.removed, if_pos heq] at hlive
      cases hlive
    rw [hremoved b hne] at hlive
    rw [(h.kept b).isLeaf] at hinner'
    refine (hm.live b ((halloc b).mp hb) hinner' hlive).imp_right fun hmem => ?_
    exact ((hrouters b).mp hmem).resolve_left hne
  · rw [(h.kept b).isLeaf] at hinner'
    rw [halloc]
    by_cases hwritten : b = gp ∧ side = m.turn k gp
    · rw [hwritten.1, hwritten.2, h.written]
      exact hm.child p hpalloc hinner _ fun heq => absurd heq hproot
    · rw [h.child b side hwritten]
      exact hm.child b ((halloc b).mp hb) hinner' side hside
  · rw [(h.kept b).isLeaf] at hinner'
    rw [(h.kept b).isSentinal]
    exact hm.inner b ((halloc b).mp hb) hinner' hroot
  · obtain ⟨f, hf⟩ := hm.map
    obtain ⟨t', hremove, hrep⟩ := hf.remove k
    rw [hview, Option.some.injEq] at hremove
    rw [(Prod.mk.inj hremove).1]
    exact ⟨_, hrep⟩

theorem Pruned.ext (hm : MemInv m t) (h : Pruned m m' gp p (m.turn k gp) (m.turn k p)) (hgp : m.OnPath k gp)
    (hself : gp ≠ p) (hm' : MemInv m' (t.prune (m.goes k)))
    (hlast : (t.visited (m.goes k)).getLast? = some p) : Ext m m' := by
  refine ⟨h.fresh.ge, fun a _ => (h.kept a).key, fun a _ => (h.kept a).isLeaf, fun a _ => (h.kept a).isSentinal,
    fun a _ hlive => ?_, fun a _ _ => ?_, fun k' a _ hlive hpath => ?_⟩
  · rw [h.removed] at hlive
    split at hlive
    · cases hlive
    · exact hlive
  · by_cases heq : a = gp
    · rw [heq, h.removed, if_neg hself, hm.live_of_onPath hgp]
      exact .inr ⟨rfl, rfl⟩
    · exact .inl fun side => h.child a side fun hs => heq hs.1
  · rw [hm'.onPath]
    refine (hm.onPath.mp hpath).imp_right fun hmem => ?_
    have hne : a ≠ p := fun heq => by
      rw [h.removed, if_pos heq] at hlive
      cases hlive
    have hgoes : m'.goes k' = m.goes k' := funext fun b => by rw [Memory.goes, Memory.goes, (h.kept b).key]
    rw [hgoes]
    exact ExtTree.mem_visited_prune hlast hmem hne

/-- The body of `try_remove` deletes its key. -/
theorem MemInv.remove (hm : MemInv m t) (hgp : m.OnPath k gp) (hp : m.child gp (m.turn k gp) = p)
    (hinner : (m.nodes p).isLeaf = false) (hl : m.child p (m.turn k p) = l) (hleaf : (m.nodes l).isLeaf = true)
    (heq : m.equal k l = true) (h : Pruned m m' gp p (m.turn k gp) (m.turn k p)) :
    (∃ t', MemInv m' t') ∧ Ext m m' ∧ k ∈ m.content ∧ m'.content = m.content \ {k} := by
  subst hl
  obtain ⟨hm', hlast, hview⟩ := h.memInv hm hgp hp hinner hleaf heq
  have hpath : m.OnPath k p := by
    rw [← hp] at hinner ⊢
    exact hm.onPath_child hgp hinner
  have hself : gp ≠ p := by
    intro hs
    rw [hs] at hp
    rw [hp, hinner] at hleaf
    cases hleaf
  have hk : k ∈ m.content := (hm.content_of_onPath hpath hleaf).mpr heq
  obtain ⟨f, hf⟩ := hm.map
  obtain ⟨t', hremove, hf'⟩ := hf.remove k
  rw [hview, Option.some.injEq] at hremove
  rw [← (Prod.mk.inj hremove).1, ← (Prod.mk.inj hremove).2, if_pos rfl] at hf'
  refine ⟨⟨_, hm'⟩, h.ext hm hgp hself hm' hlast, hk, Set.ext fun k' => ?_⟩
  rw [hm'.mem_content hf', Set.mem_sdiff, hm.mem_content hf, Set.mem_singleton_iff, Function.update_apply]
  by_cases hkey : k' = k
  · rw [if_pos hkey]
    exact iff_of_false (fun hfalse => by cases hfalse) fun hand => hand.2 hkey
  · rw [if_neg hkey, and_iff_left hkey]

end

end Verlib.LeafTree.Concurrent
