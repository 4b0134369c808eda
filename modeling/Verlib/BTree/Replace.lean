import Verlib.BTree.Copies

/-!
# One node takes the place of another

A body builds new nodes, stores one of them in a slot, and marks some of the nodes that go out of use as removed. What
is reachable afterwards are the new nodes, and what was reachable before and does not go out of use. A node that a
search may enter is marked when it goes out of use.
-/

namespace Verlib.BTree.Concurrent

open Separated

variable {K V : Type}

/-! ## Stores -/

/-- The slot `i` of `g` holds `p`. -/
def Slot (m : Memory K V) (g i p : Nat) : Prop :=
  ∃ status size keys children, m.blocks g = .node status size keys children ∧ i < size ∧ children i = p

/-- Some nodes are marked as removed. -/
def Memory.mark (m : Memory K V) (marked : List Nat) : Memory K V := marked.foldl Memory.setRemoved m

section

variable {m m' : Memory K V} {a b g i p x y : Nat} {marked : List Nat}

@[simp]
theorem mark_blocks : (m.mark marked).blocks = m.blocks := by
  induction marked generalizing m with
  | nil => rfl
  | cons d marked ih => exact ih

@[simp]
theorem mark_fresh : (m.mark marked).fresh = m.fresh := by
  induction marked generalizing m with
  | nil => rfl
  | cons d marked ih => exact ih

theorem mark_removed : (m.mark marked).removed a = true ↔ m.removed a = true ∨ a ∈ marked := by
  induction marked generalizing m with
  | nil => exact (or_iff_left List.not_mem_nil).symm
  | cons d marked ih =>
      refine ih.trans ?_
      rw [List.mem_cons, ← or_assoc]
      refine or_congr_left ?_
      by_cases had : a = d
      · simp [Memory.setRemoved, had]
      · simp [Memory.setRemoved, had]

theorem setChild_of_ne (hne : a ≠ g) : (m.setChild g i x).blocks a = m.blocks a := by
  rw [Memory.setChild]
  split
  · rfl
  · exact Function.update_of_ne hne ..

@[simp]
theorem setChild_fresh : (m.setChild g i x).fresh = m.fresh := by
  rw [Memory.setChild]
  split
  · rfl
  · rfl

@[simp]
theorem setChild_removed : (m.setChild g i x).removed = m.removed := by
  rw [Memory.setChild]
  split
  · rfl
  · rfl

/-- Only the children of a node are written. -/
@[simp]
theorem setChild_header : ((m.setChild g i x).blocks a).header = (m.blocks a).header := by
  by_cases hne : a = g
  · subst hne
    rw [Memory.setChild]
    split
    · rfl
    next hb =>
        rw [hb]
        show (Function.update m.blocks a _ a).header = _
        rw [Function.update_self]
        rfl
  · rw [setChild_of_ne hne]

/-- A store does not change what is not written after the construction of a node. -/
theorem grows_store {L : Layout K} : Grows L m L ((m.setChild g i x).mark marked) :=
  ⟨by simp, fun a _ => by simp, fun _ _ => rfl, fun _ _ => rfl, fun _ _ => rfl⟩

/-- The entries of a leaf are not written after its construction. -/
theorem entries_of_header {b b' : Block K V} (h : b.header = b'.header) : b.entries = b'.entries := by
  cases b with
  | leaf status keyvals =>
      cases b' with
      | leaf status' keyvals' =>
          cases h
          rfl
      | node => cases h
  | node status size keys children =>
      cases b' with
      | leaf => cases h
      | node => rfl

/-- A node is the same but for its children. -/
theorem node_of_header {b b' : Block K V} (h : b'.header = b.header) {status : Status} {size : Nat} {keys : Nat → K}
    {children : Nat → Nat} (hb : b = .node status size keys children) :
    ∃ children', b' = .node status size keys children' := by
  subst hb
  cases b' with
  | leaf => cases h
  | node status' size' keys' children' =>
      cases h
      exact ⟨children', rfl⟩

/-- A leaf is the same. -/
theorem leaf_of_header {b b' : Block K V} (h : b'.header = b.header) {status : Status} {keyvals : List (KV K V)}
    (hb : b = .leaf status keyvals) : b' = .leaf status keyvals := by
  subst hb
  cases b' with
  | leaf status' keyvals' =>
      cases h
      rfl
  | node => cases h

theorem Slot.mem_kids (hs : Slot m g i p) : p ∈ (m.blocks g).kids := by
  obtain ⟨status, size, keys, children, hb, hlt, hp⟩ := hs
  rw [hb]
  exact mem_row.mpr ⟨i, hlt, hp⟩

/-- The children after a store. -/
theorem Slot.mem_store (hs : Slot m g i p) (hy : y ∈ (m.blocks g).kids) (hne : y ≠ p) :
    y ∈ ((m.setChild g i x).blocks g).kids := by
  obtain ⟨status, size, keys, children, hb, hlt, hp⟩ := hs
  rw [hb] at hy
  obtain ⟨j, hj, rfl⟩ := mem_row.mp hy
  have hji : j ≠ i := fun heq => hne (heq ▸ hp)
  simp only [Memory.setChild, hb, Function.update_self]
  exact mem_row.mpr ⟨j, hj, Function.update_of_ne hji ..⟩

theorem Slot.stored (hs : Slot m g i p) : x ∈ ((m.setChild g i x).blocks g).kids := by
  obtain ⟨status, size, keys, children, hb, hlt, -⟩ := hs
  simp only [Memory.setChild, hb, Function.update_self]
  exact mem_row.mpr ⟨i, hlt, Function.update_self ..⟩

theorem Slot.of_mem_store (hs : Slot m g i p) (hy : y ∈ ((m.setChild g i x).blocks g).kids) :
    y = x ∨ y ∈ (m.blocks g).kids := by
  obtain ⟨status, size, keys, children, hb, -, -⟩ := hs
  simp only [Memory.setChild, hb, Function.update_self] at hy
  rw [hb]
  obtain ⟨j, hj, rfl⟩ := mem_row.mp hy
  by_cases hji : j = i
  · exact .inl (by rw [hji]; exact Function.update_self ..)
  · exact .inr (mem_row.mpr ⟨j, hj, (Function.update_of_ne hji ..).symm⟩)

/-- What a slot holds after a store. -/
theorem child_setChild : (m.setChild g i x).child a b = m.child a b ∨ a = g ∧ b = i := by
  by_cases hag : a = g
  · subst hag
    by_cases hbi : b = i
    · exact .inr ⟨rfl, hbi⟩
    · refine .inl ?_
      cases hb : m.blocks a with
      | leaf => simp only [Memory.child, Memory.setChild, hb]
      | node => simp only [Memory.child, Memory.setChild, hb, Function.update_self, Function.update_of_ne hbi]
  · left
    rw [Memory.child, setChild_of_ne hag, Memory.child]

theorem Slot.child_eq (hs : Slot m g i p) : m.child g i = p := by
  obtain ⟨status, size, keys, children, hb, -, hp⟩ := hs
  rw [Memory.child, hb]
  exact hp

end

/-! ## Replacing a node -/

/-- Whoever reaches `x` reaches `y` by the new nodes. -/
def Leads (n : Nat) (m' : Memory K V) (x y : Nat) : Prop :=
  ∀ blocks : Nat → Block K V, (∀ a, n ≤ a → a < m'.fresh → blocks a = m'.blocks a) → Reach blocks x → Reach blocks y

/-- The node `x` is ready to take the place of `p`, with which the nodes `gone` go out of use. -/
structure Replaces (L : Layout K) (m : Memory K V) (L' : Layout K) (m' : Memory K V) (gone : List Nat) (p x : Nat) :
    Prop where
  ext : Extends L m L' m'
  mem : p ∈ gone
  below : ∀ d ∈ gone, d ≠ root ∧ d < m.fresh ∧ L.height d ≤ L.height p
  linked : ∀ d ∈ gone, Reach m.blocks p → Reach m.blocks d
  kept : ∀ y ∈ m.kids gone, y ∈ gone ∨ Leads m.fresh m' x y
  all : ∀ a, m.fresh ≤ a → a < m'.fresh → Leads m.fresh m' x a
  top : m.fresh ≤ x ∨ x ∈ m.kids gone
  origin : ∀ a, m.fresh ≤ a → a < m'.fresh → ∀ y ∈ (m'.blocks a).kids, m.fresh ≤ y ∨ y ∈ m.kids gone

/-- The new nodes have the entries of those that go out of use. -/
structure SameEntries (m m' : Memory K V) (gone : List Nat) : Prop where
  kept : ∀ kv ∈ m.entries gone, ∃ a, m.fresh ≤ a ∧ a < m'.fresh ∧ kv ∈ (m'.blocks a).entries
  origin : ∀ a, m.fresh ≤ a → a < m'.fresh → ∀ kv ∈ (m'.blocks a).entries, kv ∈ m.entries gone

section

variable {L L' : Layout K} {m m' : Memory K V} {a g i p x : Nat} {gone marked : List Nat}

/-- Old nodes without the slot are the same. -/
theorem Replaces.blocks_old (hr : Replaces L m L' m' gone p x) (ha : a < m.fresh) (hne : a ≠ g) :
    ((m'.setChild g i x).mark marked).blocks a = m.blocks a := by
  rw [mark_blocks, setChild_of_ne hne, hr.ext.blocks a ha]

/-- New nodes are as they have been built. -/
theorem blocks_new (marked : List Nat) (hg : g < m.fresh) (ha : m.fresh ≤ a) :
    ((m'.setChild g i x).mark marked).blocks a = m'.blocks a := by
  have hne : a ≠ g := by omega
  rw [mark_blocks, setChild_of_ne hne]

/-- The slot in the memory with the new nodes. -/
theorem Replaces.slot (hr : Replaces L m L' m' gone p x) (hg : g < m.fresh) (hs : Slot m g i p) : Slot m' g i p := by
  rw [Slot, hr.ext.blocks g hg]
  exact hs

/-- The children in the slot's node, after the store. -/
theorem Replaces.mem_store (hr : Replaces L m L' m' gone p x) (hg : g < m.fresh) (hs : Slot m g i p) :
    x ∈ (((m'.setChild g i x).mark marked).blocks g).kids ∧
      (∀ y ∈ (m.blocks g).kids, y ≠ p → y ∈ (((m'.setChild g i x).mark marked).blocks g).kids) ∧
      ∀ y ∈ (((m'.setChild g i x).mark marked).blocks g).kids, y = x ∨ y ∈ (m.blocks g).kids := by
  have hslot := hr.slot hg hs
  rw [mark_blocks, ← hr.ext.blocks g hg]
  exact ⟨hslot.stored, fun y hy hne => hslot.mem_store hy hne, fun y hy => hslot.of_mem_store hy⟩

end

/-! ## Heights and intervals -/

variable [LinearOrder K]

section

variable {B : BlockSizes} {L L' : Layout K} {m m' : Memory K V} {a g i p x y : Nat} {marked : List Nat}

/-- A child has a place, one level below its node. -/
theorem WellFormed.kid (hwf : WellFormed B L m) (ha : a < m.fresh) (hy : y ∈ (m.blocks a).kids) :
    y ≠ root ∧ y < m.fresh ∧ (a ≠ root → L.height a = L.height y + 1) := by
  by_cases hroot : a = root
  · subst hroot
    obtain ⟨keys, children, hb, h, hplaced⟩ := hwf.top
    rw [hb] at hy
    obtain ⟨j, hj, rfl⟩ := mem_row.mp hy
    obtain rfl : j = 0 := by omega
    exact ⟨hplaced.ne_root, hplaced.alloc, fun hne => absurd rfl hne⟩
  · have hblock := hwf.blocks a ha hroot
    cases hb : m.blocks a with
    | leaf status keyvals =>
        rw [hb] at hy
        cases hy
    | node status size keys children =>
        rw [hb] at hy hblock
        obtain ⟨h', hh, -, b, hcuts⟩ := hblock
        obtain ⟨j, hj, rfl⟩ := mem_row.mp hy
        have hplaced := (hcuts.child j hj).1
        exact ⟨hplaced.ne_root, hplaced.alloc, fun _ => by rw [hh, hplaced.height_eq]⟩

/-- What is reachable is allocated. -/
theorem WellFormed.alloc_of_reach (hwf : WellFormed B L m) (ha : Reach m.blocks a) : a < m.fresh := by
  induction ha with
  | root =>
      obtain ⟨_, _, _, _, hplaced⟩ := hwf.top
      exact (Nat.zero_le _).trans_lt hplaced.alloc
  | kid ha hy ih => exact (hwf.kid ih hy).2.1

/-- A node with the right place may be stored. -/
theorem WellFormed.store (hwf : WellFormed B L m) (hs : Slot m g i p) (htop : g = root → ∃ h, Placed L m h ⊥ ⊤ x)
    (hchild : g ≠ root → ChildOk B L m (L.height p) (L.lo p) (L.hi p) x) (hmarked : root ∉ marked) :
    WellFormed B L ((m.setChild g i x).mark marked) := by
  have hgrows : Grows L m L ((m.setChild g i x).mark marked) := grows_store
  have hother : ∀ {a}, a ≠ g → ((m.setChild g i x).mark marked).blocks a = m.blocks a := fun hne => by
    rw [mark_blocks, setChild_of_ne hne]
  obtain ⟨status, size, keys, children, hg, hi, hp⟩ := hs
  have hself : ((m.setChild g i x).mark marked).blocks g = .node status size keys (Function.update children i x) := by
    simp only [mark_blocks, Memory.setChild, hg, Function.update_self]
  refine ⟨?_, ?_, fun a ha hne => ?_, fun a ha hne => ?_⟩
  · obtain ⟨keys', children', hroot, h, hplaced⟩ := hwf.top
    by_cases hgr : g = root
    · obtain ⟨h', hx⟩ := htop hgr
      subst hgr
      rw [hroot] at hg
      cases hg
      obtain rfl : i = 0 := by omega
      refine ⟨_, _, hself, h', ?_⟩
      rw [Function.update_self]
      exact hx.mono hgrows
    · exact ⟨keys', children', (hother (Ne.symm hgr)).trans hroot, h, hplaced.mono hgrows⟩
  · rw [← Bool.not_eq_true, mark_removed, setChild_removed, hwf.top_live]
    exact fun h => h.elim (fun h => by cases h) hmarked
  · rw [mark_fresh, setChild_fresh] at ha
    rw [hgrows.header a ha]
    exact hwf.size a ha hne
  · rw [mark_fresh, setChild_fresh] at ha
    have hblock := hwf.blocks a ha hne
    by_cases hag : a = g
    · subst hag
      rw [hg] at hblock
      obtain ⟨h', hh, hpos, b, hb⟩ := hblock
      have hold := (hb.child i hi).1
      have hx := hchild hne
      rw [← hp, hold.height_eq, hold.lo_eq, hold.hi_eq] at hx
      have hchain : Chain (ChildOk B L m h') (L.lo a) (L.hi a) size keys (Function.update children i x) :=
        ⟨hpos, b, hb.update hx⟩
      rw [hself]
      exact ⟨h', hh, hchain.imp fun _ _ _ hx => hx.mono hgrows⟩
    · rw [hother hag]
      exact hblock.mono hgrows

end

/-! ## What is reachable after a replacement -/

section

variable {B : BlockSizes} {L L' : Layout K} {m m' : Memory K V} {a g i p x : Nat} {gone marked : List Nat}

/-- The slot stays reachable. -/
theorem Replaces.reach_slot (hr : Replaces L m L' m' gone p x) (hwf : WellFormed B L m) (hg : Reach m.blocks g) :
    Reach ((m'.setChild g i x).mark marked).blocks g := by
  by_cases hroot : g = root
  · rw [hroot]
    exact .root
  -- nodes that are as high as the slot are reached without it
  have habove : ∀ {a}, Reach m.blocks a → (a ≠ root → L.height g ≤ L.height a) →
      Reach ((m'.setChild g i x).mark marked).blocks a := by
    intro a ha
    induction ha with
    | root => exact fun _ => .root
    | @kid a y ha hy ih =>
        intro habove
        have halloc := hwf.alloc_of_reach ha
        obtain ⟨hyroot, -, hheight⟩ := hwf.kid halloc hy
        have hle := habove hyroot
        have hag : a ≠ g := fun heq => by
          have := hheight (heq ▸ hroot)
          rw [heq] at this
          omega
        refine .kid (ih fun hne => ?_) ?_
        · have := hheight hne
          omega
        · rw [hr.blocks_old halloc hag]
          exact hy
  exact habove hg fun _ => le_rfl

/-- The new nodes become reachable. -/
theorem Replaces.reach_new (marked : List Nat) (hr : Replaces L m L' m' gone p x) (hwf : WellFormed B L m)
    (hg : Reach m.blocks g) (hs : Slot m g i p) {y : Nat} (hy : Leads m.fresh m' x y) :
    Reach ((m'.setChild g i x).mark marked).blocks y := by
  have halloc := hwf.alloc_of_reach hg
  exact hy _ (fun a ha _ => blocks_new marked halloc ha) (.kid (hr.reach_slot hwf hg) (hr.mem_store halloc hs).1)

/-- What does not go out of use stays reachable. -/
theorem Replaces.reach_kept (marked : List Nat) (hr : Replaces L m L' m' gone p x) (hwf : WellFormed B L m)
    (hg : Reach m.blocks g) (hs : Slot m g i p) (ha : Reach m.blocks a) :
    a ∈ gone ∨ Reach ((m'.setChild g i x).mark marked).blocks a := by
  induction ha with
  | root => exact .inr .root
  | @kid a y ha hy ih =>
      cases ih with
      | inl hgone =>
          exact (hr.kept y (mem_kids.mpr ⟨a, hgone, hy⟩)).imp_right fun hlead => hr.reach_new marked hwf hg hs hlead
      | inr ih =>
          by_cases hag : a = g
          · by_cases hyp : y = p
            · rw [hyp]
              exact .inl hr.mem
            · rw [hag] at hy ih
              exact .inr (.kid ih ((hr.mem_store (hwf.alloc_of_reach hg) hs).2.1 y hy hyp))
          · refine .inr (.kid ih ?_)
            rw [hr.blocks_old (hwf.alloc_of_reach ha) hag]
            exact hy

/-- What is reachable is new, or was reachable before. -/
theorem Replaces.reach_origin (marked : List Nat) (hr : Replaces L m L' m' gone p x) (hwf : WellFormed B L m)
    (hwf' : WellFormed B L' ((m'.setChild g i x).mark marked)) (hg : Reach m.blocks g) (hs : Slot m g i p)
    (ha : Reach ((m'.setChild g i x).mark marked).blocks a) :
    m.fresh ≤ a ∧ a < m'.fresh ∨ Reach m.blocks a := by
  have halloc := hwf.alloc_of_reach hg
  have hgone : ∀ y ∈ m.kids gone, Reach m.blocks y := by
    intro y hy
    obtain ⟨d, hd, hy⟩ := mem_kids.mp hy
    exact .kid (hr.linked d hd (.kid hg hs.mem_kids)) hy
  have hnew : ∀ {y}, Reach ((m'.setChild g i x).mark marked).blocks y → m.fresh ≤ y ∨ y ∈ m.kids gone →
      m.fresh ≤ y ∧ y < m'.fresh ∨ Reach m.blocks y := by
    intro y hy horigin
    have hlt := hwf'.alloc_of_reach hy
    rw [mark_fresh, setChild_fresh] at hlt
    exact horigin.imp (fun hle => ⟨hle, hlt⟩) (hgone y)
  induction ha with
  | root => exact .inr .root
  | @kid a y ha hy ih =>
      have hreach := Reach.kid ha hy
      cases ih with
      | inl ih =>
          rw [blocks_new marked halloc ih.1] at hy
          exact hnew hreach (hr.origin a ih.1 ih.2 y hy)
      | inr ih =>
          by_cases hag : a = g
          · rw [hag] at hy
            cases (hr.mem_store halloc hs).2.2 y hy with
            | inl hyx =>
                rw [hyx] at hreach ⊢
                exact hnew hreach hr.top
            | inr hy => exact .inr (.kid hg hy)
          · rw [hr.blocks_old (hwf.alloc_of_reach ih) hag] at hy
            exact .inr (.kid ih hy)

end

/-! ## What holds of the memory -/

/-- The invariant of the memory: nodes that a search may enter are reachable, or marked as removed. -/
structure Inv (B : BlockSizes) (L : Layout K) (m : Memory K V) : Prop where
  wf : WellFormed B L m
  live : ∀ a < m.fresh, (m.blocks a).header.isLeaf = false → ¬ NeedsFix (m.blocks a).header →
    m.removed a = false → Reach m.blocks a

/-- What a step does to the memory, for the other threads. A slot is written only if its node is the root, or if it
holds a node that needs no repair. -/
structure Ext (L : Layout K) (m : Memory K V) (L' : Layout K) (m' : Memory K V) : Prop extends Grows L m L' m' where
  pinned : ∀ a < m.fresh, a ≠ root → ∀ i, m'.child a i = m.child a i ∨ (m.blocks (m.child a i)).header.status = .ok

section

variable {B : BlockSizes} {L L' : Layout K} {m m' : Memory K V} {a g i p x : Nat} {gone marked : List Nat}

/-- A replacement keeps the invariant, if the nodes that go out of use are marked or cannot be entered. -/
theorem Replaces.inv (marked : List Nat) (hr : Replaces L m L' m' gone p x) (hinv : Inv B L m)
    (hwf' : WellFormed B L' m') (hg : Reach m.blocks g) (hs : Slot m g i p) (htop : g = root → ∃ h, Placed L' m' h ⊥ ⊤ x)
    (hchild : g ≠ root → ChildOk B L' m' (L.height p) (L.lo p) (L.hi p) x)
    (hok : g ≠ root → (m.blocks p).header.status = .ok)
    (hmarked : ∀ d ∈ marked, d ∈ gone)
    (hgone : ∀ d ∈ gone, d ∈ marked ∨ (m.blocks d).header.isLeaf = true ∨ NeedsFix (m.blocks d).header) :
    Inv B L' ((m'.setChild g i x).mark marked) ∧ Ext L m L' ((m'.setChild g i x).mark marked) := by
  have halloc := hinv.wf.alloc_of_reach hg
  obtain ⟨-, hpalloc, -⟩ := hr.below p hr.mem
  have hgrows : Grows L m L' ((m'.setChild g i x).mark marked) := hr.ext.toGrows.trans grows_store
  have hwf'' : WellFormed B L' ((m'.setChild g i x).mark marked) := by
    refine hwf'.store (hr.slot halloc hs) htop (fun hne => ?_) fun hroot => (hr.below _ (hmarked _ hroot)).1 rfl
    rw [hr.ext.height p hpalloc, hr.ext.lo p hpalloc, hr.ext.hi p hpalloc]
    exact hchild hne
  refine ⟨⟨hwf'', fun a ha hleaf hfix hlive => ?_⟩, hgrows, fun a ha hroot j => ?_⟩
  · rw [mark_fresh, setChild_fresh] at ha
    by_cases hold : a < m.fresh
    · rw [hgrows.header a hold] at hleaf hfix
      rw [← Bool.not_eq_true, mark_removed, setChild_removed, not_or, hr.ext.removed a hold, Bool.not_eq_true] at hlive
      refine (hr.reach_kept marked hinv.wf hg hs (hinv.live a hold hleaf hfix hlive.1)).resolve_left fun hmem => ?_
      obtain hmark | hbad | hbad := hgone a hmem
      · exact hlive.2 hmark
      · rw [hleaf] at hbad
        cases hbad
      · exact hfix hbad
    · exact hr.reach_new marked hinv.wf hg hs (hr.all a (not_lt.mp hold) ha)
  · rw [Memory.child, mark_blocks, ← Memory.child]
    cases child_setChild (m := m') (g := g) (i := i) (x := x) (a := a) (b := j) with
    | inl hsame =>
        left
        rw [hsame, Memory.child, hr.ext.blocks a ha, Memory.child]
    | inr heq =>
        obtain ⟨rfl, rfl⟩ := heq
        rw [hs.child_eq]
        exact .inr (hok hroot)

/-- A replacement with the same entries leaves the contents as they are. -/
theorem Replaces.contains (hr : Replaces L m L' m' gone p x) (hsame : SameEntries m m' gone) (hwf : WellFormed B L m)
    (hwf' : WellFormed B L' ((m'.setChild g i x).mark marked)) (hg : Reach m.blocks g) (hs : Slot m g i p) (k : K)
    (v : V) : Contains ((m'.setChild g i x).mark marked) k v ↔ Contains m k v := by
  have halloc := hwf.alloc_of_reach hg
  have hgrows : Grows L m L' ((m'.setChild g i x).mark marked) := hr.ext.toGrows.trans grows_store
  constructor
  · rintro ⟨a, ha, hkv⟩
    cases hr.reach_origin marked hwf hwf' hg hs ha with
    | inl hnew =>
        rw [blocks_new marked halloc hnew.1] at hkv
        obtain ⟨d, hd, hkv⟩ := mem_entries.mp (hsame.origin a hnew.1 hnew.2 _ hkv)
        exact ⟨d, hr.linked d hd (.kid hg hs.mem_kids), hkv⟩
    | inr ha =>
        rw [entries_of_header (hgrows.header a (hwf.alloc_of_reach ha))] at hkv
        exact ⟨a, ha, hkv⟩
  · rintro ⟨a, ha, hkv⟩
    cases hr.reach_kept marked hwf hg hs ha with
    | inl hgone =>
        obtain ⟨b, hle, hlt, hkv⟩ := hsame.kept _ (mem_entries.mpr ⟨a, hgone, hkv⟩)
        refine ⟨b, hr.reach_new marked hwf hg hs (hr.all b hle hlt), ?_⟩
        rw [blocks_new marked halloc hle]
        exact hkv
    | inr hreach =>
        refine ⟨a, hreach, ?_⟩
        rw [entries_of_header (hgrows.header a (hwf.alloc_of_reach ha))]
        exact hkv

end

end Verlib.BTree.Concurrent
