import Verlib.BTree.Machine

/-!
# The layout of the memory

Every node has an interval of keys and a height, which it keeps. All nodes, also those that have been replaced, have
children whose intervals cut their own one, and with the right sizes, and the root has one child with all keys. New
nodes are built from the children of old ones.
-/

namespace Verlib.BTree.Concurrent

open Separated

variable {K V : Type}

/-- An interval of keys and a height for every node. -/
structure Layout (K : Type) where
  lo : Nat → Bound K
  hi : Nat → Bound K
  height : Nat → Nat

/-- A node below the root, with its interval and its height. -/
structure Placed (L : Layout K) (m : Memory K V) (h : Nat) (lo hi : Bound K) (x : Nat) : Prop where
  ne_root : x ≠ root
  alloc : x < m.fresh
  lo_eq : L.lo x = lo
  hi_eq : L.hi x = hi
  height_eq : L.height x = h

/-- A child of another node than the root. -/
def ChildOk (B : BlockSizes) (L : Layout K) (m : Memory K V) (h : Nat) (lo hi : Bound K) (x : Nat) : Prop :=
  Placed L m h lo hi x ∧ SizeOk B (m.blocks x).header

/-- Old nodes keep their places, and what is not written after their construction. -/
structure Grows (L : Layout K) (m : Memory K V) (L' : Layout K) (m' : Memory K V) : Prop where
  fresh : m.fresh ≤ m'.fresh
  header : ∀ a < m.fresh, (m'.blocks a).header = (m.blocks a).header
  lo : ∀ a < m.fresh, L'.lo a = L.lo a
  hi : ∀ a < m.fresh, L'.hi a = L.hi a
  height : ∀ a < m.fresh, L'.height a = L.height a

/-- Old nodes are the same. -/
structure Extends (L : Layout K) (m : Memory K V) (L' : Layout K) (m' : Memory K V) : Prop extends
    Grows L m L' m' where
  blocks : ∀ a < m.fresh, m'.blocks a = m.blocks a
  removed : ∀ a < m.fresh, m'.removed a = m.removed a

section

variable [LinearOrder K]

/-- A node with its place. -/
def BlockOk (B : BlockSizes) (L : Layout K) (m : Memory K V) (h : Nat) (lo hi : Bound K) : Block K V → Prop
  | .leaf _ keyvals => h = 0 ∧ Sorted keyvals ∧ ∀ kv ∈ keyvals, lo ≤ ofKey kv.key ∧ ofKey kv.key < hi
  | .node _ size keys children => ∃ h', h = h' + 1 ∧ Chain (ChildOk B L m h') lo hi size keys children

/-- All nodes have their place. -/
structure WellFormed (B : BlockSizes) (L : Layout K) (m : Memory K V) : Prop where
  top : ∃ keys children, m.blocks root = .node .ok 1 keys children ∧ ∃ h, Placed L m h ⊥ ⊤ (children 0)
  top_live : m.removed root = false
  size : ∀ a < m.fresh, a ≠ root → RootOk B (m.blocks a).header
  blocks : ∀ a < m.fresh, a ≠ root → BlockOk B L m (L.height a) (L.lo a) (L.hi a) (m.blocks a)

end

section

variable {B : BlockSizes} {L L' L'' : Layout K} {m m' m'' : Memory K V} {h h' : Nat} {lo mid hi : Bound K} {a x : Nat}
  {b : Block K V} {size : Nat} {keys : Nat → K} {children : Nat → Nat} {keyvals : List (KV K V)} {k : K}

theorem Grows.refl (L : Layout K) (m : Memory K V) : Grows L m L m :=
  ⟨le_rfl, fun _ _ => rfl, fun _ _ => rfl, fun _ _ => rfl, fun _ _ => rfl⟩

theorem Grows.trans (h : Grows L m L' m') (h' : Grows L' m' L'' m'') : Grows L m L'' m'' where
  fresh := h.fresh.trans h'.fresh
  header a ha := (h'.header a (ha.trans_le h.fresh)).trans (h.header a ha)
  lo a ha := (h'.lo a (ha.trans_le h.fresh)).trans (h.lo a ha)
  hi a ha := (h'.hi a (ha.trans_le h.fresh)).trans (h.hi a ha)
  height a ha := (h'.height a (ha.trans_le h.fresh)).trans (h.height a ha)

theorem Extends.refl (L : Layout K) (m : Memory K V) : Extends L m L m :=
  ⟨Grows.refl L m, fun _ _ => rfl, fun _ _ => rfl⟩

theorem Extends.trans (h : Extends L m L' m') (h' : Extends L' m' L'' m'') : Extends L m L'' m'' :=
  ⟨h.toGrows.trans h'.toGrows, fun a ha => (h'.blocks a (ha.trans_le h.fresh)).trans (h.blocks a ha),
    fun a ha => (h'.removed a (ha.trans_le h.fresh)).trans (h.removed a ha)⟩

theorem Placed.mono (hx : Placed L m h lo hi x) (hext : Grows L m L' m') : Placed L' m' h lo hi x where
  ne_root := hx.ne_root
  alloc := hx.alloc.trans_le hext.fresh
  lo_eq := (hext.lo x hx.alloc).trans hx.lo_eq
  hi_eq := (hext.hi x hx.alloc).trans hx.hi_eq
  height_eq := (hext.height x hx.alloc).trans hx.height_eq

theorem ChildOk.mono (hx : ChildOk B L m h lo hi x) (hext : Grows L m L' m') : ChildOk B L' m' h lo hi x := by
  refine ⟨hx.1.mono hext, ?_⟩
  rw [hext.header x hx.1.alloc]
  exact hx.2

variable [LinearOrder K]

theorem BlockOk.mono (hb : BlockOk B L m h lo hi b) (hext : Grows L m L' m') : BlockOk B L' m' h lo hi b := by
  cases b with
  | leaf status keyvals => exact hb
  | node status size keys children =>
      obtain ⟨h', rfl, hc⟩ := hb
      exact ⟨h', rfl, hc.imp fun _ _ _ hx => hx.mono hext⟩

/-! ## New nodes -/

/-- A new node `x` is the block `b`, and the older ones are the same. -/
structure New (B : BlockSizes) (L : Layout K) (m : Memory K V) (L' : Layout K) (m' : Memory K V) (h : Nat)
    (lo hi : Bound K) (x : Nat) (b : Block K V) : Prop where
  ext : Extends L m L' m'
  wf : WellFormed B L' m'
  placed : Placed L' m' h lo hi x
  eq_fresh : x = m.fresh
  fresh : m'.fresh = m.fresh + 1
  block : m'.blocks x = b

/-- A new node gets its place. -/
theorem WellFormed.alloc (hwf : WellFormed B L m) (hsize : RootOk B b.header) (hb : BlockOk B L m h lo hi b) :
    ∃ L', New B L m L' (m.alloc b).1 h lo hi (m.alloc b).2 b := by
  obtain ⟨keys, children, hroot, h₀, hplaced⟩ := hwf.top
  obtain ⟨L', hL'⟩ : ∃ L' : Layout K, L' = ⟨Function.update L.lo m.fresh lo, Function.update L.hi m.fresh hi,
    Function.update L.height m.fresh h⟩ := ⟨_, rfl⟩
  have hne : ∀ {a}, a < m.fresh → a ≠ m.fresh := fun ha => ha.ne
  have hpos : root < m.fresh := (Nat.zero_le _).trans_lt hplaced.alloc
  have hext : Extends L m L' (m.alloc b).1 := by
    subst hL'
    exact ⟨⟨Nat.le_succ _, fun a ha => congrArg Block.header (Function.update_of_ne (hne ha) ..),
      fun a ha => Function.update_of_ne (hne ha) .., fun a ha => Function.update_of_ne (hne ha) ..,
      fun a ha => Function.update_of_ne (hne ha) ..⟩, fun a ha => Function.update_of_ne (hne ha) ..,
      fun a ha => Function.update_of_ne (hne ha) ..⟩
  have hblock : (m.alloc b).1.blocks m.fresh = b := Function.update_self ..
  have hlo : L'.lo m.fresh = lo ∧ L'.hi m.fresh = hi ∧ L'.height m.fresh = h := by
    subst hL'
    exact ⟨Function.update_self .., Function.update_self .., Function.update_self ..⟩
  have hwf' : WellFormed B L' (m.alloc b).1 := by
    refine ⟨⟨keys, children, (hext.blocks root hpos).trans hroot, h₀, hplaced.mono hext.toGrows⟩,
      (hext.removed root hpos).trans hwf.top_live, fun a ha hroot => ?_, fun a ha hroot => ?_⟩
    · obtain hold | rfl := Nat.lt_succ_iff_lt_or_eq.mp ha
      · rw [hext.blocks a hold]
        exact hwf.size a hold hroot
      · rw [hblock]
        exact hsize
    · obtain hold | rfl := Nat.lt_succ_iff_lt_or_eq.mp ha
      · rw [hext.blocks a hold, hext.lo a hold, hext.hi a hold, hext.height a hold]
        exact (hwf.blocks a hold hroot).mono hext.toGrows
      · rw [hblock, hlo.1, hlo.2.1, hlo.2.2]
        exact hb.mono hext.toGrows
  exact ⟨L', hext, hwf', ⟨hpos.ne', Nat.lt_succ_self _, hlo.1, hlo.2.1, hlo.2.2⟩, rfl, rfl, hblock⟩

end

end Verlib.BTree.Concurrent
