import Verlib.Linked.Path
import Verlib.SnapshotList.Machine

/-!
# The list that a snapshot sees

For every stamp `ls` the versions that it selects form a sorted list. A store does not change these lists, as its
version has no stamp. When the version gets the stamp `t`, the node is inserted into the lists of `t` and of all later
stamps, or taken out of them, and the lists of earlier stamps stay as they are.
-/

namespace Verlib.SnapshotList

open Interleaving Interleaving.Versions Indirect Linked
open SortedList (Op root)

variable {K V ι : Type} [LinearOrder K]

/-! ## Lists -/

/-- Node `b` may come after node `a`. -/
def Precedes (nodes : Nat → Node K V) (a b : Nat) : Prop :=
  b ≠ root ∧ (nodes a).isEnd = false ∧ ((nodes b).isEnd = true ∨ a = root ∨ (nodes a).key < (nodes b).key)

/-- The end nodes. -/
def End (nodes : Nat → Node K V) (a : Nat) : Prop := (nodes a).isEnd = true

/-- The nodes of the list that a snapshot with the stamp `ls` should see, from the root to an end node. -/
structure Memory.IsPath (m : Memory K V ι) (ls : Nat) (p : List Nat) : Prop where
  path : Path (m.view ls) (Precedes m.nodes) (End m.nodes) root p
  alloc : ∀ a ∈ p, a < m.fresh

/-- The node is on this list. -/
def Memory.On (m : Memory K V ι) (ls a : Nat) : Prop := ∃ p, m.IsPath ls p ∧ a ∈ p

/-- The entries of this list. -/
def Memory.Contains (m : Memory K V ι) (ls : Nat) (k : K) (v : V) : Prop :=
  ∃ a, m.On ls a ∧ a ≠ root ∧ (m.nodes a).isEnd = false ∧ (m.nodes a).key = k ∧ (m.nodes a).value = v

/-- The node is on the list of the present, if it is not marked. -/
def Memory.Visible (m : Memory K V ι) (a : Nat) : Prop :=
  a < m.fresh ∧ (m.removed a = true ∨ m.On m.versions.clock a)

instance (nodes : Nat → Node K V) : IsTrans Nat (Precedes nodes) where
  trans a b c hab hbc := by
    obtain ⟨hb, ha, hab⟩ := hab
    obtain ⟨hc, hbend, hbc⟩ := hbc
    refine ⟨hc, ha, ?_⟩
    obtain hend | hroot | hlt := hbc
    · exact .inl hend
    · exact absurd hroot hb
    · obtain hend | hroot | hlt' := hab
      · rw [hbend] at hend
        cases hend
      · exact .inr (.inl hroot)
      · exact .inr (.inr (hlt'.trans hlt))

instance (nodes : Nat → Node K V) : Std.Irrefl (Precedes nodes) where
  irrefl a h := by
    obtain ⟨hroot, ha, hend | hroot' | hlt⟩ := h
    · rw [ha] at hend
      cases hend
    · exact hroot hroot'
    · exact lt_irrefl _ hlt

theorem Precedes.not_end {nodes : Nat → Node K V} (a b : Nat) (h : Precedes nodes a b) : ¬ End nodes a := by
  intro hend
  have hend : (nodes a).isEnd = true := hend
  rw [h.2.1] at hend
  cases hend

section

variable {m m' : Memory K V ι} {ls a b u : Nat} {p p' xs ys : List Nat}

/-- There is one list. -/
theorem Memory.IsPath.unique (h : m.IsPath ls p) (h' : m.IsPath ls p') : p = p' :=
  h.path.unique Precedes.not_end h'.path

theorem Memory.On.mem (h : m.On ls a) (hp : m.IsPath ls p) : a ∈ p := by
  obtain ⟨p', hp', ha⟩ := h
  rwa [hp.unique hp']

/-- The nodes with a key are one node. -/
theorem Memory.On.eq_of_key (ha : m.On ls a) (hb : m.On ls b) (hra : a ≠ root) (hrb : b ≠ root)
    (hea : (m.nodes a).isEnd = false) (heb : (m.nodes b).isEnd = false) (hkey : (m.nodes a).key = (m.nodes b).key) :
    a = b := by
  obtain ⟨p, hp, hap⟩ := ha
  have hbp := hb.mem hp
  have hno : ∀ {a b}, a ≠ root → (m.nodes b).isEnd = false → (m.nodes a).key = (m.nodes b).key → ¬ Precedes m.nodes a b := by
    intro a b hra heb hkey h
    obtain ⟨-, -, hend | hroot | hlt⟩ := h
    · rw [heb] at hend
      cases hend
    · exact hra hroot
    · exact hlt.ne hkey
  obtain heq | hab | hba := hp.path.total hap hbp
  · exact heq
  · exact absurd hab (hno hra heb hkey)
  · exact absurd hba (hno hrb hea hkey.symm)

/-- The same links and nodes, and perhaps more of them. -/
theorem Memory.IsPath.congr (h : m.IsPath ls p) (hfresh : m.fresh ≤ m'.fresh) (hnodes : ∀ a < m.fresh, m'.nodes a = m.nodes a)
    (hview : ∀ a < m.fresh, m'.view ls a = m.view ls a) : m'.IsPath ls p := by
  refine ⟨Path.imp (h.path.congr fun u hu => hview u (h.alloc u hu)) (fun a ha b hb hab => ?_) fun a ha hend => ?_,
    fun a ha => (h.alloc a ha).trans_le hfresh⟩
  · rw [Precedes, hnodes a (h.alloc a ha), hnodes b (h.alloc b hb)]
    exact hab
  · rw [End, hnodes a (h.alloc a ha)]
    exact hend

/-- Lists with the same links. -/
theorem Memory.On.congr' {ls' : Nat} (h : m.On ls a) (hview : m.view ls = m.view ls') : m.On ls' a := by
  obtain ⟨p, hp, ha⟩ := h
  refine ⟨p, ⟨?_, hp.alloc⟩, ha⟩
  rw [← hview]
  exact hp.path

theorem Memory.On.congr (h : m.On ls a) (hfresh : m.fresh ≤ m'.fresh) (hnodes : ∀ a < m.fresh, m'.nodes a = m.nodes a)
    (hview : ∀ a < m.fresh, m'.view ls a = m.view ls a) : m'.On ls a := by
  obtain ⟨p, hp, ha⟩ := h
  exact ⟨p, hp.congr hfresh hnodes hview, ha⟩

end

/-! ## The invariant -/

section

variable (m : Memory K V ι) (p i : Nat)

/-- The version after version `i` of `p` leads to a new node with this entry, which leads to where version `i` does. -/
structure Inserts (k : K) (v : V) : Prop where
  node : m.nodes (m.next p (i + 1)) = ⟨k, v, false⟩
  last : m.versions.last (m.next p (i + 1)) = 0
  live : m.removed (m.next p (i + 1)) = false
  next : m.next (m.next p (i + 1)) 0 = m.next p i
  before : Precedes m.nodes p (m.next p (i + 1))
  after : Precedes m.nodes (m.next p (i + 1)) (m.next p i)
  only : ∀ q < m.fresh, (m.nodes q).isEnd = false → ∀ j ≤ m.versions.last q, m.next q j = m.next p (i + 1) →
    q = p ∧ j = i + 1

/-- Version `i` of `p` leads to a marked node with this key, and the version after it to where this node does. -/
structure Removes (k : K) : Prop where
  key : (m.nodes (m.next p i)).key = k
  inner : (m.nodes (m.next p i)).isEnd = false
  marked : m.removed (m.next p i) = true
  stamped : ∃ s, m.versions.stamp (m.next p i) (m.versions.last (m.next p i)) = some s ∧
    s ≤ m.versions.born p (i + 1)
  next : m.next (m.next p i) (m.versions.last (m.next p i)) = m.next p (i + 1)

/-- What the version after version `i` of `p` is for. -/
def Stored (o : Op K V) : Prop :=
  match o with
  | .insert k v => Inserts m p i k v
  | .remove k => Removes m p i k

/-- The last version of `p`, after version `i`, has no stamp yet; `o` has stored it. -/
structure Pending (o : Op K V) : Prop where
  last : m.versions.last p = i + 1
  on : ∀ ls, m.versions.born p (i + 1) ≤ ls → m.On ls p
  inner : (m.nodes p).isEnd = false
  stored : Stored m p i o

/-- The invariant of the memory. -/
structure Inv : Prop where
  clock : zeroStamp ≤ m.versions.clock
  ordered : m.versions.Ordered
  first : ∀ p, m.versions.stamp p 0 = some zeroStamp
  root_lt : root < m.fresh
  root_inner : (m.nodes root).isEnd = false
  paths : ∀ ls, zeroStamp ≤ ls → ∃ p, m.IsPath ls p
  blank : ∀ p, m.fresh ≤ p → m.versions.last p = 0 ∧ m.removed p = false
  targets : ∀ p < m.fresh, (m.nodes p).isEnd = false → ∀ i ≤ m.versions.last p, m.next p i < m.fresh
  leads : ∀ p, m.Visible p → (m.nodes p).isEnd = false → ∀ i ≤ m.versions.last p, m.versions.stamp p i ≠ none →
    m.Visible (m.next p i)
  pending : ∀ p < m.fresh, m.versions.stamp p (m.versions.last p) = none →
    ∃ i c n o, (m.versions.value p (i + 1)).call = some (c, n, o) ∧ Pending m p i o

end

section

variable {m : Memory K V ι} {ls a p i k : Nat}

theorem Inv.within (hinv : Inv m) (hls : zeroStamp ≤ ls) (p : Nat) : m.versions.Within ls p 0 :=
  ⟨zeroStamp, hinv.first p, hls⟩

omit [LinearOrder K] in
/-- A pointer with one version. -/
theorem cut_zero (hlast : m.versions.last p = 0) : m.versions.cut ls p = 0 :=
  Nat.le_zero.mp (hlast ▸ cut_le)

/-- All lists from the present on are the same. -/
theorem Inv.on_iff (hinv : Inv m) (hls : m.versions.clock ≤ ls) : m.On ls a ↔ m.On m.versions.clock a := by
  have hcut : ∀ q, m.versions.cut ls q = m.versions.cut m.versions.clock q := by
    intro q
    refine cut_eq cut_le ?_ fun j hlt hle hw => ?_
    · obtain ⟨s, hs, hle⟩ := cut_within (Nat.zero_le _) (hinv.within hinv.clock q)
      exact ⟨s, hs, hle.trans hls⟩
    · obtain ⟨s, hs, -⟩ := hw
      exact absurd (le_cut hle ⟨s, hs, hinv.ordered.le_clock q j s hle hs⟩) (Nat.not_le.mpr hlt)
  have hview : m.view ls = m.view m.versions.clock := funext fun q => congrArg (m.next q) (hcut q)
  constructor
  · exact fun h => h.congr' hview
  · exact fun h => h.congr' hview.symm

theorem Inv.on_root (hinv : Inv m) (hls : zeroStamp ≤ ls) : m.On ls root := by
  obtain ⟨p, hp⟩ := hinv.paths ls hls
  exact ⟨p, hp, hp.path.head_mem⟩

theorem Inv.visible_root (hinv : Inv m) : m.Visible root :=
  ⟨hinv.root_lt, .inr (hinv.on_root hinv.clock)⟩

/-- A node that is on a list, but is not the root, is where a version leads that the list selects. -/
theorem Memory.On.pred {m : Memory K V ι} (h : m.On ls a) (hne : a ≠ root) :
    ∃ u < m.fresh, (m.nodes u).isEnd = false ∧ m.view ls u = a := by
  obtain ⟨p, hp, ha⟩ := h
  obtain ⟨xs, u, ys, rfl, hu⟩ := hp.path.pred ha hne
  exact ⟨u, hp.alloc u (by simp), hp.path.related.2.1, hu⟩

/-- A node that a version without a stamp leads to is on no list. -/
theorem Inserts.not_on {i p : Nat} {k : K} {v : V} (h : Inserts m p i k v) (hpend : m.versions.stamp p (i + 1) = none)
    (hinv : Inv m) (hls : zeroStamp ≤ ls) : ¬ m.On ls (m.next p (i + 1)) := by
  intro hon
  obtain ⟨u, hu, hend, hview⟩ := hon.pred h.before.1
  obtain ⟨rfl, hcut⟩ := h.only u hu hend _ cut_le hview
  obtain ⟨s, hs, -⟩ := cut_within (Nat.zero_le _) (hinv.within hls u)
  rw [hcut, hpend] at hs
  cases hs

/-- Nor is it visible. -/
theorem Inserts.not_visible {i p : Nat} {k : K} {v : V} (h : Inserts m p i k v)
    (hpend : m.versions.stamp p (i + 1) = none) (hinv : Inv m) : ¬ m.Visible (m.next p (i + 1)) := by
  intro hvis
  obtain hmark | hon := hvis.2
  · rw [h.live] at hmark
    cases hmark
  · exact h.not_on hpend hinv hinv.clock hon

end

end Verlib.SnapshotList
