import Verlib.BTree.NoLostUpdate
import Verlib.BTree.Writes
import Verlib.Interleaving.Hindsight
import Verlib.Interleaving.Readers

/-!
# `find_` and `find_locked` of the concurrent B-tree

`find_no_fix` goes down to a leaf without a repair and without a lock, also through nodes that are too full or too
small, and through nodes that others have replaced meanwhile. `find_` returns what the leaf says; `find_locked` looks
again whether the leaf is still there, and if not, starts again. As `read_lock` runs its body without a lock, the two
loads of this test are two steps.
-/

namespace Verlib.BTree.Concurrent

open Separated Interleaving Machine

/-- The operations that only read. -/
inductive Query (K : Type) where
  | find (k : K)
  | findLocked (k : K)
  deriving DecidableEq

/-- The key that is looked for. -/
def Query.key {K : Type} : Query K → K
  | .find k => k
  | .findLocked k => k

/-- Positions of a call: before the first load of `find_no_fix`, before a load further down, and before the two loads
of the validation. -/
inductive QueryPos where
  | start
  | load (p cidx : Nat)
  | readPtr (p cidx l : Nat)
  | readRemoved (p l : Nat)
  deriving DecidableEq

section

variable {K V : Type} [LinearOrder K]

/-- `find_` or `try_find` at the leaf. -/
def Query.located (q : Query K) (keyvals : List (KV K V)) (p cidx l : Nat) : QueryPos ⊕ Option V :=
  match q with
  | .find k => .inr (leafFind keyvals k)
  | .findLocked _ => .inl (.readPtr p cidx l)

/-- The loop of `find_no_fix` at the child `c` of `p`; `none` is a fault of `node::find`. -/
def Query.visit (q : Query K) (m : Memory K V) (p cidx c : Nat) : Option (QueryPos ⊕ Option V) :=
  match m.blocks c with
  | .leaf _ keyvals => some (q.located keyvals p cidx c)
  | .node _ size keys _ => (BTree.find size keys q.key 0).map fun i => .inl (.load c i)

/-- One step of a call. -/
def Query.step (q : Query K) (m : Memory K V) : QueryPos → Option (QueryPos ⊕ Option V)
  | .start => q.visit m root 0 (m.child root 0)
  | .load p cidx => q.visit m p cidx (m.child p cidx)
  | .readPtr p cidx l => some (.inl (if m.child p cidx = l then .readRemoved p l else .start))
  | .readRemoved p l =>
      some (if m.removed p = false then .inr (leafFind (m.blocks l).entries q.key) else .inl .start)

/-- The calls that only read. -/
def reader : Reader (Query K) (Memory K V) QueryPos (Option V) := ⟨fun _ => .start, Query.step⟩

/-! ## What the tree is for -/

/-- Why an update may return false. -/
def Op.Nothing (o : Op K V) (content : K → V → Prop) : Prop :=
  match o with
  | .insert k _ upsert => upsert = false ∧ ∃ v, content k v
  | .remove k => ∀ v, ¬ content k v

/-- What the updates are to do. -/
def spec : Spec (Op K V) (Memory K V) Bool where
  Same m m' := ∀ k v, Contains m' k v ↔ Contains m k v
  Effect o r m m' := r = true ∧ o.Changes (Contains m) (Contains m')
  Refused o r m := r = false ∧ o.Nothing (Contains m)

/-- The right answer to a query. -/
def Answer (q : Query K) (t : Option V) (m : Memory K V) : Prop := ∀ v, t = some v ↔ Contains m q.key v

/-! ## One child for a key -/

section

variable {B : BlockSizes} {L : Layout K} {m : Memory K V} {k : K} {p i : Nat} {status : Status} {size : Nat}
  {keys : Nat → K} {children : Nat → Nat}

/-- The child that `node::find` chooses has the key in its interval. -/
theorem WellFormed.covers_child (hwf : WellFormed B L m) (hp : p < m.fresh)
    (hb : m.blocks p = .node status size keys children) (hpos : Position size keys k i) (hk : Covers L k p) :
    m.child p i ∈ (m.blocks p).kids ∧ Covers L k (m.child p i) := by
  have hc : m.child p i = children i := by rw [Memory.child, hb]
  have hkid : children i ∈ (m.blocks p).kids := by
    rw [hb]
    exact mem_row.mpr ⟨i, hpos.lt_size, rfl⟩
  rw [hc]
  by_cases hroot : p = root
  · obtain ⟨keys', children', htop, h, hplaced⟩ := hwf.top
    rw [hroot, htop] at hb
    cases hb
    have hlt := hpos.lt_size
    obtain rfl : i = 0 := by omega
    refine ⟨hkid, .inr ?_⟩
    rw [hplaced.lo_eq, hplaced.hi_eq]
    exact ⟨bot_le, ofKey_lt_top k⟩
  · have hblock := hwf.blocks p hp hroot
    rw [hb] at hblock
    obtain ⟨h, -, -, b, hcuts⟩ := hblock
    obtain ⟨hlo, hhi⟩ := hk.resolve_left hroot
    have hplaced := (hcuts.child i hpos.lt_size).1
    refine ⟨hkid, .inr ?_⟩
    rw [hplaced.lo_eq, hplaced.hi_eq]
    exact hcuts.interval hpos.lt_size hlo hhi hpos.before fun hlt => hpos.after i le_rfl hlt

/-- A reachable leaf for a key says what the tree contains for it. -/
theorem WellFormed.leafFind (hwf : WellFormed B L m) (hp : Reach m.blocks p) (hk : Covers L k p)
    {keyvals : List (KV K V)} (hb : m.blocks p = .leaf status keyvals) (v : V) :
    BTree.leafFind keyvals k = some v ↔ Contains m k v := by
  have halloc := hwf.alloc_of_reach hp
  have hroot : p ≠ root := by
    intro hroot
    obtain ⟨keys, children, htop, -⟩ := hwf.top
    rw [hroot, htop] at hb
    cases hb
  have hblock := hwf.blocks p halloc hroot
  rw [hb] at hblock
  rw [leafFind_eq_some hblock.2.1, hwf.contains_leaf hp hk (by rw [hb]; rfl), hb]
  rfl

end

end

end Verlib.BTree.Concurrent
