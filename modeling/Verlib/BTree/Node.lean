import Mathlib.Data.List.Pairwise
import Mathlib.Order.Lattice

/-!
# The nodes of the B-tree

The data model of `btree/ordered_map.h`, and the searches in one node. In a sequential run the nodes form a tree, so a
pointer is the node it points to; a node is marked as removed and retired when copies take its place, and its lock is
free between operations, so neither is part of the node. The keys are in any strict total order. An array is a
function from its indices, since a node is filled from such functions; a search yields nothing if it reads the keys
outside of the node.
-/

namespace Verlib.BTree

/-- The states of a node. -/
inductive Status where
  | isOver
  | isUnder
  | ok
  deriving DecidableEq

/-- A key with its value. -/
structure KV (K V : Type) where
  key : K
  value : V
  deriving DecidableEq

/-- A node. The size of a leaf is the length of `keyvals`; an internal node has `size` children and one key fewer. -/
inductive Node (K V : Type) where
  | leaf (status : Status) (keyvals : List (KV K V))
  | node (status : Status) (size : Nat) (keys : Nat → K) (children : Nat → Node K V)

variable {K V : Type}

namespace Node

def isLeaf : Node K V → Bool
  | leaf .. => true
  | node .. => false

def status : Node K V → Status
  | leaf status _ => status
  | node status _ _ _ => status

def size : Node K V → Nat
  | leaf _ keyvals => keyvals.length
  | node _ size _ _ => size

/-- The entries of all leaves, from left to right. -/
def entries : Node K V → List (KV K V)
  | leaf _ keyvals => keyvals
  | node _ size _ children => (List.range size).flatMap fun i => (children i).entries

end Node

variable [LinearOrder K]

/-! ## Searches in an internal node -/

/-- `while (!less(k, keys[i])) i++`, with `fuel` keys from `i` on; `none` stands for a read at `size - 1`. -/
def scanFirst (keys : Nat → K) (k : K) : Nat → Nat → Option Nat
  | 0, _ => none
  | fuel + 1, i => if k < keys i then some i else scanFirst keys k fuel (i + 1)

/-- `while (i < header::size-1 && !less(k, keys[i])) i++`, with `fuel` keys from `i` on. -/
def scanSecond (keys : Nat → K) (k : K) : Nat → Nat → Nat
  | 0, i => i
  | fuel + 1, i => if k < keys i then i else scanSecond keys k fuel (i + 1)

/-- `node::find`. -/
def find (size : Nat) (keys : Nat → K) (k : K) (i : Nat) : Option Nat :=
  if size = 1 then some 0
  else
    let mid := (size - 1) / 2
    if size - 1 ≤ mid then none
    else if k < keys mid then scanFirst keys k (size - 1 - i) i
    else some (scanSecond keys k (size - 1 - max i (mid + 1)) (max i (mid + 1)))

/-- The `size - 1` keys of a node are strictly sorted. -/
def SortedKeys (size : Nat) (keys : Nat → K) : Prop :=
  ∀ i j, i < j → j + 1 < size → keys i < keys j

/-- The child for a key: all keys before it are at most the key, and the one after it is larger. -/
structure Position (size : Nat) (keys : Nat → K) (k : K) (i : Nat) : Prop where
  lt_size : i < size
  before : ∀ j < i, keys j ≤ k
  after : ∀ j, i ≤ j → j + 1 < size → k < keys j

section

variable {size i : Nat} {keys : Nat → K} {k : K}

/-- The search without a bound. -/
theorem scanFirst_spec (hstop : ∃ j, i ≤ j ∧ j + 1 < size ∧ k < keys j) :
    ∃ j, scanFirst keys k (size - 1 - i) i = some j ∧ i ≤ j ∧ j + 1 < size ∧ k < keys j ∧
      ∀ l, i ≤ l → l < j → keys l ≤ k := by
  obtain ⟨fuel, hfuel⟩ : ∃ fuel, fuel = size - 1 - i := ⟨_, rfl⟩
  induction fuel generalizing i with
  | zero =>
      obtain ⟨j, hj, hsize, _⟩ := hstop
      omega
  | succ fuel ih =>
      rw [← hfuel, scanFirst]
      by_cases hlt : k < keys i
      · rw [if_pos hlt]
        exact ⟨i, rfl, le_rfl, by omega, hlt, fun l hl hl' => absurd hl' (by omega)⟩
      · obtain ⟨j, hj, hsize, hkey⟩ := hstop
        have hne : i ≠ j := fun heq => hlt (heq ▸ hkey)
        obtain ⟨j', hscan, hle, hsize', hkey', hbefore⟩ := ih (i := i + 1) ⟨j, by omega, hsize, hkey⟩ (by omega)
        rw [if_neg hlt, show fuel = size - 1 - (i + 1) by omega]
        refine ⟨j', hscan, by omega, hsize', hkey', fun l hl hl' => ?_⟩
        by_cases heq : l = i
        · rw [heq]
          exact not_lt.mp hlt
        · exact hbefore l (by omega) hl'

/-- The search with a bound. -/
theorem scanSecond_spec (keys : Nat → K) (k : K) (hi : i < size) :
    i ≤ scanSecond keys k (size - 1 - i) i ∧ scanSecond keys k (size - 1 - i) i < size ∧
      (∀ l, i ≤ l → l < scanSecond keys k (size - 1 - i) i → keys l ≤ k) ∧
      (scanSecond keys k (size - 1 - i) i + 1 < size → k < keys (scanSecond keys k (size - 1 - i) i)) := by
  obtain ⟨fuel, hfuel⟩ : ∃ fuel, fuel = size - 1 - i := ⟨_, rfl⟩
  induction fuel generalizing i with
  | zero =>
      rw [← hfuel, scanSecond]
      exact ⟨le_rfl, hi, fun l hl hl' => absurd hl' (by omega), fun hlt => absurd hlt (by omega)⟩
  | succ fuel ih =>
      rw [← hfuel, scanSecond]
      by_cases hlt : k < keys i
      · rw [if_pos hlt]
        exact ⟨le_rfl, hi, fun l hl hl' => absurd hl' (by omega), fun _ => hlt⟩
      · obtain ⟨hle, hsize, hbefore, hafter⟩ := ih (i := i + 1) (by omega) (by omega)
        rw [show size - 1 - (i + 1) = fuel by omega] at hle hsize hbefore hafter
        rw [if_neg hlt]
        refine ⟨by omega, hsize, fun l hl hl' => ?_, hafter⟩
        by_cases heq : l = i
        · rw [heq]
          exact not_lt.mp hlt
        · exact hbefore l (by omega) hl'

/-- The keys after a larger key are larger. -/
theorem SortedKeys.position (h : SortedKeys size keys) (hi : i < size) (hbefore : ∀ j < i, keys j ≤ k)
    (hafter : i + 1 < size → k < keys i) : Position size keys k i := by
  refine ⟨hi, hbefore, fun j hj hsize => ?_⟩
  by_cases heq : i = j
  · rw [← heq]
    exact hafter (by omega)
  · exact (hafter (by omega)).trans (h i j (by omega) hsize)

/-- The search in a node, from any position on that the key does not lie before. It reads keys of the node only. -/
theorem find_spec (hsorted : SortedKeys size keys) (hi : i < size) (hbefore : ∀ j < i, keys j ≤ k) :
    ∃ j, find size keys k i = some j ∧ i ≤ j ∧ Position size keys k j := by
  rw [find]
  by_cases hone : size = 1
  · rw [if_pos hone]
    exact ⟨0, rfl, by omega, hsorted.position (by omega) (fun j hj => absurd hj (Nat.not_lt_zero j))
      fun hlt => absurd hlt (by omega)⟩
  · have hmid : ¬ size - 1 ≤ (size - 1) / 2 := by omega
    rw [if_neg hone]
    simp only [if_neg hmid]
    by_cases hlt : k < keys ((size - 1) / 2)
    · have hle : i ≤ (size - 1) / 2 := by
        by_contra hgt
        exact absurd (hbefore _ (not_le.mp hgt)) (not_le.mpr hlt)
      have hstop : ∃ j, i ≤ j ∧ j + 1 < size ∧ k < keys j := ⟨(size - 1) / 2, hle, by omega, hlt⟩
      obtain ⟨j, hscan, hij, hsize, hkey, hbetween⟩ := scanFirst_spec hstop
      rw [if_pos hlt]
      refine ⟨j, hscan, hij, hsorted.position (by omega) (fun l hl => ?_) fun _ => hkey⟩
      by_cases hli : l < i
      · exact hbefore l hli
      · exact hbetween l (by omega) hl
    · have hlow : ∀ l ≤ (size - 1) / 2, keys l ≤ k := by
        intro l hl
        refine le_trans ?_ (not_lt.mp hlt)
        by_cases heq : l = (size - 1) / 2
        · rw [heq]
        · exact (hsorted l _ (by omega) (by omega)).le
      obtain ⟨hle, hsize, hbetween, hafter⟩ :=
        scanSecond_spec keys k (show max i ((size - 1) / 2 + 1) < size by omega)
      rw [if_neg hlt]
      refine ⟨_, rfl, by omega, hsorted.position hsize (fun l hl => ?_) hafter⟩
      by_cases hli : l < i
      · exact hbefore l hli
      · by_cases hlm : l ≤ (size - 1) / 2
        · exact hlow l hlm
        · exact hbetween l (by omega) hl

/-- A key has one position. -/
theorem Position.unique {i j : Nat} (hi : Position size keys k i) (hj : Position size keys k j) : i = j := by
  have hle : ∀ {i j}, Position size keys k i → Position size keys k j → i ≤ j := by
    intro i j hi hj
    by_contra hlt
    exact absurd (hi.before j (by omega)) (not_le.mpr (hj.after j le_rfl (by have := hi.lt_size; omega)))
  exact le_antisymm (hle hi hj) (hle hj hi)

/-- The loop that `find` takes the place of, `while (i < header::size-1 && !less(k, keys[i])) i++`. -/
def findLinear (size : Nat) (keys : Nat → K) (k : K) (i : Nat) : Nat := scanSecond keys k (size - 1 - i) i

/-- The plain loop ends at the position of the key. -/
theorem findLinear_spec (hsorted : SortedKeys size keys) (hi : i < size) (hbefore : ∀ j < i, keys j ≤ k) :
    Position size keys k (findLinear size keys k i) := by
  obtain ⟨-, hsize, hbetween, hafter⟩ := scanSecond_spec keys k hi
  refine hsorted.position hsize (fun l hl => ?_) hafter
  by_cases hli : l < i
  · exact hbefore l hli
  · exact hbetween l (not_lt.mp hli) hl

/-- From every index before which no key is larger, `find` has the result of the plain loop, and reads the `size - 1`
keys of the node only: it does not fail, and the result is the same for any others after them. -/
theorem find_eq_findLinear (hsize : 1 ≤ size) (hsorted : SortedKeys size keys) (hi : i ≤ size - 1)
    (hbefore : ∀ j < i, keys j ≤ k) :
    find size keys k i = some (findLinear size keys k i) ∧
      ∀ keys' : Nat → K, (∀ j < size - 1, keys' j = keys j) → find size keys' k i = find size keys k i := by
  have hfind : ∀ keys' : Nat → K, (∀ j < size - 1, keys' j = keys j) →
      find size keys' k i = some (findLinear size keys k i) := by
    intro keys' heq
    have hsorted' : SortedKeys size keys' := fun a b hab hb => by
      rw [heq a (by omega), heq b (by omega)]
      exact hsorted a b hab hb
    have hbefore' : ∀ j < i, keys' j ≤ k := fun j hj => by
      rw [heq j (by omega)]
      exact hbefore j hj
    obtain ⟨j, hfind, -, hpos⟩ := find_spec hsorted' (by omega) hbefore'
    have hpos' : Position size keys k j := by
      have hlt := hpos.lt_size
      refine ⟨hlt, fun l hl => ?_, fun l hl hl' => ?_⟩
      · rw [← heq l (by omega)]
        exact hpos.before l hl
      · rw [← heq l (by omega)]
        exact hpos.after l hl hl'
    rw [hfind, hpos'.unique (findLinear_spec hsorted (by omega) hbefore)]
  have hself := hfind keys fun _ _ => rfl
  exact ⟨hself, fun keys' heq => (hfind keys' heq).trans hself.symm⟩

/-- The keys 10, 20 and 30, from the index that the search for 10 ends at. -/
theorem find_eq_findLinear_values :
    find 4 (fun j => 10 * (j + 1)) 25 1 = some (findLinear 4 (fun j => 10 * (j + 1)) 25 1) ∧
      findLinear 4 (fun j => 10 * (j + 1)) 25 1 = 2 :=
  ⟨(find_eq_findLinear (by decide) (fun i j hij _ => by show 10 * (i + 1) < 10 * (j + 1); omega) (by decide)
    fun j hj => by show 10 * (j + 1) ≤ 25; omega).1, by decide⟩

end

/-! ## Searches in a leaf -/

/-- `while (i < header::size && less(keyvals[i].key, k)) i++`, with the entries from `i` on. -/
def prevFrom (k : K) : List (KV K V) → Nat → Nat
  | [], i => i
  | kv :: rest, i => if kv.key < k then prevFrom k rest (i + 1) else i

/-- `leaf::prev`. -/
def prev (keyvals : List (KV K V)) (k : K) (i : Nat) : Nat :=
  prevFrom k (keyvals.drop i) i

/-- Strictly sorted entries. -/
def Sorted (keyvals : List (KV K V)) : Prop :=
  keyvals.Pairwise fun a b => a.key < b.key

/-- The search from an index on. -/
theorem prevFrom_spec {keyvals : List (KV K V)} {k : K} (hsorted : Sorted keyvals) (i : Nat) :
    ∃ j ≤ keyvals.length, prevFrom k keyvals i = i + j ∧ (∀ kv ∈ keyvals.take j, kv.key < k) ∧
      ∀ kv ∈ keyvals.drop j, k ≤ kv.key := by
  induction keyvals generalizing i with
  | nil => exact ⟨0, le_rfl, rfl, fun kv hkv => (by cases hkv), fun kv hkv => by cases hkv⟩
  | cons first rest ih =>
      obtain ⟨hfirst, hrest⟩ := List.pairwise_cons.mp hsorted
      rw [prevFrom]
      by_cases hlt : first.key < k
      · obtain ⟨j, hj, heq, hbefore, hafter⟩ := ih hrest (i + 1)
        rw [if_pos hlt, heq]
        refine ⟨j + 1, Nat.succ_le_succ hj, by omega, ?_, hafter⟩
        rw [List.take_succ_cons]
        exact List.forall_mem_cons.mpr ⟨hlt, hbefore⟩
      · rw [if_neg hlt]
        have hle : k ≤ first.key := not_lt.mp hlt
        exact ⟨0, Nat.zero_le _, rfl, fun kv hkv => (by cases hkv),
          List.forall_mem_cons.mpr ⟨hle, fun kv hkv => hle.trans (hfirst kv hkv).le⟩⟩

/-! ## The search-tree invariant -/

/-- The invariant of a search tree: the entries of a leaf and the keys of an internal node are strictly sorted, and
every key of an internal node is larger than the keys of the entries before it, and at most those of the entries after
it. -/
def SearchTree : Node K V → Prop
  | .leaf _ keyvals => Sorted keyvals
  | .node _ size keys children =>
      0 < size ∧ SortedKeys size keys ∧ ∀ i < size, SearchTree (children i) ∧
        ∀ kv ∈ (children i).entries, Position size keys kv.key i

end Verlib.BTree
