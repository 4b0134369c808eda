import Mathlib.Data.List.Basic
import Mathlib.Data.List.Pairwise
import Mathlib.Order.Nat

/-!
# The nodes of a hash bucket

A bucket points to a node, which holds the entries of all keys of the bucket. Nodes are not written after
they have been built: an update copies the node. There are five kinds of nodes, each with its own pool;
`insertToNode`, `updateNode`, `removeFromNode`, `retireNode` and `destructNode` select the kind from the
number of entries. The entries of a big node lie elsewhere than those of the other four, so to read them one
has to know the kind: `Node.regular` and `Node.big` fail on the wrong one.
-/

namespace Verlib.HashBlock

/-- An entry of a node. -/
structure KV (K V : Type) where
  key : K
  value : V
  deriving DecidableEq

/-- The pools that nodes are allocated from, one for each type of nodes. -/
inductive Pool where
  | node1 | node3 | node7 | node31 | big
  deriving DecidableEq

/-- The number of entries that a node of a type has room for; a big node is not bounded. -/
def Pool.size : Pool → Option Nat
  | .node1 => some 1
  | .node3 => some 3
  | .node7 => some 7
  | .node31 => some 31
  | .big => none

/-- A node: the pool that it was allocated from, the number of its entries, and the entries. -/
structure Node (K V : Type) where
  pool : Pool
  cnt : Nat
  entries : List (KV K V)
  deriving DecidableEq

/-- `KeyEqual` and `Hash`: an equivalence of the keys, and a hash that does not tell equal keys apart. -/
structure Keys (K : Type) where
  keyEqual : K → K → Bool
  hash : K → Nat
  refl : ∀ k, keyEqual k k = true
  symm : ∀ k k', keyEqual k k' = true → keyEqual k' k = true
  trans : ∀ k k' k'', keyEqual k k' = true → keyEqual k' k'' = true → keyEqual k k'' = true
  hash_eq : ∀ k k', keyEqual k k' = true → hash k = hash k'

variable {K V : Type}

/-- `entries` of a `Node<Size>`. -/
def Node.regular (n : Node K V) : Option (List (KV K V)) :=
  if n.pool = .big then none else some n.entries

/-- `((BigNode*) this)->entries`. -/
def Node.big (n : Node K V) : Option (List (KV K V)) :=
  if n.pool = .big then some n.entries else none

section Functions

variable (E : Keys K)

/-- The index of a key among the first `cnt` entries; `none` is the code's `-1`. -/
def findInRange (entries : List (KV K V)) (cnt : Nat) (k : K) : Option Nat :=
  (entries.take cnt).findIdx? fun e => E.keyEqual e.key k

/-- Copy the entries, and add one. -/
def copyAndInsert (entries : List (KV K V)) (cnt : Nat) (k : K) (v : V) : List (KV K V) :=
  entries.take cnt ++ [⟨k, v⟩]

/-- Copy the entries, and apply `f` to the value of the key; without the key the loop leaves the array. -/
def copyAndUpdate (k : K) (f : Option V → V) : List (KV K V) → Option (List (KV K V))
  | [] => none
  | e :: es =>
      if E.keyEqual k e.key then some (⟨e.key, f (some e.value)⟩ :: es)
      else (copyAndUpdate k f es).map (e :: ·)

/-- Copy the entries without the one of the key; without the key the loop leaves the array. -/
def copyAndRemove (k : K) : List (KV K V) → Option (List (KV K V))
  | [] => none
  | e :: es => if E.keyEqual k e.key then some es else (copyAndRemove k es).map (e :: ·)

/-- `Node::find_index`; the outer `none` is a read of the wrong kind of entries. -/
def Node.findIndex (n : Node K V) (k : K) : Option (Option Nat) :=
  if n.cnt ≤ 31 then n.regular.map fun entries => findInRange E entries n.cnt k
  else n.big.map fun entries => findInRange E entries n.cnt k

/-- `Node::find`; the outer `none` is a read of the wrong kind of entries, or outside of the array. -/
def Node.find (n : Node K V) (k : K) : Option (Option V) :=
  if n.cnt ≤ 31 then do
    let entries ← n.regular
    let first ← entries[0]?
    if E.keyEqual first.key k then
      some (some first.value)
    else match findInRange E (entries.drop 1) (n.cnt - 1) k with
      | none => some none
      | some i => entries[i]?.map fun e => some e.value
  else do
    let entries ← n.big
    match findInRange E entries n.cnt k with
    | none => some none
    | some i => entries[i]?.map fun e => some e.value

/-- The constructor of `Node` that copies and inserts. -/
def nodeInsert (pool : Pool) (old : Option (Node K V)) (k : K) (v : V) : Option (Node K V) :=
  match old with
  | none => some ⟨pool, 1, copyAndInsert [] 0 k v⟩
  | some n => n.regular.map fun entries => ⟨pool, n.cnt + 1, copyAndInsert entries n.cnt k v⟩

/-- The constructor of `Node` that copies and updates. -/
def nodeUpdate (pool : Pool) (old : Node K V) (k : K) (f : Option V → V) : Option (Node K V) := do
  let entries ← old.regular
  let entries ← copyAndUpdate E k f (entries.take old.cnt)
  some ⟨pool, old.cnt, entries⟩

/-- The constructor of `Node` that copies and removes; with 31 entries left the old node is a big one. -/
def nodeRemove (pool : Pool) (old : Node K V) (k : K) : Option (Node K V) := do
  let cnt := old.cnt - 1
  let oldEntries := if cnt = 31 then old.big else old.regular
  let entries ← oldEntries
  let entries ← copyAndRemove E k (entries.take (cnt + 1))
  some ⟨pool, cnt, entries⟩

/-- The constructor of `BigNode` that copies and inserts. -/
def bigNodeInsert (old : Node K V) (k : K) (v : V) : Option (Node K V) := do
  let oldEntries := if old.cnt = 31 then old.regular else old.big
  let entries ← oldEntries
  some ⟨.big, old.cnt + 1, copyAndInsert entries old.cnt k v⟩

/-- The constructor of `BigNode` that copies and updates. -/
def bigNodeUpdate (old : Node K V) (k : K) (f : Option V → V) : Option (Node K V) := do
  let entries ← old.big
  let entries ← copyAndUpdate E k f (entries.take old.cnt)
  some ⟨.big, old.cnt, entries⟩

/-- The constructor of `BigNode` that copies and removes. -/
def bigNodeRemove (old : Node K V) (k : K) : Option (Node K V) := do
  let cnt := old.cnt - 1
  let entries ← old.big
  let entries ← copyAndRemove E k (entries.take (cnt + 1))
  some ⟨.big, cnt, entries⟩

/-- `insert_to_node` -/
def insertToNode (old : Option (Node K V)) (k : K) (v : V) : Option (Node K V) :=
  match old with
  | none => nodeInsert .node1 none k v
  | some n =>
      if n.cnt < 3 then nodeInsert .node3 (some n) k v
      else if n.cnt < 7 then nodeInsert .node7 (some n) k v
      else if n.cnt < 31 then nodeInsert .node31 (some n) k v
      else bigNodeInsert n k v

/-- `update_node` -/
def updateNode (old : Node K V) (k : K) (f : Option V → V) : Option (Node K V) :=
  if old.cnt = 1 then nodeUpdate E .node1 old k f
  else if old.cnt ≤ 3 then nodeUpdate E .node3 old k f
  else if old.cnt ≤ 7 then nodeUpdate E .node7 old k f
  else if old.cnt ≤ 31 then nodeUpdate E .node31 old k f
  else bigNodeUpdate E old k f

/-- `remove_from_node`; the inner `none` is the null pointer. -/
def removeFromNode (old : Node K V) (k : K) : Option (Option (Node K V)) :=
  if old.cnt = 1 then some none
  else if old.cnt = 2 then (nodeRemove E .node1 old k).map some
  else if old.cnt ≤ 4 then (nodeRemove E .node3 old k).map some
  else if old.cnt ≤ 8 then (nodeRemove E .node7 old k).map some
  else if old.cnt ≤ 32 then (nodeRemove E .node31 old k).map some
  else (bigNodeRemove E old k).map some

end Functions

/-- The pool that is selected for a node to be given back. -/
def poolOf (cnt : Nat) : Pool :=
  if cnt = 1 then .node1
  else if cnt ≤ 3 then .node3
  else if cnt ≤ 7 then .node7
  else if cnt ≤ 31 then .node31
  else .big

/-- `retire_node`: the pool that a node is retired to. -/
def retireNode (old : Node K V) : Pool :=
  poolOf old.cnt

/-- `destruct_node`: the pool that a node is destructed through. -/
def destructNode (old : Node K V) : Pool :=
  poolOf old.cnt

/-! ## What entries say -/

section Entries

variable (E : Keys K)

/-- The value of a key. -/
def lookup (es : List (KV K V)) (k : K) : Option V :=
  (es.find? fun e => E.keyEqual e.key k).map KV.value

/-- Every key occurs at most once. -/
def Distinct (es : List (KV K V)) : Prop :=
  es.Pairwise fun a b => E.keyEqual a.key b.key = false

variable {E}

/-- Keys that are equal to the same key are equal. -/
theorem Keys.euclid {k k' k'' : K} (h : E.keyEqual k k' = true) (h' : E.keyEqual k'' k' = true) :
    E.keyEqual k k'' = true :=
  E.trans k k' k'' h (E.symm k'' k' h')

/-- Equal keys are equal to the same keys. -/
theorem Keys.congr {k k' : K} (h : E.keyEqual k k' = true) (l : K) : E.keyEqual l k = E.keyEqual l k' := by
  rw [Bool.eq_iff_iff]
  exact ⟨fun hl => E.trans l k k' hl h, fun hl => E.trans l k' k hl (E.symm k k' h)⟩

/-- Equality of keys does not depend on their order. -/
theorem Keys.comm (k k' : K) : E.keyEqual k k' = E.keyEqual k' k := by
  rw [Bool.eq_iff_iff]
  exact ⟨E.symm k k', E.symm k' k⟩

/-- An entry is the first of its list with an equal key, or the search goes on. -/
theorem lookup_cons (e : KV K V) (es : List (KV K V)) (k : K) :
    lookup E (e :: es) k = if E.keyEqual e.key k then some e.value else lookup E es k := by
  unfold lookup
  rw [List.find?_cons]
  cases E.keyEqual e.key k with
  | true => rfl
  | false => rfl

/-- A key has no value if no entry has an equal key. -/
theorem lookup_eq_none_iff {es : List (KV K V)} {k : K} :
    lookup E es k = none ↔ ∀ e ∈ es, E.keyEqual e.key k = false := by
  simp [lookup]

/-- A new entry at the end is found if its key had no value. -/
theorem lookup_copyAndInsert {es : List (KV K V)} {k : K} (hk : lookup E es k = none) (v : V) (k' : K) :
    lookup E (es ++ [⟨k, v⟩]) k' = if E.keyEqual k k' then some v else lookup E es k' := by
  induction es with
  | nil =>
      rw [List.nil_append, lookup_cons]
  | cons e es ih =>
      rw [lookup_cons] at hk
      split at hk
      · cases hk
      · rename_i he
        rw [List.cons_append, lookup_cons, lookup_cons, ih hk]
        by_cases hk' : E.keyEqual k k' = true
        · have hne : ¬ E.keyEqual e.key k' = true := fun h => he (Keys.euclid h hk')
          rw [if_pos hk', if_neg hne, if_pos hk']
        · rw [if_neg hk', if_neg hk']

/-- A new key keeps the keys distinct. -/
theorem distinct_copyAndInsert {es : List (KV K V)} {k : K} (hd : Distinct E es)
    (hk : lookup E es k = none) (v : V) : Distinct E (es ++ [⟨k, v⟩]) := by
  refine List.pairwise_append.mpr ⟨hd, List.pairwise_singleton _ _, fun a ha b hb => ?_⟩
  rw [List.mem_singleton.mp hb]
  exact lookup_eq_none_iff.mp hk a ha

/-- Changing the value of a key that is there. -/
theorem copyAndUpdate_spec {es : List (KV K V)} {k : K} {v : V} (hd : Distinct E es)
    (hk : lookup E es k = some v) (f : Option V → V) :
    ∃ es', copyAndUpdate E k f es = some es' ∧ es'.map KV.key = es.map KV.key ∧
      ∀ k', lookup E es' k' = if E.keyEqual k k' then some (f (some v)) else lookup E es k' := by
  induction es with
  | nil => cases hk
  | cons e es ih =>
      obtain ⟨hfirst, hd⟩ := List.pairwise_cons.mp hd
      rw [lookup_cons] at hk
      unfold copyAndUpdate
      rw [Keys.comm k]
      split at hk
      · rename_i he
        cases hk
        rw [if_pos he]
        refine ⟨_, rfl, rfl, fun k' => ?_⟩
        rw [lookup_cons, lookup_cons, Keys.comm, Keys.congr he, Keys.comm]
        split
        · rfl
        · rfl
      · rename_i he
        rw [if_neg he]
        obtain ⟨es', hes', hkeys, hlook⟩ := ih hd hk
        rw [hes']
        refine ⟨e :: es', rfl, by rw [List.map_cons, List.map_cons, hkeys], fun k' => ?_⟩
        rw [lookup_cons, lookup_cons, hlook k']
        by_cases hk' : E.keyEqual k k' = true
        · have hne : ¬ E.keyEqual e.key k' = true := fun h => he (Keys.euclid h hk')
          rw [if_pos hk', if_neg hne, if_pos hk']
        · rw [if_neg hk', if_neg hk']

/-- Removing a key that is there. -/
theorem copyAndRemove_spec {es : List (KV K V)} {k : K} {v : V} (hd : Distinct E es)
    (hk : lookup E es k = some v) :
    ∃ es', copyAndRemove E k es = some es' ∧ es'.length + 1 = es.length ∧ Distinct E es' ∧
      (∀ e ∈ es', e ∈ es) ∧
      ∀ k', lookup E es' k' = if E.keyEqual k k' then none else lookup E es k' := by
  induction es with
  | nil => cases hk
  | cons e es ih =>
      obtain ⟨hfirst, hd⟩ := List.pairwise_cons.mp hd
      rw [lookup_cons] at hk
      unfold copyAndRemove
      rw [Keys.comm k]
      split at hk
      · rename_i he
        rw [if_pos he]
        refine ⟨es, rfl, rfl, hd, fun e' he' => List.mem_cons_of_mem _ he', fun k' => ?_⟩
        rw [lookup_cons]
        have hek : E.keyEqual e.key k' = E.keyEqual k k' := by
          rw [Keys.comm, Keys.congr he, Keys.comm]
        rw [hek]
        split
        · rename_i hk'
          refine lookup_eq_none_iff.mpr fun e' he' => ?_
          rw [← hfirst e' he', Keys.comm e.key, Keys.congr (hek.trans hk')]
        · rfl
      · rename_i he
        rw [if_neg he]
        obtain ⟨es', hes', hlen, hd', hsub, hlook⟩ := ih hd hk
        rw [hes']
        refine ⟨e :: es', rfl, by rw [List.length_cons, List.length_cons, hlen], ?_, ?_, fun k' => ?_⟩
        · exact List.pairwise_cons.mpr ⟨fun e' he' => hfirst e' (hsub e' he'), hd'⟩
        · intro e' he'
          cases List.mem_cons.mp he' with
          | inl heq => exact heq ▸ List.mem_cons_self
          | inr hmem => exact List.mem_cons_of_mem _ (hsub e' hmem)
        · rw [lookup_cons, lookup_cons, hlook k']
          by_cases hk' : E.keyEqual k k' = true
          · have hne : ¬ E.keyEqual e.key k' = true := fun h => he (Keys.euclid h hk')
            rw [if_pos hk', if_neg hne, if_pos hk']
          · rw [if_neg hk', if_neg hk']

/-- Entries with the same keys are distinct together. -/
theorem distinct_of_map_key {es es' : List (KV K V)} (hkeys : es'.map KV.key = es.map KV.key)
    (hd : Distinct E es) : Distinct E es' := by
  have hmap : ∀ l : List (KV K V), Distinct E l ↔
      (l.map KV.key).Pairwise (fun a b => E.keyEqual a b = false) := by
    intro l
    unfold Distinct
    rw [List.pairwise_map]
  rw [hmap, hkeys, ← hmap]
  exact hd

end Entries

/-! ## Nodes that are well formed -/

section Ok

variable (E : Keys K)

/-- A node holds as many entries as it says, at least one, with distinct keys, and it was allocated from the
pool that is selected for that number. -/
structure Node.Ok (n : Node K V) : Prop where
  length : n.entries.length = n.cnt
  pos : 1 ≤ n.cnt
  pool : n.pool = poolOf n.cnt
  distinct : Distinct E n.entries

variable {E}

/-- The pools of the regular nodes. -/
theorem poolOf_eq_big_iff {cnt : Nat} : poolOf cnt = .big ↔ 31 < cnt := by
  unfold poolOf
  split
  · simp; omega
  · split
    · simp; omega
    · split
      · simp; omega
      · split
        · simp; omega
        · simp; omega

/-- A node has room for what it holds. -/
theorem Node.Ok.fits {n : Node K V} (hn : n.Ok E) : ∀ s, n.pool.size = some s → n.entries.length ≤ s := by
  rw [hn.length, hn.pool]
  have hpos := hn.pos
  unfold poolOf
  intro s hs
  split at hs
  · cases hs; omega
  · split at hs
    · cases hs; omega
    · split at hs
      · cases hs; omega
      · split at hs
        · cases hs; omega
        · cases hs

/-- The entries of a node of up to 31 entries. -/
theorem Node.Ok.regular {n : Node K V} (hn : n.Ok E) (hcnt : n.cnt ≤ 31) : n.regular = some n.entries := by
  unfold Node.regular
  rw [if_neg]
  rw [hn.pool, poolOf_eq_big_iff]
  omega

/-- The entries of a node of more than 31 entries. -/
theorem Node.Ok.big {n : Node K V} (hn : n.Ok E) (hcnt : 31 < n.cnt) : n.big = some n.entries := by
  unfold Node.big
  rw [if_pos]
  rw [hn.pool, poolOf_eq_big_iff]
  exact hcnt

/-- All the entries of a node are in use. -/
theorem Node.Ok.take {n : Node K V} (hn : n.Ok E) : n.entries.take n.cnt = n.entries := by
  rw [← hn.length, List.take_length]

/-- `find_index` finds the first entry with an equal key. -/
theorem Node.Ok.findIndex {n : Node K V} (hn : n.Ok E) (k : K) :
    n.findIndex E k = some (n.entries.findIdx? fun e => E.keyEqual e.key k) := by
  unfold Node.findIndex findInRange
  split
  · rename_i hcnt
    rw [hn.regular hcnt, Option.map_some, hn.take]
  · rename_i hcnt
    rw [hn.big (by omega), Option.map_some, hn.take]

/-- `find_index` fails on the keys without a value. -/
theorem Node.Ok.findIndex_eq_none_iff {n : Node K V} (hn : n.Ok E) (k : K) :
    n.findIndex E k = some none ↔ lookup E n.entries k = none := by
  rw [hn.findIndex, lookup_eq_none_iff]
  simp

/-- A node is retired to the pool that it was allocated from. -/
theorem Node.Ok.retireNode {n : Node K V} (hn : n.Ok E) : retireNode n = n.pool :=
  hn.pool.symm

/-- A node is destructed through the pool that it was allocated from. -/
theorem Node.Ok.destructNode {n : Node K V} (hn : n.Ok E) : destructNode n = n.pool :=
  hn.pool.symm

/-- The first node of a bucket. -/
theorem insertToNode_none (k : K) (v : V) :
    ∃ n, insertToNode none k v = some n ∧ n.Ok E ∧
      ∀ k', lookup E n.entries k' = if E.keyEqual k k' then some v else none := by
  have hok : Node.Ok E (⟨.node1, 1, [⟨k, v⟩]⟩ : Node K V) :=
    ⟨rfl, le_rfl, rfl, List.pairwise_singleton _ _⟩
  refine ⟨_, rfl, hok, fun k' => ?_⟩
  exact lookup_cons _ _ _

/-- `insert_to_node` builds a well-formed node with one more key. -/
theorem insertToNode_some {n : Node K V} (hn : n.Ok E) {k : K} (hk : lookup E n.entries k = none) (v : V) :
    ∃ n', insertToNode (some n) k v = some n' ∧ n'.Ok E ∧
      ∀ k', lookup E n'.entries k' = if E.keyEqual k k' then some v else lookup E n.entries k' := by
  have hok : ∀ pool, pool = poolOf (n.cnt + 1) → Node.Ok E ⟨pool, n.cnt + 1, n.entries ++ [⟨k, v⟩]⟩ := by
    intro pool hpool
    refine ⟨?_, Nat.le_add_left 1 n.cnt, hpool, distinct_copyAndInsert hn.distinct hk v⟩
    show (n.entries ++ [(⟨k, v⟩ : KV K V)]).length = n.cnt + 1
    rw [List.length_append, hn.length]
    rfl
  have hpos := hn.pos
  have hregular : ∀ pool, n.cnt ≤ 31 →
      nodeInsert pool (some n) k v = some ⟨pool, n.cnt + 1, n.entries ++ [⟨k, v⟩]⟩ := by
    intro pool hcnt
    unfold nodeInsert copyAndInsert
    simp only [hn.regular hcnt, Option.map_some, hn.take]
  have hbig : 31 ≤ n.cnt → bigNodeInsert n k v = some ⟨.big, n.cnt + 1, n.entries ++ [⟨k, v⟩]⟩ := by
    intro hcnt
    unfold bigNodeInsert copyAndInsert
    split
    · rename_i heq
      simp only [hn.regular heq.le, Option.bind_eq_bind, Option.bind_some, hn.take]
    · simp only [hn.big (by omega), Option.bind_eq_bind, Option.bind_some, hn.take]
  have hlook := lookup_copyAndInsert hk v
  unfold insertToNode
  simp only
  split
  · exact ⟨_, hregular _ (by omega), hok _ (by unfold poolOf; grind), hlook⟩
  · split
    · exact ⟨_, hregular _ (by omega), hok _ (by unfold poolOf; grind), hlook⟩
    · split
      · exact ⟨_, hregular _ (by omega), hok _ (by unfold poolOf; grind), hlook⟩
      · exact ⟨_, hbig (by omega), hok _ (by unfold poolOf; grind), hlook⟩

/-- `update_node` builds a well-formed node with the same keys. -/
theorem updateNode_spec {n : Node K V} (hn : n.Ok E) {k : K} {v : V} (hk : lookup E n.entries k = some v)
    (f : Option V → V) :
    ∃ n', updateNode E n k f = some n' ∧ n'.Ok E ∧
      ∀ k', lookup E n'.entries k' = if E.keyEqual k k' then some (f (some v)) else lookup E n.entries k' := by
  obtain ⟨es, hes, hkeys, hlook⟩ := copyAndUpdate_spec hn.distinct hk f
  have hok : ∀ pool, pool = poolOf n.cnt → Node.Ok E ⟨pool, n.cnt, es⟩ := by
    intro pool hpool
    refine ⟨?_, hn.pos, hpool, distinct_of_map_key hkeys hn.distinct⟩
    have hlen := congrArg List.length hkeys
    rw [List.length_map, List.length_map] at hlen
    exact hlen.trans hn.length
  have hregular : ∀ pool, n.cnt ≤ 31 → nodeUpdate E pool n k f = some ⟨pool, n.cnt, es⟩ := by
    intro pool hcnt
    unfold nodeUpdate
    simp only [hn.regular hcnt, Option.bind_eq_bind, Option.bind_some, hn.take, hes]
  have hbig : 31 < n.cnt → bigNodeUpdate E n k f = some ⟨.big, n.cnt, es⟩ := by
    intro hcnt
    unfold bigNodeUpdate
    simp only [hn.big hcnt, Option.bind_eq_bind, Option.bind_some, hn.take, hes]
  unfold updateNode
  split
  · exact ⟨_, hregular _ (by omega), hok _ (by unfold poolOf; grind), hlook⟩
  · split
    · exact ⟨_, hregular _ (by omega), hok _ (by unfold poolOf; grind), hlook⟩
    · split
      · exact ⟨_, hregular _ (by omega), hok _ (by unfold poolOf; grind), hlook⟩
      · split
        · exact ⟨_, hregular _ (by omega), hok _ (by unfold poolOf; grind), hlook⟩
        · exact ⟨_, hbig (by omega), hok _ (by unfold poolOf; grind), hlook⟩

/-- `remove_from_node` builds a well-formed node with one key less, or none for the last key. -/
theorem removeFromNode_spec {n : Node K V} (hn : n.Ok E) {k : K} {v : V}
    (hk : lookup E n.entries k = some v) :
    ∃ n', removeFromNode E n k = some n' ∧ (∀ m, n' = some m → m.Ok E) ∧
      ∀ k', (n'.bind fun m => lookup E m.entries k') =
        if E.keyEqual k k' then none else lookup E n.entries k' := by
  obtain ⟨es, hes, hlen, hd, _, hlook⟩ := copyAndRemove_spec hn.distinct hk
  have hcnt : es.length + 1 = n.cnt := hlen.trans hn.length
  have hok : 2 ≤ n.cnt → ∀ pool, pool = poolOf (n.cnt - 1) →
      ∀ m, some (⟨pool, n.cnt - 1, es⟩ : Node K V) = some m → m.Ok E := by
    intro htwo pool hpool m hm
    cases hm
    refine ⟨?_, ?_, hpool, hd⟩
    · show es.length = n.cnt - 1
      omega
    · show 1 ≤ n.cnt - 1
      omega
  have htake : n.entries.take (n.cnt - 1 + 1) = n.entries := by
    rw [Nat.sub_add_cancel hn.pos, hn.take]
  have hregular : ∀ pool, n.cnt ≤ 32 → nodeRemove E pool n k = some ⟨pool, n.cnt - 1, es⟩ := by
    intro pool hle
    unfold nodeRemove
    dsimp only
    split
    · simp only [hn.big (by omega), Option.bind_eq_bind, Option.bind_some, htake, hes]
    · simp only [hn.regular (by omega), Option.bind_eq_bind, Option.bind_some, htake, hes]
  have hbig : 32 < n.cnt → bigNodeRemove E n k = some ⟨.big, n.cnt - 1, es⟩ := by
    intro hlt
    unfold bigNodeRemove
    simp only [hn.big (by omega), Option.bind_eq_bind, Option.bind_some, htake, hes]
  unfold removeFromNode
  split
  · have hnil : es = [] := List.eq_nil_of_length_eq_zero (by omega)
    refine ⟨none, rfl, ?_, fun k' => ?_⟩
    · intro m hm
      cases hm
    · rw [← hlook k', hnil]
      rfl
  · split
    · rw [hregular _ (by omega)]
      exact ⟨_, rfl, hok (by omega) _ (by unfold poolOf; grind), hlook⟩
    · split
      · rw [hregular _ (by omega)]
        exact ⟨_, rfl, hok (by omega) _ (by unfold poolOf; grind), hlook⟩
      · split
        · rw [hregular _ (by omega)]
          exact ⟨_, rfl, hok (by omega) _ (by unfold poolOf; grind), hlook⟩
        · split
          · rw [hregular _ (by omega)]
            exact ⟨_, rfl, hok (by omega) _ (by unfold poolOf; grind), hlook⟩
          · rw [hbig (by omega)]
            exact ⟨_, rfl, hok (by omega) _ (by unfold poolOf; grind), hlook⟩

end Ok

end Verlib.HashBlock
