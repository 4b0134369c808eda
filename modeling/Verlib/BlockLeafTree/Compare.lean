import Verlib.BlockLeafTree.Runs
import Verlib.OrderedMap.Renaming

/-!
# The block-leaf tree under another order

`remove` of `blockleaftree/ordered_map.h` compares the keys by `Compare`, but the loop that copies a block up to the key
compares them by their `operator<`, here `opLess`. If the loop stops too early, it finds no key to leave out and copies
the whole block.
-/

namespace Verlib.BlockLeafTree

open ExternalTree OrderedMap

variable {K V : Type} [LinearOrder K]

/-- The loops of `remove` that copy a block and leave out the key. -/
def removeFromBy (opLess : K → K → Bool) (k : K) : List (KV K V) → Option (List (KV K V))
  | [] => none
  | kv :: rest =>
      if opLess kv.key k then (removeFromBy opLess k rest).map fun out => kv :: out
      else if equal kv.key k then some rest
      else some (kv :: rest)

/-- `remove`. -/
def removeBy (opLess : K → K → Bool) (t : ExtTree K (Leaf K V)) (k : K) : Option (ExtTree K (Leaf K V) × Bool) :=
  let loc := findLocation t k
  let ptr := loc.p ++ [loc.pLeft]
  if (findIn k loc.l.keyvals).isNone then some (t, false)
  else if 1 < loc.l.keyvals.length then do
    let keyvals ← removeFromBy opLess k loc.l.keyvals
    pure (store t ptr (.leaf ⟨false, keyvals⟩), true)
  else
    match loc.l.keyvals with
    | [] => none
    | kv :: _ => if equal kv.key k then (unlink t loc).map fun t' => (t', true) else some (t, true)

/-- An operation. -/
def performBy (opLess : K → K → Bool) (blockSize : Nat) (t : ExtTree K (Leaf K V)) :
    Op K V → Option (ExtTree K (Leaf K V) × Result V)
  | .insert k v => (insert blockSize t k v).map fun r => (r.1, .changed r.2)
  | .remove k => (removeBy opLess t k).map fun r => (r.1, .changed r.2)
  | .find k => some (t, .found (find t k))

/-- `operator<` puts the keys that `Compare` puts before `k` before it, and not `k` itself. -/
def StopsAt (opLess : K → K → Bool) (k : K) (keyvals : List (KV K V)) : Prop :=
  (∀ kv ∈ keyvals, kv.key < k → opLess kv.key k = true) ∧ opLess k k = false

/-- The copy of a block with another entry stops at the key that is removed. -/
def CopyStops (opLess : K → K → Bool) (t : ExtTree K (Leaf K V)) : Op K V → Prop
  | .remove k => (findIn k (findLocation t k).l.keyvals).isSome → 1 < (findLocation t k).l.keyvals.length →
      StopsAt opLess k (findLocation t k).l.keyvals
  | _ => True

/-! ## Copies of a block -/

section

variable {opLess : K → K → Bool} {keyvals : List (KV K V)} {k : K} {v : V}

/-- A copy that stops at the key. -/
theorem removeFromBy_stops (hsorted : Sorted keyvals) (hmem : ⟨k, v⟩ ∈ keyvals) (hstops : StopsAt opLess k keyvals) :
    removeFromBy opLess k keyvals = removeFrom k keyvals := by
  induction keyvals with
  | nil => rfl
  | cons kv rest ih =>
      obtain ⟨hkv, hrest⟩ := List.pairwise_cons.mp hsorted
      obtain ⟨hbefore, hself⟩ := hstops
      rw [List.forall_mem_cons] at hbefore
      rw [removeFromBy, removeFrom]
      cases List.mem_cons.mp hmem with
      | inl heq =>
          subst heq
          rw [if_neg (by rw [hself]; exact Bool.false_ne_true), if_neg (lt_irrefl k)]
      | inr hmem =>
          rw [if_pos (hbefore.1 (hkv _ hmem)), if_pos (hkv _ hmem), ih hrest hmem ⟨hbefore.2, hself⟩]

/-- Without the key, a block is copied as a whole. -/
theorem removeFromBy_absent (opLess : K → K → Bool) (hk : ∀ kv ∈ keyvals, kv.key ≠ k) :
    removeFromBy opLess k keyvals = none ∨ removeFromBy opLess k keyvals = some keyvals := by
  induction keyvals with
  | nil => exact .inl rfl
  | cons kv rest ih =>
      rw [List.forall_mem_cons] at hk
      rw [removeFromBy, if_neg (mt equal_iff.mp hk.1)]
      cases opLess kv.key k with
      | false => exact .inr rfl
      | true =>
          rw [if_pos rfl]
          exact (ih hk.2).imp (fun h => by rw [h]; rfl) fun h => by rw [h]; rfl

/-- A copy that does not stop at the key copies the whole block, or leaves it. -/
theorem removeFromBy_misses (hsorted : Sorted keyvals) (hmem : ⟨k, v⟩ ∈ keyvals)
    (hstops : ¬ StopsAt opLess k keyvals) :
    removeFromBy opLess k keyvals = none ∨ removeFromBy opLess k keyvals = some keyvals := by
  induction keyvals with
  | nil => cases hmem
  | cons kv rest ih =>
      obtain ⟨hkv, hrest⟩ := List.pairwise_cons.mp hsorted
      rw [removeFromBy]
      cases List.mem_cons.mp hmem with
      | inl heq =>
          subst heq
          have hself : opLess k k = true := by
            by_contra hself
            refine hstops ⟨List.forall_mem_cons.mpr ⟨fun hlt => absurd hlt (lt_irrefl k), fun kv' hkv' hlt => ?_⟩, ?_⟩
            · exact absurd hlt (lt_asymm (hkv kv' hkv'))
            · exact Bool.not_eq_true _ ▸ hself
          rw [if_pos hself]
          have hrestKeys : ∀ kv' ∈ rest, kv'.key ≠ k := fun kv' hkv' => (hkv kv' hkv').ne'
          exact (removeFromBy_absent opLess hrestKeys).imp (fun h => by rw [h]; rfl) fun h => by rw [h]; rfl
      | inr hmem =>
          have hne : ¬ equal kv.key k = true := mt equal_iff.mp (hkv _ hmem).ne
          cases hless : opLess kv.key k with
          | false =>
              rw [if_neg Bool.false_ne_true, if_neg hne]
              exact .inr rfl
          | true =>
              rw [if_pos rfl]
              refine (ih hrest hmem fun hrestStops => hstops ⟨?_, hrestStops.2⟩).imp
                (fun h => by rw [h]; rfl) fun h => by rw [h]; rfl
              exact List.forall_mem_cons.mpr ⟨fun _ => hless, hrestStops.1⟩

end

/-! ## Operations -/

section

variable {opLess : K → K → Bool} {blockSize : Nat} {t : ExtTree K (Leaf K V)} {f : K → Option V} {k : K}

/-- A key that is found in a block of the tree. -/
theorem Represents.found (h : Represents blockSize t f) (k : K) :
    findIn k (findLocation t k).l.keyvals = f k ∧ Sorted (findLocation t k).l.keyvals ∧
      (∀ v, f k = some v → ⟨k, v⟩ ∈ (findLocation t k).l.keyvals ∧ (findLocation t k).l.isSentinal = false) := by
  obtain ⟨before, after, hfound⟩ := h.search k
  rw [findLocation, (locate_leaf (toward k) t).1]
  refine ⟨hfound.findIn, hfound.sorted, fun v hv => ?_⟩
  have hmem := (hfound.mem v).mpr hv
  have hleaves := h.leaves
  rw [hfound.split.leaves] at hleaves
  refine ⟨hmem, (hleaves.middle.2.resolve_left fun hfirst => ?_).1.isSentinal⟩
  rw [hfirst.2] at hmem
  cases hmem

/-- Where the copy stops at the key, `remove` does as under `std::less`. -/
theorem Represents.removeBy_eq (h : Represents blockSize t f) (hstops : CopyStops (V := V) opLess t (.remove k)) :
    removeBy opLess t k = BlockLeafTree.remove t k := by
  obtain ⟨hfind, hsorted, hmem⟩ := h.found k
  cases hk : f k with
  | none => simp only [removeBy, BlockLeafTree.remove, hfind, hk, Option.isNone_none, if_true]
  | some v =>
      unfold removeBy BlockLeafTree.remove
      dsimp only
      refine ite_congr rfl (fun _ => rfl) fun _ => ite_congr rfl (fun hone => ?_) fun _ => rfl
      rw [removeFromBy_stops hsorted (hmem v hk).1 (hstops (by rw [hfind, hk]; rfl) hone)]

/-- Elsewhere it reports a removal, but the key stays. -/
theorem Represents.removeBy_misses (h : Represents blockSize t f) (hstops : ¬ CopyStops (V := V) opLess t (.remove k)) :
    (f k).isSome ∧ (removeBy opLess t k = none ∨ removeBy opLess t k = some (t, true)) := by
  obtain ⟨hfind, hsorted, hmem⟩ := h.found k
  rw [CopyStops, Classical.not_imp, Classical.not_imp, hfind] at hstops
  obtain ⟨hsome, hone, hstops⟩ := hstops
  obtain ⟨v, hv⟩ := Option.isSome_iff_exists.mp hsome
  refine ⟨hsome, ?_⟩
  have hleaf : (⟨false, (findLocation t k).l.keyvals⟩ : Leaf K V) = t.search (toward k) := by
    rw [← (hmem v hv).2]
    exact (locate_leaf (toward k) t).1
  have hstore : store t ((findLocation t k).p ++ [(findLocation t k).pLeft])
      (.leaf ⟨false, (findLocation t k).l.keyvals⟩) = t := by
    rw [hleaf, findLocation, (locate_leaf (toward k) t).2, ExtTree.graft_search]
  rw [removeBy]
  simp only [hfind, hv, Option.isNone_some, Bool.false_eq_true, if_false, if_pos hone]
  cases removeFromBy_misses hsorted (hmem v hv).1 hstops with
  | inl hnone => exact .inl (by rw [hnone]; rfl)
  | inr hcopy => exact .inr (by rw [hcopy, Option.bind_eq_bind, Option.bind_some, hstore]; rfl)

end

/-- A key in a block of the tree, with its value. -/
def Contains (t : ExtTree K (Leaf K V)) (k : K) (v : V) : Prop := ∃ l ∈ t.leaves, ⟨k, v⟩ ∈ l.keyvals

/-- The tree implements a map where the copies of blocks stop at the keys that are removed. -/
theorem implements {blockSize : Nat} (hbs : 1 ≤ blockSize) (opLess : K → K → Bool) :
    Implements (fun _ => performBy opLess blockSize) Contains
      (fun (t : ExtTree K (Leaf K V)) f => Represents blockSize t f) (CopyStops opLess) := by
  have hends : ∀ {t : ExtTree K (Leaf K V)} {op s r}, performBy opLess blockSize t op = some (s, r) →
      Ends (fun _ => performBy opLess blockSize t op) (s, r) := fun h => ⟨0, fun _ _ => h⟩
  refine ⟨fun t f h k v => ?_, fun t f op h hguard => ?_, fun t f op h hguard => ?_⟩
  · rw [Contains, ← h.mem, entries, List.mem_flatMap]
  · obtain ⟨t', hperform, ht'⟩ := h.perform hbs op
    refine ⟨t', hends ?_, ht'⟩
    cases op with
    | insert k v => exact hperform
    | remove k =>
        rw [performBy, h.removeBy_eq hguard]
        exact hperform
    | find k => exact hperform
  · cases op with
    | insert k v => exact absurd trivial hguard
    | remove k =>
        obtain ⟨hsome, hcases⟩ := h.removeBy_misses hguard
        cases hcases with
        | inl hnone => exact .inl ⟨0, fun _ _ => by rw [performBy, hnone]; rfl⟩
        | inr hstale => exact .inr ⟨k, t, rfl, hsome, hends (by rw [performBy, hstale]; rfl), h⟩
    | find k => exact absurd trivial hguard

end Verlib.BlockLeafTree
