import Verlib.Art.Update

/-!
# Sequences of updates

A tree that is reached by insertions and removals holds what a finite map holds after the same operations. An
insertion always ends; a removal ends if its key is stored.
-/

namespace Verlib.Art

open Verlib.Radix

variable {n : Nat} {V : Type}

/-! ## The abstract map -/

/-- An operation on a map, with its result: whether the key was absent (`insert`) or present (`remove`). -/
def Op.act (m : Key n → Option V) : Op n V → (Key n → Option V) × Bool
  | .insert k v => if (m k).isSome then (m, false) else (Function.update m k (some v), true)
  | .remove k => if (m k).isSome then (Function.update m k none, true) else (m, false)

/-- Operations on a map, one after the other. -/
def acts : List (Op n V) → (Key n → Option V) → (Key n → Option V) × List Bool
  | [], m => (m, [])
  | op :: rest, m => ((acts rest (op.act m).1).1, (op.act m).2 :: (acts rest (op.act m).1).2)

/-- Only stored keys are removed. -/
def StoredRemoves : List (Op n V) → (Key n → Option V) → Prop
  | [], _ => True
  | op :: rest, m => (∀ k, op = .remove k → (m k).isSome = true) ∧ StoredRemoves rest (op.act m).1

/-- The tree satisfies the invariant and its leaves hold the map, every key once. -/
structure Represents (t : Node n V) (m : Key n → Option V) : Prop where
  root : Root t
  nodup : (t.entries.map KV.key).Nodup
  mem : ∀ k v, ⟨k, v⟩ ∈ t.entries ↔ m k = some v

section

variable {t t' : Node n V} {m : Key n → Option V} {k : Key n} {v : V}

/-- A new map is empty. -/
theorem represents_empty (hn : 0 < n) (key : Key n) : Represents (empty key : Node n V) fun _ => none := by
  have hentries : (empty key : Node n V).entries = [] := by
    show ((List.range 256).map fun b => (b, b)).flatMap (fun _ => []) = []
    rw [List.flatMap_eq_nil_iff]
    intro _ _
    rfl
  refine ⟨root_empty hn key, ?_, fun k v => ?_⟩
  · rw [hentries]
    exact List.nodup_nil
  · rw [hentries]
    simp

/-- A key that is not in the map is not in the tree. -/
theorem Represents.absent (h : Represents t m) (hk : m k = none) : ∀ kv ∈ t.entries, kv.key ≠ k := by
  intro kv hkv heq
  have hsome := (h.mem kv.key kv.value).mp hkv
  rw [heq, hk] at hsome
  cases hsome

/-- One entry more. -/
theorem Represents.cons (h : Represents t m) (hroot : Root t') (hk : m k = none)
    (hperm : t'.entries.Perm (⟨k, v⟩ :: t.entries)) : Represents t' (Function.update m k (some v)) := by
  refine ⟨hroot, ?_, fun k' v' => ?_⟩
  · rw [(hperm.map KV.key).nodup_iff, List.map_cons, List.nodup_cons]
    refine ⟨fun hmem => ?_, h.nodup⟩
    obtain ⟨kv, hkv, heq⟩ := List.mem_map.mp hmem
    exact h.absent hk kv hkv heq
  · rw [hperm.mem_iff, List.mem_cons, h.mem, Function.update_apply, KV.mk.injEq]
    by_cases heq : k' = k
    · subst heq
      rw [if_pos rfl, hk, Option.some.injEq]
      constructor
      · intro hv
        cases hv with
        | inl hv => exact hv.2.symm
        | inr hv => cases hv
      · intro hv
        exact .inl ⟨rfl, hv.symm⟩
    · rw [if_neg heq]
      exact or_iff_right fun hv => heq hv.1

/-- One entry less. -/
theorem Represents.uncons (h : Represents t m) (hroot : Root t') (hperm : t.entries.Perm (⟨k, v⟩ :: t'.entries)) :
    Represents t' (Function.update m k none) := by
  have hnodup := (hperm.map KV.key).nodup_iff.mp h.nodup
  rw [List.map_cons, List.nodup_cons] at hnodup
  refine ⟨hroot, hnodup.2, fun k' v' => ?_⟩
  rw [Function.update_apply]
  by_cases heq : k' = k
  · rw [if_pos heq]
    refine iff_of_false (fun hmem => ?_) (fun hnone => by cases hnone)
    exact hnodup.1 (List.mem_map.mpr ⟨_, hmem, heq⟩)
  · rw [if_neg heq, ← h.mem, hperm.mem_iff, List.mem_cons, KV.mk.injEq]
    exact (or_iff_right fun hv => heq hv.1).symm

/-- One attempt that succeeds ends the loop. -/
theorem tryLoop_ok {α : Type} (attempt : Node n V → Except Fault (Node n V × Option α)) {r : α}
    (attempts : Nat) (h : attempt t = .ok (t', some r)) :
    tryLoop attempt (attempts + 1) t = .ok (t', some r) := by
  rw [tryLoop, h]

/-- An attempt that faults ends the loop. -/
theorem tryLoop_error {α : Type} (attempt : Node n V → Except Fault (Node n V × Option α)) {fault : Fault}
    (attempts : Nat) (h : attempt t = .error fault) : tryLoop attempt (attempts + 1) t = .error fault := by
  rw [tryLoop, h]

/-- An operation acts as on the map, unless it is a removal of an absent key whose search ends without a slot. -/
theorem Represents.perform (h : Represents t m) (attempts : Nat) (op : Op n V) :
    (∃ t', perform (attempts + 1) t op = .ok (t', some (op.act m).2) ∧ Represents t' (op.act m).1) ∨
      ∃ k, op = .remove k ∧ m k = none ∧ (findLocation k t 0).cptr = none ∧
        perform (attempts + 1) t op = .error .nullPointer := by
  cases op with
  | insert k v =>
      refine .inl ?_
      rw [Op.act]
      cases hk : m k with
      | none =>
          obtain ⟨t', htry, hroot, hperm⟩ := tryInsert_absent (v := v) h.root (h.absent hk)
          exact ⟨t', tryLoop_ok (fun root => tryInsert root k v) attempts htry, h.cons hroot hk hperm⟩
      | some old =>
          have hmem := (h.mem k old).mpr hk
          have htry := tryInsert_present (v := v) h.root ⟨_, hmem, rfl⟩
          exact ⟨t, tryLoop_ok (fun root => tryInsert root k v) attempts htry, h⟩
  | remove k =>
      rw [Op.act]
      cases hk : m k with
      | none =>
          have htry := tryRemove_absent h.root (h.absent hk)
          by_cases hcptr : (findLocation k t 0).cptr = none
          · rw [if_pos hcptr] at htry
            exact .inr ⟨k, rfl, hk, hcptr, tryLoop_error (fun root => tryRemove root k) attempts htry⟩
          · rw [if_neg hcptr] at htry
            exact .inl ⟨t, tryLoop_ok (fun root => tryRemove root k) attempts htry, h⟩
      | some v =>
          obtain ⟨t', htry, hroot, hperm⟩ := tryRemove_present h.root ((h.mem k v).mpr hk)
          exact .inl ⟨t', tryLoop_ok (fun root => tryRemove root k) attempts htry, h.uncons hroot hperm⟩

end

/-! ## Runs -/

/-- Operations that end act as on the map. -/
theorem Represents.run_ok {attempts : Nat} {ops : List (Op n V)} {t t' : Node n V} {m : Key n → Option V}
    {rs : List (Option Bool)} (h : Represents t m) (hrun : run (attempts + 1) ops t = .ok (t', rs)) :
    Represents t' (acts ops m).1 ∧ rs = (acts ops m).2.map some := by
  induction ops generalizing t m rs with
  | nil =>
      cases hrun
      exact ⟨h, rfl⟩
  | cons op rest ih =>
      rw [run] at hrun
      cases h.perform attempts op with
      | inl hok =>
          obtain ⟨mid, hperform, hmid⟩ := hok
          rw [hperform] at hrun
          cases hrest : run (attempts + 1) rest mid with
          | error fault =>
              simp only [hrest, bind, Except.bind] at hrun
              cases hrun
          | ok last =>
              simp only [hrest, bind, Except.bind, pure, Except.pure] at hrun
              cases hrun
              obtain ⟨hlast, hresults⟩ := ih hmid hrest
              exact ⟨hlast, by rw [hresults]; rfl⟩
      | inr hfault =>
          obtain ⟨k, _, _, _, hperform⟩ := hfault
          rw [hperform] at hrun
          cases hrun

/-- Operations that remove stored keys only end. -/
theorem Represents.run_stored {ops : List (Op n V)} {t : Node n V} {m : Key n → Option V} (attempts : Nat)
    (h : Represents t m) (hstored : StoredRemoves ops m) : ∃ t' rs, run (attempts + 1) ops t = .ok (t', rs) := by
  induction ops generalizing t m with
  | nil => exact ⟨t, [], rfl⟩
  | cons op rest ih =>
      cases h.perform attempts op with
      | inl hok =>
          obtain ⟨mid, hperform, hmid⟩ := hok
          obtain ⟨t', rs, hrest⟩ := ih hmid hstored.2
          refine ⟨t', some (op.act m).2 :: rs, ?_⟩
          rw [run, hperform]
          simp only [hrest, bind, Except.bind, pure, Except.pure]
      | inr hfault =>
          obtain ⟨k, heq, hk, _⟩ := hfault
          have hsome := hstored.1 k heq
          rw [hk] at hsome
          cases hsome

/-- Insertions of any keys and removals of stored keys implement a finite map: the results are those of the map, the
leaves hold every pair of the map once, and every node that can be reached satisfies the radix invariant. When a
node without a child for the byte of a key is copied for a new child, the copy has the same child for every other
byte, and its type is the next one if there is no room. -/
theorem updates_map (hn : 0 < n) (attempts : Nat) (key : Key n) (ops : List (Op n V))
    (hstored : StoredRemoves ops fun _ => none) :
    ∃ t, run (attempts + 1) ops (empty key) = .ok (t, (acts ops fun _ => none).2.map some) ∧
      (t.entries.map KV.key).Nodup ∧ (∀ k v, ⟨k, v⟩ ∈ t.entries ↔ (acts ops fun _ => none).1 k = some v) ∧
      (∀ x, Reachable t x → NodeOk x) ∧
      ∀ key byteNum size slots ptr k c, Reachable t (.inner key byteNum size slots ptr) →
        slots.getChild size (getByte k byteNum) = none →
          Grown key byteNum size slots ptr k c ((Node.inner key byteNum size slots ptr).copyWithChild k c) ∧
            ((Node.inner key byteNum size slots ptr).copyWithChild k c).nodeType =
              some (if slots.isFull size then slots.nodeType.larger else slots.nodeType) := by
  obtain ⟨t, rs, hrun⟩ := (represents_empty hn key).run_stored attempts hstored
  obtain ⟨h, rfl⟩ := (represents_empty hn key).run_ok hrun
  refine ⟨t, hrun, h.nodup, h.mem, fun x hx => ?_, fun key byteNum size slots ptr k c hx hslot => ?_⟩
  · obtain ⟨pos, P, hgood, hctx⟩ := h.root.good.reachable context_root hx
    exact hgood.nodeOk hctx
  · obtain ⟨pos, P, hgood, _⟩ := h.root.good.reachable context_root hx
    exact ⟨grown_copyWithChild hgood.1 hslot, copyWithChild_nodeType hslot⟩

/-- A run: two keys are inserted, and the first one is removed. -/
theorem updates_map_run :
    ∃ t, run 1 [.insert 1 10, .insert 2 20, .remove 1] (empty 0 : Node 8 Nat) =
        .ok (t, [some true, some true, some true]) ∧
      ⟨2, 20⟩ ∈ t.entries ∧ (t.entries.map KV.key).Nodup ∧ ∀ x, Reachable t x → NodeOk x := by
  obtain ⟨t, hrun, hnodup, hmem, hok, _⟩ := updates_map (by decide : 0 < 8) 0 0
    [.insert 1 10, .insert 2 20, .remove 1] (V := Nat)
    ⟨fun k h => (by cases h), fun k h => (by cases h), fun k h => (by cases h; rfl), trivial⟩
  exact ⟨t, hrun, (hmem 2 20).mpr rfl, hnodup, hok⟩

end Verlib.Art
