import Verlib.Art.Runs
import Verlib.Walk.Collect

/-!
# Range queries of `arttree`

`range_` walks over the tree between two keys. On the way down it compares both with the key of every internal node
byte by byte, and drops a bound as soon as the bytes that are below the node lie inside of it. In a leaf both bounds
that are left are searched for without looking at the size, so that the search for `start` runs past the end of a
leaf whose keys are all below `start`, and the search for `end` past its beginning if they are all above `end`.
-/

namespace Verlib.Art

open Verlib.Radix Walk

variable {n : Nat} {V : Type}

/-! ## The walk -/

/-- `while (l->key_vals[s].key < *start) s++`, with the entries from `s` on; `none` stands for a read at the size. -/
def lowIndex (start : Key n) : List (KV n V) → Nat → Option Nat
  | [], _ => none
  | kv :: rest, s => if kv.key < start then lowIndex start rest (s + 1) else some s

/-- `while (l->key_vals[e-1].key > *end) e--`; `none` stands for a read at -1. -/
def highIndex (stop : Key n) (keyVals : List (KV n V)) : Nat → Option Nat
  | 0 => none
  | e + 1 =>
      match keyVals[e]? with
      | none => none
      | some kv => if stop < kv.key then highIndex stop keyVals e else some (e + 1)

/-- The calls of `add` for a leaf; `none` stands for a read outside of the leaf. -/
def rangeLeaf (keyVals : List (KV n V)) (start stop : Option (Key n)) : Option (List (KV n V)) := do
  let s ← start.elim (some 0) fun start => lowIndex start keyVals 0
  let e ← stop.elim (some keyVals.length) fun stop => highIndex stop keyVals keyVals.length
  pure ((keyVals.take e).drop s)

/-- The loop over the bytes of an internal node, from byte `i` on for at most `fuel` bytes: the bounds that are left.
`none` stands for the return. -/
def clip (key : Key n) : Nat → Nat → Option (Key n) → Option (Key n) → Option (Option (Key n) × Option (Key n))
  | 0, _, start, stop => some (start, stop)
  | fuel + 1, i, start, stop =>
      if start.isNone && stop.isNone then some (start, stop)
      else if start.any (fun start => decide (getByte key i < getByte start i)) ||
          stop.any (fun stop => decide (getByte stop i < getByte key i)) then none
      else
        clip key fuel (i + 1) (if start.any fun start => decide (getByte start i < getByte key i) then none else start)
          (if stop.any fun stop => decide (getByte key i < getByte stop i) then none else stop)

/-- The loops over the slots of an internal node with a byte from `sb` to `eb`. -/
def Slots.visit {α : Type} (slots : Slots) (size sb eb : Nat) (body : Nat → Option (List α)) : Option (List α) :=
  match slots with
  | full => collect body (List.range' sb (eb + 1 - sb))
  | indirect idx =>
      collect (fun i => if idx i ≠ -1 then body (idx i).toNat else some []) (List.range' sb (eb + 1 - sb))
  | sparse keys => collect (fun i => if sb ≤ keys i ∧ keys i ≤ eb then body i else some []) (List.range size)

/-- `range_internal`: the entries for which `add` is called, in the order of the calls. `none` stands for a read
outside of a leaf. -/
def rangeInternal : Node n V → Option (Key n) → Option (Key n) → Nat → Option (List (KV n V))
  | .null, _, _, _ => some []
  | .leaf _ _ _ keyVals, start, stop, _ => rangeLeaf keyVals start stop
  | .inner key byteNum size slots ptr, start, stop, pos =>
      match clip key (byteNum - pos) pos start stop with
      | none => some []
      | some (start, stop) =>
          let sb := start.elim 0 fun start => getByte start byteNum
          let eb := stop.elim 255 fun stop => getByte stop byteNum
          slots.visit size sb eb fun i => rangeInternal (ptr i) start stop byteNum

/-- `range_`. -/
def range (root : Node n V) (start stop : Key n) : Option (List (KV n V)) :=
  rangeInternal root (some start) (some stop) 0

/-! ## Leaves -/

/-- The key is inside of the bounds that are left. -/
def Within (start stop : Option (Key n)) (k : Key n) : Prop :=
  (∀ s ∈ start, s ≤ k) ∧ ∀ e ∈ stop, k ≤ e

instance (start stop : Option (Key n)) (k : Key n) : Decidable (Within start stop k) :=
  inferInstanceAs (Decidable (_ ∧ _))

/-- All keys of a leaf are on the wrong side of a bound that is left. -/
def Missed (keyVals : List (KV n V)) (start stop : Option (Key n)) : Prop :=
  (∃ s ∈ start, ∀ kv ∈ keyVals, kv.key < s) ∨ ∃ e ∈ stop, ∀ kv ∈ keyVals, e < kv.key

/-- The search for `start`, also of a prefix of the leaf. -/
theorem lowIndex_spec (start : Key n) (keyVals : List (KV n V)) (hsorted : Sorted keyVals) (s : Nat) :
    (lowIndex start keyVals s = none ∧ ∀ kv ∈ keyVals, kv.key < start) ∨
      ∃ i, lowIndex start keyVals s = some (s + i) ∧ (∃ kv ∈ keyVals, ¬ kv.key < start) ∧
        ∀ e, (keyVals.take e).drop i = (keyVals.take e).filter fun kv => decide (start ≤ kv.key) := by
  induction keyVals generalizing s with
  | nil => exact .inl ⟨rfl, fun kv hkv => by cases hkv⟩
  | cons first rest ih =>
      obtain ⟨hfirst, hrest⟩ := List.pairwise_cons.mp hsorted
      rw [lowIndex]
      by_cases hlt : first.key < start
      · rw [if_pos hlt]
        cases ih hrest (s + 1) with
        | inl hnone => exact .inl ⟨hnone.1, List.forall_mem_cons.mpr ⟨hlt, hnone.2⟩⟩
        | inr hsome =>
            obtain ⟨i, heq, ⟨kv, hkv, hge⟩, hdrop⟩ := hsome
            refine .inr ⟨i + 1, by rw [heq, Nat.add_assoc, Nat.add_comm 1], ⟨kv, List.mem_cons_of_mem _ hkv, hge⟩,
              fun e => ?_⟩
            cases e with
            | zero => rfl
            | succ e =>
                have hnot : ¬ start ≤ first.key := BitVec.not_le.mpr hlt
                rw [List.take_succ_cons, List.drop_succ_cons, hdrop, List.filter_cons_of_neg (by simpa using hnot)]
      · rw [if_neg hlt]
        refine .inr ⟨0, rfl, ⟨first, List.mem_cons_self, hlt⟩, fun e => ?_⟩
        have hle : start ≤ first.key := BitVec.not_lt.mp hlt
        have hall : ∀ kv ∈ first :: rest, start ≤ kv.key :=
          List.forall_mem_cons.mpr ⟨hle, fun kv hkv => BitVec.le_trans hle (BitVec.le_of_lt (hfirst kv hkv))⟩
        rw [List.drop_zero, eq_comm, List.filter_eq_self]
        exact fun kv hkv => decide_eq_true (hall kv (List.mem_of_mem_take hkv))

/-- The search for `end`. -/
theorem highIndex_spec (stop : Key n) (keyVals : List (KV n V)) (hsorted : Sorted keyVals) (e : Nat)
    (he : e ≤ keyVals.length) :
    (highIndex stop keyVals e = none ∧ ∀ kv ∈ keyVals.take e, stop < kv.key) ∨
      ∃ i, highIndex stop keyVals e = some i ∧ (∃ kv ∈ keyVals.take e, ¬ stop < kv.key) ∧
        keyVals.take i = (keyVals.take e).filter fun kv => decide (kv.key ≤ stop) := by
  induction e with
  | zero => exact .inl ⟨rfl, fun kv hkv => by cases hkv⟩
  | succ e ih =>
      have hget : keyVals[e]? = some keyVals[e] := List.getElem?_eq_getElem he
      have htake : keyVals.take (e + 1) = keyVals.take e ++ [keyVals[e]] := by rw [List.take_add_one, hget]; rfl
      have hlast : keyVals[e] ∈ keyVals.take (e + 1) := by rw [htake]; exact List.mem_append_right _ List.mem_cons_self
      have hnext : highIndex stop keyVals (e + 1) =
          if stop < keyVals[e].key then highIndex stop keyVals e else some (e + 1) := by rw [highIndex, hget]
      rw [hnext]
      by_cases hlt : stop < keyVals[e].key
      · rw [if_pos hlt]
        cases ih (by omega) with
        | inl hnone =>
            refine .inl ⟨hnone.1, fun kv hkv => ?_⟩
            rw [htake, List.mem_append, List.mem_singleton] at hkv
            cases hkv with
            | inl hkv => exact hnone.2 kv hkv
            | inr heq => rw [heq]; exact hlt
        | inr hsome =>
            obtain ⟨i, heq, ⟨kv, hkv, hge⟩, hfilter⟩ := hsome
            have hnot : ¬ keyVals[e].key ≤ stop := BitVec.not_le.mpr hlt
            refine .inr ⟨i, heq, ⟨kv, by rw [htake]; exact List.mem_append_left _ hkv, hge⟩, ?_⟩
            rw [htake, List.filter_append, hfilter, List.filter_cons_of_neg (by simpa using hnot)]
            exact (List.append_nil _).symm
      · rw [if_neg hlt]
        refine .inr ⟨e + 1, rfl, ⟨_, hlast, hlt⟩, ?_⟩
        have hle : keyVals[e].key ≤ stop := BitVec.not_lt.mp hlt
        have hsorted' : Sorted (keyVals.take e ++ [keyVals[e]]) := by
          rw [← htake]
          exact hsorted.sublist (List.take_sublist _ _)
        rw [eq_comm, List.filter_eq_self]
        intro kv hkv
        rw [htake, List.mem_append, List.mem_singleton] at hkv
        cases hkv with
        | inl hkv =>
            have hkv' := (List.pairwise_append.mp hsorted').2.2 kv hkv _ (List.mem_singleton_self _)
            exact decide_eq_true (BitVec.le_trans (BitVec.le_of_lt hkv') hle)
        | inr heq => rw [heq]; exact decide_eq_true hle

/-- The first index of a leaf, with or without a `start`. -/
theorem elim_lowIndex_spec {keyVals : List (KV n V)} (hsorted : Sorted keyVals) (start : Option (Key n)) :
    (start.elim (some 0) (fun start => lowIndex start keyVals 0) = none ↔
      ∃ s ∈ start, ∀ kv ∈ keyVals, kv.key < s) ∧
    ∀ i, start.elim (some 0) (fun start => lowIndex start keyVals 0) = some i →
      ∀ e, (keyVals.take e).drop i = (keyVals.take e).filter fun kv => decide (∀ s ∈ start, s ≤ kv.key) := by
  cases start with
  | none => simp
  | some start =>
      simp only [Option.elim_some, Option.mem_some_iff, exists_eq_left', forall_eq']
      cases lowIndex_spec start keyVals hsorted 0 with
      | inl hnone =>
          refine ⟨iff_of_true hnone.1 hnone.2, fun i hi => ?_⟩
          rw [hnone.1] at hi
          cases hi
      | inr hsome =>
          obtain ⟨i, heq, ⟨kv, hkv, hge⟩, hdrop⟩ := hsome
          rw [heq, Nat.zero_add]
          refine ⟨iff_of_false (by simp) fun hall => hge (hall kv hkv), fun j hj => ?_⟩
          cases hj
          exact hdrop

/-- The index after the last one of a leaf, with or without an `end`. -/
theorem elim_highIndex_spec {keyVals : List (KV n V)} (hsorted : Sorted keyVals) (stop : Option (Key n)) :
    (stop.elim (some keyVals.length) (fun stop => highIndex stop keyVals keyVals.length) = none ↔
      ∃ e ∈ stop, ∀ kv ∈ keyVals, e < kv.key) ∧
    ∀ i, stop.elim (some keyVals.length) (fun stop => highIndex stop keyVals keyVals.length) = some i →
      keyVals.take i = keyVals.filter fun kv => decide (∀ e ∈ stop, kv.key ≤ e) := by
  cases stop with
  | none => simp
  | some stop =>
      simp only [Option.elim_some, Option.mem_some_iff, exists_eq_left', forall_eq']
      have hspec := highIndex_spec stop keyVals hsorted keyVals.length le_rfl
      rw [List.take_length] at hspec
      cases hspec with
      | inl hnone =>
          refine ⟨iff_of_true hnone.1 hnone.2, fun i hi => ?_⟩
          rw [hnone.1] at hi
          cases hi
      | inr hsome =>
          obtain ⟨i, heq, ⟨kv, hkv, hge⟩, htake⟩ := hsome
          rw [heq]
          refine ⟨iff_of_false (by simp) fun hall => hge (hall kv hkv), fun j hj => ?_⟩
          cases hj
          exact htake

/-- What `range_internal` does in a leaf. -/
theorem rangeLeaf_spec {keyVals : List (KV n V)} (hsorted : Sorted keyVals) (start stop : Option (Key n)) :
    (rangeLeaf keyVals start stop = none ↔ Missed keyVals start stop) ∧
      ∀ calls, rangeLeaf keyVals start stop = some calls →
        calls = keyVals.filter fun kv => decide (Within start stop kv.key) := by
  obtain ⟨hlow, hdrop⟩ := elim_lowIndex_spec hsorted start
  obtain ⟨hhigh, htake⟩ := elim_highIndex_spec hsorted stop
  rw [rangeLeaf, Missed, ← hlow, ← hhigh]
  cases hs : start.elim (some 0) fun start => lowIndex start keyVals 0 with
  | none => simp
  | some s =>
      cases he : stop.elim (some keyVals.length) fun stop => highIndex stop keyVals keyVals.length with
      | none => simp
      | some e =>
          refine ⟨by simp, fun calls hcalls => ?_⟩
          cases hcalls
          rw [hdrop s hs e, htake e he, List.filter_filter]
          exact List.filter_congr fun kv _ => by simp [Within]

/-! ## Internal nodes -/

/-- A `start` with a smaller byte is dropped. -/
theorem dropStart_spec {key : Key n} {i : Nat} {start : Option (Key n)} (hi : i < n)
    (hstart : ∀ s ∈ start, Agree s key i) (hle : ∀ s ∈ start, getByte s i ≤ getByte key i) :
    (∀ s, (s ∈ if start.any (fun s => decide (getByte s i < getByte key i)) then none else start) ↔
      s ∈ start ∧ Agree s key (i + 1)) ∧
    ∀ k, Agree k key (i + 1) →
      ((∀ s ∈ if start.any (fun s => decide (getByte s i < getByte key i)) then none else start, s ≤ k) ↔
        ∀ s ∈ start, s ≤ k) := by
  cases start with
  | none => simp
  | some s =>
      have hagree := hstart s rfl
      have hbyte := hle s rfl
      rw [Option.any_some]
      by_cases hlt : getByte s i < getByte key i
      · rw [decide_eq_true hlt, if_pos rfl]
        refine ⟨fun s' => iff_of_false (fun hs' => by cases hs') fun hs' => ?_,
          fun k hk => iff_of_true (fun s' hs' => by cases hs') fun s' hs' => ?_⟩
        · cases hs'.1
          exact absurd (hs'.2 i (by omega)) (by omega)
        cases hs'
        obtain ⟨hk, hkbyte⟩ := agree_succ.mp hk
        exact BitVec.le_of_lt (lt_of_agree (hagree.trans hk.symm) hi (by omega))
      · rw [decide_eq_false hlt, if_neg Bool.false_ne_true]
        refine ⟨fun s' => ⟨fun hs' => ⟨hs', ?_⟩, fun hs' => hs'.1⟩, fun k _ => Iff.rfl⟩
        cases hs'
        exact agree_succ.mpr ⟨hagree, by omega⟩

/-- An `end` with a larger byte is dropped. -/
theorem dropStop_spec {key : Key n} {i : Nat} {stop : Option (Key n)} (hi : i < n)
    (hstop : ∀ e ∈ stop, Agree e key i) (hle : ∀ e ∈ stop, getByte key i ≤ getByte e i) :
    (∀ e, (e ∈ if stop.any (fun e => decide (getByte key i < getByte e i)) then none else stop) ↔
      e ∈ stop ∧ Agree e key (i + 1)) ∧
    ∀ k, Agree k key (i + 1) →
      ((∀ e ∈ if stop.any (fun e => decide (getByte key i < getByte e i)) then none else stop, k ≤ e) ↔
        ∀ e ∈ stop, k ≤ e) := by
  cases stop with
  | none => simp
  | some e =>
      have hagree := hstop e rfl
      have hbyte := hle e rfl
      rw [Option.any_some]
      by_cases hlt : getByte key i < getByte e i
      · rw [decide_eq_true hlt, if_pos rfl]
        refine ⟨fun e' => iff_of_false (fun he' => by cases he') fun he' => ?_,
          fun k hk => iff_of_true (fun e' he' => by cases he') fun e' he' => ?_⟩
        · cases he'.1
          exact absurd (he'.2 i (by omega)) (by omega)
        cases he'
        obtain ⟨hk, hkbyte⟩ := agree_succ.mp hk
        exact BitVec.le_of_lt (lt_of_agree (hk.trans hagree.symm) hi (by omega))
      · rw [decide_eq_false hlt, if_neg Bool.false_ne_true]
        refine ⟨fun e' => ⟨fun he' => ⟨he', ?_⟩, fun he' => he'.1⟩, fun k _ => Iff.rfl⟩
        cases he'
        exact agree_succ.mpr ⟨hagree, by omega⟩

/-- The loop over the bytes: the bounds it leaves have the bytes of the node, and nothing below the node is lost or
gained. -/
theorem clip_spec (key : Key n) (fuel i : Nat) (start stop : Option (Key n)) (hn : i + fuel ≤ n)
    (hstart : ∀ s ∈ start, Agree s key i) (hstop : ∀ e ∈ stop, Agree e key i) :
    (clip key fuel i start stop = none → ∀ k, Agree k key (i + fuel) → ¬ Within start stop k) ∧
    ∀ start' stop', clip key fuel i start stop = some (start', stop') →
      (∀ s, s ∈ start' ↔ s ∈ start ∧ Agree s key (i + fuel)) ∧
        (∀ e, e ∈ stop' ↔ e ∈ stop ∧ Agree e key (i + fuel)) ∧
        ∀ k, Agree k key (i + fuel) → (Within start' stop' k ↔ Within start stop k) := by
  induction fuel generalizing i start stop with
  | zero =>
      refine ⟨fun h => (by cases h), fun start' stop' h => ?_⟩
      cases h
      exact ⟨fun s => ⟨fun hs => ⟨hs, hstart s hs⟩, And.left⟩, fun e => ⟨fun he => ⟨he, hstop e he⟩, And.left⟩,
        fun k _ => Iff.rfl⟩
  | succ fuel ih =>
      rw [clip]
      split
      next hempty =>
          obtain ⟨hs, he⟩ := Bool.and_eq_true_iff.mp hempty
          rw [Option.isNone_iff_eq_none] at hs he
          subst hs he
          refine ⟨fun h => (by cases h), fun start' stop' h => ?_⟩
          cases h
          exact ⟨fun s => ⟨fun hs => (by cases hs), And.left⟩, fun e => ⟨fun he => (by cases he), And.left⟩,
            fun k _ => Iff.rfl⟩
      · split
        next hreturn =>
            refine ⟨fun _ k hk hwithin => ?_, fun start' stop' h => by cases h⟩
            obtain ⟨hk', hkbyte⟩ := agree_succ.mp (hk.mono (by omega : i + 1 ≤ i + (fuel + 1)))
            rw [Bool.or_eq_true, Option.any_eq_true, Option.any_eq_true] at hreturn
            cases hreturn with
            | inl hlow =>
                obtain ⟨s, hs, hbyte⟩ := hlow
                have hle := getByte_le ((hstart s hs).trans hk'.symm) (by omega) (hwithin.1 s hs)
                have hlt := of_decide_eq_true hbyte
                omega
            | inr hhigh =>
                obtain ⟨e, he, hbyte⟩ := hhigh
                have hle := getByte_le (hk'.trans (hstop e he).symm) (by omega) (hwithin.2 e he)
                have hlt := of_decide_eq_true hbyte
                omega
        next hreturn =>
            rw [Bool.or_eq_true, not_or, Option.any_eq_true, Option.any_eq_true] at hreturn
            have hlow : ∀ s ∈ start, getByte s i ≤ getByte key i := fun s hs =>
              not_lt.mp fun hlt => hreturn.1 ⟨s, hs, decide_eq_true hlt⟩
            have hhigh : ∀ e ∈ stop, getByte key i ≤ getByte e i := fun e he =>
              not_lt.mp fun hlt => hreturn.2 ⟨e, he, decide_eq_true hlt⟩
            obtain ⟨hstart', hstart_iff⟩ := dropStart_spec (by omega) hstart hlow
            obtain ⟨hstop', hstop_iff⟩ := dropStop_spec (by omega) hstop hhigh
            obtain ⟨hnone, hsome⟩ := ih (i + 1) _ _ (by omega) (fun s hs => ((hstart' s).mp hs).2)
              (fun e he => ((hstop' e).mp he).2)
            have hadd : i + 1 + fuel = i + (fuel + 1) := by omega
            rw [hadd] at hnone hsome
            have hwithin : ∀ k, Agree k key (i + (fuel + 1)) → (Within _ _ k ↔ Within start stop k) := fun k hk =>
              and_congr (hstart_iff k (hk.mono (by omega))) (hstop_iff k (hk.mono (by omega)))
            refine ⟨fun h k hk => ?_, fun start' stop' h => ?_⟩
            · rw [← hwithin k hk]
              exact hnone h k hk
            · obtain ⟨hs, he, hiff⟩ := hsome start' stop' h
              refine ⟨fun s => ?_, fun e => ?_, fun k hk => ?_⟩
              · rw [hs s, hstart' s, and_assoc]
                exact and_congr_right fun _ => and_iff_right_of_imp fun hagree => hagree.mono (by omega)
              · rw [he e, hstop' e, and_assoc]
                exact and_congr_right fun _ => and_iff_right_of_imp fun hagree => hagree.mono (by omega)
              · rw [hiff k hk]
                exact hwithin k hk

/-! ## Loops over slots -/

/-- The loops visit the slots in use whose byte is in the interval. -/
theorem Slots.visit_eq {α : Type} {slots : Slots} {size sb eb : Nat} (heb : eb < 256) (body : Nat → Option (List α)) :
    slots.visit size sb eb body =
      collect (fun s => body s.2) ((slots.pairs size).filter fun s => decide (sb ≤ s.1 ∧ s.1 ≤ eb)) := by
  cases slots with
  | full =>
      rw [visit, pairs, range'_eq_filter heb, collect_filter, collect_filter, ← List.filterMap_eq_map,
        collect_filterMap]
      rfl
  | indirect idx =>
      rw [visit, pairs, range'_eq_filter heb, collect_filter, collect_filter, collect_filterMap]
      congr 1
      funext b
      by_cases hnone : idx b = -1
      · simp [hnone]
      · simp [hnone]
  | sparse keys =>
      rw [visit, pairs, collect_filter, ← List.filterMap_eq_map, collect_filterMap]
      congr 1
      funext i
      simp

/-! ## Stray leaves -/

/-- A leaf below a node whose parent has byte number `pos`: the byte number of the leaf's parent, and the entries. -/
inductive LeafBelow : Node n V → Nat → Nat → List (KV n V) → Prop where
  | leaf {big : Bool} {key : Key n} {byteNum pos : Nat} {keyVals : List (KV n V)} :
      LeafBelow (.leaf big key byteNum keyVals) pos pos keyVals
  | inner {key : Key n} {byteNum size pos b : Nat} {slots : Slots} {ptr : Nat → Node n V} {s : Nat × Nat}
      {keyVals : List (KV n V)} : s ∈ slots.pairs size → LeafBelow (ptr s.2) byteNum b keyVals →
        LeafBelow (.inner key byteNum size slots ptr) pos b keyVals

/-- Under a parent with byte number `b`: all keys of the leaf agree with a bound up to their byte in the parent, and
are on the wrong side of it. -/
def Stray (b : Nat) (keyVals : List (KV n V)) (start stop : Option (Key n)) : Prop :=
  (∃ s ∈ start, ∀ kv ∈ keyVals, Agree kv.key s (b + 1) ∧ kv.key < s) ∨
    ∃ e ∈ stop, ∀ kv ∈ keyVals, Agree kv.key e (b + 1) ∧ e < kv.key

section

variable {t : Node n V} {pos gp b : Nat} {P : Key n → Prop} {keyVals : List (KV n V)} {start stop : Option (Key n)}

/-- The entries of a leaf below a node are entries of the node. -/
theorem LeafBelow.mem_entries (h : LeafBelow t pos b keyVals) {kv : KV n V} (hkv : kv ∈ keyVals) : kv ∈ t.entries := by
  induction h with
  | leaf => exact hkv
  | inner hs _ ih => exact List.mem_flatMap.mpr ⟨_, hs, ih hkv⟩

/-- Byte numbers grow on the way to a leaf, which is not empty. -/
theorem LeafBelow.le (h : LeafBelow t pos b keyVals) (hgood : Good t gp P) (hpos : pos ≤ gp) :
    pos ≤ b ∧ keyVals ≠ [] := by
  induction h generalizing gp P with
  | leaf =>
      refine ⟨le_rfl, fun hnil => ?_⟩
      have hsize := hgood.1.size_pos
      rw [hnil] at hsize
      cases hsize
  | inner hs _ ih =>
      have hchild := ih (hgood.2.2.2.2 _ hs) (Nat.le_succ _)
      exact ⟨le_trans (le_trans hpos hgood.2.2.1) hchild.1, hchild.2⟩

/-- The bound that a stray leaf misses is inside of both bounds. -/
theorem Stray.within (h : Stray b keyVals start stop) (hle : ∀ s ∈ start, ∀ e ∈ stop, s ≤ e) :
    ∃ k, Within start stop k ∧ ∀ kv ∈ keyVals, Agree kv.key k (b + 1) := by
  cases h with
  | inl hlow =>
      obtain ⟨s, hs, hall⟩ := hlow
      refine ⟨s, ⟨fun s' hs' => ?_, fun e he => hle s hs e he⟩, fun kv hkv => (hall kv hkv).1⟩
      rw [Option.mem_unique hs' hs]
      exact BitVec.le_refl s
  | inr hhigh =>
      obtain ⟨e, he, hall⟩ := hhigh
      refine ⟨e, ⟨fun s hs => hle s hs e he, fun e' he' => ?_⟩, fun kv hkv => (hall kv hkv).1⟩
      rw [Option.mem_unique he' he]
      exact BitVec.le_refl e

/-- A leaf below a node misses a bound if and only if it misses it when the bounds with other bytes than the node's
have been dropped. -/
theorem stray_congr {key : Key n} {byteNum : Nat} {start' stop' : Option (Key n)} (hnil : keyVals ≠ [])
    (hlead : ∀ kv ∈ keyVals, Agree kv.key key byteNum) (hb : byteNum ≤ b)
    (hstart : ∀ s, s ∈ start' ↔ s ∈ start ∧ Agree s key byteNum)
    (hstop : ∀ e, e ∈ stop' ↔ e ∈ stop ∧ Agree e key byteNum) :
    Stray b keyVals start' stop' ↔ Stray b keyVals start stop := by
  obtain ⟨kv, hkv⟩ := List.exists_mem_of_ne_nil _ hnil
  have hagree : ∀ k, Agree kv.key k (b + 1) → Agree k key byteNum := fun k hk =>
    (hk.mono (by omega : byteNum ≤ b + 1)).symm.trans (hlead kv hkv)
  refine or_congr (exists_congr fun s => ?_) (exists_congr fun e => ?_)
  · rw [hstart s, and_assoc]
    exact and_congr_right fun _ => and_iff_right_of_imp fun hall => hagree s (hall kv hkv).1
  · rw [hstop e, and_assoc]
    exact and_congr_right fun _ => and_iff_right_of_imp fun hall => hagree e (hall kv hkv).1

/-- What is known of the bounds at a node whose parent has byte number `pos`. -/
structure Bounds (pos : Nat) (P : Key n → Prop) (start stop : Option (Key n)) : Prop where
  low : ∀ s ∈ start, ∀ k, P k → Agree s k pos
  high : ∀ e ∈ stop, ∀ k, P k → Agree e k pos
  le : ∀ s ∈ start, ∀ e ∈ stop, s ≤ e

/-- A slot with the byte of a key between the bounds is visited. -/
theorem visited {key k : Key n} {byteNum : Nat} (hn : byteNum < n) (hstart : ∀ s ∈ start, Agree s key byteNum)
    (hstop : ∀ e ∈ stop, Agree e key byteNum) (hbelow : Below key byteNum b k) (hwithin : Within start stop k) :
    (start.elim 0 fun s => getByte s byteNum) ≤ b ∧ b ≤ stop.elim 255 fun e => getByte e byteNum := by
  obtain ⟨hagree, hbyte⟩ := hbelow
  constructor
  · cases start with
    | none => exact Nat.zero_le b
    | some s =>
        rw [← hbyte]
        exact getByte_le ((hstart s rfl).trans hagree.symm) hn (hwithin.1 s rfl)
  · cases stop with
    | none =>
        have hlt := getByte_lt k byteNum
        show b ≤ 255
        omega
    | some e =>
        rw [← hbyte]
        exact getByte_le (hagree.trans (hstop e rfl).symm) hn (hwithin.2 e rfl)

/-- The bounds for a slot that is visited. -/
theorem Bounds.child {key : Key n} {byteNum : Nat} (hn : byteNum < n) (hstart : ∀ s ∈ start, Agree s key byteNum)
    (hstop : ∀ e ∈ stop, Agree e key byteNum) (hle : ∀ s ∈ start, ∀ e ∈ stop, s ≤ e)
    (hsb : (start.elim 0 fun s => getByte s byteNum) ≤ b) (heb : b ≤ stop.elim 255 fun e => getByte e byteNum) :
    Bounds byteNum (Below key byteNum b) start stop ∧ ∀ k, Below key byteNum b k →
      (∀ s ∈ start, k < s → Agree k s (byteNum + 1)) ∧ ∀ e ∈ stop, e < k → Agree k e (byteNum + 1) := by
  refine ⟨⟨fun s hs k hk => (hstart s hs).trans hk.1.symm, fun e he k hk => (hstop e he).trans hk.1.symm, hle⟩,
    fun k hk => ⟨fun s hs hlt => ?_, fun e he hlt => ?_⟩⟩
  · have hagree : Agree k s byteNum := hk.1.trans (hstart s hs).symm
    have hbyte := getByte_le hagree hn (BitVec.le_of_lt hlt)
    rw [Option.mem_def.mp hs, Option.elim_some] at hsb
    exact agree_succ.mpr ⟨hagree, by rw [hk.2] at hbyte ⊢; omega⟩
  · have hagree : Agree k e byteNum := hk.1.trans (hstop e he).symm
    have hbyte := getByte_le hagree.symm hn (BitVec.le_of_lt hlt)
    rw [Option.mem_def.mp he, Option.elim_some] at heb
    exact agree_succ.mpr ⟨hagree, by rw [hk.2] at hbyte ⊢; omega⟩

/-- A bound that a leaf in a slot misses has the byte of the slot. -/
theorem LeafBelow.stray_below {key : Key n} {byteNum c : Nat} (h : LeafBelow t byteNum b keyVals)
    (hgood : Good t (byteNum + 1) (Below key byteNum c)) (hle : ∀ s ∈ start, ∀ e ∈ stop, s ≤ e)
    (hstray : Stray b keyVals start stop) : ∃ k, Within start stop k ∧ Below key byteNum c k := by
  obtain ⟨hb, hnil⟩ := h.le hgood (Nat.le_succ _)
  obtain ⟨k, hwithin, hall⟩ := hstray.within hle
  obtain ⟨kv, hkv⟩ := List.exists_mem_of_ne_nil _ hnil
  have hentry : Below key byteNum c kv.key :=
    (hgood.entries_below (context_below key byteNum c) kv (h.mem_entries hkv)).1
  obtain ⟨hlead, hbyte⟩ := agree_succ.mp ((hall kv hkv).mono (by omega : byteNum + 1 ≤ b + 1))
  exact ⟨k, hwithin, hlead.symm.trans hentry.1, hbyte.symm.trans hentry.2⟩

/-- What holds of a walk below a node. -/
def WalkOk (t : Node n V) (pos : Nat) (start stop : Option (Key n)) : Prop :=
  (rangeInternal t start stop pos = none ↔ ∃ b keyVals, LeafBelow t pos b keyVals ∧ Stray b keyVals start stop) ∧
    ∀ calls, rangeInternal t start stop pos = some calls →
      calls = t.entries.filter fun kv => decide (Within start stop kv.key)

/-- A walk in a leaf. -/
theorem walkOk_leaf {big : Bool} {key : Key n} {byteNum : Nat} (hok : LeafOk big key byteNum keyVals)
    (hside : ∀ kv ∈ keyVals, (∀ s ∈ start, kv.key < s → Agree kv.key s (pos + 1)) ∧
      ∀ e ∈ stop, e < kv.key → Agree kv.key e (pos + 1)) :
    WalkOk (.leaf big key byteNum keyVals) pos start stop := by
  obtain ⟨hnone, hsome⟩ := rangeLeaf_spec hok.sorted start stop
  refine ⟨hnone.trans ?_, hsome⟩
  constructor
  · intro hmissed
    refine ⟨pos, keyVals, .leaf, ?_⟩
    cases hmissed with
    | inl hlow =>
        obtain ⟨s, hs, hall⟩ := hlow
        exact .inl ⟨s, hs, fun kv hkv => ⟨(hside kv hkv).1 s hs (hall kv hkv), hall kv hkv⟩⟩
    | inr hhigh =>
        obtain ⟨e, he, hall⟩ := hhigh
        exact .inr ⟨e, he, fun kv hkv => ⟨(hside kv hkv).2 e he (hall kv hkv), hall kv hkv⟩⟩
  · intro hstray
    obtain ⟨b, keyVals', hbelow, hstray⟩ := hstray
    cases hbelow
    cases hstray with
    | inl hlow =>
        obtain ⟨s, hs, hall⟩ := hlow
        exact .inl ⟨s, hs, fun kv hkv => (hall kv hkv).2⟩
    | inr hhigh =>
        obtain ⟨e, he, hall⟩ := hhigh
        exact .inr ⟨e, he, fun kv hkv => (hall kv hkv).2⟩

/-- The walk over the slots of an internal node, with the bounds that are left there. -/
theorem visit_spec {key : Key n} {byteNum size : Nat} {slots : Slots} {ptr : Nat → Node n V} (hn : byteNum < n)
    (hchild : ∀ s ∈ slots.pairs size, Good (ptr s.2) (byteNum + 1) (Below key byteNum s.1))
    (hstart : ∀ s ∈ start, Agree s key byteNum) (hstop : ∀ e ∈ stop, Agree e key byteNum)
    (hle : ∀ s ∈ start, ∀ e ∈ stop, s ≤ e)
    (hwalk : ∀ s ∈ slots.pairs size, (start.elim 0 fun s => getByte s byteNum) ≤ s.1 →
      s.1 ≤ (stop.elim 255 fun e => getByte e byteNum) → WalkOk (ptr s.2) byteNum start stop) :
    (slots.visit size (start.elim 0 fun s => getByte s byteNum) (stop.elim 255 fun e => getByte e byteNum)
        (fun i => rangeInternal (ptr i) start stop byteNum) = none ↔
      ∃ s ∈ slots.pairs size, ∃ b keyVals, LeafBelow (ptr s.2) byteNum b keyVals ∧ Stray b keyVals start stop) ∧
    ∀ calls, slots.visit size (start.elim 0 fun s => getByte s byteNum) (stop.elim 255 fun e => getByte e byteNum)
        (fun i => rangeInternal (ptr i) start stop byteNum) = some calls →
      calls = ((slots.pairs size).flatMap fun s => (ptr s.2).entries).filter
        fun kv => decide (Within start stop kv.key) := by
  have heb : (stop.elim 255 fun e => getByte e byteNum) < 256 := by
    cases stop with
    | none =>
        show 255 < 256
        omega
    | some e => exact getByte_lt e byteNum
  rw [Slots.visit_eq heb]
  constructor
  · rw [collect_eq_none]
    constructor
    · intro h
      obtain ⟨s, hs, hnone⟩ := h
      obtain ⟨hs, hbyte⟩ := List.mem_filter.mp hs
      obtain ⟨hsb, hseb⟩ := of_decide_eq_true hbyte
      exact ⟨s, hs, (hwalk s hs hsb hseb).1.mp hnone⟩
    · intro h
      obtain ⟨s, hs, b, keyVals, hbelow, hstray⟩ := h
      obtain ⟨k, hwithin, hk⟩ := hbelow.stray_below (hchild s hs) hle hstray
      obtain ⟨hsb, hseb⟩ := visited hn hstart hstop hk hwithin
      exact ⟨s, List.mem_filter.mpr ⟨hs, decide_eq_true ⟨hsb, hseb⟩⟩,
        (hwalk s hs hsb hseb).1.mpr ⟨b, keyVals, hbelow, hstray⟩⟩
  · intro calls hcalls
    rw [List.filter_flatMap]
    refine (collect_eq_some hcalls fun s hs xs hxs => ?_).trans (flatMap_filter fun s hs hskip => ?_)
    · obtain ⟨hs, hbyte⟩ := List.mem_filter.mp hs
      obtain ⟨hsb, hseb⟩ := of_decide_eq_true hbyte
      exact (hwalk s hs hsb hseb).2 xs hxs
    · rw [List.filter_eq_nil_iff]
      intro kv hkv hwithin
      have hk := ((hchild s hs).entries_below (context_below key byteNum s.1) kv hkv).1
      exact of_decide_eq_false hskip (visited hn hstart hstop hk (of_decide_eq_true hwithin))

/-- `range_internal` reads outside of a leaf if and only if some leaf is stray, and otherwise calls `add` for the
entries between the bounds. -/
theorem rangeInternal_spec (hgood : Good t gp P) (hctx : Context gp P) (hpos : pos ≤ gp)
    (hbounds : Bounds pos P start stop)
    (hleaf : t.isLeaf = true → ∀ k, P k →
      (∀ s ∈ start, k < s → Agree k s (pos + 1)) ∧ ∀ e ∈ stop, e < k → Agree k e (pos + 1)) :
    WalkOk t pos start stop := by
  induction t generalizing pos gp P start stop with
  | null =>
      refine ⟨iff_of_false (fun h => by cases h) fun h => ?_, fun calls h => ?_⟩
      · obtain ⟨_, _, hbelow, _⟩ := h
        cases hbelow
      · cases h
        rfl
  | leaf big key byteNum keyVals =>
      exact walkOk_leaf hgood.1 fun kv hkv => hleaf rfl kv.key (hgood.2.2 kv hkv)
  | inner key byteNum size slots ptr ih =>
      obtain ⟨hok, hkey, hgp, hn, hchild⟩ := id hgood
      have hadd : pos + (byteNum - pos) = byteNum := by omega
      obtain ⟨hclipNone, hclipSome⟩ := clip_spec key (byteNum - pos) pos start stop (by omega)
        (fun s hs => hbounds.low s hs key hkey) (fun e he => hbounds.high e he key hkey)
      rw [hadd] at hclipNone hclipSome
      have hlead : ∀ kv ∈ (Node.inner key byteNum size slots ptr).entries, Agree kv.key key byteNum := fun kv hkv =>
        (hgood.entries_below hctx kv hkv).2
      rw [WalkOk, rangeInternal]
      cases hclip : clip key (byteNum - pos) pos start stop with
      | none =>
          refine ⟨iff_of_false (fun h => by cases h) fun h => ?_, fun calls h => ?_⟩
          · obtain ⟨b, keyVals, hbelow, hstray⟩ := h
            cases hbelow with
            | inner hs hbelow =>
                obtain ⟨k, hwithin, hk⟩ := hbelow.stray_below (hchild _ hs) hbounds.le hstray
                exact hclipNone hclip k hk.1 hwithin
          · cases h
            rw [eq_comm, List.filter_eq_nil_iff]
            intro kv hkv
            rw [decide_eq_true_eq]
            exact hclipNone hclip kv.key (hlead kv hkv)
      | some bounds =>
          obtain ⟨start', stop'⟩ := bounds
          obtain ⟨hstart, hstop, hwithin⟩ := hclipSome start' stop' hclip
          have hle : ∀ s ∈ start', ∀ e ∈ stop', s ≤ e := fun s hs e he =>
            hbounds.le s ((hstart s).mp hs).1 e ((hstop e).mp he).1
          obtain ⟨hnone, hsome⟩ := visit_spec hn hchild (fun s hs => ((hstart s).mp hs).2)
            (fun e he => ((hstop e).mp he).2) hle fun s hs hsb heb => by
              obtain ⟨hbounds', hside⟩ := Bounds.child hn (fun s hs => ((hstart s).mp hs).2)
                (fun e he => ((hstop e).mp he).2) hle hsb heb
              exact ih s.2 (hchild s hs) (context_below key byteNum s.1) (Nat.le_succ _) hbounds' fun _ => hside
          refine ⟨hnone.trans ?_, fun calls hcalls => ?_⟩
          · have hcongr : ∀ s ∈ slots.pairs size, ∀ b keyVals, LeafBelow (ptr s.2) byteNum b keyVals →
                (Stray b keyVals start' stop' ↔ Stray b keyVals start stop) := by
              intro s hs b keyVals hbelow
              obtain ⟨hb, hnil⟩ := hbelow.le (hchild s hs) (Nat.le_succ _)
              exact stray_congr hnil
                (fun kv hkv => hlead kv (List.mem_flatMap.mpr ⟨s, hs, hbelow.mem_entries hkv⟩)) hb hstart hstop
            constructor
            · intro h
              obtain ⟨s, hs, b, keyVals, hbelow, hstray⟩ := h
              exact ⟨b, keyVals, .inner hs hbelow, (hcongr s hs b keyVals hbelow).mp hstray⟩
            · intro h
              obtain ⟨b, keyVals, hbelow, hstray⟩ := h
              cases hbelow with
              | inner hs hbelow =>
                  exact ⟨_, hs, b, keyVals, hbelow, (hcongr _ hs b keyVals hbelow).mpr hstray⟩
          · rw [hsome calls hcalls]
            exact List.filter_congr fun kv hkv => decide_eq_decide.mpr (hwithin kv.key (hlead kv hkv))

end

/-! ## Range queries -/

/-- No leaf has keys that agree with `start` up to their byte in the leaf's parent and are all below `start`, and none
has keys that agree with `stop` so and are all above it. -/
def NoStrayLeaf (start stop : Key n) (t : Node n V) : Prop :=
  ∀ b keyVals, LeafBelow t 0 b keyVals →
    (¬ ∀ kv ∈ keyVals, Agree kv.key start (b + 1) ∧ kv.key < start) ∧
      ¬ ∀ kv ∈ keyVals, Agree kv.key stop (b + 1) ∧ stop < kv.key

theorem noStrayLeaf_iff {start stop : Key n} {t : Node n V} :
    NoStrayLeaf start stop t ↔ ∀ b keyVals, LeafBelow t 0 b keyVals → ¬ Stray b keyVals (some start) (some stop) := by
  refine forall_congr' fun b => forall_congr' fun keyVals => imp_congr_right fun _ => ?_
  rw [Stray, not_or]
  simp only [Option.mem_some_iff, exists_eq_left']

/-- A range query of a tree. -/
theorem Represents.range {t : Node n V} {m : Key n → Option V} {start stop : Key n} (h : Represents t m)
    (hle : start ≤ stop) :
    (Art.range t start stop = none ↔ ¬ NoStrayLeaf start stop t) ∧ ∀ calls, Art.range t start stop = some calls →
      (calls.map KV.key).Nodup ∧ ∀ k v, ⟨k, v⟩ ∈ calls ↔ m k = some v ∧ start ≤ k ∧ k ≤ stop := by
  have hbounds : Bounds 0 (fun _ : Key n => True) (some start) (some stop) := by
    refine ⟨fun _ _ _ _ i hi => absurd hi (Nat.not_lt_zero i), fun _ _ _ _ i hi => absurd hi (Nat.not_lt_zero i),
      fun s hs e he => ?_⟩
    cases hs
    cases he
    exact hle
  obtain ⟨hnone, hsome⟩ := rangeInternal_spec h.root.good context_root le_rfl hbounds fun hleaf => by
    obtain ⟨_, _, rfl⟩ := h.root.full
    cases hleaf
  refine ⟨hnone.trans ?_, fun calls hcalls => ?_⟩
  · rw [noStrayLeaf_iff]
    push Not
    rfl
  · rw [hsome calls hcalls]
    refine ⟨h.nodup.sublist (List.Sublist.map KV.key List.filter_sublist), fun k v => ?_⟩
    rw [List.mem_filter, h.mem, decide_eq_true_eq, Within]
    simp only [Option.mem_some_iff, forall_eq']

/-- In a tree that is reached by insertions and removals, a range query reads inside of the leaves and calls `add` once
for every stored key in the range and for no other, if and only if no leaf is stray. -/
theorem art_range_exact {attempts : Nat} {key : Key n} {ops : List (Op n V)} {t : Node n V} {rs : List (Option Bool)}
    {start stop : Key n} (hn : 0 < n) (hrun : run (attempts + 1) ops (empty key) = .ok (t, rs)) (hle : start ≤ stop) :
    (∃ calls, range t start stop = some calls ∧ (calls.map KV.key).Nodup ∧
      ∀ k v, ⟨k, v⟩ ∈ calls ↔ (acts ops fun _ => none).1 k = some v ∧ start ≤ k ∧ k ≤ stop) ↔
      NoStrayLeaf start stop t := by
  obtain ⟨hnone, hsome⟩ := ((represents_empty hn key).run_ok hrun).1.range hle
  constructor
  · intro h
    obtain ⟨calls, hcalls, _⟩ := h
    by_contra hstray
    rw [hnone.mpr hstray] at hcalls
    cases hcalls
  · intro hstray
    cases hcalls : range t start stop with
    | none => exact absurd hstray (hnone.mp hcalls)
    | some calls => exact ⟨calls, rfl, hsome calls hcalls⟩

/-- In the tree with the key 5, the query from 10 to 20 reads past the leaf. -/
theorem single_misses :
    ∃ t rs, run 1 [.insert 5 50] (empty 0 : Node 8 Nat) = .ok (t, rs) ∧ range t 10 20 = none := by
  have hnone : (run 1 [.insert 5 50] (empty 0 : Node 8 Nat) >>= fun p => pure (range p.1 10 20).isNone).toOption =
      some true := by decide +kernel
  obtain ⟨p, hrun⟩ := exists_of_faultOf
    (show faultOf (run 1 [.insert 5 50] (empty 0 : Node 8 Nat)) = none by decide +kernel)
  rw [hrun] at hnone
  exact ⟨p.1, p.2, hrun, Option.isNone_iff_eq_none.mp (Option.some.inj hnone)⟩

theorem art_range_exact_run :
    ∃ t rs, run 1 [.insert 5 50] (empty 0 : Node 8 Nat) = .ok (t, rs) ∧ ¬ NoStrayLeaf 10 20 t := by
  obtain ⟨t, rs, hrun, hrange⟩ := single_misses
  refine ⟨t, rs, hrun, fun hstray => ?_⟩
  obtain ⟨calls, hcalls, _⟩ := (art_range_exact (by decide) hrun (by decide)).mpr hstray
  rw [hrange] at hcalls
  cases hcalls

/-- A range query reads outside of a leaf. -/
theorem range_reads_outside :
    ¬ ∀ (ops : List (Op 8 Nat)) (t : Node 8 Nat) (rs : List (Option Bool)) (start stop : Key 8),
      run 1 ops (empty 0) = .ok (t, rs) → start ≤ stop →
        ∃ calls, range t start stop = some calls ∧ (calls.map KV.key).Nodup ∧
          ∀ k v, ⟨k, v⟩ ∈ calls ↔ (acts ops fun _ => none).1 k = some v ∧ start ≤ k ∧ k ≤ stop := by
  intro hall
  obtain ⟨t, rs, hrun, hrange⟩ := single_misses
  obtain ⟨calls, hcalls, _⟩ := hall [.insert 5 50] t rs 10 20 hrun (by decide)
  rw [hrange] at hcalls
  cases hcalls

end Verlib.Art
