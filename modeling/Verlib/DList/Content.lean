import Verlib.DList.Operations
import Verlib.OrderedMap.Renaming

/-!
# The content of the doubly linked list

The nodes on the way from the head to the tail are linked in both directions, and their keys increase. A search ends at
the first of them whose key is not smaller, and `prev` leads from it back to the last one whose key is.
-/

namespace Verlib.DList

open Linked OrderedMap

variable {K V : Type} [LinearOrder K]

/-- The nodes between head and tail are `ns`, and the tail is `e`. -/
structure Nodes (m : Memory K V) (ns : List Nat) (e : Nat) : Prop where
  doubly : Doubly m.next m.prev (root :: ns ++ [e])
  nodup : (root :: ns ++ [e]).Nodup
  alloc : ∀ a ∈ root :: ns ++ [e], a < m.fresh
  isEnd_root : m.isEnd root = true
  isEnd_last : m.isEnd e = true
  isEnd : ∀ a ∈ ns, m.isEnd a = false
  removed : ∀ a ∈ root :: ns, m.removed a = false
  sorted : ns.Pairwise fun a b => m.key a < m.key b

/-- The walk of `print` over the nodes passes a key with this value. -/
def Memory.Contains (m : Memory K V) (k : K) (v : V) : Prop :=
  ∃ ns, Ends (fun fuel => gather m.next m.isEnd fuel (m.next root)) ns ∧ ∃ a ∈ ns, m.key a = k ∧ m.value a = v

/-- A key with its value in some nodes. -/
def Memory.Holds (m : Memory K V) (ns : List Nat) (k : K) (v : V) : Prop :=
  ∃ a ∈ ns, m.key a = k ∧ m.value a = v

/-- The list holds a map. -/
structure Represents (m : Memory K V) (f : K → Option V) (ns : List Nat) (e : Nat) : Prop where
  nodes : Nodes m ns e
  mem : ∀ k v, m.Holds ns k v ↔ f k = some v

section

variable {m : Memory K V} {f : K → Option V} {ns low high : List Nat} {e prev next : Nat} {k : K} {v : V} {fuel : Nat}
  {opLess : K → K → Bool}

/-- A new list. -/
theorem represents_init (m : Memory K V) : Represents (init m) (fun _ => none) [] 1 := by
  refine ⟨⟨?_, ?_, ?_, ?_, ?_, ?_, ?_, List.Pairwise.nil⟩, fun k v => ?_⟩
  · simp [Doubly, Chain, init, Memory.newEnd, Memory.setPrev, root]
  · simp [root]
  · simp [init, Memory.newEnd, Memory.setPrev, root]
  · simp [init, Memory.newEnd, Memory.setPrev, root]
  · simp [init, Memory.newEnd, Memory.setPrev]
  · simp
  · simp [init, Memory.newEnd, Memory.setPrev, root]
  · simp [Memory.Holds]

/-- The place of a key: it comes after `prev` and not after `next`. -/
structure Located (ns : List Nat) (e : Nat) (low high : List Nat) (prev next : Nat) : Prop where
  nodes : ns = low ++ high
  prev : ∃ xs, root :: low = xs ++ [prev]
  next : ∃ ys, high ++ [e] = next :: ys

theorem exists_located (low high : List Nat) (e : Nat) : ∃ prev next, Located (low ++ high) e low high prev next :=
  ⟨_, _, rfl, ⟨_, (List.dropLast_append_getLast (List.cons_ne_nil _ _)).symm⟩,
    ⟨_, (List.cons_head_tail (by simp)).symm⟩⟩

/-- The nodes around a place. -/
theorem Located.around (hloc : Located ns e low high prev next) :
    ∃ xs ys, root :: ns ++ [e] = xs ++ prev :: next :: ys ∧ root :: low = xs ++ [prev] ∧ high ++ [e] = next :: ys := by
  obtain ⟨rfl, ⟨xs, hprev⟩, ⟨ys, hnext⟩⟩ := hloc
  refine ⟨xs, ys, ?_, hprev, hnext⟩
  rw [← List.cons_append, List.append_assoc, hnext, hprev]
  simp

/-- The nodes around a place lead to each other. -/
theorem Nodes.linked (h : Nodes m ns e) (hloc : Located ns e low high prev next) :
    m.next prev = next ∧ m.prev next = prev ∧ m.removed prev = false := by
  obtain ⟨xs, ys, heq, hprev, -⟩ := hloc.around
  obtain ⟨hchain, hback⟩ := h.doubly
  rw [heq] at hchain hback
  refine ⟨(chain_append.mp hchain).2.1, ?_, h.removed prev ?_⟩
  · have hback : Chain m.prev (ys.reverse ++ next :: prev :: xs.reverse) := by simpa using hback
    exact (chain_append.mp hback).2.1
  · have hmem : prev ∈ root :: low := by simp [hprev]
    rw [hloc.nodes, ← List.cons_append]
    exact List.mem_append_left _ hmem

/-- The search for the place of a key. -/
theorem Nodes.seek (h : Nodes m ns e) (hloc : Located ns e low high prev next) (hlow : ∀ a ∈ low, m.key a < k)
    (hhigh : ∀ a ∈ high, k ≤ m.key a) (hfuel : ns.length < fuel) :
    Linked.seek m.next (fun next => m.isEnd next || !decide (m.key next < k)) fuel (m.next root) = some next := by
  obtain ⟨rfl, -, ⟨ys, hnext⟩⟩ := hloc
  exact h.doubly.1.seek_cut (fun a ha => ⟨h.isEnd a (List.mem_append_left _ ha), hlow a ha⟩) hhigh h.isEnd_last hnext
    hfuel

/-- What a search tells about a key. -/
structure Found (m : Memory K V) (f : K → Option V) (ns : List Nat) (e : Nat) (k : K) (low high : List Nat)
    (prev next : Nat) : Prop where
  located : Located ns e low high prev next
  low : ∀ a ∈ low, m.key a < k
  high : ∀ a ∈ high, k ≤ m.key a
  search : ∀ fuel, ns.length < fuel → findLocation fuel m k = some next
  linked : m.next prev = next ∧ m.prev next = prev ∧ m.removed prev = false
  stored : (f k).isSome ↔ m.isEnd next = false ∧ ¬ k < m.key next

/-- The end of a search. -/
theorem Represents.search (h : Represents m f ns e) (k : K) :
    ∃ low high prev next, Found m f ns e k low high prev next := by
  obtain ⟨low, high, rfl, hlow, hhigh⟩ := exists_cut h.nodes.sorted k
  obtain ⟨prev, next, hloc⟩ := exists_located low high e
  refine ⟨low, high, prev, next, hloc, hlow, hhigh, fun fuel hfuel => h.nodes.seek hloc hlow hhigh hfuel,
    h.nodes.linked hloc, ?_⟩
  obtain ⟨ys, hnext⟩ := hloc.next
  have hsorted := (List.pairwise_append.mp h.nodes.sorted).2.1
  constructor
  · intro hsome
    obtain ⟨v, hv⟩ := Option.isSome_iff_exists.mp hsome
    obtain ⟨a, ha, hk, -⟩ := (h.mem k v).mpr hv
    have ha : a ∈ high := by
      cases List.mem_append.mp ha with
      | inl ha => exact absurd hk (hlow a ha).ne
      | inr ha => exact ha
    cases high with
    | nil => cases ha
    | cons b high =>
        cases hnext
        refine ⟨h.nodes.isEnd next (by simp), ?_⟩
        rw [not_lt, ← hk]
        cases List.mem_cons.mp ha with
        | inl heq => rw [heq]
        | inr ha => exact ((List.pairwise_cons.mp hsorted).1 a ha).le
  · intro hstored
    obtain ⟨hend, hle⟩ := hstored
    cases high with
    | nil =>
        cases hnext
        rw [h.nodes.isEnd_last] at hend
        cases hend
    | cons b high =>
        cases hnext
        have hk : m.key next = k := le_antisymm (not_lt.mp hle) (hhigh next (by simp))
        rw [(h.mem k (m.value next)).mp ⟨next, by simp, hk, rfl⟩]
        rfl

/-- Keys that are not stored. -/
theorem Found.high_of_absent (hfound : Found m f ns e k low high prev next) (h : Represents m f ns e)
    (hk : f k = none) : ∀ a ∈ high, k < m.key a := by
  intro a ha
  refine lt_of_le_of_ne (hfound.high a ha) fun heq => ?_
  have hsome := (h.mem k (m.value a)).mp
    ⟨a, by rw [hfound.located.nodes]; exact List.mem_append_right _ ha, heq.symm, rfl⟩
  rw [hk] at hsome
  cases hsome

/-- The node of a key that is stored. -/
theorem Found.high_of_stored (hfound : Found m f ns e k low high prev next) (h : Represents m f ns e)
    (hk : f k = some v) : m.key next = k ∧ m.value next = v ∧ ∃ high', high = next :: high' := by
  obtain ⟨hend, hle⟩ := hfound.stored.mp (by rw [hk]; rfl)
  obtain ⟨ys, hnext⟩ := hfound.located.next
  have hhigh := hfound.high
  cases high with
  | nil =>
      cases hnext
      rw [h.nodes.isEnd_last] at hend
      cases hend
  | cons a high =>
      cases hnext
      have hkey : m.key next = k := le_antisymm (not_lt.mp hle) (hhigh next (by simp))
      have hsome := (h.mem k (m.value next)).mp ⟨next, by rw [hfound.located.nodes]; simp, hkey, rfl⟩
      rw [hk, Option.some.injEq] at hsome
      exact ⟨hkey, hsome.symm, high, rfl⟩

/-- The path with a new node. -/
theorem Located.insert (hloc : Located ns e low high prev next) (n : Nat) :
    ∃ xs ys, root :: ns ++ [e] = xs ++ prev :: next :: ys ∧
      root :: (low ++ n :: high) ++ [e] = xs ++ prev :: n :: next :: ys := by
  obtain ⟨xs, ys, heq, hprev, hnext⟩ := hloc.around
  refine ⟨xs, ys, heq, ?_⟩
  rw [← List.cons_append, hprev, List.append_assoc, List.cons_append, hnext]
  simp

/-- The body of `insert` puts its key between two nodes. -/
theorem Found.insert (hfound : Found m f ns e k low high prev next) (h : Represents m f ns e) (hk : f k = none)
    (v : V) :
    Represents (((m.newNode k v next prev).setNext prev m.fresh).setPrev next m.fresh)
      (Function.update f k (some v)) (low ++ m.fresh :: high) e := by
  have hhigh := hfound.high_of_absent h hk
  obtain ⟨xs, ys, heq, hnew⟩ := hfound.located.insert m.fresh
  obtain rfl := hfound.located.nodes
  have hfresh : ∀ a ∈ root :: (low ++ high) ++ [e], a ≠ m.fresh := fun a ha => (h.nodes.alloc a ha).ne
  have hmem : ∀ {a}, a ∈ low ++ high → a ∈ root :: (low ++ high) ++ [e] := fun ha =>
    List.mem_append_left _ (List.mem_cons_of_mem _ ha)
  have hkeep : ∀ {β : Type} (g : Nat → β) (x : β), ∀ a ∈ root :: (low ++ high) ++ [e],
      Function.update g m.fresh x a = g a := fun g x a ha => Function.update_of_ne (hfresh a ha) ..
  have hperm : (root :: (low ++ m.fresh :: high) ++ [e]).Perm (m.fresh :: (root :: (low ++ high) ++ [e])) := by
    simpa using (@List.perm_middle Nat m.fresh (root :: low) (high ++ [e]))
  have hnodes : ∀ a, a ∈ low ++ m.fresh :: high ↔ a = m.fresh ∨ a ∈ low ++ high := fun a => by
    simp only [List.mem_append, List.mem_cons]
    exact or_left_comm
  have hkey := hkeep m.key k
  refine ⟨⟨?_, ?_, fun a ha => ?_, ?_, ?_, fun a ha => ?_, fun a ha => ?_, ?_⟩, fun k' v' => ?_⟩
  · rw [hnew]
    have hdoubly := h.nodes.doubly
    have hnodup := h.nodes.nodup
    rw [heq] at hdoubly hnodup
    exact hdoubly.insert hnodup (by rw [← heq]; exact fun ha => hfresh _ ha rfl)
  · exact hperm.nodup_iff.mpr (List.nodup_cons.mpr ⟨fun ha => hfresh _ ha rfl, h.nodes.nodup⟩)
  · cases List.mem_cons.mp (hperm.mem_iff.mp ha) with
    | inl heq => rw [heq]; exact Nat.lt_succ_self _
    | inr ha => exact (h.nodes.alloc a ha).trans (Nat.lt_succ_self _)
  · exact (hkeep m.isEnd false root (by simp)).trans h.nodes.isEnd_root
  · exact (hkeep m.isEnd false e (by simp)).trans h.nodes.isEnd_last
  · cases (hnodes a).mp ha with
    | inl heq => rw [heq]; exact Function.update_self ..
    | inr ha => exact (hkeep m.isEnd false a (hmem ha)).trans (h.nodes.isEnd a ha)
  · rw [List.mem_cons, hnodes, or_left_comm, ← List.mem_cons] at ha
    cases ha with
    | inl heq => rw [heq]; exact Function.update_self ..
    | inr ha =>
        exact (hkeep m.removed false a (List.mem_append_left _ ha)).trans (h.nodes.removed a ha)
  · obtain ⟨hsortedLow, hsortedHigh, hcross⟩ := List.pairwise_append.mp h.nodes.sorted
    have hlow : ∀ a ∈ low, Function.update m.key m.fresh k a = m.key a := fun a ha =>
      hkey a (hmem (List.mem_append_left _ ha))
    have hhigh' : ∀ a ∈ high, Function.update m.key m.fresh k a = m.key a := fun a ha =>
      hkey a (hmem (List.mem_append_right _ ha))
    show (low ++ m.fresh :: high).Pairwise fun a b =>
      Function.update m.key m.fresh k a < Function.update m.key m.fresh k b
    refine List.pairwise_append.mpr ⟨?_, List.pairwise_cons.mpr ⟨fun b hb => ?_, ?_⟩, fun a ha b hb => ?_⟩
    · exact hsortedLow.imp_of_mem fun ha hb hab => by rwa [hlow _ ha, hlow _ hb]
    · rw [Function.update_self, hhigh' b hb]
      exact hhigh b hb
    · exact hsortedHigh.imp_of_mem fun ha hb hab => by rwa [hhigh' _ ha, hhigh' _ hb]
    · rw [hlow a ha]
      cases List.mem_cons.mp hb with
      | inl heq => rw [heq, Function.update_self]; exact hfound.low a ha
      | inr hb => rw [hhigh' b hb]; exact hcross a ha b hb
  · have hold : (∃ a ∈ low ++ high, Function.update m.key m.fresh k a = k' ∧ Function.update m.value m.fresh v a = v') ↔
        f k' = some v' := by
      rw [← h.mem]
      refine exists_congr fun a => and_congr_right fun ha => ?_
      rw [hkey a (hmem ha), hkeep m.value v a (hmem ha)]
    show (∃ a ∈ low ++ m.fresh :: high,
      Function.update m.key m.fresh k a = k' ∧ Function.update m.value m.fresh v a = v') ↔ _
    simp only [hnodes, or_and_right, exists_or, exists_eq_left, hold, Function.update_self]
    rw [Function.update_apply]
    by_cases heq : k' = k
    · subst heq
      rw [if_pos rfl, hk, Option.some.injEq]
      simp
    · rw [if_neg heq]
      exact or_iff_right fun hk' => heq hk'.1.symm

/-- The body of `remove` leaves the node of its key out. -/
theorem Found.remove (hfound : Found m f ns e k low high prev next) (h : Represents m f ns e) (hk : f k = some v) :
    ∃ ns', Represents (((m.setRemoved next).setNext prev (m.next next)).setPrev (m.next next) prev)
      (Function.update f k none) ns' e := by
  obtain ⟨hkey, hvalue, high, rfl⟩ := hfound.high_of_stored h hk
  obtain ⟨xs, ys, heq, hprev, hnext⟩ := hfound.located.around
  obtain rfl := hfound.located.nodes
  have hafter : ∃ after ys', high ++ [e] = after :: ys' := ⟨_, _, (List.cons_head_tail (by simp)).symm⟩
  obtain ⟨after, ys', hafter⟩ := hafter
  obtain rfl : ys = after :: ys' := by
    rw [List.cons_append, hafter] at hnext
    exact (List.cons.inj hnext).2.symm
  have hdoubly := h.nodes.doubly
  have hnodup := h.nodes.nodup
  rw [heq] at hdoubly hnodup
  have hnn : m.next next = after := (chain_cons.mp (chain_append.mp hdoubly.1).2.2).1
  have hnew : root :: (low ++ high) ++ [e] = xs ++ prev :: after :: ys' := by
    rw [← List.cons_append, hprev, List.append_assoc, hafter]
    simp
  have hsub : (low ++ high).Sublist (low ++ next :: high) := (List.sublist_cons_self next high).append_left low
  have hsub' : (root :: (low ++ high) ++ [e]).Sublist (root :: (low ++ next :: high) ++ [e]) :=
    (hsub.cons_cons root).append_right [e]
  have hne : ∀ a ∈ root :: (low ++ high), a ≠ next := by
    have hperm : (root :: (low ++ next :: high) ++ [e]).Perm (next :: (root :: (low ++ high) ++ [e])) := by
      simpa using (@List.perm_middle Nat next (root :: low) (high ++ [e]))
    intro a ha heq
    rw [heq] at ha
    exact (List.nodup_cons.mp (hperm.nodup_iff.mp h.nodes.nodup)).1 (List.mem_append_left _ ha)
  refine ⟨low ++ high, ⟨?_, h.nodes.nodup.sublist hsub', fun a ha => h.nodes.alloc a (hsub'.subset ha),
    h.nodes.isEnd_root, h.nodes.isEnd_last, fun a ha => h.nodes.isEnd a (hsub.subset ha), fun a ha => ?_,
    h.nodes.sorted.sublist hsub⟩, fun k' v' => ?_⟩
  · rw [hnew, hnn]
    exact hdoubly.remove hnodup
  · exact (Function.update_of_ne (hne a ha) ..).trans (h.nodes.removed a ((hsub.cons_cons root).subset ha))
  · rw [Function.update_apply]
    have hsplit : ∀ a, a ∈ low ++ next :: high ↔ a = next ∨ a ∈ low ++ high := fun a => by
      simp only [List.mem_append, List.mem_cons]
      exact or_left_comm
    by_cases heq : k' = k
    · rw [if_pos heq]
      refine iff_of_false (fun hholds => ?_) fun hnone => by cases hnone
      obtain ⟨a, ha, hkey', -⟩ := hholds
      have hkey' : m.key a = k := hkey'.trans heq
      obtain ⟨-, hsortedHigh, hcross⟩ := List.pairwise_append.mp h.nodes.sorted
      cases List.mem_append.mp ha with
      | inl ha => exact (hcross a ha next (by simp)).ne (hkey'.trans hkey.symm)
      | inr ha => exact ((List.pairwise_cons.mp hsortedHigh).1 a ha).ne (hkey.trans hkey'.symm)
    · rw [if_neg heq, ← h.mem]
      constructor
      · intro hholds
        obtain ⟨a, ha, hfields⟩ := hholds
        exact ⟨a, hsub.subset ha, hfields⟩
      · intro hholds
        obtain ⟨a, ha, hfields⟩ := hholds
        refine ⟨a, ((hsplit a).mp ha).resolve_left fun hnext => heq ?_, hfields⟩
        rw [← hfields.1, hnext, hkey]

/-- The keys that a walk passes. -/
theorem Represents.contains (h : Represents m f ns e) : m.Contains k v ↔ f k = some v := by
  have hends : Ends (fun fuel => gather m.next m.isEnd fuel (m.next root)) ns :=
    ⟨ns.length + 1, fun fuel hfuel => h.nodes.doubly.1.walk h.nodes.isEnd h.nodes.isEnd_last hfuel⟩
  rw [← h.mem]
  constructor
  · intro hcontains
    obtain ⟨ns', hends', hholds⟩ := hcontains
    rw [hends'.unique hends] at hholds
    exact hholds
  · exact fun hholds => ⟨ns, hends, hholds⟩

/-- The calls of `add` of a range query. -/
theorem Represents.range (h : Represents m f ns e) (start stop : K) :
    ∃ calls, Ends (fun fuel => DList.range fuel m start stop) calls ∧
      ∀ k v, (k, v) ∈ calls ↔ f k = some v ∧ start ≤ k ∧ k ≤ stop := by
  refine ⟨(ns.filter fun a => decide (start ≤ m.key a ∧ m.key a ≤ stop)).map fun a => (m.key a, m.value a),
    ⟨ns.length + 1, fun fuel hfuel => ?_⟩, fun k v => ?_⟩
  · obtain ⟨first, hseek, hgather⟩ := h.nodes.doubly.1.range h.nodes.sorted h.nodes.isEnd h.nodes.isEnd_last start
      stop hfuel
    show DList.range fuel m start stop = _
    rw [DList.range, hseek, Option.bind_eq_bind, Option.bind_some, hgather]
    rfl
  · rw [← h.mem, List.mem_map]
    constructor
    · intro hmem
      obtain ⟨a, ha, heq⟩ := hmem
      obtain ⟨rfl, rfl⟩ := Prod.mk.inj heq
      obtain ⟨ha, hrange⟩ := List.mem_filter.mp ha
      exact ⟨⟨a, ha, rfl, rfl⟩, of_decide_eq_true hrange⟩
    · intro hmem
      obtain ⟨⟨a, ha, rfl, rfl⟩, hrange⟩ := hmem
      exact ⟨a, List.mem_filter.mpr ⟨ha, decide_eq_true hrange⟩, rfl⟩

/-! ## Operations -/

/-- The searches of `find_`. -/
theorem Represents.find (h : Represents m f ns e) (k : K) (hfuel : ns.length < fuel) :
    DList.find fuel m k = some (f k) := by
  obtain ⟨low, high, prev, next, hfound⟩ := h.search k
  simp only [DList.find, hfound.search fuel hfuel, bind, Option.bind_some, pure]
  cases hk : f k with
  | none => rw [if_neg (mt hfound.stored.mpr (by simp [hk]))]
  | some v =>
      obtain ⟨-, hvalue, -⟩ := hfound.high_of_stored h hk
      rw [if_pos (hfound.stored.mp (by rw [hk]; rfl)), hvalue]

omit [LinearOrder K] in
/-- One attempt that ends the loop. -/
theorem tryLoop_some {attempt : Memory K V → Option (Memory K V × Option Bool)} {m' : Memory K V} {b : Bool}
    (h : attempt m = some (m', some b)) (hfuel : 0 < fuel) : tryLoop attempt fuel m = some (m', b) := by
  obtain ⟨fuel, rfl⟩ := Nat.exists_eq_add_of_lt hfuel
  simp [tryLoop, h]

omit [LinearOrder K] in
/-- An attempt that changes nothing and asks for another one. -/
theorem tryLoop_none {attempt : Memory K V → Option (Memory K V × Option Bool)} (h : attempt m = some (m, none))
    (fuel : Nat) : tryLoop attempt fuel m = none := by
  induction fuel with
  | zero => rfl
  | succ fuel ih => simp [tryLoop, h, ih]

/-- Removal, whether or not the key is there. -/
theorem Found.exists_remove (hfound : Found m f ns e k low high prev next) (h : Represents m f ns e) :
    ∃ m' ns', (∀ fuel, ns.length < fuel → DList.remove fuel k m = some (m', (f k).isSome)) ∧
      Represents m' (if (f k).isSome then Function.update f k none else f) ns' e := by
  obtain ⟨hnext, hprev, hremoved⟩ := hfound.linked
  have hcond : (m.isEnd next = true ∨ k < m.key next) ↔ ¬ (f k).isSome := by
    rw [hfound.stored, not_and_or, not_not, Bool.not_eq_false]
  have htry : ∀ fuel, ns.length < fuel → tryRemove fuel k m =
      if (f k).isSome then
        some (((m.setRemoved next).setNext prev (m.next next)).setPrev (m.next next) prev, some true)
      else some (m, some false) := by
    intro fuel hfuel
    simp only [tryRemove, hfound.search fuel hfuel, bind, Option.bind_some, pure, hprev, hnext, hremoved, hcond]
    by_cases hsome : (f k).isSome
    · simp [hsome]
    · simp [hsome]
  cases hk : f k with
  | none =>
      refine ⟨m, ns, fun fuel hfuel => tryLoop_some ?_ (Nat.zero_lt_of_lt hfuel), h⟩
      rw [htry fuel hfuel, hk]
      rfl
  | some v =>
      obtain ⟨ns', h'⟩ := hfound.remove h hk
      refine ⟨_, ns', fun fuel hfuel => tryLoop_some ?_ (Nat.zero_lt_of_lt hfuel), h'⟩
      rw [htry fuel hfuel, hk]
      rfl

/-- Insertion of a key that is there. -/
theorem Represents.insert_stored (opLess : K → K → Bool) (h : Represents m f ns e) (hk : (f k).isSome) (v : V) (hfuel : ns.length < fuel) :
    DList.insert opLess fuel k v m = some (m, false) := by
  obtain ⟨low, high, prev, next, hfound⟩ := h.search k
  obtain ⟨hnext, hprev, hremoved⟩ := hfound.linked
  refine tryLoop_some ?_ (Nat.zero_lt_of_lt hfuel)
  simp only [tryInsert, hfound.search fuel hfuel, bind, Option.bind_some, pure, hprev, hnext, hremoved,
    if_pos (hfound.stored.mp hk), and_self, if_true]

/-- What `try_insert` asks about the node before the new one, if the key is not there. -/
theorem Found.tryInsert_absent (opLess : K → K → Bool) (hfound : Found m f ns e k low high prev next) (hk : f k = none)
    (v : V) (hfuel : ns.length < fuel) :
    tryInsert opLess fuel k v m =
      if m.isEnd prev = true ∨ opLess (m.key prev) k = true then
        some (((m.newNode k v next prev).setNext prev m.fresh).setPrev next m.fresh, some true)
      else some (m, none) := by
  obtain ⟨hnext, hprev, hremoved⟩ := hfound.linked
  simp only [tryInsert, hfound.search fuel hfuel, bind, Option.bind_some, pure, hprev, hnext, hremoved,
    if_neg (mt hfound.stored.mpr (by simp [hk])), and_self, if_true]

/-- The node before a new key: it is the head, or the node of the largest key that is smaller. -/
theorem Found.before (hfound : Found m f ns e k low high prev next) (h : Represents m f ns e) :
    (low = [] ∧ m.isEnd prev = true) ∨ ∃ low', low = low' ++ [prev] ∧ m.isEnd prev = false := by
  obtain ⟨xs, hprev⟩ := hfound.located.prev
  cases List.eq_nil_or_concat low with
  | inl hnil =>
      subst hnil
      have hroot : prev = root := by simpa using (congrArg List.getLast? hprev).symm
      exact .inl ⟨rfl, by rw [hroot]; exact h.nodes.isEnd_root⟩
  | inr hconcat =>
      obtain ⟨low', a, rfl⟩ := hconcat
      rw [List.concat_eq_append, ← List.cons_append] at hprev
      obtain ⟨-, ha⟩ := List.append_inj' hprev rfl
      obtain rfl : a = prev := by simpa using ha
      refine .inr ⟨low', List.concat_eq_append .., ?_⟩
      exact h.nodes.isEnd a (by rw [hfound.located.nodes]; simp)

end

/-! ## The order of the keys -/

/-- Where `Compare` puts a new key right after another one, `operator<` puts it after that one too. -/
def Ordered (opLess : K → K → Bool) (m : Memory K V) : Op K V → Prop
  | .insert k _ => (∀ v, ¬ m.Contains k v) → ∀ k₀ v₀, m.Contains k₀ v₀ → k₀ < k →
      (∀ k₁ v₁, m.Contains k₁ v₁ → ¬ (k₀ < k₁ ∧ k₁ < k)) → opLess k₀ k = true
  | _ => True

section

variable {m : Memory K V} {f : K → Option V} {ns low high : List Nat} {e prev next : Nat} {k : K} {v : V}
  {opLess : K → K → Bool}

theorem Found.ordered_iff (hfound : Found m f ns e k low high prev next) (h : Represents m f ns e) (hk : f k = none)
    (v : V) : Ordered opLess m (.insert k v) ↔ m.isEnd prev = true ∨ opLess (m.key prev) k = true := by
  have habsent : ∀ v, ¬ m.Contains k v := fun v hcontains => by
    rw [h.contains, hk] at hcontains
    cases hcontains
  have hlow : ∀ k₀, (∃ v₀, m.Contains k₀ v₀) → k₀ < k → ∃ a ∈ low, m.key a = k₀ := by
    intro k₀ hcontains hlt
    obtain ⟨v₀, hcontains⟩ := hcontains
    obtain ⟨a, ha, rfl, -⟩ := (h.mem k₀ v₀).mpr (h.contains.mp hcontains)
    rw [hfound.located.nodes] at ha
    cases List.mem_append.mp ha with
    | inl ha => exact ⟨a, ha, rfl⟩
    | inr ha => exact absurd (hfound.high a ha) (not_le.mpr hlt)
  have hkeys : ∀ a ∈ low, m.Contains (m.key a) (m.value a) := fun a ha => by
    rw [h.contains, ← h.mem]
    exact ⟨a, by rw [hfound.located.nodes]; exact List.mem_append_left _ ha, rfl, rfl⟩
  have hsorted := h.nodes.sorted
  rw [hfound.located.nodes] at hsorted
  cases hfound.before h with
  | inl hroot =>
      refine iff_of_true (fun _ k₀ v₀ hcontains hlt => ?_) (.inl hroot.2)
      obtain ⟨a, ha, -⟩ := hlow k₀ ⟨v₀, hcontains⟩ hlt
      rw [hroot.1] at ha
      cases ha
  | inr hprev =>
      obtain ⟨low', rfl, hend⟩ := hprev
      have hlast : ∀ a ∈ low' ++ [prev], m.key a ≤ m.key prev := by
        have hcross := (List.pairwise_append.mp (List.pairwise_append.mp hsorted).1).2.2
        intro a ha
        cases List.mem_append.mp ha with
        | inl ha => exact (hcross a ha prev (by simp)).le
        | inr ha => rw [List.mem_singleton.mp ha]
      rw [hend, or_iff_right Bool.false_ne_true]
      constructor
      · intro hordered
        refine hordered habsent _ _ (hkeys prev (by simp)) (hfound.low prev (by simp)) fun k₁ v₁ hcontains hbetween => ?_
        obtain ⟨a, ha, rfl⟩ := hlow k₁ ⟨v₁, hcontains⟩ hbetween.2
        exact absurd (hlast a ha) (not_le.mpr hbetween.1)
      · intro hless _ k₀ v₀ hcontains hlt hbetween
        obtain ⟨a, ha, rfl⟩ := hlow k₀ ⟨v₀, hcontains⟩ hlt
        have heq : m.key a = m.key prev := by
          refine le_antisymm (hlast a ha) (not_lt.mp fun hlt' => ?_)
          exact hbetween _ _ (hkeys prev (by simp)) ⟨hlt', hfound.low prev (by simp)⟩
        rw [heq]
        exact hless

/-- The list implements a map where the two orders say the same about a new key and the one before it; elsewhere
`insert` tries again for ever. -/
theorem implements (opLess : K → K → Bool) :
    Implements (fun fuel => perform opLess fuel) Memory.Contains (fun (m : Memory K V) f => ∃ ns e, Represents m f ns e)
      (Ordered opLess) := by
  refine ⟨fun m f h k v => ?_, fun m f op h hguard => ?_, fun m f op h hguard => ?_⟩
  · obtain ⟨ns, e, h⟩ := h
    exact h.contains
  · obtain ⟨ns, e, h⟩ := h
    cases op with
    | insert k v =>
        rw [Op.act_insert]
        cases hk : f k with
        | none =>
            obtain ⟨low, high, prev, next, hfound⟩ := h.search k
            refine ⟨_, ⟨ns.length + 1, fun fuel hfuel => ?_⟩, _, e, hfound.insert h hk v⟩
            have htry := hfound.tryInsert_absent opLess hk v hfuel
            rw [if_pos ((hfound.ordered_iff h hk v).mp hguard)] at htry
            simp [perform, DList.insert, tryLoop_some htry (Nat.zero_lt_of_lt hfuel)]
        | some old =>
            refine ⟨m, ⟨ns.length + 1, fun fuel hfuel => ?_⟩, ns, e, h⟩
            simp [perform, h.insert_stored opLess (by rw [hk]; rfl) v hfuel]
    | remove k =>
        rw [Op.act_remove]
        obtain ⟨low, high, prev, next, hfound⟩ := h.search k
        obtain ⟨m', ns', hm'⟩ := hfound.exists_remove h
        exact ⟨m', ⟨ns.length + 1, fun fuel hfuel => by simp [perform, hm'.1 fuel hfuel]⟩, ns', e, hm'.2⟩
    | find k => exact ⟨m, ⟨ns.length + 1, fun fuel hfuel => by simp [perform, h.find k hfuel, Op.act]⟩, ns, e, h⟩
  · obtain ⟨ns, e, h⟩ := h
    cases op with
    | insert k v =>
        cases hk : f k with
        | none =>
            obtain ⟨low, high, prev, next, hfound⟩ := h.search k
            refine .inl ⟨ns.length + 1, fun fuel hfuel => ?_⟩
            have htry := hfound.tryInsert_absent opLess hk v hfuel
            rw [if_neg (mt (hfound.ordered_iff h hk v).mpr hguard)] at htry
            simp [perform, DList.insert, tryLoop_none htry]
        | some old => exact absurd (fun habsent => absurd (h.contains.mpr hk) (habsent old)) hguard
    | remove k => exact absurd trivial hguard
    | find k => exact absurd trivial hguard

end

end Verlib.DList
