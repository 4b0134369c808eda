import Mathlib.Data.List.Chain
import Mathlib.Data.List.Nodup
import Mathlib.Data.List.Infix
import Mathlib.Logic.Function.Basic
import Mathlib.Order.Lattice

/-!
# Linked nodes

Nodes that lead to each other, as a list, and what a write to one of the links does to it. A loop over such nodes goes
on until a node stops it.
-/

namespace Linked

variable {A : Type}

/-- The nodes follow each other. -/
def Chain (next : A → A) (p : List A) : Prop := p.IsChain fun a b => next a = b

/-- The nodes follow each other in both directions. -/
def Doubly (next prev : A → A) (p : List A) : Prop := Chain next p ∧ Chain prev p.reverse

/-- Follow the links until a node stops the search. -/
def seek (next : A → A) (stop : A → Bool) : Nat → A → Option A
  | 0, _ => none
  | fuel + 1, a => if stop a then some a else seek next stop fuel (next a)

/-- The nodes that are passed on the way to the one that stops. -/
def gather (next : A → A) (stop : A → Bool) : Nat → A → Option (List A)
  | 0, _ => none
  | fuel + 1, a => if stop a then some [] else (gather next stop fuel (next a)).map fun as => a :: as

/-! ## Chains -/

section

variable {next next' prev : A → A} {a b c n u w : A} {xs ys p : List A}

theorem chain_cons : Chain next (a :: b :: p) ↔ next a = b ∧ Chain next (b :: p) :=
  List.isChain_cons_cons

/-- A chain in two parts. -/
theorem chain_append : Chain next (xs ++ a :: b :: ys) ↔
    Chain next (xs ++ [a]) ∧ next a = b ∧ Chain next (b :: ys) :=
  List.isChain_append_cons_cons

/-- The links of all nodes but the last. -/
theorem Chain.congr (h : Chain next p) (heq : ∀ a ∈ p.dropLast, next' a = next a) : Chain next' p := by
  induction p with
  | nil => exact List.isChain_nil
  | cons a p ih =>
      cases p with
      | nil => exact List.isChain_singleton a
      | cons b p =>
          rw [List.dropLast_cons_cons, List.forall_mem_cons] at heq
          rw [chain_cons] at h ⊢
          exact ⟨heq.1.trans h.1, ih h.2 heq.2⟩

/-- Every node but the last leads to the node after it. -/
theorem Chain.map (h : Chain next p) : p.dropLast.map next = p.tail := by
  induction p with
  | nil => rfl
  | cons a p ih =>
      cases p with
      | nil => rfl
      | cons b p =>
          rw [chain_cons] at h
          rw [List.dropLast_cons_cons, List.map_cons, h.1, ih h.2]
          rfl

/-- Only one node leads to a given one. -/
theorem Chain.eq_of_next (h : Chain next p) (hnodup : p.Nodup) (hu : u ∈ p.dropLast) (hw : w ∈ p.dropLast)
    (heq : next u = next w) : u = w := by
  have hmap : (p.dropLast.map next).Nodup := by
    rw [h.map]
    exact hnodup.tail
  exact List.inj_on_of_nodup_map hmap hu hw heq

/-- A node on a chain, and the one that it leads to. -/
theorem Chain.split (h : Chain next p) (ha : a ∈ p.dropLast) : ∃ xs ys, p = xs ++ a :: next a :: ys := by
  obtain ⟨xs, rest, heq⟩ := List.append_of_mem ha
  have hne : p ≠ [] := by
    intro hnil
    rw [hnil] at ha
    cases ha
  have hp : p = xs ++ a :: (rest ++ [p.getLast hne]) := by
    conv_lhs => rw [← List.dropLast_append_getLast hne, heq]
    simp
  cases rest with
  | nil =>
      rw [hp, List.nil_append, chain_append] at h
      exact ⟨xs, [], by rw [h.2.1]; exact hp⟩
  | cons b rest =>
      rw [hp, List.cons_append, chain_append] at h
      exact ⟨xs, rest ++ [p.getLast hne], by rw [h.2.1]; exact hp⟩

section

variable [DecidableEq A]

/-- A new node between two others. -/
theorem Chain.insert (h : Chain next (xs ++ a :: b :: ys)) (hnodup : (xs ++ a :: b :: ys).Nodup)
    (hn : n ∉ xs ++ a :: b :: ys) :
    Chain (Function.update (Function.update next n b) a n) (xs ++ a :: n :: b :: ys) := by
  rw [chain_append] at h ⊢
  simp only [List.mem_append, List.mem_cons, not_or] at hn
  obtain ⟨hxs, hna, hnb, hys⟩ := hn
  simp only [List.nodup_append, List.nodup_cons, List.mem_cons, not_or] at hnodup
  obtain ⟨-, ⟨⟨hab, hays⟩, -⟩, hcross⟩ := hnodup
  refine ⟨h.1.congr fun u hu => ?_, Function.update_self .., chain_cons.mpr ⟨?_, h.2.2.congr fun u hu => ?_⟩⟩
  · have hu : u ∈ xs := by simpa using hu
    rw [Function.update_of_ne (hcross u hu a (.inl rfl)), Function.update_of_ne]
    rintro rfl
    exact hxs hu
  · rw [Function.update_of_ne hna, Function.update_self]
  · have hu : u ∈ b :: ys := List.mem_of_mem_dropLast hu
    rw [Function.update_of_ne, Function.update_of_ne]
    · rintro rfl
      exact (List.mem_cons.mp hu).elim hnb hys
    · rintro rfl
      exact (List.mem_cons.mp hu).elim hab hays

/-- A node is left out. -/
theorem Chain.remove (h : Chain next (xs ++ a :: c :: b :: ys)) (hnodup : (xs ++ a :: c :: b :: ys).Nodup) :
    Chain (Function.update next a b) (xs ++ a :: b :: ys) := by
  rw [chain_append] at h ⊢
  simp only [List.nodup_append, List.nodup_cons, List.mem_cons, not_or] at hnodup
  obtain ⟨-, ⟨⟨-, hab, hays⟩, -⟩, hcross⟩ := hnodup
  refine ⟨h.1.congr fun u hu => ?_, Function.update_self .., (chain_cons.mp h.2.2).2.congr fun u hu => ?_⟩
  · have hu : u ∈ xs := by simpa using hu
    rw [Function.update_of_ne (hcross u hu a (.inl rfl))]
  · have hu : u ∈ b :: ys := List.mem_of_mem_dropLast hu
    rw [Function.update_of_ne]
    rintro rfl
    exact (List.mem_cons.mp hu).elim hab hays

theorem Doubly.insert (h : Doubly next prev (xs ++ a :: b :: ys)) (hnodup : (xs ++ a :: b :: ys).Nodup)
    (hn : n ∉ xs ++ a :: b :: ys) :
    Doubly (Function.update (Function.update next n b) a n) (Function.update (Function.update prev n a) b n)
      (xs ++ a :: n :: b :: ys) := by
  refine ⟨h.1.insert hnodup hn, ?_⟩
  have hprev : Chain prev (ys.reverse ++ b :: a :: xs.reverse) := by simpa using h.2
  have hnodup' : (ys.reverse ++ b :: a :: xs.reverse).Nodup := by simpa using List.nodup_reverse.mpr hnodup
  have hn' : n ∉ ys.reverse ++ b :: a :: xs.reverse := by simpa [and_assoc, and_comm, and_left_comm] using hn
  simpa using hprev.insert hnodup' hn'

theorem Doubly.remove (h : Doubly next prev (xs ++ a :: c :: b :: ys)) (hnodup : (xs ++ a :: c :: b :: ys).Nodup) :
    Doubly (Function.update next a b) (Function.update prev b a) (xs ++ a :: b :: ys) := by
  refine ⟨h.1.remove hnodup, ?_⟩
  have hprev : Chain prev (ys.reverse ++ b :: c :: a :: xs.reverse) := by simpa using h.2
  have hnodup' : (ys.reverse ++ b :: c :: a :: xs.reverse).Nodup := by simpa using List.nodup_reverse.mpr hnodup
  simpa using hprev.remove hnodup'

end

end

/-! ## Loops -/

section

variable {next : A → A} {stop : A → Bool} {a b : A} {as : List A} {fuel : Nat}

/-- A search ends at the first node that stops it. -/
theorem Chain.seek (h : Chain next (a :: as)) (hfind : (a :: as).find? stop = some b)
    (hfuel : as.length < fuel) : Linked.seek next stop fuel a = some b := by
  induction as generalizing a fuel with
  | nil =>
      obtain ⟨fuel, rfl⟩ := Nat.exists_eq_add_of_lt hfuel
      rw [List.length_nil, Nat.zero_add, Linked.seek]
      cases hstop : stop a with
      | false => simp [hstop] at hfind
      | true => simpa [hstop] using hfind
  | cons a' as ih =>
      obtain ⟨fuel, rfl⟩ := Nat.exists_eq_add_of_lt hfuel
      rw [Linked.seek]
      cases hstop : stop a with
      | false =>
          rw [List.find?_cons_of_neg (by simp [hstop])] at hfind
          rw [chain_cons] at h
          rw [if_neg Bool.false_ne_true, h.1]
          exact ih h.2 hfind (by rw [List.length_cons]; omega)
      | true => simpa [hstop] using hfind

/-- The nodes before the first one that stops the loop. -/
theorem Chain.gather (h : Chain next (a :: as)) (hstop : ∃ b ∈ a :: as, stop b = true)
    (hfuel : as.length < fuel) :
    Linked.gather next stop fuel a = some ((a :: as).takeWhile fun b => !stop b) := by
  induction as generalizing a fuel with
  | nil =>
      obtain ⟨fuel, rfl⟩ := Nat.exists_eq_add_of_lt hfuel
      obtain ⟨b, hb, hstop⟩ := hstop
      rw [List.mem_singleton] at hb
      subst hb
      rw [List.length_nil, Nat.zero_add, Linked.gather, if_pos hstop, List.takeWhile_cons_of_neg (by simp [hstop])]
  | cons a' as ih =>
      obtain ⟨fuel, rfl⟩ := Nat.exists_eq_add_of_lt hfuel
      rw [Linked.gather]
      cases ha : stop a with
      | true => rw [if_pos rfl, List.takeWhile_cons_of_neg (by simp [ha])]
      | false =>
          have hrest : ∃ b ∈ a' :: as, stop b = true := by
            obtain ⟨b, hb, hstop⟩ := hstop
            cases List.mem_cons.mp hb with
            | inl heq => rw [heq, ha] at hstop; cases hstop
            | inr hb => exact ⟨b, hb, hstop⟩
          rw [chain_cons] at h
          have hpass : ((a :: a' :: as).takeWhile fun b => !stop b) = a :: (a' :: as).takeWhile fun b => !stop b :=
            List.takeWhile_cons_of_pos (by simp [ha])
          rw [if_neg Bool.false_ne_true, h.1, ih h.2 hrest (by rw [List.length_cons]; omega), hpass, Option.map_some]

/-- The walk over all nodes before the one at the end. -/
theorem Chain.walk {ns : List A} {r e : A} {isEnd : A → Bool} (h : Chain next (r :: ns ++ [e]))
    (hend : ∀ a ∈ ns, isEnd a = false) (he : isEnd e = true) (hfuel : ns.length < fuel) :
    Linked.gather next isEnd fuel (next r) = some ns := by
  have hcons : ∃ first rest, ns ++ [e] = first :: rest := ⟨_, _, (List.cons_head_tail (by simp)).symm⟩
  obtain ⟨first, rest, hcons⟩ := hcons
  have htake : ((ns ++ [e]).takeWhile fun b => !isEnd b) = ns := by
    rw [List.takeWhile_append_of_pos fun a ha => by rw [hend a ha]; rfl, List.takeWhile_cons_of_neg (by simp [he]),
      List.append_nil]
  have hlength := congrArg List.length hcons
  rw [List.length_append, List.length_cons, List.length_cons, List.length_nil] at hlength
  have hmem : e ∈ first :: rest := by
    rw [← hcons]
    simp
  rw [List.cons_append, hcons, chain_cons] at h
  rw [hcons] at htake
  rw [h.1, h.2.gather ⟨e, hmem, he⟩ (by omega), htake]

end

/-! ## Sorted nodes -/

section

variable {K : Type} [LinearOrder K] {key : A → K} {as : List A}

/-- Nodes whose keys increase, before and from a key on. -/
theorem exists_cut (h : as.Pairwise fun a b => key a < key b) (k : K) :
    ∃ low high, as = low ++ high ∧ (∀ a ∈ low, key a < k) ∧ ∀ a ∈ high, k ≤ key a := by
  induction as with
  | nil => exact ⟨[], [], rfl, fun _ ha => (by cases ha), fun _ ha => by cases ha⟩
  | cons a as ih =>
      obtain ⟨ha, has⟩ := List.pairwise_cons.mp h
      by_cases hlt : key a < k
      · obtain ⟨low, high, rfl, hlow, hhigh⟩ := ih has
        exact ⟨a :: low, high, rfl, List.forall_mem_cons.mpr ⟨hlt, hlow⟩, hhigh⟩
      · refine ⟨[], a :: as, rfl, fun _ ha => (by cases ha), ?_⟩
        exact List.forall_mem_cons.mpr ⟨not_lt.mp hlt, fun b hb => (not_lt.mp hlt).trans (ha b hb).le⟩

/-- The first nodes up to a key, before the one at the end. -/
theorem takeWhile_le {isEnd : A → Bool} {e : A} (h : as.Pairwise fun a b => key a < key b)
    (hend : ∀ a ∈ as, isEnd a = false) (he : isEnd e = true) (k : K) :
    ((as ++ [e]).takeWhile fun a => !(isEnd a || decide (k < key a))) = as.filter fun a => decide (key a ≤ k) := by
  induction as with
  | nil => exact List.takeWhile_cons_of_neg (by simp [he])
  | cons a as ih =>
      obtain ⟨ha, has⟩ := List.pairwise_cons.mp h
      rw [List.forall_mem_cons] at hend
      by_cases hle : key a ≤ k
      · rw [List.cons_append, List.takeWhile_cons_of_pos (by simpa [hend.1] using hle),
          List.filter_cons_of_pos (by simpa using hle), ih has hend.2]
      · rw [List.cons_append, List.takeWhile_cons_of_neg (by simpa [hend.1] using hle),
          List.filter_cons_of_neg (by simpa using hle), eq_comm, List.filter_eq_nil_iff]
        intro b hb
        rw [decide_eq_true_eq]
        exact fun hb' => hle ((ha b hb).le.trans hb')

end

/-! ## Searches in sorted nodes -/

section

variable {K : Type} [LinearOrder K] {next : A → A} {isEnd : A → Bool} {key : A → K} {low high ys : List A} {r e b : A}
  {k : K} {fuel : Nat}

/-- The search for the first node whose key is not smaller. -/
theorem Chain.seek_cut (h : Chain next (r :: (low ++ high) ++ [e])) (hlow : ∀ a ∈ low, isEnd a = false ∧ key a < k)
    (hhigh : ∀ a ∈ high, k ≤ key a) (he : isEnd e = true) (hb : high ++ [e] = b :: ys)
    (hfuel : (low ++ high).length < fuel) :
    Linked.seek next (fun a => isEnd a || !decide (key a < k)) fuel (next r) = some b := by
  have hcons : ∃ first rest, low ++ high ++ [e] = first :: rest := ⟨_, _, (List.cons_head_tail (by simp)).symm⟩
  obtain ⟨first, rest, hcons⟩ := hcons
  have hfind : (low ++ high ++ [e]).find? (fun a => isEnd a || !decide (key a < k)) = some b := by
    rw [List.append_assoc, List.find?_append, List.find?_eq_none.mpr fun a ha => ?_, Option.none_or, hb,
      List.find?_cons_of_pos]
    · rw [Bool.or_eq_true, Bool.not_eq_true', decide_eq_false_iff_not, not_lt]
      cases high with
      | nil =>
          cases hb
          exact .inl he
      | cons a high =>
          cases hb
          exact .inr (hhigh _ List.mem_cons_self)
    · simpa [(hlow a ha).1] using (hlow a ha).2
  have hlength := congrArg List.length hcons
  rw [List.length_append, List.length_cons, List.length_cons, List.length_nil] at hlength
  rw [List.cons_append, hcons, chain_cons] at h
  rw [hcons] at hfind
  rw [h.1]
  exact h.2.seek hfind (by omega)

/-- The two loops of a range query: to the first node from `start` on, and from there up to `stop`. -/
theorem Chain.range {ns : List A} (h : Chain next (r :: ns ++ [e])) (hsorted : ns.Pairwise fun a b => key a < key b)
    (hend : ∀ a ∈ ns, isEnd a = false) (he : isEnd e = true) (start stop : K) (hfuel : ns.length < fuel) :
    ∃ first, Linked.seek next (fun a => isEnd a || !decide (key a < start)) fuel (next r) = some first ∧
      Linked.gather next (fun a => isEnd a || decide (stop < key a)) fuel first =
        some (ns.filter fun a => decide (start ≤ key a ∧ key a ≤ stop)) := by
  obtain ⟨low, high, rfl, hlow, hhigh⟩ := exists_cut hsorted start
  have hcons : ∃ first rest, high ++ [e] = first :: rest := ⟨_, _, (List.cons_head_tail (by simp)).symm⟩
  obtain ⟨first, rest, hcons⟩ := hcons
  have hrest : Chain next (first :: rest) := by
    rw [← hcons]
    refine List.IsChain.suffix h ⟨r :: low, ?_⟩
    simp
  have hnone : (low.filter fun a => decide (start ≤ key a ∧ key a ≤ stop)) = [] := by
    rw [List.filter_eq_nil_iff]
    intro a ha
    rw [decide_eq_true_eq]
    exact fun hrange => absurd (hlow a ha) (not_lt.mpr hrange.1)
  have hlength := congrArg List.length hcons
  simp only [List.length_append, List.length_cons, List.length_nil] at hlength hfuel
  refine ⟨first, h.seek_cut (fun a ha => ⟨hend a (List.mem_append_left _ ha), hlow a ha⟩) hhigh he hcons
    (by rw [List.length_append]; exact hfuel), ?_⟩
  rw [hrest.gather ⟨e, by rw [← hcons]; simp, by rw [he]; rfl⟩ (by omega), ← hcons,
    takeWhile_le (List.pairwise_append.mp hsorted).2.1 (fun a ha => hend a (List.mem_append_right _ ha)) he stop,
    List.filter_append, hnone, List.nil_append, Option.some.injEq]
  refine List.filter_congr fun a ha => ?_
  rw [decide_eq_decide, and_iff_right (hhigh a ha)]

end

end Linked
