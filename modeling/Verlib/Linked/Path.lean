import Verlib.Linked.Chain

/-!
# Sorted paths

The nodes from a first node along the links to an end node, where `R a b` says that `b` may come somewhere after `a`.
There is only one such path. A write to one link puts a node into the path, or takes one out of it.
-/

namespace Linked

variable {A : Type} {next next' : A → A} {R : A → A → Prop} {End : A → Prop} {r a b c n u : A} {p p' xs ys : List A}

/-- The nodes from `r` to an end node, in order. -/
structure Path (next : A → A) (R : A → A → Prop) (End : A → Prop) (r : A) (p : List A) : Prop where
  chain : Chain next p
  head : p.head? = some r
  last : ∃ e, p.getLast? = some e ∧ End e
  sorted : p.Pairwise R

theorem Path.congr (h : Path next R End r p) (heq : ∀ u ∈ p, next' u = next u) : Path next' R End r p :=
  ⟨h.chain.congr fun u hu => heq u (List.mem_of_mem_dropLast hu), h.head, h.last, h.sorted⟩

theorem Path.head_mem (h : Path next R End r p) : r ∈ p := List.mem_of_mem_head? h.head

/-- Nothing comes after an end node. -/
theorem Path.next_of_not_end (hinner : ∀ a b, R a b → ¬ End a) (h : Path next R End r (r :: p)) :
    (p = [] ∧ End r) ∨ ¬ End r ∧ Path next R End (next r) p := by
  cases p with
  | nil =>
      obtain ⟨e, he, hend⟩ := h.last
      cases he
      exact .inl ⟨rfl, hend⟩
  | cons b p =>
      obtain ⟨hnext, hchain⟩ := chain_cons.mp h.chain
      obtain ⟨hfirst, hsorted⟩ := List.pairwise_cons.mp h.sorted
      refine .inr ⟨hinner r b (hfirst b List.mem_cons_self), hchain, ?_, ?_, hsorted⟩
      · rw [hnext]
        rfl
      · obtain ⟨e, he, hend⟩ := h.last
        exact ⟨e, (List.getLast?_cons_cons ..).symm.trans he, hend⟩

/-- There is one path. -/
theorem Path.unique (hinner : ∀ a b, R a b → ¬ End a) (h : Path next R End r p) (h' : Path next R End r p') : p = p' := by
  induction p generalizing r p' with
  | nil => cases h.head
  | cons a p ih =>
      cases h.head
      cases p' with
      | nil => cases h'.head
      | cons a' p' =>
          cases h'.head
          cases h.next_of_not_end hinner with
          | inl hend =>
              cases h'.next_of_not_end hinner with
              | inl hend' => rw [hend.1, hend'.1]
              | inr hgo => exact absurd hend.2 hgo.1
          | inr hgo =>
              cases h'.next_of_not_end hinner with
              | inl hend' => exact absurd hend'.2 hgo.1
              | inr hgo' => rw [ih hgo.2 hgo'.2]

/-- A node that is no end node, and the one that it leads to. -/
theorem Path.split (h : Path next R End r p) (ha : a ∈ p) (hend : ¬ End a) : ∃ xs ys, p = xs ++ a :: next a :: ys := by
  refine h.chain.split ?_
  obtain ⟨e, he, hee⟩ := h.last
  obtain ⟨init, rfl⟩ := List.getLast?_eq_some_iff.mp he
  rw [List.dropLast_concat]
  refine (List.mem_append.mp ha).resolve_right fun hlast => hend ?_
  rw [List.mem_singleton.mp hlast]
  exact hee

/-- Every node but the first has one before it. -/
theorem Path.pred (h : Path next R End r p) (ha : a ∈ p) (hne : a ≠ r) : ∃ xs u ys, p = xs ++ u :: a :: ys ∧ next u = a := by
  obtain ⟨init, ys, rfl⟩ := List.append_of_mem ha
  cases init using List.reverseRecOn with
  | nil => exact absurd (Option.some.inj h.head) hne
  | append_singleton xs u =>
      have heq : xs ++ [u] ++ a :: ys = xs ++ u :: a :: ys := by simp
      rw [heq] at h ⊢
      exact ⟨xs, u, ys, rfl, (chain_append.mp h.chain).2.1⟩

/-- The order of the nodes matters, nothing else about the relation. -/
theorem Path.imp {R' : A → A → Prop} {End' : A → Prop} (h : Path next R End r p) (hR : ∀ a ∈ p, ∀ b ∈ p, R a b → R' a b)
    (hEnd : ∀ a ∈ p, End a → End' a) : Path next R' End' r p := by
  refine ⟨h.chain, h.head, ?_, h.sorted.imp_of_mem fun ha hb => hR _ ha _ hb⟩
  obtain ⟨e, he, hend⟩ := h.last
  exact ⟨e, he, hEnd e (List.mem_of_getLast? he) hend⟩

/-- One of two nodes comes before the other. -/
theorem Path.total (h : Path next R End r p) (ha : a ∈ p) (hb : b ∈ p) : a = b ∨ R a b ∨ R b a := by
  obtain ⟨xs, ys, rfl⟩ := List.append_of_mem ha
  obtain ⟨-, hrest, hcross⟩ := List.pairwise_append.mp h.sorted
  cases List.mem_append.mp hb with
  | inl hb => exact .inr (.inr (hcross b hb a List.mem_cons_self))
  | inr hb =>
      cases List.mem_cons.mp hb with
      | inl hb => exact .inl hb.symm
      | inr hb => exact .inr (.inl ((List.pairwise_cons.mp hrest).1 b hb))

/-- The order of two neighbours. -/
theorem Path.related (h : Path next R End r (xs ++ a :: b :: ys)) : R a b := by
  obtain ⟨-, hrest, -⟩ := List.pairwise_append.mp h.sorted
  exact (List.pairwise_cons.mp hrest).1 b List.mem_cons_self

/-- A node comes between two neighbours. -/
theorem Path.sorted_insert [IsTrans A R] (h : Path next R End r (xs ++ a :: b :: ys)) (han : R a n) (hnb : R n b) :
    (xs ++ a :: n :: b :: ys).Pairwise R := by
  obtain ⟨hxs, hrest, hcross⟩ := List.pairwise_append.mp h.sorted
  obtain ⟨ha, hrest⟩ := List.pairwise_cons.mp hrest
  have hys := (List.pairwise_cons.mp hrest).1
  have hn : ∀ u ∈ b :: ys, R n u := by
    intro u hu
    cases List.mem_cons.mp hu with
    | inl hu => rwa [hu]
    | inr hu => exact IsTrans.trans n b u hnb (hys u hu)
  refine List.pairwise_append.mpr ⟨hxs, List.pairwise_cons.mpr ⟨fun u hu => ?_, List.pairwise_cons.mpr ⟨hn, hrest⟩⟩,
    fun u hu w hw => ?_⟩
  · cases List.mem_cons.mp hu with
    | inl hu => rwa [hu]
    | inr hu => exact ha u hu
  · have hua := hcross u hu a List.mem_cons_self
    cases List.mem_cons.mp hw with
    | inl hw => rwa [hw]
    | inr hw =>
        cases List.mem_cons.mp hw with
        | inl hw =>
            rw [hw]
            exact IsTrans.trans u a n hua han
        | inr hw => exact hcross u hu w (List.mem_cons_of_mem _ hw)

variable [Std.Irrefl R]

theorem Path.nodup (h : Path next R End r p) : p.Nodup := by
  refine h.sorted.imp fun {a b} hab heq => ?_
  rw [heq] at hab
  exact Std.Irrefl.irrefl b hab

variable [DecidableEq A]

/-- A node that leads to `b` is put between `a` and `b`. -/
theorem Path.insert [IsTrans A R] (h : Path next R End r (xs ++ a :: b :: ys)) (han : R a n) (hnb : R n b) (hn : next n = b)
    (hmem : n ∉ xs ++ a :: b :: ys) : Path (Function.update next a n) R End r (xs ++ a :: n :: b :: ys) := by
  have hchain := h.chain.insert h.nodup hmem
  rw [← hn, Function.update_eq_self] at hchain
  rw [hn] at hchain
  refine ⟨hchain, ?_, ?_, h.sorted_insert han hnb⟩
  · have hhead := h.head
    cases xs with
    | nil => exact hhead
    | cons x xs => exact hhead
  · obtain ⟨e, he, hend⟩ := h.last
    refine ⟨e, ?_, hend⟩
    rw [List.getLast?_append_cons, List.getLast?_cons_cons] at he ⊢
    rwa [List.getLast?_cons_cons]

/-- A node is taken out. -/
theorem Path.remove (h : Path next R End r (xs ++ a :: c :: b :: ys)) :
    Path (Function.update next a b) R End r (xs ++ a :: b :: ys) := by
  refine ⟨h.chain.remove h.nodup, ?_, ?_, h.sorted.sublist ?_⟩
  · have hhead := h.head
    cases xs with
    | nil => exact hhead
    | cons x xs => exact hhead
  · obtain ⟨e, he, hend⟩ := h.last
    refine ⟨e, ?_, hend⟩
    rw [List.getLast?_append_cons, List.getLast?_cons_cons] at he ⊢
    rwa [List.getLast?_cons_cons] at he
  · exact (List.Sublist.refl xs).append ((List.sublist_cons_self c (b :: ys)).cons_cons a)

end Linked
