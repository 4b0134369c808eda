import Verlib.DList.Content
import Verlib.DList.Machine

/-!
# The list while threads write to it

The nodes from the head to the tail, when some nodes are allocated and not linked yet, some are marked as removed and
still in the list, and some do not lead back to the node before them. Each lemma is about one store of `try_insert` or
`try_remove`, and says which of these exceptions it adds or takes away.
-/

namespace Verlib.DList.Concurrent

open Linked

variable {K V : Type}

/-- The address of the tail. -/
def tail : Nat := 1

/-- A node has this address. -/
def Alloc (m : Memory K V) (a : Nat) : Prop := 0 < a ∧ a < m.fresh

theorem alloc_ne_fresh {m : Memory K V} {a : Nat} (h : Alloc m a) : a ≠ m.fresh := h.2.ne

variable [LinearOrder K]

/-- The order of the nodes, in which the head comes first and the tail last. -/
def Below (m : Memory K V) (a b : Nat) : Prop := a ≠ tail ∧ b ≠ root ∧ (a = root ∨ b = tail ∨ m.key a < m.key b)

/-- The nodes of the list are `p`. Those of `unlinked` are not linked yet, those of `marked` are removed and still in
the list, and the pairs of `unpaired` are neighbours of which the second does not lead back. -/
structure Spine (m : Memory K V) (p : List Nat) (unlinked marked : Nat → Prop) (unpaired : Nat × Nat → Prop) :
    Prop where
  chain : Chain m.next p
  sorted : p.Pairwise (Below m)
  head : p.head? = some root
  last : p.getLast? = some tail
  alloc : ∀ a ∈ p, Alloc m a
  isEnd : ∀ a, Alloc m a → (m.isEnd a = true ↔ a = root ∨ a = tail)
  next_tail : m.next tail = 0
  prev_root : m.prev root = 0
  next : ∀ a, Alloc m a → a ≠ tail → Alloc m (m.next a) ∧ m.next a ≠ root
  prev : ∀ a, Alloc m a → a ≠ root → Alloc m (m.prev a)
  live : ∀ a, Alloc m a → m.removed a = false → a ∈ p ∨ unlinked a
  removed : ∀ a ∈ p, m.removed a = true → marked a
  back : ∀ a ∈ p, a ≠ tail → m.prev (m.next a) = a ∨ unpaired (a, m.next a)

section

variable {m : Memory K V} {p xs ys : List Nat} {a b w x n : Nat} {unlinked unlinked' marked marked' : Nat → Prop}
  {unpaired unpaired' : Nat × Nat → Prop} {k : K} {v : V}

theorem Below.irrefl : ¬ Below m a a := by
  intro h
  obtain ⟨htail, hroot, h⟩ := h
  exact h.elim hroot fun h => h.elim htail (lt_irrefl _)

theorem Below.trans (h : Below m a b) (h' : Below m b w) : Below m a w := by
  obtain ⟨ha, hb, hab⟩ := h
  obtain ⟨hb', hw, hbw⟩ := h'
  refine ⟨ha, hw, ?_⟩
  obtain hroot | hkey := hab.imp_right fun h => h.resolve_left hb'
  · exact .inl hroot
  · exact .inr ((hbw.resolve_left hb).imp_right fun h => hkey.trans h)

instance : IsTrans Nat (Below m) := ⟨fun _ _ _ h h' => h.trans h'⟩

/-- Nodes in order, in two parts. -/
theorem below_append : (xs ++ a :: b :: ys).Pairwise (Below m) ↔
    (xs ++ [a]).Pairwise (Below m) ∧ Below m a b ∧ (b :: ys).Pairwise (Below m) := by
  rw [← List.isChain_iff_pairwise, ← List.isChain_iff_pairwise, ← List.isChain_iff_pairwise,
    List.isChain_append_cons_cons]

/-- A new list. -/
theorem spine_init (m : Memory K V) : Spine (DList.init m) [root, tail] unlinked marked unpaired := by
  have halloc : ∀ a, Alloc (DList.init m) a ↔ a = root ∨ a = tail := by
    intro a
    simp only [Alloc, DList.init, Memory.newEnd, Memory.setPrev, root, tail]
    omega
  have hne : root ≠ tail := by decide
  have hnext : (DList.init m).next root = tail ∧ (DList.init m).next tail = 0 := by
    simp [DList.init, Memory.newEnd, Memory.setPrev, root, tail]
  have hprev : (DList.init m).prev tail = root ∧ (DList.init m).prev root = 0 := by
    simp [DList.init, Memory.newEnd, Memory.setPrev, root, tail]
  have hend : (DList.init m).isEnd root = true ∧ (DList.init m).isEnd tail = true := by
    simp [DList.init, Memory.newEnd, Memory.setPrev, root, tail]
  have hremoved : (DList.init m).removed root = false ∧ (DList.init m).removed tail = false := by
    simp [DList.init, Memory.newEnd, Memory.setPrev, root, tail]
  constructor
  case chain => simp [Chain, hnext]
  case sorted => simp [Below, hne, hne.symm]
  case head => rfl
  case last => rfl
  all_goals simp [halloc, hne, hne.symm, hnext, hprev, hend, hremoved]

namespace Spine

/-! ## The nodes of the list -/

section

variable (h : Spine m p unlinked marked unpaired)

include h

theorem nodup : p.Nodup :=
  h.sorted.imp fun hab => by
    rintro rfl
    exact hab.irrefl

/-- The nodes between head and tail. -/
theorem ends : ∃ ns, p = root :: ns ++ [tail] := by
  have hlast := h.last
  obtain ⟨q, rfl⟩ : ∃ q, p = root :: q := List.head?_eq_some_iff.mp h.head
  obtain ⟨ns, hns⟩ := List.getLast?_eq_some_iff.mp hlast
  cases ns with
  | nil => cases hns
  | cons a ns =>
      cases hns
      exact ⟨ns, rfl⟩

theorem root_mem : root ∈ p := by
  obtain ⟨ns, rfl⟩ := h.ends
  simp

theorem mem_dropLast (ha : a ∈ p) (htail : a ≠ tail) : a ∈ p.dropLast := by
  obtain ⟨ns, rfl⟩ := h.ends
  rw [List.dropLast_concat]
  exact (List.mem_append.mp ha).resolve_right fun ha => htail (List.mem_singleton.mp ha)

/-- A node and the one after it. -/
theorem split (ha : a ∈ p) (htail : a ≠ tail) : ∃ xs ys, p = xs ++ a :: m.next a :: ys :=
  h.chain.split (h.mem_dropLast ha htail)

theorem next_mem (ha : a ∈ p) (htail : a ≠ tail) : m.next a ∈ p := by
  obtain ⟨xs, ys, heq⟩ := h.split ha htail
  rw [heq]
  simp

theorem below_next (ha : a ∈ p) (htail : a ≠ tail) : Below m a (m.next a) := by
  obtain ⟨xs, ys, heq⟩ := h.split ha htail
  have hsorted := h.sorted
  rw [heq, below_append] at hsorted
  exact hsorted.2.1

/-- Only one node of the list leads to a node. -/
theorem eq_of_next (ha : a ∈ p) (hb : b ∈ p) (hx : Alloc m x) (hax : m.next a = x) (hbx : m.next b = x) : a = b := by
  have hne : ∀ {c}, m.next c = x → c ≠ tail := by
    rintro c hc rfl
    rw [h.next_tail] at hc
    exact hx.1.ne hc
  exact h.chain.eq_of_next h.nodup (h.mem_dropLast ha (hne hax)) (h.mem_dropLast hb (hne hbx)) (hax.trans hbx.symm)

/-- A node that is followed by another is not the tail. -/
theorem ne_tail (hx : Alloc m x) (hax : m.next a = x) : a ≠ tail := by
  rintro rfl
  rw [h.next_tail] at hax
  exact hx.1.ne hax

/-- The node after a node of the list. -/
theorem mem_of_next (ha : a ∈ p) (hx : Alloc m x) (hax : m.next a = x) : x ∈ p :=
  hax ▸ h.next_mem ha (h.ne_tail hx hax)

theorem alloc_tail : Alloc m tail := by
  obtain ⟨ns, rfl⟩ := h.ends
  exact h.alloc tail (by simp)

theorem isEnd_inner {ns : List Nat} (heq : p = root :: ns ++ [tail]) (ha : a ∈ ns) : m.isEnd a = false := by
  have hmem : a ∈ p := by
    rw [heq]
    simp [ha]
  have hnodup := h.nodup
  rw [heq, List.cons_append, List.nodup_cons, List.nodup_append] at hnodup
  rw [Bool.eq_false_iff]
  intro hend
  obtain rfl | rfl := (h.isEnd a (h.alloc a hmem)).mp hend
  · exact hnodup.1 (List.mem_append_left _ ha)
  · exact hnodup.2.2.2 tail ha tail (List.mem_singleton_self _) rfl

theorem listed (ha : a ∈ p) : Listed m a := by
  obtain ⟨ns, heq⟩ := h.ends
  refine ⟨ns, tail, ?_, (h.isEnd tail h.alloc_tail).mpr (.inr rfl), fun b hb => h.isEnd_inner heq hb, ?_⟩
  · rw [← heq]
    exact h.chain
  · rw [← heq]
    exact ha

/-- A node leads back to the one before it. -/
theorem chain_prev (hunpaired : ∀ l, ¬ unpaired l) : Chain m.prev p.reverse := by
  show p.reverse.IsChain fun a b => m.prev a = b
  rw [List.isChain_reverse, List.isChain_iff_forall_rel_of_append_cons_cons]
  intro a b xs ys heq
  have hchain := h.chain
  have hsorted := h.sorted
  rw [heq, chain_append] at hchain
  rw [heq, below_append] at hsorted
  have ha : a ∈ p := by
    rw [heq]
    simp
  have hback := (h.back a ha hsorted.2.1.1).resolve_right (hunpaired _)
  rwa [hchain.2.1] at hback

/-- A list without exceptions. -/
theorem nodes (hmarked : ∀ a, ¬ marked a) (hunpaired : ∀ l, ¬ unpaired l) : ∃ ns, Nodes m ns tail := by
  obtain ⟨ns, heq⟩ := h.ends
  have hmem : ∀ a ∈ root :: ns ++ [tail], a ∈ p := fun a ha => by rwa [heq]
  have hsorted : (root :: ns ++ [tail]).Pairwise (Below m) := by
    rw [← heq]
    exact h.sorted
  refine ⟨ns, ⟨⟨?_, ?_⟩, ?_, fun a ha => (h.alloc a (hmem a ha)).2, ?_, ?_, fun a ha => h.isEnd_inner heq ha,
    fun a ha => ?_, ?_⟩⟩
  · rw [← heq]
    exact h.chain
  · rw [← heq]
    exact h.chain_prev hunpaired
  · rw [← heq]
    exact h.nodup
  · exact (h.isEnd root (h.alloc root h.root_mem)).mpr (.inl rfl)
  · exact (h.isEnd tail h.alloc_tail).mpr (.inr rfl)
  · rw [Bool.eq_false_iff]
    exact fun hremoved => hmarked a (h.removed a (hmem a (List.mem_append_left _ ha)) hremoved)
  · have hinner : ns.Pairwise (Below m) :=
      (List.pairwise_cons.mp (List.pairwise_append.mp hsorted).1).2
    refine hinner.imp_of_mem fun {a b} ha hb hab => ?_
    have hnot : ∀ {c}, c ∈ ns → c ≠ root ∧ c ≠ tail := by
      intro c hc
      have hend := h.isEnd_inner heq hc
      have hiff := h.isEnd c (h.alloc c (hmem c (by simp [hc])))
      rw [hend] at hiff
      exact not_or.mp fun hor => Bool.false_ne_true (hiff.mpr hor)
    exact (hab.2.2.resolve_left (hnot ha).1).resolve_left (hnot hb).2

end

/-! ## Stores -/

section

variable (h : Spine m p unlinked marked unpaired)

include h

/-- More exceptions. -/
theorem mono (hunlinked : ∀ a, unlinked a → unlinked' a) (hmarked : ∀ a, marked a → marked' a)
    (hunpaired : ∀ l, unpaired l → unpaired' l) : Spine m p unlinked' marked' unpaired' :=
  { h with
    live := fun a ha hlive => (h.live a ha hlive).imp_right (hunlinked a)
    removed := fun a ha hremoved => hmarked a (h.removed a ha hremoved)
    back := fun a ha htail => (h.back a ha htail).imp_right (hunpaired _) }

/-- The constructor of a node. -/
theorem newNode (hw : Alloc m w) (hx : Alloc m x) (hroot : x ≠ root)
    (hunlinked : ∀ a, unlinked a ∨ a = m.fresh → unlinked' a) :
    Spine (m.newNode k v x w) p unlinked' marked unpaired := by
  have hsame : ∀ {β : Type} (f : Nat → β) (y : β) (a : Nat), Alloc m a → Function.update f m.fresh y a = f a :=
    fun f y a ha => Function.update_of_ne (alloc_ne_fresh ha) ..
  have hgrow : ∀ {a}, Alloc m a → Alloc (m.newNode k v x w) a := fun ha => ⟨ha.1, Nat.lt_succ_of_lt ha.2⟩
  have hold : ∀ {a}, Alloc (m.newNode k v x w) a → Alloc m a ∨ a = m.fresh := fun {a} ha =>
    (Nat.lt_succ_iff_lt_or_eq.mp ha.2).imp_left fun hlt => ⟨ha.1, hlt⟩
  have hroot' := h.alloc root h.root_mem
  have hne : m.fresh ≠ root ∧ m.fresh ≠ tail :=
    ⟨(alloc_ne_fresh hroot').symm, (alloc_ne_fresh h.alloc_tail).symm⟩
  refine ⟨?_, ?_, h.head, h.last, fun a ha => hgrow (h.alloc a ha), fun a ha => ?_, ?_, ?_, fun a ha htail => ?_,
    fun a ha hne => ?_, fun a ha hlive => ?_, fun a ha hremoved => ?_, fun a ha htail => ?_⟩
  · exact h.chain.congr fun a ha => hsame m.next x a (h.alloc a (List.mem_of_mem_dropLast ha))
  · refine h.sorted.imp_of_mem fun {a b} ha hb hab => ?_
    obtain ⟨hatail, hbroot, hkey⟩ := hab
    refine ⟨hatail, hbroot, ?_⟩
    show a = root ∨ b = tail ∨ Function.update m.key m.fresh k a < Function.update m.key m.fresh k b
    rwa [hsame m.key k a (h.alloc a ha), hsame m.key k b (h.alloc b hb)]
  · show Function.update m.isEnd m.fresh false a = true ↔ _
    obtain ha | rfl := hold ha
    · rw [hsame m.isEnd false a ha]
      exact h.isEnd a ha
    · rw [Function.update_self]
      exact iff_of_false Bool.false_ne_true (not_or.mpr hne)
  · exact (hsame m.next x tail h.alloc_tail).trans h.next_tail
  · exact (hsame m.prev w root hroot').trans h.prev_root
  · show Alloc _ (Function.update m.next m.fresh x a) ∧ Function.update m.next m.fresh x a ≠ root
    obtain ha | rfl := hold ha
    · rw [hsame m.next x a ha]
      exact ⟨hgrow (h.next a ha htail).1, (h.next a ha htail).2⟩
    · rw [Function.update_self]
      exact ⟨hgrow hx, hroot⟩
  · show Alloc _ (Function.update m.prev m.fresh w a)
    obtain ha | rfl := hold ha
    · rw [hsame m.prev w a ha]
      exact hgrow (h.prev a ha hne)
    · rw [Function.update_self]
      exact hgrow hw
  · have hlive : Function.update m.removed m.fresh false a = false := hlive
    obtain ha | rfl := hold ha
    · rw [hsame m.removed false a ha] at hlive
      exact (h.live a ha hlive).imp_right fun hun => hunlinked a (.inl hun)
    · exact .inr (hunlinked _ (.inr rfl))
  · have hremoved : Function.update m.removed m.fresh false a = true := hremoved
    rw [hsame m.removed false a (h.alloc a ha)] at hremoved
    exact h.removed a ha hremoved
  · show Function.update m.prev m.fresh w (Function.update m.next m.fresh x a) = a ∨
      unpaired (a, Function.update m.next m.fresh x a)
    rw [hsame m.next x a (h.alloc a ha), hsame m.prev w _ (h.next a (h.alloc a ha) htail).1]
    exact h.back a ha htail

/-- `prev->next = new_node`. -/
theorem linkNext (hw : w ∈ p) (htail : w ≠ tail) (hn : Alloc m n) (hnot : n ∉ p) (hnext : m.next n = m.next w)
    (hprev : m.prev n = w) (hbelow : Below m w n) (hbelow' : Below m n (m.next w))
    (hremoved : m.removed n = false) (hunlinked : ∀ a, unlinked a → a ≠ n → unlinked' a)
    (hunpaired : ∀ l, unpaired l ∨ l = (n, m.next w) → unpaired' l) :
    ∃ p', Spine (m.setNext w n) p' unlinked' marked unpaired' ∧ ∀ a, a ∈ p' ↔ a ∈ p ∨ a = n := by
  obtain ⟨xs, ys, heq⟩ := h.split hw htail
  have hmem : ∀ a, a ∈ xs ++ w :: n :: m.next w :: ys ↔ a ∈ p ∨ a = n := by
    intro a
    rw [heq]
    simp only [List.mem_append, List.mem_cons]
    grind
  have hne : n ≠ w := fun heq => hnot (heq ▸ hw)
  have hself : Function.update m.next w n w = n := Function.update_self ..
  have hsame : ∀ a, a ≠ w → Function.update m.next w n a = m.next a := fun a ha => Function.update_of_ne ha ..
  have hchain := h.chain
  have hnodup := h.nodup
  have hsorted := h.sorted
  have hhead := h.head
  have hlast := h.last
  rw [heq] at hchain hnodup hhead hlast
  rw [heq, below_append] at hsorted
  refine ⟨xs ++ w :: n :: m.next w :: ys, ⟨?_, ?_, ?_, ?_, fun a ha => ?_, h.isEnd, ?_, h.prev_root,
    fun a ha hatail => ?_, h.prev, fun a ha hlive => ?_, fun a ha hremoved' => ?_, fun a ha hatail => ?_⟩, hmem⟩
  · have hins := hchain.insert hnodup (n := n) (by rwa [← heq])
    rwa [show Function.update m.next n (m.next w) = m.next by rw [← hnext, Function.update_eq_self]] at hins
  · refine below_append.mpr ⟨hsorted.1, hbelow, List.pairwise_cons.mpr ⟨fun b hb => ?_, hsorted.2.2⟩⟩
    obtain rfl | hb := List.mem_cons.mp hb
    · exact hbelow'
    · exact hbelow'.trans ((List.pairwise_cons.mp hsorted.2.2).1 b hb)
  · cases xs with
    | nil => exact hhead
    | cons _ _ => exact hhead
  · simpa using hlast
  · obtain ha | rfl := (hmem a).mp ha
    · exact h.alloc a ha
    · exact hn
  · exact (hsame tail htail.symm).trans h.next_tail
  · show Alloc _ (Function.update m.next w n a) ∧ Function.update m.next w n a ≠ root
    by_cases haw : a = w
    · rw [haw, hself]
      exact ⟨hn, hbelow.2.1⟩
    · rw [hsame a haw]
      exact h.next a ha hatail
  · rw [hmem]
    by_cases han : a = n
    · exact .inl (.inr han)
    · exact (h.live a ha hlive).imp .inl fun hun => hunlinked a hun han
  · obtain ha | rfl := (hmem a).mp ha
    · exact h.removed a ha hremoved'
    · exact absurd (hremoved.symm.trans hremoved') Bool.false_ne_true
  · show m.prev (Function.update m.next w n a) = a ∨ unpaired' (a, Function.update m.next w n a)
    by_cases haw : a = w
    · rw [haw, hself]
      exact .inl hprev
    · rw [hsame a haw]
      obtain ha | rfl := (hmem a).mp ha
      · exact (h.back a ha hatail).imp_right fun hun => hunpaired _ (.inl hun)
      · rw [hnext]
        exact .inr (hunpaired _ (.inr rfl))

/-- `next->prev = prev` and `next->prev = new_node`, where the node that is written is the next one. -/
theorem setPrev (hw : w ∈ p) (hx : Alloc m x) (hroot : x ≠ root) (hnext : m.next w = x)
    (hunpaired : ∀ l, unpaired l → l.2 ≠ x → unpaired' l) :
    Spine (m.setPrev x w) p unlinked marked unpaired' := by
  refine ⟨h.chain, h.sorted, h.head, h.last, h.alloc, h.isEnd, h.next_tail,
    (Function.update_of_ne hroot.symm ..).trans h.prev_root, h.next, fun a ha hroot => ?_, h.live, h.removed,
    fun a ha htail => ?_⟩
  · show Alloc _ (Function.update m.prev x w a)
    by_cases hax : a = x
    · rw [hax, Function.update_self]
      exact h.alloc w hw
    · rw [Function.update_of_ne hax]
      exact h.prev a ha hroot
  · show Function.update m.prev x w (m.next a) = a ∨ unpaired' (a, m.next a)
    by_cases hax : m.next a = x
    · rw [hax, Function.update_self]
      exact .inl (h.eq_of_next hw ha hx hnext hax)
    · rw [Function.update_of_ne hax]
      exact (h.back a ha htail).imp_right fun hun => hunpaired _ hun hax

/-- `loc->removed = true`. -/
theorem mark (hmarked : ∀ a, marked a ∨ a = x → marked' a) : Spine (m.setRemoved x) p unlinked marked' unpaired := by
  refine ⟨h.chain, h.sorted, h.head, h.last, h.alloc, h.isEnd, h.next_tail, h.prev_root, h.next, h.prev,
    fun a ha hlive => ?_, fun a ha hremoved => ?_, h.back⟩
  · have hlive : Function.update m.removed x true a = false := hlive
    by_cases hax : a = x
    · rw [hax, Function.update_self] at hlive
      cases hlive
    · rw [Function.update_of_ne hax] at hlive
      exact h.live a ha hlive
  · have hremoved : Function.update m.removed x true a = true := hremoved
    by_cases hax : a = x
    · exact hmarked a (.inr hax)
    · rw [Function.update_of_ne hax] at hremoved
      exact hmarked a (.inl (h.removed a ha hremoved))

/-- `prev->next = next`, where the node that is left out has been removed. -/
theorem unlinkNext (hw : w ∈ p) (hx : x ∈ p) (hwx : m.next w = x) (htail : x ≠ tail) (hremoved : m.removed x = true)
    (hmarked : ∀ a, marked a → a ≠ x → marked' a)
    (hunpaired : ∀ l, unpaired l ∨ l = (w, m.next x) → unpaired' l) :
    ∃ p', Spine (m.setNext w (m.next x)) p' unlinked marked' unpaired' ∧ ∀ a, a ∈ p' ↔ a ∈ p ∧ a ≠ x := by
  have hwtail := h.ne_tail (h.alloc x hx) hwx
  obtain ⟨xs, ys, heq⟩ := h.split hw hwtail
  rw [hwx] at heq
  have hchain := h.chain
  have hnodup := h.nodup
  have hsorted := h.sorted
  have hhead := h.head
  have hlast := h.last
  rw [heq] at hchain hnodup hhead hlast hsorted
  obtain ⟨ys, rfl⟩ : ∃ zs, ys = m.next x :: zs := by
    cases ys with
    | nil => exact absurd (by simpa using hlast) htail
    | cons b zs =>
        rw [chain_append, chain_cons] at hchain
        exact ⟨zs, by rw [hchain.2.2.1]⟩
  have hmem : ∀ a, a ∈ xs ++ w :: m.next x :: ys ↔ a ∈ p ∧ a ≠ x := by
    intro a
    rw [heq]
    simp only [List.mem_append, List.mem_cons]
    simp only [List.nodup_append, List.nodup_cons, List.mem_cons] at hnodup
    grind
  have hself : Function.update m.next w (m.next x) w = m.next x := Function.update_self ..
  have hsame : ∀ a, a ≠ w → Function.update m.next w (m.next x) a = m.next a := fun a ha =>
    Function.update_of_ne ha ..
  refine ⟨xs ++ w :: m.next x :: ys, ⟨hchain.remove hnodup, ?_, ?_, ?_, fun a ha => h.alloc a ((hmem a).mp ha).1,
    h.isEnd, ?_, h.prev_root, fun a ha hatail => ?_, h.prev, fun a ha hlive => ?_, fun a ha hremoved' => ?_,
    fun a ha hatail => ?_⟩, hmem⟩
  · refine hsorted.sublist ?_
    simp
  · cases xs with
    | nil => exact hhead
    | cons _ _ => exact hhead
  · simpa using hlast
  · exact (hsame tail hwtail.symm).trans h.next_tail
  · show Alloc _ (Function.update m.next w (m.next x) a) ∧ Function.update m.next w (m.next x) a ≠ root
    by_cases haw : a = w
    · rw [haw, hself]
      exact h.next x (h.alloc x hx) htail
    · rw [hsame a haw]
      exact h.next a ha hatail
  · rw [hmem]
    refine (h.live a ha hlive).imp_left fun hap => ⟨hap, ?_⟩
    rintro rfl
    exact absurd (hlive.symm.trans hremoved) Bool.false_ne_true
  · obtain ⟨hap, hax⟩ := (hmem a).mp ha
    exact hmarked a (h.removed a hap hremoved') hax
  · show m.prev (Function.update m.next w (m.next x) a) = a ∨ unpaired' (a, Function.update m.next w (m.next x) a)
    by_cases haw : a = w
    · rw [haw, hself]
      exact .inr (hunpaired _ (.inr rfl))
    · rw [hsame a haw]
      exact (h.back a ((hmem a).mp ha).1 hatail).imp_right fun hun => hunpaired _ (.inl hun)

end

end Spine

end

end Verlib.DList.Concurrent
