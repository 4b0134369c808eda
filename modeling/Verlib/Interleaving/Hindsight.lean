import Mathlib.Data.Set.Basic

/-!
# Searches that do not lock

A search goes from node to node, and it reads the links of every node at another moment. The nodes where it comes are
not on its route at that moment, as others may have unlinked them. If links are written only at nodes that stay on
the route, there was a moment since the start of the search at which the node was on the route with the links that are
read: the search is right in hindsight.
-/

namespace Interleaving

/-- The route of a search in the states of a memory: the nodes that are on it, and what a search reads in a node. -/
structure Route (M N L : Type*) where
  On : M → N → Prop
  Alloc : M → N → Prop
  links : M → N → L
  alloc : ∀ m n, On m n → Alloc m n

namespace Route

variable {M N L : Type*} (rt : Route M N L)

/-- A step writes the links of a node only if the node is on the route afterwards. -/
def Keeps (m m' : M) : Prop :=
  ∀ n, rt.Alloc m n → rt.Alloc m' n ∧ (rt.links m' n = rt.links m n ∨ rt.On m' n)

/-- The moments `seen`, up to now: every node that has been on the route is still on it, or it has been on the route
with the links that it has now. -/
def Trail (seen : M → Prop) (m : M) : Prop :=
  seen m ∧ ∀ n m₀, seen m₀ → rt.On m₀ n →
    rt.Alloc m n ∧ ∃ m₁, seen m₁ ∧ rt.On m₁ n ∧ rt.links m₁ n = rt.links m n

/-- A search that has come to a node `n`, with some of the moments since its call. -/
def Search (past : M → Prop) (m : M) (n : N) : Prop :=
  ∃ seen : M → Prop, (∀ m₀, seen m₀ → past m₀) ∧ rt.Trail seen m ∧ ∃ m₀, seen m₀ ∧ rt.On m₀ n

variable {rt} {seen past past' : M → Prop} {m m' : M} {n n' : N}

/-- A search starts at a node that is on the route. -/
theorem Search.start (hpast : past m) (hn : rt.On m n) : rt.Search past m n := by
  refine ⟨fun m₀ => m₀ = m, fun m₀ hm₀ => hm₀ ▸ hpast, ⟨rfl, fun n' m₀ hm₀ hn' => ?_⟩, m, rfl, hn⟩
  subst hm₀
  exact ⟨rt.alloc _ _ hn', _, rfl, hn', rfl⟩

/-- There was a moment at which the node was on the route with the links that it has now. -/
theorem Search.moment (hs : rt.Search past m n) :
    ∃ m₁, past m₁ ∧ rt.On m₁ n ∧ rt.links m₁ n = rt.links m n := by
  obtain ⟨seen, hseen, ⟨-, htrail⟩, m₀, hm₀, hn⟩ := hs
  obtain ⟨-, m₁, hm₁, hn₁, hlinks⟩ := htrail n m₀ hm₀ hn
  exact ⟨m₁, hseen m₁ hm₁, hn₁, hlinks⟩

/-- A search stays in the memory. -/
theorem Search.alloc (hs : rt.Search past m n) : rt.Alloc m n := by
  obtain ⟨seen, -, ⟨-, htrail⟩, m₀, hm₀, hn⟩ := hs
  exact (htrail n m₀ hm₀ hn).1

/-- A search goes on at a node that was on the route whenever the last node was so with these links. -/
theorem Search.follow (hs : rt.Search past m n)
    (hnext : ∀ m₁, past m₁ → rt.On m₁ n → rt.links m₁ n = rt.links m n → rt.On m₁ n') : rt.Search past m n' := by
  obtain ⟨seen, hseen, htrail, m₀, hm₀, hn⟩ := hs
  obtain ⟨-, m₁, hm₁, hn₁, hlinks⟩ := htrail.2 n m₀ hm₀ hn
  exact ⟨seen, hseen, htrail, m₁, hm₁, hnext m₁ (hseen m₁ hm₁) hn₁ hlinks⟩

/-- More moments do not hurt. -/
theorem Search.weaken (hs : rt.Search past m n) (hpast : ∀ m₀, past m₀ → past' m₀) : rt.Search past' m n := by
  obtain ⟨seen, hseen, hrest⟩ := hs
  exact ⟨seen, fun m₀ hm₀ => hpast m₀ (hseen m₀ hm₀), hrest⟩

/-- The steps of others do not hurt a search. -/
theorem Search.step (hs : rt.Search past m n) (hkeeps : rt.Keeps m m') :
    rt.Search (fun m₀ => past m₀ ∨ m₀ = m') m' n := by
  obtain ⟨seen, hseen, ⟨hnow, htrail⟩, m₀, hm₀, hn⟩ := hs
  refine ⟨fun m₀ => seen m₀ ∨ m₀ = m', fun m₁ hm₁ => hm₁.imp_left (hseen m₁), ⟨.inr rfl, fun n' m₁ hm₁ hn' => ?_⟩,
    m₀, .inl hm₀, hn⟩
  cases hm₁ with
  | inl hm₁ =>
      obtain ⟨halloc, m₂, hm₂, hn₂, hlinks⟩ := htrail n' m₁ hm₁ hn'
      obtain ⟨halloc', hsame | hon⟩ := hkeeps n' halloc
      · exact ⟨halloc', m₂, .inl hm₂, hn₂, hlinks.trans hsame.symm⟩
      · exact ⟨halloc', m', .inr rfl, hon, rfl⟩
  | inr hm₁ =>
      subst hm₁
      exact ⟨rt.alloc _ _ hn', _, .inr rfl, hn', rfl⟩

end Route

end Interleaving
