import Verlib.DList.Spine

/-!
# What the threads know

A thread that holds the lock of a node is the only one that writes the `next` and the `removed` of this node, and only
it takes the node out of the list. A node that has been built while nothing leads back to it is nobody's `prev`, so
nobody else locks it. What a thread knows at its position is stated in lists that are read off the position, and
survives the steps of others.
-/

namespace Verlib.DList.Concurrent

open Interleaving Linked

variable {K V ι : Type} [LinearOrder K]

/-! ## Positions -/

namespace Pc

/-- The values that come from `next` pointers. -/
def nexts : Pc K V → List Nat
  | search _ next | back _ next => [next]
  | readNext _ _ next | readRemoved _ _ next | acquire _ _ next | testRemoved _ _ next | testNext _ _ next => [next]
  | newNode _ _ _ next | linkNext _ _ _ next _ | linkPrev _ _ _ next _ => [next]
  | acquireLoc _ _ loc | loadNext _ _ loc => [loc]
  | mark _ _ loc next | unlinkNext _ _ loc next | unlinkPrev _ _ loc next => [loc, next]
  | _ => []

/-- The values that come from `prev` pointers or go there. -/
def prevs : Pc K V → List Nat
  | readNext _ prev _ | readRemoved _ prev _ | acquire _ prev _ | testRemoved _ prev _ | testNext _ prev _ => [prev]
  | newNode _ _ prev _ => [prev]
  | linkNext _ _ prev _ new | linkPrev _ _ prev _ new => [prev, new]
  | acquireLoc _ prev _ | loadNext _ prev _ | mark _ prev _ _ | unlinkNext _ prev _ _ | unlinkPrev _ prev _ _ => [prev]
  | _ => []

/-- Nodes of the list, with their successors. -/
def links : Pc K V → List (Nat × Nat)
  | newNode _ _ prev next | linkNext _ _ prev next _ => [(prev, next)]
  | linkPrev _ _ prev next new => [(prev, new), (new, next)]
  | acquireLoc _ prev loc | loadNext _ prev loc => [(prev, loc)]
  | mark _ prev loc next | unlinkNext _ prev loc next => [(prev, loc), (loc, next)]
  | unlinkPrev _ prev _ next => [(prev, next)]
  | _ => []

/-- A node that is locked, with its successor when the critical section began. -/
def begun : Pc K V → List (Nat × Nat)
  | newNode _ _ prev next | linkNext _ _ prev next _ | linkPrev _ _ prev next _ => [(prev, next)]
  | mark _ _ loc next | unlinkNext _ _ loc next | unlinkPrev _ _ loc next => [(loc, next)]
  | _ => []

/-- A node that has just been locked. -/
def fromLock : Pc K V → List Nat
  | testRemoved _ prev _ | testNext _ prev _ => [prev]
  | loadNext _ _ loc => [loc]
  | _ => []

/-- A node that is not removed. -/
def live : Pc K V → List Nat
  | testNext _ prev _ => [prev]
  | _ => []

/-- A node of the list that is marked as removed. -/
def marked : Pc K V → List Nat
  | unlinkNext _ _ loc _ => [loc]
  | _ => []

/-- A node that is not linked yet. -/
def unlinked : Pc K V → List Nat
  | linkNext _ _ _ _ new => [new]
  | _ => []

/-- A node to which no `prev` pointer leads yet. -/
def hidden : Pc K V → List Nat
  | linkNext _ _ _ _ new | linkPrev _ _ _ _ new => [new]
  | _ => []

/-- Two neighbours of which the second does not lead back to the first. -/
def unpaired : Pc K V → List (Nat × Nat)
  | linkPrev _ _ _ next new => [(new, next)]
  | unlinkPrev _ prev _ next => [(prev, next)]
  | _ => []

/-- The fields of a new node that is not linked. -/
def Built (m : Memory K V) : Pc K V → Prop
  | linkNext k _ prev next new =>
      m.next new = next ∧ m.prev new = prev ∧ m.key new = k ∧ m.isEnd new = false ∧ m.removed new = false
  | _ => True

end Pc

/-- What the operation has found out about the keys of the two nodes. -/
def Op.Fits (o : Op K V) (m : Memory K V) (prev next : Nat) : Prop :=
  match o with
  | .insert k _ => (m.isEnd prev = true ∨ m.key prev < k) ∧ (m.isEnd next = true ∨ k < m.key next)
  | .remove _ => m.isEnd next = false

/-- What a thread knows about keys. -/
def Pc.Fits (m : Memory K V) : Pc K V → Prop
  | .acquire o prev next | .testRemoved o prev next | .testNext o prev next => o.Fits m prev next
  | .newNode k v prev next | .linkNext k v prev next _ => (Op.insert k v).Fits m prev next
  | .acquireLoc k prev loc | .loadNext k prev loc => (Op.remove k : Op K V).Fits m prev loc
  | _ => True

/-- Thread `c` has locked `a`, which has not been written since. -/
def FromLock (h : List (Event K V ι)) (m : Memory K V) (c : ι) (a : Nat) : Prop :=
  ∃ h₁ h₂ m₀, h = h₁ ++ .acquire c a m₀ :: h₂ ∧ .release c a ∉ h₂ ∧ m₀.next a = m.next a ∧
    (m.removed a = false → Listed m₀ a)

/-- What thread `c` knows at a position. -/
structure ThreadOk (h : List (Event K V ι)) (m : Memory K V) (locks : Nat → Option ι) (p : List Nat) (c : ι)
    (pc : Pc K V) : Prop where
  nexts : ∀ a ∈ pc.nexts, Alloc m a ∧ a ≠ root
  prevs : ∀ a ∈ pc.prevs, Alloc m a
  held : ∀ a, locks a = some c ↔ a ∈ pc.held
  nodup : pc.held.Nodup
  alloc : ∀ a ∈ pc.held, Alloc m a
  links : ∀ l ∈ pc.links, l.1 ∈ p ∧ m.next l.1 = l.2
  begun : ∀ l ∈ pc.begun, HeldAt h c l.1 l.2
  fromLock : ∀ a ∈ pc.fromLock, FromLock h m c a
  live : ∀ a ∈ pc.live, m.removed a = false
  marked : ∀ a ∈ pc.marked, m.removed a = true
  hidden : ∀ n ∈ pc.hidden, locks n = none ∧ ∀ a, Alloc m a → m.prev a ≠ n
  unlinked : ∀ n ∈ pc.unlinked, n ∉ p ∧ ∀ a, Alloc m a → m.next a ≠ n
  built : pc.Built m
  fits : pc.Fits m

/-- Another thread does not know the nodes to which nothing leads. -/
structure Apart (pc pc' : Pc K V) : Prop where
  hidden : ∀ n ∈ pc.hidden, n ∉ pc'.prevs
  unlinked : ∀ n ∈ pc.unlinked, n ∉ pc'.nexts

/-- What a step of thread `c` from one position to another may do to the memory, the locks and the list. -/
structure Ext (c : ι) (m m' : Memory K V) (locks locks' : Nat → Option ι) (p p' : List Nat) (pc pc' : Pc K V) :
    Prop where
  fresh : m.fresh ≤ m'.fresh
  key : ∀ a, Alloc m a → m'.key a = m.key a ∧ m'.isEnd a = m.isEnd a
  fields : ∀ a, Alloc m a → locks a = some c ∨ m'.next a = m.next a ∧ m'.removed a = m.removed a
  prev : ∀ a, Alloc m a → a ∈ pc.nexts ∨ m'.prev a = m.prev a
  stay : ∀ a ∈ p, locks a = some c ∨ a ∈ p'
  joined : ∀ a ∈ p', a ∈ p ∨ a ∈ pc.prevs
  others : ∀ c', c' ≠ c → ∀ a, locks' a = some c' ↔ locks a = some c'
  acquired : ∀ a, locks' a = some c → locks a = some c ∨ a ∈ pc.prevs ∨ a ∈ pc.nexts ∧ ∃ w ∈ pc.held, (w, a) ∈ pc.links
  next_from : ∀ a, Alloc m' a → m'.next a ∈ pc.nexts ∨ m'.next a ∈ pc.prevs ∨ Alloc m a ∧ m'.next a = m.next a
  prev_from : ∀ a, Alloc m' a → m'.prev a ∈ pc.prevs ∨ Alloc m a ∧ m'.prev a = m.prev a
  nexts_from : ∀ n ∈ pc'.nexts, n ∈ pc.nexts ∨ ∃ a, Alloc m a ∧ m.next a = n
  prevs_from : ∀ n ∈ pc'.prevs, n ∈ pc.prevs ∨ (∃ a, Alloc m a ∧ m.prev a = n) ∨ m.fresh ≤ n
  hidden_from : ∀ n ∈ pc'.hidden, n ∈ pc.hidden ∨ m.fresh ≤ n
  unlinked_from : ∀ n ∈ pc'.unlinked, m.fresh ≤ n

section

omit [LinearOrder K]

variable {pc : Pc K V} {a n : Nat} {l : Nat × Nat}

theorem Pc.held_or_hidden (h : l ∈ pc.links) : l.1 ∈ pc.held ∨ l.1 ∈ pc.hidden := by
  cases pc <;> simp_all [links, held, hidden] <;> grind

theorem Pc.held_of_written (h : a ∈ pc.fromLock ∨ a ∈ pc.live ∨ a ∈ pc.marked) : a ∈ pc.held := by
  cases pc <;> simp_all [fromLock, live, marked, held]

theorem Pc.prevs_of_hidden (h : n ∈ pc.hidden) : n ∈ pc.prevs := by
  cases pc <;> simp_all [hidden, prevs]

theorem Pc.hidden_of_unlinked (h : n ∈ pc.unlinked) : n ∈ pc.hidden := by
  cases pc <;> simp_all [unlinked, hidden]

/-- A node that is marked comes after a node that is locked. -/
theorem Pc.link_of_marked (h : n ∈ pc.marked) : ∃ w ∈ pc.held, (w, n) ∈ pc.links := by
  cases pc <;> simp_all [marked, held, links]

/-- A new node that is linked comes after a node that is locked. -/
theorem Pc.hidden_cases (h : n ∈ pc.hidden) : n ∈ pc.unlinked ∨ ∃ w ∈ pc.held, (w, n) ∈ pc.links := by
  cases pc <;> simp_all [hidden, unlinked, held, links]

end

/-! ## Steps of other threads -/

section

variable {h es : List (Event K V ι)} {m m' : Memory K V} {locks locks' : Nat → Option ι} {p p' : List Nat} {c c' : ι}
  {pc pc' q : Pc K V} {a w x n : Nat} {unlinked marked : Nat → Prop} {unpaired : Nat × Nat → Prop}

omit [LinearOrder K] in
theorem Alloc.mono (ha : Alloc m a) (hle : m.fresh ≤ m'.fresh) : Alloc m' a := ⟨ha.1, ha.2.trans_le hle⟩

omit [LinearOrder K] in
theorem HeldAt.append (hheld : HeldAt h c w x) (hes : .release c w ∉ es) : HeldAt (h ++ es) c w x := by
  obtain ⟨h₁, h₂, m, rfl, hrelease, hlisted⟩ := hheld
  refine ⟨h₁, h₂ ++ es, m, by simp, ?_, hlisted⟩
  exact fun hmem => (List.mem_append.mp hmem).elim hrelease hes

omit [LinearOrder K] in
theorem FromLock.append (hlock : FromLock h m c a) (hes : .release c a ∉ es)
    (hfields : m'.next a = m.next a ∧ m'.removed a = m.removed a) : FromLock (h ++ es) m' c a := by
  obtain ⟨h₁, h₂, m₀, rfl, hrelease, hnext, hlisted⟩ := hlock
  refine ⟨h₁, h₂ ++ es, m₀, by simp, ?_, hnext.trans hfields.1.symm, ?_⟩
  · exact fun hmem => (List.mem_append.mp hmem).elim hrelease hes
  · rw [hfields.2]
    exact hlisted

omit [LinearOrder K] in
/-- A node of the list that is locked and has not been written since. -/
theorem FromLock.heldAt (hlock : FromLock h m c a) (hlive : m.removed a = false) (hnext : m.next a = x) :
    HeldAt h c a x := by
  obtain ⟨h₁, h₂, m₀, rfl, hrelease, hnext', hlisted⟩ := hlock
  exact ⟨h₁, h₂, m₀, rfl, hrelease, hlisted hlive, hnext'.trans hnext⟩

/-- What a thread knows about keys does not change. -/
theorem Pc.Fits.congr (hfits : pc.Fits m) (hnexts : ∀ a ∈ pc.nexts, m'.key a = m.key a ∧ m'.isEnd a = m.isEnd a)
    (hprevs : ∀ a ∈ pc.prevs, m'.key a = m.key a ∧ m'.isEnd a = m.isEnd a) : pc.Fits m' := by
  have hop : ∀ (o : Op K V) (w x : Nat), m'.key w = m.key w ∧ m'.isEnd w = m.isEnd w →
      m'.key x = m.key x ∧ m'.isEnd x = m.isEnd x → o.Fits m w x → o.Fits m' w x := by
    intro o w x hw hx hfits
    cases o with
    | insert k v =>
        rw [Op.Fits, hw.1, hw.2, hx.1, hx.2]
        exact hfits
    | remove k =>
        rw [Op.Fits, hx.2]
        exact hfits
  cases pc with
  | acquire o prev next | testRemoved o prev next | testNext o prev next =>
      exact hop o _ _ (hprevs _ List.mem_cons_self) (hnexts _ List.mem_cons_self) hfits
  | newNode k v prev next | linkNext k v prev next new =>
      exact hop (.insert k v) _ _ (hprevs _ List.mem_cons_self) (hnexts _ List.mem_cons_self) hfits
  | acquireLoc k prev loc | loadNext k prev loc =>
      exact hop (.remove k) _ _ (hprevs _ List.mem_cons_self) (hnexts _ List.mem_cons_self) hfits
  | _ => trivial

namespace Ext

variable (hext : Ext c m m' locks locks' p p' pc q)

include hext

omit [LinearOrder K] in
/-- A node that the thread has not locked is not written. -/
theorem fields_of_ne (ha : Alloc m a) (hlock : locks a ≠ some c) :
    m'.next a = m.next a ∧ m'.removed a = m.removed a :=
  (hext.fields a ha).resolve_left hlock

/-- The nodes to which nothing leads stay hidden from the other threads. -/
theorem apart (hok : ThreadOk h m locks p c' pc') (hapart : Apart pc' pc) : Apart pc' q := by
  constructor
  · intro n hn hmem
    obtain hold | ⟨a, ha, heq⟩ | hfresh := hext.prevs_from n hmem
    · exact hapart.hidden n hn hold
    · exact (hok.hidden n hn).2 a ha heq
    · exact absurd (hok.prevs n (Pc.prevs_of_hidden hn)).2 (not_lt.mpr hfresh)
  · intro n hn hmem
    obtain hold | ⟨a, ha, heq⟩ := hext.nexts_from n hmem
    · exact hapart.unlinked n hn hold
    · exact (hok.unlinked n hn).2 a ha heq

/-- The nodes that the thread builds are not known to the others. -/
theorem apart' (hok : ThreadOk h m locks p c' pc') (hapart : Apart pc pc') : Apart q pc' := by
  constructor
  · intro n hn hmem
    obtain hold | hfresh := hext.hidden_from n hn
    · exact hapart.hidden n hold hmem
    · exact absurd (hok.prevs n hmem).2 (not_lt.mpr hfresh)
  · intro n hn hmem
    exact absurd (hok.nexts n hmem).1.2 (not_lt.mpr (hext.unlinked_from n hn))

/-- Nobody else acquires the lock of a hidden node. -/
theorem not_acquired (hc : c' ≠ c) (hspine : Spine m p unlinked marked unpaired) (hself : ThreadOk h m locks p c pc)
    (hok : ThreadOk h m locks p c' pc') (hapart : Apart pc' pc) (hn : n ∈ pc'.hidden) : locks' n = none := by
  have hfree := (hok.hidden n hn).1
  cases hlock : locks' n with
  | none => rfl
  | some d =>
      by_cases hd : d = c
      · obtain hold | hprev | ⟨hnext, w, hw, hlink⟩ := hext.acquired n (hlock.trans (congrArg some hd))
        · rw [hfree] at hold
          cases hold
        · exact absurd hprev (hapart.hidden n hn)
        · obtain hun | ⟨w', hw', hlink'⟩ := Pc.hidden_cases hn
          · exact absurd hnext (hapart.unlinked n hun)
          · -- two nodes of the list would lead to `n`
            have hl := hself.links _ hlink
            have hl' := hok.links _ hlink'
            obtain rfl := hspine.eq_of_next hl.1 hl'.1 (hself.nexts n hnext).1 hl.2 hl'.2
            exact absurd (Option.some.inj (((hok.held w).mpr hw').symm.trans ((hself.held w).mpr hw))) hc
      · rw [(hext.others d hd n).mp hlock] at hfree
        cases hfree

/-- A thread knows the same after a step of another one. -/
theorem other (hc : c' ≠ c) (hspine : Spine m p unlinked marked unpaired) (hself : ThreadOk h m locks p c pc)
    (hok : ThreadOk h m locks p c' pc') (hapart : Apart pc' pc) (hes : ∀ a, .release c' a ∉ es) :
    ThreadOk (h ++ es) m' locks' p' c' pc' := by
  have hheld : ∀ {a}, a ∈ pc'.held → locks a ≠ some c := fun ha hlock =>
    hc (Option.some.inj (((hok.held _).mpr ha).symm.trans hlock))
  have hhidden : ∀ {n}, n ∈ pc'.hidden → locks n ≠ some c := fun hn hlock => by
    rw [(hok.hidden _ hn).1] at hlock
    cases hlock
  have hallocHidden : ∀ {n}, n ∈ pc'.hidden → Alloc m n := fun hn => hok.prevs _ (Pc.prevs_of_hidden hn)
  have hsame : ∀ {a}, a ∈ pc'.fromLock ∨ a ∈ pc'.live ∨ a ∈ pc'.marked →
      m'.next a = m.next a ∧ m'.removed a = m.removed a := fun {a} ha => by
    have ha := Pc.held_of_written ha
    exact hext.fields_of_ne (hok.alloc a ha) (hheld ha)
  have hlinks : ∀ l ∈ pc'.links, l.1 ∈ p' ∧ m'.next l.1 = l.2 := by
    intro l hl
    obtain ⟨hmem, hnext⟩ := hok.links l hl
    have hlock : locks l.1 ≠ some c := (Pc.held_or_hidden hl).elim hheld hhidden
    exact ⟨(hext.stay l.1 hmem).resolve_left hlock,
      (hext.fields_of_ne (hspine.alloc l.1 hmem) hlock).1.trans hnext⟩
  refine ⟨fun a ha => ?_, fun a ha => (hok.prevs a ha).mono hext.fresh, fun a => ?_, hok.nodup,
    fun a ha => (hok.alloc a ha).mono hext.fresh, hlinks, fun l hl => (hok.begun l hl).append (hes _), fun a ha => ?_,
    fun a ha => ?_, fun a ha => ?_, fun n hn => ?_,
    fun n hn => ?_, ?_, ?_⟩
  · exact ⟨(hok.nexts a ha).1.mono hext.fresh, (hok.nexts a ha).2⟩
  · rw [hext.others c' hc]
    exact hok.held a
  · exact (hok.fromLock a ha).append (hes a) (hsame (.inl ha))
  · exact (hsame (.inr (.inl ha))).2.trans (hok.live a ha)
  · exact (hsame (.inr (.inr ha))).2.trans (hok.marked a ha)
  · obtain ⟨hlock, hprev⟩ := hok.hidden n hn
    refine ⟨hext.not_acquired hc hspine hself hok hapart hn, fun a ha heq => ?_⟩
    · obtain hmem | ⟨ha, hsame⟩ := hext.prev_from a ha
      · exact hapart.hidden n hn (heq ▸ hmem)
      · exact hprev a ha (hsame.symm.trans heq)
  · obtain ⟨hnot, hnext⟩ := hok.unlinked n hn
    have hn' := Pc.hidden_of_unlinked hn
    refine ⟨fun hmem => ?_, fun a ha heq => ?_⟩
    · exact (hext.joined n hmem).elim hnot (hapart.hidden n hn')
    · obtain hmem | hmem | ⟨ha, hsame⟩ := hext.next_from a ha
      · exact hapart.unlinked n hn (heq ▸ hmem)
      · exact hapart.hidden n hn' (heq ▸ hmem)
      · exact hnext a ha (hsame.symm.trans heq)
  · cases pc' with
    | linkNext k v prev next new =>
        have hnew : new ∈ (Pc.linkNext k v prev next new).hidden := List.mem_singleton_self _
        have halloc := hallocHidden hnew
        have hfields := hext.fields_of_ne halloc (hhidden hnew)
        have hprev := (hext.prev new halloc).resolve_left (hapart.unlinked new (List.mem_singleton_self _))
        have hkey := hext.key new halloc
        rw [Pc.Built, hfields.1, hfields.2, hprev, hkey.1, hkey.2]
        exact hok.built
    | _ => trivial
  · exact hok.fits.congr (fun a ha => hext.key a (hok.nexts a ha).1) fun a ha => hext.key a (hok.prevs a ha)

end Ext

end

end Verlib.DList.Concurrent
