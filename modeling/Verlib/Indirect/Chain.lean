import Verlib.Indirect.Memory
import Verlib.Interleaving.Versions

/-!
# Version chains of fully indirect pointers

A link is a version of one pointer only, so the word of a pointer is its last version and `next_version` of
a version is the one before it. A link that has been allocated and not yet installed is changed by nobody but
the thread that allocated it.
-/

namespace Verlib.Indirect

open Interleaving

/-- The versions of each pointer: the number of the last one, their links, and the clock at their
installation. -/
structure Chains (P : Type) where
  last : P → Nat
  ent : P → Nat → Nat
  born : P → Nat → Nat

variable {P : Type} {G G' : Chains P} {m m' : Memory P} {p : P} {i l : Nat}

/-- What the memory says of the versions. -/
def Chains.versions (G : Chains P) (m : Memory P) : Versions P (Option Nat) where
  clock := m.stamp
  last := G.last
  stamp p i := (m.links (G.ent p i)).timeStamp
  born := G.born
  value p i := (m.links (G.ent p i)).value

/-- The link is a version of some pointer. -/
def Chains.Inst (G : Chains P) (l : Nat) : Prop :=
  ∃ p i, i ≤ G.last p ∧ G.ent p i = l

/-- The invariant of the version chains. -/
structure ChainInv (G : Chains P) (m : Memory P) : Prop where
  zero : zeroStamp ≤ m.stamp
  ordered : (G.versions m).Ordered
  head : ∀ p, (m.v p).2 = G.ent p (G.last p)
  alloc : ∀ l, G.Inst l → l < m.fresh
  next : ∀ p i, i < G.last p → (m.links (G.ent p (i + 1))).next = some (G.ent p i)
  first : ∀ p, (m.links (G.ent p 0)).timeStamp = some zeroStamp
  distinct : ∀ p q i j, i ≤ G.last p → j ≤ G.last q → G.ent p i = G.ent q j → p = q ∧ i = j

/-- Version `i` of `p` is a version. -/
theorem Chains.inst (hi : i ≤ G.last p) : G.Inst (G.ent p i) :=
  ⟨p, i, hi, rfl⟩

/-- The memory and the chains have grown. -/
structure Ext (G : Chains P) (m : Memory P) (G' : Chains P) (m' : Memory P) : Prop where
  grows : (G.versions m).Grows (G'.versions m')
  ent : ∀ p i, i ≤ G.last p → G'.ent p i = G.ent p i
  fresh : m.fresh ≤ m'.fresh
  word : ∀ p, G'.last p = G.last p → m'.v p = m.v p
  link : ∀ l, l < m.fresh → ¬ G'.Inst l → m'.links l = m.links l

/-- Nothing has changed. -/
theorem Ext.refl (G : Chains P) (m : Memory P) : Ext G m G m where
  grows := .refl _
  ent _ _ _ := rfl
  fresh := le_rfl
  word _ _ := rfl
  link _ _ _ := rfl

/-- The number of versions does not shrink. -/
theorem Ext.last (hext : Ext G m G' m') (p : P) : G.last p ≤ G'.last p :=
  hext.grows.last p

/-- The last version of a pointer with as many versions as before. -/
theorem Ext.ent_last (hext : Ext G m G' m') (hlast : G'.last p = G.last p) :
    G'.ent p (G'.last p) = G.ent p (G.last p) := by
  rw [hlast]
  exact hext.ent p _ le_rfl

/-- A step of a thread on the memory: the chains grow and keep their invariant. -/
def Evolves (G : Chains P) (m : Memory P) (G' : Chains P) (m' : Memory P) : Prop :=
  Ext G m G' m' ∧ ChainInv G' m'

namespace ChainInv

variable (hinv : ChainInv G m)
include hinv

/-- The clock moves on. -/
theorem tick : Evolves G m G { m with stamp := m.stamp + 1 } := by
  have hV := hinv.ordered
  refine ⟨⟨⟨Nat.le_succ _, fun _ => le_rfl, fun _ _ _ _ ht => ht, fun _ _ _ => rfl, fun _ _ _ => rfl, ?_⟩,
    fun _ _ _ => rfl, le_rfl, fun _ _ => rfl, fun _ _ _ => rfl⟩, hinv.zero.trans (Nat.le_succ _),
    ⟨?_, ?_, hV.born_le_stamp, hV.stamp_le_born, hV.stamped⟩, hinv.head, hinv.alloc, hinv.next, hinv.first, hinv.distinct⟩
  · intro p i hlt hle
    exact absurd hlt (Nat.not_lt.mpr hle)
  · intro p i hi
    exact (hV.born_le p i hi).trans (Nat.le_succ _)
  · intro p i t hi ht
    exact (hV.le_clock p i t hi ht).trans (Nat.le_succ _)

/-- A new link is allocated. -/
theorem newLink (d : Link) : Evolves G m G (m.newLink d) := by
  have hlink : ∀ l, l < m.fresh → (m.newLink d).links l = m.links l := by
    intro l hl
    exact Function.update_of_ne (Nat.ne_of_lt hl) _ _
  have hent : ∀ p i, i ≤ G.last p → (m.newLink d).links (G.ent p i) = m.links (G.ent p i) := by
    intro p i hi
    exact hlink _ (hinv.alloc _ (Chains.inst hi))
  have hstamp : ∀ p i, i ≤ G.last p → (G.versions (m.newLink d)).stamp p i = (G.versions m).stamp p i := by
    intro p i hi
    exact congrArg Link.timeStamp (hent p i hi)
  have hV := hinv.ordered
  refine ⟨⟨⟨le_rfl, fun _ => le_rfl, ?_, fun _ _ _ => rfl, ?_, ?_⟩, fun _ _ _ => rfl, Nat.le_succ _,
    fun _ _ => rfl, fun l hl _ => hlink l hl⟩, hinv.zero, ⟨hV.born_le, ?_, ?_, ?_, ?_⟩, hinv.head, ?_, ?_,
    ?_, hinv.distinct⟩
  · intro p i t hi ht
    rwa [hstamp p i hi]
  · intro p i hi
    exact congrArg Link.value (hent p i hi)
  · intro p i hlt hle
    exact absurd hlt (Nat.not_lt.mpr hle)
  · intro p i t hi ht
    rw [hstamp p i hi] at ht
    exact hV.le_clock p i t hi ht
  · intro p i t hi ht
    rw [hstamp p i hi] at ht
    exact hV.born_le_stamp p i t hi ht
  · intro p i j t hij hj ht
    rw [hstamp p i (hij.le.trans hj)] at ht
    exact hV.stamp_le_born p i j t hij hj ht
  · intro p i hi
    rw [hstamp p i hi.le]
    exact hV.stamped p i hi
  · intro l hl
    exact (hinv.alloc l hl).trans (Nat.lt_succ_self _)
  · intro p i hi
    rw [hent p (i + 1) hi]
    exact hinv.next p i hi
  · intro p
    rw [hent p 0 (Nat.zero_le _)]
    exact hinv.first p

/-- A version without a stamp is the last one. -/
theorem eq_last (hi : i ≤ G.last p) (hnone : (m.links (G.ent p i)).timeStamp = none) : i = G.last p := by
  by_contra hne
  exact hinv.ordered.stamped p i (Nat.lt_of_le_of_ne hi hne) hnone

/-- A version gets its stamp. -/
theorem setTimeStamp {t : Nat} (hi : i ≤ G.last p) (hnone : (m.links (G.ent p i)).timeStamp = none)
    (hborn : G.born p i ≤ t) (ht : t ≤ m.stamp) : Evolves G m G (m.setTimeStamp (G.ent p i) t) := by
  have hself : ((m.setTimeStamp (G.ent p i) t).links (G.ent p i)).timeStamp = some t := by
    simp [Memory.setTimeStamp]
  have hlink : ∀ l, l ≠ G.ent p i → (m.setTimeStamp (G.ent p i) t).links l = m.links l := by
    intro l hl
    exact Function.update_of_ne hl _ _
  have hfield : ∀ l, ((m.setTimeStamp (G.ent p i) t).links l).next = (m.links l).next ∧
      ((m.setTimeStamp (G.ent p i) t).links l).value = (m.links l).value := by
    intro l
    rcases eq_or_ne l (G.ent p i) with rfl | hne
    · simp [Memory.setTimeStamp]
    · rw [hlink l hne]
      exact ⟨rfl, rfl⟩
  -- Every stamp is an old one, or it is the new stamp of the last version of `p`.
  have hcases : ∀ q j t', j ≤ G.last q → (G.versions (m.setTimeStamp (G.ent p i) t)).stamp q j = some t' →
      (G.versions m).stamp q j = some t' ∨ q = p ∧ j = i ∧ t' = t := by
    intro q j t' hj ht'
    by_cases heq : G.ent q j = G.ent p i
    · obtain ⟨rfl, rfl⟩ := hinv.distinct q p j i hj hi heq
      have ht' : ((m.setTimeStamp (G.ent q j) t).links (G.ent q j)).timeStamp = some t' := ht'
      rw [hself] at ht'
      exact .inr ⟨rfl, rfl, (Option.some.inj ht').symm⟩
    · have ht' : ((m.setTimeStamp (G.ent p i) t).links (G.ent q j)).timeStamp = some t' := ht'
      rw [hlink _ heq] at ht'
      exact .inl ht'
  have hkeep : ∀ q j t', (G.versions m).stamp q j = some t' →
      (G.versions (m.setTimeStamp (G.ent p i) t)).stamp q j = some t' := by
    intro q j t' ht'
    have hne : G.ent q j ≠ G.ent p i := by
      intro heq
      have ht' : (m.links (G.ent q j)).timeStamp = some t' := ht'
      rw [heq, hnone] at ht'
      cases ht'
    have hsame := congrArg Link.timeStamp (hlink _ hne)
    exact hsame.trans ht'
  have hV := hinv.ordered
  refine ⟨⟨⟨le_rfl, fun _ => le_rfl, fun q j t' _ => hkeep q j t', fun _ _ _ => rfl,
    fun q j _ => (hfield _).2, ?_⟩, fun _ _ _ => rfl, le_rfl, fun _ _ => rfl, ?_⟩, hinv.zero,
    ⟨hV.born_le, ?_, ?_, ?_, ?_⟩, hinv.head, hinv.alloc, ?_, ?_, hinv.distinct⟩
  · intro p i hlt hle
    exact absurd hlt (Nat.not_lt.mpr hle)
  · intro l _ hno
    refine hlink l ?_
    rintro rfl
    exact hno (Chains.inst hi)
  · intro q j t' hj ht'
    rcases hcases q j t' hj ht' with hold | ⟨rfl, rfl, rfl⟩
    · exact hV.le_clock q j t' hj hold
    · exact ht
  · intro q j t' hj ht'
    rcases hcases q j t' hj ht' with hold | ⟨rfl, rfl, rfl⟩
    · exact hV.born_le_stamp q j t' hj hold
    · exact hborn
  · intro q j j' t' hlt hj' ht'
    rcases hcases q j t' (hlt.le.trans hj') ht' with hold | ⟨rfl, rfl, rfl⟩
    · exact hV.stamp_le_born q j j' t' hlt hj' hold
    · exact absurd (hinv.eq_last hi hnone) (Nat.ne_of_lt (hlt.trans_le hj'))
  · intro q j hj
    obtain ⟨t', ht'⟩ := Option.ne_none_iff_exists'.mp (hV.stamped q j hj)
    rw [hkeep q j t' ht']
    exact Option.some_ne_none t'
  · intro q j hj
    rw [(hfield _).1]
    exact hinv.next q j hj
  · intro q
    exact hkeep q 0 zeroStamp (hinv.first q)

end ChainInv

/-! ## Links that are not installed -/

/-- Link `l` belongs to thread `c`, which has not installed it. -/
structure Private {ι : Type} (own : Nat → Option ι) (c : ι) (G : Chains P) (m : Memory P) (l old : Nat)
    (ptr : Option Nat) : Prop where
  own : own l = some c
  alloc : l < m.fresh
  out : ¬ G.Inst l
  link : m.links l = ⟨none, some old, ptr⟩

/-- The new link is private to the thread that allocates it. -/
theorem ChainInv.private_newLink {ι : Type} (hinv : ChainInv G m) (own : Nat → Option ι) (c : ι)
    (old : Nat) (ptr : Option Nat) :
    Private (Function.update own m.fresh (some c)) c G (m.newLink ⟨none, some old, ptr⟩) m.fresh old ptr where
  own := Function.update_self ..
  alloc := Nat.lt_succ_self _
  out hin := Nat.lt_irrefl _ (hinv.alloc _ hin)
  link := Function.update_self ..

/-- The link of a thread stays private when nobody installs a link of this thread. -/
theorem Private.ext {ι : Type} {own own' : Nat → Option ι} {c : ι} {old : Nat} {ptr : Option Nat}
    (hp : Private own c G m l old ptr) (hext : Ext G m G' m') (hown : ∀ l, l < m.fresh → own' l = own l)
    (hout : ∀ l, own l = some c → G'.Inst l → G.Inst l) : Private own' c G' m' l old ptr := by
  have hno : ¬ G'.Inst l := fun hin => hp.out (hout l hp.own hin)
  exact ⟨(hown l hp.alloc).trans hp.own, hp.alloc.trans_le hext.fresh, hno,
    (hext.link l hp.alloc hno).trans hp.link⟩

section Push

variable [DecidableEq P]

/-- The chains with a new last version of a pointer. -/
def Chains.push (G : Chains P) (p : P) (l t : Nat) : Chains P where
  last := Function.update G.last p (G.last p + 1)
  ent := Function.update G.ent p (Function.update (G.ent p) (G.last p + 1) l)
  born := Function.update G.born p (Function.update (G.born p) (G.last p + 1) t)

/-- A version of the new chains is an old one or the new one. -/
theorem push_cases {t : Nat} {q : P} {j : Nat} (hj : j ≤ (G.push p l t).last q) :
    (j ≤ G.last q ∧ (G.push p l t).ent q j = G.ent q j ∧ (G.push p l t).born q j = G.born q j) ∨
      q = p ∧ j = G.last p + 1 ∧ (G.push p l t).ent q j = l ∧ (G.push p l t).born q j = t := by
  rcases eq_or_ne q p with rfl | hne
  · have hj : j ≤ G.last q + 1 := by simpa [Chains.push] using hj
    rcases eq_or_ne j (G.last q + 1) with rfl | hne
    · exact .inr ⟨rfl, rfl, by simp [Chains.push], by simp [Chains.push]⟩
    · exact .inl ⟨by omega, by simp [Chains.push, hne], by simp [Chains.push, hne]⟩
  · have hj : j ≤ G.last q := by simpa [Chains.push, hne] using hj
    exact .inl ⟨hj, by simp [Chains.push, hne], by simp [Chains.push, hne]⟩

/-- The old versions are versions of the new chains. -/
theorem push_old {t : Nat} {q : P} {j : Nat} (hj : j ≤ G.last q) :
    j ≤ (G.push p l t).last q ∧ (G.push p l t).ent q j = G.ent q j ∧
      (G.push p l t).born q j = G.born q j := by
  rcases eq_or_ne q p with rfl | hne
  · have hne : j ≠ G.last q + 1 := by omega
    have hlast : (G.push q l t).last q = G.last q + 1 := by simp [Chains.push]
    exact ⟨by omega, by simp [Chains.push, hne], by simp [Chains.push, hne]⟩
  · exact ⟨by simpa [Chains.push, hne] using hj, by simp [Chains.push, hne], by simp [Chains.push, hne]⟩

/-- The new version. -/
theorem push_new (G : Chains P) (p : P) (l t : Nat) :
    (G.push p l t).last p = G.last p + 1 ∧ (G.push p l t).ent p (G.last p + 1) = l ∧
      (G.push p l t).born p (G.last p + 1) = t := by
  simp [Chains.push]

/-- The links of the new chains. -/
theorem inst_push {t l' : Nat} : (G.push p l t).Inst l' ↔ G.Inst l' ∨ l' = l := by
  constructor
  · rintro ⟨q, j, hj, rfl⟩
    rcases push_cases hj with ⟨hj, hent, _⟩ | ⟨_, _, hent, _⟩
    · exact .inl ⟨q, j, hj, hent.symm⟩
    · exact .inr hent
  · rintro (⟨q, j, hj, rfl⟩ | rfl)
    · obtain ⟨hle, hent, _⟩ := push_old (p := p) (l := l) (t := t) hj
      exact ⟨q, j, hle, hent⟩
    · obtain ⟨hlast, hent, _⟩ := push_new G p l' t
      exact ⟨p, G.last p + 1, hlast.ge, hent⟩

/-- A private link that leads to the last version of a pointer is installed there. -/
theorem ChainInv.install {ι : Type} {own : Nat → Option ι} {c : ι} {ptr : Option Nat} {tag : Nat}
    (hinv : ChainInv G m) (hpriv : Private own c G m l (G.ent p (G.last p)) ptr)
    (hhead : (m.links (G.ent p (G.last p))).timeStamp ≠ none) :
    Evolves G m (G.push p l m.stamp) (m.setWord p (tag, l)) := by
  have hV := hinv.ordered
  have hnone : (m.links l).timeStamp = none := by rw [hpriv.link]
  have hold := fun {q : P} {j : Nat} (hj : j ≤ G.last q) => push_old (p := p) (l := l) (t := m.stamp) hj
  refine ⟨⟨⟨le_rfl, ?_, ?_, ?_, ?_, ?_⟩, ?_, le_rfl, ?_, fun _ _ _ => rfl⟩, hinv.zero,
    ⟨?_, ?_, ?_, ?_, ?_⟩, ?_, ?_, ?_, ?_, ?_⟩
  · intro q
    exact (hold le_rfl).1
  · intro q j t hj ht
    show (m.links ((G.push p l m.stamp).ent q j)).timeStamp = some t
    rw [(hold hj).2.1]
    exact ht
  · intro q j hj
    exact (hold hj).2.2
  · intro q j hj
    show (m.links ((G.push p l m.stamp).ent q j)).value = _
    rw [(hold hj).2.1]
    rfl
  · intro q j hlt hj
    rcases push_cases (l := l) hj with ⟨hj, _⟩ | ⟨_, _, _, hborn⟩
    · exact absurd hlt (Nat.not_lt.mpr hj)
    · exact hborn.ge
  · intro q j hj
    exact (hold hj).2.1
  · intro q hq
    refine Function.update_of_ne ?_ _ _
    rintro rfl
    rw [(push_new G q l m.stamp).1] at hq
    omega
  · intro q j hj
    rcases push_cases (l := l) hj with ⟨hj, _, hborn⟩ | ⟨_, _, _, hborn⟩
    · exact hborn.trans_le (hV.born_le q j hj)
    · exact hborn.le
  · intro q j t hj ht
    have ht : (m.links ((G.push p l m.stamp).ent q j)).timeStamp = some t := ht
    rcases push_cases (l := l) hj with ⟨hj, hent, _⟩ | ⟨_, _, hent, _⟩
    · rw [hent] at ht
      exact hV.le_clock q j t hj ht
    · rw [hent, hnone] at ht
      cases ht
  · intro q j t hj ht
    have ht : (m.links ((G.push p l m.stamp).ent q j)).timeStamp = some t := ht
    rcases push_cases (l := l) hj with ⟨hj, hent, hborn⟩ | ⟨_, _, hent, _⟩
    · rw [hent] at ht
      exact hborn.trans_le (hV.born_le_stamp q j t hj ht)
    · rw [hent, hnone] at ht
      cases ht
  · intro q j j' t hlt hj' ht
    have ht : (m.links ((G.push p l m.stamp).ent q j)).timeStamp = some t := ht
    rcases push_cases (l := l) hj' with ⟨hj', _, hborn⟩ | ⟨hq, hnew, _, hborn⟩
    · rw [(hold (hlt.le.trans hj')).2.1] at ht
      exact (hV.stamp_le_born q j j' t hlt hj' ht).trans_eq hborn.symm
    · have hj : j ≤ G.last q := by
        rw [hq]
        omega
      rw [(hold hj).2.1] at ht
      exact (hV.le_clock q j t hj ht).trans_eq hborn.symm
  · intro q j hj
    show (m.links ((G.push p l m.stamp).ent q j)).timeStamp ≠ none
    have hj : j < (G.push p l m.stamp).last q := hj
    rcases eq_or_ne q p with rfl | hne
    · rw [(push_new G q l m.stamp).1] at hj
      rw [(hold (by omega)).2.1]
      rcases Nat.lt_or_eq_of_le (Nat.le_of_lt_succ hj) with hlt | heq
      · exact hV.stamped q j hlt
      · rw [heq]
        exact hhead
    · have hj : j < G.last q := by simpa [Chains.push, hne] using hj
      rw [(hold hj.le).2.1]
      exact hV.stamped q j hj
  · intro q
    rcases eq_or_ne q p with rfl | hne
    · obtain ⟨hlast, hent, _⟩ := push_new G q l m.stamp
      rw [hlast, hent]
      simp [Memory.setWord]
    · have hlast : (G.push p l m.stamp).last q = G.last q := by simp [Chains.push, hne]
      rw [hlast, (hold le_rfl).2.1]
      simpa [Memory.setWord, hne] using hinv.head q
  · intro l' hl'
    rcases inst_push.mp hl' with hl' | rfl
    · exact hinv.alloc l' hl'
    · exact hpriv.alloc
  · intro q j hj
    show (m.links _).next = _
    rcases push_cases (l := l) (Nat.succ_le_of_lt hj) with ⟨hj, hent, _⟩ | ⟨rfl, heq, hent, _⟩
    · rw [hent, (hold (by omega)).2.1]
      exact hinv.next q j (by omega)
    · obtain rfl : j = G.last q := by omega
      rw [hent, (hold le_rfl).2.1, hpriv.link]
  · intro q
    show (m.links _).timeStamp = _
    rw [(hold (Nat.zero_le _)).2.1]
    exact hinv.first q
  · intro q q' j j' hj hj' heq
    rcases push_cases (l := l) hj with ⟨hle, hent, _⟩ | ⟨hq, hnew, hent, _⟩ <;>
      rcases push_cases (l := l) hj' with ⟨hle', hent', _⟩ | ⟨hq', hnew', hent', _⟩
    · rw [hent, hent'] at heq
      exact hinv.distinct q q' j j' hle hle' heq
    · rw [hent, hent'] at heq
      exact absurd ⟨q, j, hle, heq⟩ hpriv.out
    · rw [hent, hent'] at heq
      exact absurd ⟨q', j', hle', heq.symm⟩ hpriv.out
    · exact ⟨hq.trans hq'.symm, hnew.trans hnew'.symm⟩

end Push

end Verlib.Indirect
