import Verlib.Hybrid.Memory
import Mathlib.Order.Nat

/-!
# Version chains

The versions of a pointer are numbered in the order of their installation. What a pointer holds, and
what `next_version` of a version holds, need not be the version itself: `shortcut` replaces a link whose
stamp `done_stamp` has reached by its value, and an update may go on from the value with an older link
as the next version. `Rep G m p i y` says that `y` stands for version `i` of `p` in this sense. The chain
invariant says that every pointer and every version leads to the version before it, that stamps grow
along a chain, and that only the last version of a pointer can be without a stamp.
-/

namespace Verlib.Hybrid

/-- The versions of each pointer: the number of the last one, the versions, and the clock at their
installation; the links that `shortcut` has replaced, and the largest `done_stamp` so far. -/
structure Chains (P : Type) where
  last : P → Nat
  ent : P → Nat → Versioned
  born : P → Nat → Nat
  short : Nat → Prop
  limit : Nat

variable {P : Type} {G G' : Chains P} {m m' : Memory P} {a y : Versioned} {p : P} {i : Nat}

/-- `y` is a version of some pointer. -/
def Chains.Inst (G : Chains P) (y : Versioned) : Prop :=
  ∃ p i, i ≤ G.last p ∧ G.ent p i = y

/-- Links that `y` points to have been allocated. -/
def Memory.Allocated (m : Memory P) (y : Versioned) : Prop :=
  ∀ l, y = .indirect l → l < m.fresh

/-- `y` stands for version `i` of `p`: it is this version, or the version is a link that has been
replaced and `y` leads to the same object and is not younger. -/
def Rep (G : Chains P) (m : Memory P) (p : P) (i : Nat) (y : Versioned) : Prop :=
  y = G.ent p i ∨ ∃ l t t₀, G.ent p i = .indirect l ∧ m.timeStamp (.indirect l) = some t ∧
    G.short l ∧ m.Allocated y ∧ m.getPtr y = m.value l ∧ m.timeStamp y = some t₀ ∧ t₀ ≤ t

/-- The invariant of the version chains. -/
structure ChainInv (G : Chains P) (m : Memory P) : Prop where
  stamp_pos : 1 ≤ m.stamp
  null : m.timeStamp .null = some 0
  fresh : ∀ l, m.fresh ≤ l → m.timeStamp (.indirect l) = none
  le_stamp : ∀ y t, m.timeStamp y = some t → t ≤ m.stamp
  born_le : ∀ p i, i ≤ G.last p → G.born p i ≤ m.stamp
  head : ∀ p, Rep G m p (G.last p) (m.v p).2
  word : ∀ p l, (m.v p).2 = .indirect l → G.ent p (G.last p) = .indirect l
  stamped : ∀ p i, i < G.last p → m.timeStamp (G.ent p i) ≠ none
  born_le_stamp : ∀ p i t, i ≤ G.last p → m.timeStamp (G.ent p i) = some t → G.born p i ≤ t
  stamp_le_born : ∀ p i j t, i < j → j ≤ G.last p → m.timeStamp (G.ent p i) = some t → t ≤ G.born p j
  next : ∀ p i, i < G.last p → Rep G m p i (m.next (G.ent p (i + 1)))
  value : ∀ p i l, i ≤ G.last p → G.ent p i = .indirect l →
    l < m.fresh ∧ ∃ t, m.timeStamp (.direct (m.value l)) = some t ∧ t ≤ G.born p i
  ne_value : ∀ p i j l, i < j → j ≤ G.last p → G.ent p i = .indirect l →
    G.ent p j ≠ .direct (m.value l)
  first : ∀ p, ∃ t, m.timeStamp (G.ent p 0) = some t ∧ t ≤ 1
  short : ∀ l, G.short l → G.Inst (.indirect l) ∧
    ∃ t, m.timeStamp (.indirect l) = some t ∧ t ≤ G.limit
  done_le : m.done ≤ G.limit

/-- The owner of an object; links and null have none. -/
def Versioned.owned {ι : Type} (owner : Nat → ι) : Versioned → Option ι
  | .direct (some o) => some (owner o)
  | _ => none

/-- The initial chains: every pointer has one version. -/
def Chains.initial (init : P → Option Nat) : Chains P :=
  ⟨fun _ => 0, fun p _ => .direct (init p), fun _ _ => 0, fun _ => False, 1⟩

/-- The initial version of a pointer has the zero stamp, or is null. -/
theorem initial_stamp {init : P → Option Nat} {stamped : Nat → Bool} (tag : P → Nat)
    (older : Versioned → Versioned) (hinit : ∀ p o, init p = some o → stamped o = true) (p : P) :
    ∃ t, (Memory.initial init stamped tag older).timeStamp (.direct (init p)) = some t ∧ t ≤ 1 := by
  cases hp : init p with
  | none => exact ⟨0, rfl, Nat.zero_le _⟩
  | some o => exact ⟨1, by simp [Memory.initial, hinit p o hp], le_rfl⟩

/-- The chain invariant holds initially. -/
theorem chainInv_initial {init : P → Option Nat} {stamped : Nat → Bool} (tag : P → Nat)
    (older : Versioned → Versioned) (hinit : ∀ p o, init p = some o → stamped o = true) :
    ChainInv (.initial init) (.initial init stamped tag older) where
  stamp_pos := le_rfl
  null := rfl
  fresh _ _ := rfl
  le_stamp y t ht := by
    match y, ht with
    | .direct none, ht =>
        cases ht
        exact Nat.zero_le _
    | .direct (some o), ht =>
        simp only [Memory.initial, Option.ite_none_right_eq_some, Option.some.injEq] at ht
        exact ht.2.ge
    | .indirect l, ht => cases ht
  born_le _ _ _ := Nat.zero_le _
  head _ := .inl rfl
  word _ _ hl := by cases hl
  stamped _ i hi := absurd hi (Nat.not_lt_zero i)
  born_le_stamp _ _ _ _ _ := Nat.zero_le _
  stamp_le_born p i j t hij hj := by
    have hj : j ≤ 0 := hj
    omega
  next _ i hi := absurd hi (Nat.not_lt_zero i)
  value _ _ _ _ hl := by cases hl
  ne_value _ _ _ _ _ _ hl := by cases hl
  first p := initial_stamp tag older hinit p
  short _ := False.elim
  done_le := le_rfl

/-- Stamps grow along a chain. -/
theorem ChainInv.stamp_mono (hinv : ChainInv G m) {j t t' : Nat} (hij : i ≤ j) (hj : j ≤ G.last p)
    (ht : m.timeStamp (G.ent p i) = some t) (ht' : m.timeStamp (G.ent p j) = some t') : t ≤ t' := by
  rcases Nat.lt_or_eq_of_le hij with hlt | rfl
  · exact (hinv.stamp_le_born p i j t hlt hj ht).trans (hinv.born_le_stamp p j t' hj ht')
  · rw [ht] at ht'
    cases ht'
    exact le_rfl

/-- What stands for a version has been allocated. -/
theorem Rep.allocated (hinv : ChainInv G m) (hi : i ≤ G.last p) (hy : Rep G m p i y) :
    m.Allocated y := by
  rcases hy with rfl | ⟨_, _, _, _, _, _, halloc, _⟩
  · intro l hl
    exact (hinv.value p i l hi hl).1
  · exact halloc

/-- What stands for a version is the version or has a stamp. -/
theorem Rep.inst_or_stamped (hi : i ≤ G.last p) (hy : Rep G m p i y) :
    G.Inst y ∨ m.timeStamp y ≠ none := by
  rcases hy with rfl | ⟨_, _, _, _, _, _, _, _, hts, _⟩
  · exact .inl ⟨p, i, hi, rfl⟩
  · exact .inr (by simp [hts])

/-- A version has a stamp if what stands for it has one. -/
theorem Rep.stamped (hy : Rep G m p i y) (hts : m.timeStamp y ≠ none) :
    ∃ t, m.timeStamp (G.ent p i) = some t := by
  rcases hy with rfl | ⟨l, t, _, hl, ht, _⟩
  · exact Option.ne_none_iff_exists'.mp hts
  · exact ⟨t, by rw [hl, ht]⟩

/-- What stands for a version leads to its object. -/
theorem Rep.getPtr (hy : Rep G m p i y) : m.getPtr y = m.getPtr (G.ent p i) := by
  rcases hy with rfl | ⟨l, _, _, hl, _, _, _, hval, _⟩
  · rfl
  · rw [hl, hval]
    rfl

/-! ## How a step extends the chains -/

/-- How a step may change the memory and the chains: stamps are written once and on versions only, and
a new version, as well as a change of `next_version`, concerns the node `a`. -/
structure Ext (a : Versioned) (G : Chains P) (m : Memory P) (G' : Chains P) (m' : Memory P) :
    Prop where
  stamp : m.stamp ≤ m'.stamp
  limit : G.limit ≤ G'.limit
  timeStamp : ∀ y t, m.timeStamp y = some t → m'.timeStamp y = some t
  written : ∀ y, m.timeStamp y = none → m'.timeStamp y ≠ none → G.Inst y
  fresh : m.fresh ≤ m'.fresh
  value : ∀ l, l < m.fresh → m'.value l = m.value l
  next : ∀ y, y ≠ a → m'.next y = m.next y
  last : ∀ p, G.last p ≤ G'.last p
  ent : ∀ p i, i ≤ G.last p → G'.ent p i = G.ent p i
  born : ∀ p i, i ≤ G.last p → G'.born p i = G.born p i
  new : ∀ p i, G.last p < i → i ≤ G'.last p → G'.ent p i = a ∧ ¬ G.Inst a ∧ m.stamp ≤ G'.born p i
  short : ∀ l, G.short l → G'.short l

section Transport

variable (hext : Ext a G m G' m')
include hext

/-- A version stays one. -/
theorem Ext.inst (hy : G.Inst y) : G'.Inst y := by
  obtain ⟨p, i, hi, rfl⟩ := hy
  exact ⟨p, i, hi.trans (hext.last p), hext.ent p i hi⟩

/-- A new version is the node `a`. -/
theorem Ext.not_inst (hy : ¬ G.Inst y) (hne : y ≠ a) : ¬ G'.Inst y := by
  rintro ⟨p, i, hi, rfl⟩
  rcases Nat.lt_or_ge (G.last p) i with hlt | hle
  · exact hne (hext.new p i hlt hi).1
  · exact hy ⟨p, i, hle, (hext.ent p i hle).symm⟩

/-- A node with a stamp keeps it. -/
theorem Ext.ne_none (hy : m.timeStamp y ≠ none) : m'.timeStamp y ≠ none := by
  obtain ⟨t, ht⟩ := Option.ne_none_iff_exists'.mp hy
  rw [hext.timeStamp y t ht]
  simp

/-- A node that is not a version gets no stamp. -/
theorem Ext.eq_none (hy : ¬ G.Inst y) (hts : m.timeStamp y = none) : m'.timeStamp y = none := by
  by_contra hne
  exact hy (hext.written y hts hne)

/-- Allocated links stay allocated. -/
theorem Ext.allocated (hy : m.Allocated y) : m'.Allocated y :=
  fun l hl => (hy l hl).trans_le hext.fresh

/-- The object behind a pointer does not change. -/
theorem Ext.getPtr (hy : m.Allocated y) : m'.getPtr y = m.getPtr y := by
  cases y with
  | direct ptr => rfl
  | indirect l => exact hext.value l (hy l rfl)

/-- What stands for a version goes on doing so. -/
theorem Ext.rep (hinv : ChainInv G m) (hi : i ≤ G.last p) (hy : Rep G m p i y) :
    Rep G' m' p i y := by
  rcases hy with rfl | ⟨l, t, t₀, hl, ht, hshort, halloc, hval, hts, hle⟩
  · exact .inl (hext.ent p i hi).symm
  · refine .inr ⟨l, t, t₀, (hext.ent p i hi).trans hl, hext.timeStamp _ _ ht, hext.short l hshort,
      hext.allocated halloc, ?_, hext.timeStamp _ _ hts, hle⟩
    rw [hext.getPtr halloc, hval, hext.value l (hinv.value p i l hi hl).1]

end Transport

/-- Versions lead to allocated links. -/
theorem ChainInv.allocated (hinv : ChainInv G m) (hi : i ≤ G.last p) :
    m.Allocated (G.ent p i) :=
  fun l hl => (hinv.value p i l hi hl).1

/-! ## Which version a stamp selects -/

/-- Version `i` of `p` has a stamp of at most `ls`. -/
def Within (G : Chains P) (m : Memory P) (ls : Nat) (p : P) (i : Nat) : Prop :=
  ∃ t, m.timeStamp (G.ent p i) = some t ∧ t ≤ ls

/-- Whether a version has a stamp of at most `ls` is decidable. -/
instance (G : Chains P) (m : Memory P) (ls : Nat) (p : P) (i : Nat) : Decidable (Within G m ls p i) :=
  decidable_of_iff ((m.timeStamp (G.ent p i)).any fun t => decide (t ≤ ls))
    (by cases h : m.timeStamp (G.ent p i) <;> simp [Within, h])

/-- The versions of `p` after `i` are younger than `ls`: they have a larger stamp, or were installed
when the clock was past `ls`. -/
def Beyond (G : Chains P) (m : Memory P) (ls : Nat) (p : P) (i : Nat) : Prop :=
  ∀ j, i < j → j ≤ G.last p → ls < G.born p j ∨ ∃ t, m.timeStamp (G.ent p j) = some t ∧ ls < t

/-- Version `i` of `p` is the one that a snapshot with `local_stamp` `ls` shows. -/
def Cut (G : Chains P) (m : Memory P) (ls : Nat) (p : P) (i : Nat) : Prop :=
  i ≤ G.last p ∧ Within G m ls p i ∧ Beyond G m ls p i

section Transport

variable (hext : Ext a G m G' m')
include hext

/-- Stamps stay. -/
theorem Ext.within {ls : Nat} (hi : i ≤ G.last p) (hw : Within G m ls p i) :
    Within G' m' ls p i := by
  obtain ⟨t, ht, hle⟩ := hw
  exact ⟨t, by rw [hext.ent p i hi, hext.timeStamp _ _ ht], hle⟩

/-- What is younger than a stamp behind the clock stays younger. -/
theorem Ext.beyond {ls : Nat} (hls : ls < m.stamp) (hb : Beyond G m ls p i) :
    Beyond G' m' ls p i := by
  intro j hij hj
  rcases Nat.lt_or_ge (G.last p) j with hlt | hle
  · exact .inl (hls.trans_le (hext.new p j hlt hj).2.2)
  · rw [hext.born p j hle, hext.ent p j hle]
    refine (hb j hij hle).imp_right ?_
    rintro ⟨t, ht, hlt⟩
    exact ⟨t, hext.timeStamp _ _ ht, hlt⟩

/-- The version that a snapshot shows stays the same. -/
theorem Ext.cut {ls : Nat} (hls : ls < m.stamp) (hc : Cut G m ls p i) :
    Cut G' m' ls p i :=
  ⟨hc.1.trans (hext.last p), hext.within hc.1 hc.2.1, hext.beyond hls hc.2.2⟩

end Transport

/-- A version within a stamp lies at or before every cut. -/
theorem Cut.le (hinv : ChainInv G m) {j ls : Nat} (hc : Cut G m ls p i)
    (hj : j ≤ G.last p) (hw : Within G m ls p j) : j ≤ i := by
  by_contra hlt
  obtain ⟨t, ht, hle⟩ := hw
  rcases hc.2.2 j (by omega) hj with hborn | ⟨t', ht', hlt'⟩
  · have := hinv.born_le_stamp p j t hj ht
    omega
  · rw [ht] at ht'
    cases ht'
    omega

/-! ## The steps that change the memory -/

/-- A step that changes neither the memory nor the chains. -/
theorem Ext.refl (a : Versioned) (G : Chains P) (m : Memory P) : Ext a G m G m where
  stamp := le_rfl
  limit := le_rfl
  timeStamp _ _ ht := ht
  written _ hy hne := absurd hy hne
  fresh := le_rfl
  value _ _ := rfl
  next _ _ := rfl
  last _ := le_rfl
  ent _ _ _ := rfl
  born _ _ _ := rfl
  new _ _ hlt hle := absurd hle (Nat.not_le.mpr hlt)
  short _ hl := hl

/-- A step keeps the chain invariant and extends memory and chains. -/
def Evolves (a : Versioned) (G : Chains P) (m : Memory P) (G' : Chains P) (m' : Memory P) : Prop :=
  Ext a G m G' m' ∧ ChainInv G' m'

/-- `get_read_stamp` moves the clock. -/
theorem ChainInv.tick (hinv : ChainInv G m) (a : Versioned) :
    Evolves a G m G { m with stamp := m.stamp + 1 } := by
  have hext : Ext a G m G { m with stamp := m.stamp + 1 } :=
    { Ext.refl a G m with stamp := Nat.le_succ _ }
  refine ⟨hext, { hinv with
    stamp_pos := hinv.stamp_pos.trans (Nat.le_succ _)
    le_stamp := fun y t ht => (hinv.le_stamp y t ht).trans (Nat.le_succ _)
    born_le := fun p i hi => (hinv.born_le p i hi).trans (Nat.le_succ _)
    head := fun p => hext.rep hinv le_rfl (hinv.head p)
    next := fun p i hi => hext.rep hinv hi.le (hinv.next p i hi) }⟩

/-- `done_stamp` is written. -/
theorem ChainInv.setDone (hinv : ChainInv G m) (a : Versioned) (d : Nat) :
    Evolves a G m { G with limit := max G.limit d } { m with done := d } := by
  have hext : Ext a G m { G with limit := max G.limit d } { m with done := d } :=
    { Ext.refl a G m with limit := le_max_left _ _ }
  refine ⟨hext, { hinv with
    head := fun p => hext.rep hinv le_rfl (hinv.head p)
    next := fun p i hi => hext.rep hinv hi.le (hinv.next p i hi)
    short := fun l hl => ?_
    done_le := le_max_right _ _ }⟩
  obtain ⟨hinst, t, ht, hle⟩ := hinv.short l hl
  exact ⟨hinst, t, ht, hle.trans (le_max_left _ _)⟩

section Writes

variable [DecidableEq P]

omit [DecidableEq P] in
/-- The last version of a pointer gets its stamp. -/
theorem ChainInv.setTimeStamp (hinv : ChainInv G m) (a : Versioned) {t : Nat} (hy : G.Inst y)
    (hnone : m.timeStamp y = none) (ht : t ≤ m.stamp)
    (hborn : ∀ p i, i ≤ G.last p → G.ent p i = y → G.born p i ≤ t) :
    Evolves a G m G (m.setTimeStamp y t) := by
  have hcases : ∀ {z t'}, (m.setTimeStamp y t).timeStamp z = some t' →
      z = y ∧ t' = t ∨ m.timeStamp z = some t' := by
    intro z t' hz
    rcases eq_or_ne z y with rfl | hne
    · exact .inl ⟨rfl, by simpa [Memory.setTimeStamp, eq_comm] using hz⟩
    · exact .inr (by simpa [Memory.setTimeStamp, Function.update_of_ne hne] using hz)
  have hother : ∀ {z}, z ≠ y → (m.setTimeStamp y t).timeStamp z = m.timeStamp z :=
    fun hne => Function.update_of_ne hne _ _
  have hkeep : ∀ z t', m.timeStamp z = some t' → (m.setTimeStamp y t).timeStamp z = some t' := by
    intro z t' hz
    rw [hother (by rintro rfl; rw [hnone] at hz; cases hz), hz]
  have hext : Ext a G m G (m.setTimeStamp y t) :=
    { Ext.refl a G m with
      timeStamp := hkeep
      written := by
        intro z hz hne
        rcases eq_or_ne z y with rfl | hzy
        · exact hy
        · rw [hother hzy, hz] at hne
          exact absurd rfl hne }
  refine ⟨hext, { hinv with
    null := hkeep _ _ hinv.null
    fresh := ?_
    le_stamp := ?_
    head := fun p => hext.rep hinv le_rfl (hinv.head p)
    stamped := fun p i hi => hext.ne_none (hinv.stamped p i hi)
    born_le_stamp := ?_
    stamp_le_born := ?_
    next := fun p i hi => hext.rep hinv hi.le (hinv.next p i hi)
    value := ?_
    first := fun p => ?_
    short := fun l hl => ?_ }⟩
  · intro l hl
    rw [hother, hinv.fresh l hl]
    rintro rfl
    obtain ⟨p, i, hi, hent⟩ := hy
    exact absurd (hinv.value p i l hi hent).1 (Nat.not_lt.mpr hl)
  · intro z t' hz
    rcases hcases hz with ⟨_, rfl⟩ | hz
    · exact ht
    · exact hinv.le_stamp z t' hz
  · intro p i t' hi hz
    rcases hcases hz with ⟨hent, rfl⟩ | hz
    · exact hborn p i hi hent
    · exact hinv.born_le_stamp p i t' hi hz
  · intro p i j t' hij hj hz
    rcases hcases hz with ⟨hent, rfl⟩ | hz
    · -- A version without a stamp is the last one.
      exact absurd (by rw [hent, hnone]) (hinv.stamped p i (hij.trans_le hj))
    · exact hinv.stamp_le_born p i j t' hij hj hz
  · intro p i l hi hl
    obtain ⟨hlt, t', ht', hle⟩ := hinv.value p i l hi hl
    exact ⟨hlt, t', hkeep _ _ ht', hle⟩
  · obtain ⟨t', ht', hle⟩ := hinv.first p
    exact ⟨t', hkeep _ _ ht', hle⟩
  · obtain ⟨hinst, t', ht', hle⟩ := hinv.short l hl
    exact ⟨hinst, t', hkeep _ _ ht', hle⟩

/-- The chains after link `l` has been replaced by its value. -/
def Chains.replace (G : Chains P) (l : Nat) : Chains P :=
  { G with short := fun k => G.short k ∨ k = l }

/-- `shortcut` replaces a link that `done_stamp` has reached by its value. -/
theorem ChainInv.shortcut_word (hinv : ChainInv G m) (a : Versioned) {l t : Nat} (tag : Nat)
    (hv : (m.v p).2 = .indirect l) (ht : m.timeStamp (.indirect l) = some t) (hle : t ≤ G.limit) :
    Evolves a G m (G.replace l) (m.setWord p (tag, .direct (m.value l))) := by
  have hword : ∀ q, q ≠ p → (m.setWord p (tag, .direct (m.value l))).v q = m.v q :=
    fun q hne => Function.update_of_ne hne _ _
  have hnew : (m.setWord p (tag, .direct (m.value l))).v p = (tag, .direct (m.value l)) :=
    Function.update_self ..
  have hext : Ext a G m (G.replace l) (m.setWord p (tag, .direct (m.value l))) :=
    { Ext.refl a G m with short := fun k hk => .inl hk }
  refine ⟨hext, { hinv with
    head := ?_
    word := ?_
    next := fun q i hi => hext.rep hinv hi.le (hinv.next q i hi)
    short := ?_ }⟩
  · intro q
    rcases eq_or_ne q p with rfl | hne
    · have hlast := hinv.word q l hv
      obtain ⟨_, t₀, ht₀, hborn⟩ := hinv.value q (G.last q) l le_rfl hlast
      rw [hnew]
      refine .inr ⟨l, t, t₀, hlast, ht, .inr rfl, by rintro _ ⟨⟩, rfl, ht₀, hborn.trans ?_⟩
      exact hinv.born_le_stamp q (G.last q) t le_rfl (by rw [hlast, ht])
    · rw [hword q hne]
      exact hext.rep hinv le_rfl (hinv.head q)
  · intro q l' hl'
    rcases eq_or_ne q p with rfl | hne
    · rw [hnew] at hl'
      cases hl'
    · rw [hword q hne] at hl'
      exact hinv.word q l' hl'
  · rintro k (hk | rfl)
    · exact hinv.short k hk
    · exact ⟨⟨p, _, le_rfl, hinv.word p k hv⟩, t, ht, hle⟩

/-- The last version is put into its pointer again. -/
theorem ChainInv.expose (hinv : ChainInv G m) (a : Versioned) (p : P) (tag : Nat) :
    Evolves a G m G (m.setWord p (tag, G.ent p (G.last p))) := by
  have hother : ∀ q, q ≠ p → (m.setWord p (tag, G.ent p (G.last p))).v q = m.v q :=
    fun q hne => Function.update_of_ne hne _ _
  have hself : (m.setWord p (tag, G.ent p (G.last p))).v p = (tag, G.ent p (G.last p)) :=
    Function.update_self ..
  refine ⟨{ Ext.refl a G m with }, { hinv with
    head := ?_
    word := ?_
    next := fun q i hi => hinv.next q i hi }⟩
  · intro q
    rcases eq_or_ne q p with rfl | hne
    · rw [hself]
      exact .inl rfl
    · rw [hother q hne]
      exact hinv.head q
  · intro q l hl
    rcases eq_or_ne q p with rfl | hne
    · rw [hself] at hl
      exact hl
    · rw [hother q hne] at hl
      exact hinv.word q l hl

omit [DecidableEq P] in
/-- `next_version` of a node that is no version is written. -/
theorem ChainInv.setNext (hinv : ChainInv G m) {z : Versioned} (hy : ¬ G.Inst y) :
    Evolves y G m G (m.setNext y z) := by
  have hnext : ∀ u, u ≠ y → (m.setNext y z).next u = m.next u :=
    fun u hne => Function.update_of_ne hne _ _
  refine ⟨{ Ext.refl y G m with next := hnext }, { hinv with
    head := fun p => hinv.head p, next := fun p i hi => ?_ }⟩
  rw [hnext]
  · exact hinv.next p i hi
  · rintro rfl
    exact hy ⟨p, i + 1, hi, rfl⟩

omit [DecidableEq P] in
/-- A link is allocated. -/
theorem ChainInv.newLink (hinv : ChainInv G m) (z : Versioned) (ptr : Option Nat) :
    Evolves (.indirect m.fresh) G m G (m.newLink z ptr) := by
  have hvalue : ∀ l, l < m.fresh → (m.newLink z ptr).value l = m.value l :=
    fun l hl => Function.update_of_ne hl.ne _ _
  have hext : Ext (.indirect m.fresh) G m G (m.newLink z ptr) :=
    { Ext.refl (.indirect m.fresh) G m with
      fresh := Nat.le_succ _
      value := hvalue
      next := fun u hne => Function.update_of_ne hne _ _ }
  refine ⟨hext, { hinv with
    fresh := fun l hl => hinv.fresh l (Nat.le_of_succ_le hl)
    head := fun p => hext.rep hinv le_rfl (hinv.head p)
    next := fun p i hi => ?_
    value := fun p i l hi hl => ?_
    ne_value := fun p i j l hij hj hl => ?_ }⟩
  · rw [hext.next]
    · exact hext.rep hinv hi.le (hinv.next p i hi)
    · intro heq
      exact absurd (hinv.value p (i + 1) m.fresh hi heq).1 (Nat.lt_irrefl _)
  · obtain ⟨hlt, t, ht, hle⟩ := hinv.value p i l hi hl
    refine ⟨hlt.trans_le hext.fresh, t, ?_, hle⟩
    rw [hvalue l hlt]
    exact ht
  · rw [hvalue l (hinv.value p i l (hij.le.trans hj) hl).1]
    exact hinv.ne_value p i j l hij hj hl

/-- The chains with a new version of `p`. -/
def Chains.push (G : Chains P) (p : P) (y : Versioned) (t : Nat) : Chains P where
  last := Function.update G.last p (G.last p + 1)
  ent := Function.update G.ent p (Function.update (G.ent p) (G.last p + 1) y)
  born := Function.update G.born p (Function.update (G.born p) (G.last p + 1) t)
  short := G.short
  limit := G.limit

/-- Versions of other pointers and older versions stay, and the new one is the last. -/
theorem push_cases {q : P} {t : Nat} (hi : i ≤ (G.push p y t).last q) :
    (i ≤ G.last q ∧ (G.push p y t).ent q i = G.ent q i ∧ (G.push p y t).born q i = G.born q i) ∨
      (q = p ∧ i = G.last p + 1 ∧ (G.push p y t).ent q i = y ∧ (G.push p y t).born q i = t) := by
  rcases eq_or_ne q p with rfl | hne
  · simp only [Chains.push, Function.update_self] at hi ⊢
    rcases Nat.lt_or_eq_of_le hi with hlt | rfl
    · left
      rw [Function.update_of_ne (by omega), Function.update_of_ne (by omega)]
      exact ⟨Nat.le_of_lt_succ hlt, rfl, rfl⟩
    · right
      exact ⟨trivial, rfl, Function.update_self .., Function.update_self ..⟩
  · simp only [Chains.push, Function.update_of_ne hne] at hi ⊢
    exact .inl ⟨hi, trivial, trivial⟩

/-- The number of versions of a pointer after a new one. -/
theorem push_last (q : P) (t : Nat) :
    (G.push p y t).last q = if q = p then G.last p + 1 else G.last q := by
  rcases eq_or_ne q p with rfl | hne
  · simp [Chains.push]
  · simp [Chains.push, hne]

/-- The new version. -/
theorem push_ent (G : Chains P) (p : P) (y : Versioned) (t : Nat) :
    (G.push p y t).ent p (G.last p + 1) = y := by
  simp [Chains.push]

/-- A version is installed. The last version has its stamp, and the new one leads to it. -/
theorem ChainInv.install (hinv : ChainInv G m) (tag : Nat) (hy : ¬ G.Inst y)
    (hnone : m.timeStamp y = none) (hlast : m.timeStamp (G.ent p (G.last p)) ≠ none)
    (hnext : Rep G m p (G.last p) (m.next y))
    (hlink : ∀ l, y = .indirect l → l < m.fresh ∧ m.timeStamp (.direct (m.value l)) ≠ none) :
    Evolves y G m (G.push p y m.stamp) (m.setWord p (tag, y)) := by
  have hle : ∀ q, G.last q ≤ (G.push p y m.stamp).last q := by
    intro q
    rw [push_last]
    split
    · rename_i heq
      rw [heq]
      omega
    · exact le_rfl
  have hold : ∀ {q i}, i ≤ G.last q → (G.push p y m.stamp).ent q i = G.ent q i ∧
      (G.push p y m.stamp).born q i = G.born q i := by
    intro q i hi
    rcases push_cases (hi.trans (hle q)) with hcase | ⟨rfl, rfl, _⟩
    · exact hcase.2
    · omega
  have hext : Ext y G m (G.push p y m.stamp) (m.setWord p (tag, y)) :=
    { Ext.refl y G m with
      last := hle
      ent := fun q i hi => (hold hi).1
      born := fun q i hi => (hold hi).2
      new := by
        intro q i hlt hi
        rcases push_cases hi with ⟨habs, _⟩ | ⟨rfl, rfl, hent, hborn⟩
        · omega
        · exact ⟨hent, hy, hborn.ge⟩ }
  have hrep : ∀ {q i z}, i ≤ G.last q → Rep G m q i z →
      Rep (G.push p y m.stamp) (m.setWord p (tag, y)) q i z := fun hi hz => hext.rep hinv hi hz
  have hword : ∀ q, (m.setWord p (tag, y)).v q = if q = p then (tag, y) else m.v q := by
    intro q
    rcases eq_or_ne q p with rfl | hne
    · simp [Memory.setWord]
    · simp [Memory.setWord, hne]
  refine ⟨hext, ⟨hinv.stamp_pos, hinv.null, hinv.fresh, hinv.le_stamp, ?_, ?_, ?_, ?_, ?_, ?_, ?_, ?_,
    ?_, ?_, fun l hl => ⟨hext.inst (hinv.short l hl).1, (hinv.short l hl).2⟩, hinv.done_le⟩⟩
  · intro q i hi
    rcases push_cases hi with ⟨hi, _, hborn⟩ | ⟨_, _, _, hborn⟩
    · rw [hborn]
      exact hinv.born_le q i hi
    · exact hborn.le
  · intro q
    rw [hword, push_last]
    split
    · rename_i heq
      subst heq
      exact .inl (push_ent G q y m.stamp).symm
    · exact hrep le_rfl (hinv.head q)
  · intro q l hl
    rw [hword] at hl
    rw [push_last]
    split at hl
    · rename_i heq
      subst heq
      rw [if_pos rfl, push_ent]
      exact hl
    · rename_i hne
      rw [if_neg hne, (hold le_rfl).1]
      exact hinv.word q l hl
  · intro q i hi
    have hi' : i ≤ G.last q := by
      rw [push_last] at hi
      split at hi
      · rename_i heq
        rw [heq]
        omega
      · exact hi.le
    rw [(hold hi').1]
    rcases Nat.lt_or_eq_of_le hi' with hlt | rfl
    · exact hinv.stamped q i hlt
    · rw [push_last] at hi
      split at hi
      · rename_i heq
        subst heq
        exact hlast
      · omega
  · intro q i t hi ht
    rcases push_cases hi with ⟨hi, hent, hborn⟩ | ⟨_, _, hent, _⟩
    · rw [hent] at ht
      rw [hborn]
      exact hinv.born_le_stamp q i t hi ht
    · rw [hent] at ht
      exact absurd (hnone.symm.trans ht) (by simp)
  · intro q i j t hij hj ht
    rcases push_cases hj with ⟨hj, _, hborn⟩ | ⟨rfl, rfl, _, hborn⟩
    · rw [(hold (hij.le.trans hj)).1] at ht
      rw [hborn]
      exact hinv.stamp_le_born q i j t hij hj ht
    · rw [hborn]
      exact hinv.le_stamp _ t ht
  · intro q i hi
    rcases push_cases (i := i + 1) hi with ⟨hi', hent, _⟩ | ⟨rfl, heq, hent, _⟩
    · rw [hent]
      exact hrep (Nat.le_of_succ_le hi') (hinv.next q i hi')
    · obtain rfl : i = G.last q := by omega
      rw [hent]
      exact hrep le_rfl hnext
  · intro q i l hi hl
    rcases push_cases hi with ⟨hi, hent, hborn⟩ | ⟨_, _, hent, hborn⟩
    · rw [hent] at hl
      rw [hborn]
      exact hinv.value q i l hi hl
    · rw [hent] at hl
      obtain ⟨hlt, hts⟩ := hlink l hl
      obtain ⟨t, ht⟩ := Option.ne_none_iff_exists'.mp hts
      rw [hborn]
      exact ⟨hlt, t, ht, hinv.le_stamp _ t ht⟩
  · intro q i j l hij hj hl
    rcases push_cases hj with ⟨hj, hent, _⟩ | ⟨rfl, rfl, hent, _⟩
    · rw [(hold (hij.le.trans hj)).1] at hl
      rw [hent]
      exact hinv.ne_value q i j l hij hj hl
    · -- The object of an older link has a stamp, and the new version has none.
      rw [(hold (Nat.le_of_lt_succ hij)).1] at hl
      obtain ⟨_, t, ht, _⟩ := hinv.value q i l (Nat.le_of_lt_succ hij) hl
      rw [hent]
      intro heq
      rw [heq] at hnone
      exact absurd (hnone.symm.trans ht) (by simp)
  · intro q
    rw [(hold (Nat.zero_le _)).1]
    exact hinv.first q

end Writes

/-! ## `set_stamp` and `shortcut` -/

/-- What a thread in `set_stamp(y)` knows: `y` is a version unless it has a stamp, and a stamp that was
taken from the clock is not older than the version. -/
def SetStampOk (G : Chains P) (m : Memory P) (y : Versioned) : SetStamp → Prop
  | .load => G.Inst y ∨ m.timeStamp y ≠ none
  | .clock => G.Inst y
  | .again t | .swap t => G.Inst y ∧ t ≤ m.stamp ∧
      ∀ p i, i ≤ G.last p → G.ent p i = y → G.born p i ≤ t

/-- What a thread in `set_stamp` knows stays known. -/
theorem Ext.setStampOk {x : SetStamp} (hext : Ext a G m G' m') (hx : SetStampOk G m y x) :
    SetStampOk G' m' y x := by
  have hborn : ∀ {t}, G.Inst y → (∀ p i, i ≤ G.last p → G.ent p i = y → G.born p i ≤ t) →
      ∀ p i, i ≤ G'.last p → G'.ent p i = y → G'.born p i ≤ t := by
    intro t hinst ht p i hi hent
    rcases Nat.lt_or_ge (G.last p) i with hlt | hle
    · -- A version is installed once.
      obtain ⟨hnew, hfirst, _⟩ := hext.new p i hlt hi
      rw [← hnew, hent] at hfirst
      exact absurd hinst hfirst
    · rw [hext.ent p i hle] at hent
      rw [hext.born p i hle]
      exact ht p i hle hent
  match x, hx with
  | .load, hx => exact hx.imp hext.inst hext.ne_none
  | .clock, hx => exact hext.inst hx
  | .again t, hx => exact ⟨hext.inst hx.1, hx.2.1.trans hext.stamp, hborn hx.1 hx.2.2⟩
  | .swap t, hx => exact ⟨hext.inst hx.1, hx.2.1.trans hext.stamp, hborn hx.1 hx.2.2⟩

/-- A step of `set_stamp` keeps the chain invariant, and when it returns the node has a stamp. -/
theorem ChainInv.setStamp_step {x : SetStamp} (hinv : ChainInv G m) (a : Versioned)
    (hx : SetStampOk G m y x) :
    Evolves a G m G (setStamp m y x).1 ∧
      (∀ x', (setStamp m y x).2 = some x' → SetStampOk G (setStamp m y x).1 y x') ∧
      ((setStamp m y x).2 = none → (setStamp m y x).1.timeStamp y ≠ none) := by
  have hstay : Evolves a G m G m := ⟨Ext.refl a G m, hinv⟩
  match x, hx with
  | .load, hx =>
      refine ⟨hstay, ?_, ?_⟩
      · intro x' hx'
        simp only [setStamp] at hx'
        split at hx'
        · rename_i hcond
          cases hx'
          exact hx.resolve_right (not_not_intro hcond.2)
        · cases hx'
      · intro hret habs
        have habs : m.timeStamp y = none := habs
        have hnull : y ≠ .null := by
          rintro rfl
          rw [hinv.null] at habs
          cases habs
        simp [setStamp, hnull, habs] at hret
  | .clock, hx =>
      refine ⟨hstay, ?_, by simp [setStamp]⟩
      rintro x' ⟨⟩
      exact ⟨hx, le_rfl, fun p i hi _ => hinv.born_le p i hi⟩
  | .again t, hx =>
      refine ⟨hstay, ?_, ?_⟩
      · intro x' hx'
        simp only [setStamp] at hx'
        split at hx'
        · cases hx'
          exact hx
        · cases hx'
      · intro hret habs
        have habs : m.timeStamp y = none := habs
        simp [setStamp, habs] at hret
  | .swap t, hx =>
      refine ⟨?_, by simp [setStamp], fun _ => ?_⟩
      · simp only [setStamp]
        split
        · rename_i hnone
          exact hinv.setTimeStamp a hx.1 hnone hx.2.1 hx.2.2
        · exact hstay
      · simp only [setStamp]
        split
        · simp [Memory.setTimeStamp]
        · assumption

/-- What a thread in `shortcut` of link `l` knows. -/
def ShortcutOk (G : Chains P) (m : Memory P) (l : Nat) : Shortcut → Prop
  | .load => True
  | .test t => ∀ t', t = some t' → m.timeStamp (.indirect l) = some t'
  | .read => ∃ t, m.timeStamp (.indirect l) = some t ∧ t ≤ G.limit
  | .swap w => w.2 = .indirect l ∧ ∃ t, m.timeStamp (.indirect l) = some t ∧ t ≤ G.limit

/-- What a thread in `shortcut` knows stays known. -/
theorem Ext.shortcutOk {l : Nat} {x : Shortcut} (hext : Ext a G m G' m')
    (hx : ShortcutOk G m l x) : ShortcutOk G' m' l x := by
  have hdone : (∃ t, m.timeStamp (.indirect l) = some t ∧ t ≤ G.limit) →
      ∃ t, m'.timeStamp (.indirect l) = some t ∧ t ≤ G'.limit := by
    rintro ⟨t, ht, hle⟩
    exact ⟨t, hext.timeStamp _ _ ht, hle.trans hext.limit⟩
  match x, hx with
  | .load, _ => trivial
  | .test t, hx => exact fun t' ht' => hext.timeStamp _ _ (hx t' ht')
  | .read, hx => exact hdone hx
  | .swap w, hx => exact ⟨hx.1, hdone hx.2⟩

/-- A step of `shortcut` keeps the chain invariant; it is the replacement of the link, or it changes
nothing. -/
theorem ChainInv.shortcut_step [DecidableEq P] {l : Nat} {x : Shortcut} (hinv : ChainInv G m)
    (a : Versioned) (p : P) (tag : Nat) (hx : ShortcutOk G m l x) :
    ∃ G', Evolves a G m G' (shortcut m p l tag x).1 ∧
      (∀ x', (shortcut m p l tag x).2 = some x' → ShortcutOk G' (shortcut m p l tag x).1 l x') ∧
      (G' = G ∨ G' = G.replace l ∧ (m.v p).2 = .indirect l ∧ ∃ w, x = .swap w ∧ m.v p = w) := by
  have hstay : Evolves a G m G m := ⟨Ext.refl a G m, hinv⟩
  match x, hx with
  | .load, _ =>
      refine ⟨G, hstay, ?_, .inl rfl⟩
      rintro x' ⟨⟩
      exact fun t' ht' => ht'
  | .test none, _ => exact ⟨G, hstay, by simp [shortcut], .inl rfl⟩
  | .test (some t), hx =>
      refine ⟨G, hstay, fun x' hx' => ?_, .inl rfl⟩
      simp only [shortcut] at hx'
      split at hx'
      · rename_i hle
        cases hx'
        exact ⟨t, hx t rfl, hle.trans hinv.done_le⟩
      · cases hx'
  | .read, hx =>
      refine ⟨G, hstay, fun x' hx' => ?_, .inl rfl⟩
      simp only [shortcut] at hx'
      split at hx'
      · rename_i hword
        cases hx'
        exact ⟨hword, hx⟩
      · cases hx'
  | .swap w, hx =>
      obtain ⟨hw, t, ht, hle⟩ := hx
      by_cases hword : m.v p = w
      · have hv : (m.v p).2 = .indirect l := by rw [hword, hw]
        refine ⟨G.replace l, ?_, by simp [shortcut], .inr ⟨rfl, hv, w, rfl, hword⟩⟩
        simp only [shortcut, hword, if_true]
        exact hinv.shortcut_word a tag hv ht hle
      · refine ⟨G, ?_, by simp [shortcut], .inl rfl⟩
        simp only [shortcut, hword, if_false]
        exact hstay

end Verlib.Hybrid
