import Verlib.Hybrid.Chain

/-!
# Preparing and installing a version

`cas` and `store` install a version in the same way: they read `old_v`, make a node that leads to it, an
object without a stamp or a new link, and put the node in place of `old_v`; if `old_v` was a link that
has been replaced meanwhile, in place of its value. Until then the node belongs to the thread, and other
threads leave it alone.
-/

namespace Verlib.Hybrid

variable {P ι : Type} {G G' : Chains P} {m m' : Memory P} {a y : Versioned} {p : P}
  {own own' : Versioned → Option ι} {c : ι} {ptr : Option Nat} {old new : Versioned}

/-- `y` belongs to thread `c` and is not a version yet. -/
def Private (own : Versioned → Option ι) (c : ι) (G : Chains P) (m : Memory P) (y : Versioned) :
    Prop :=
  own y = some c ∧ m.Allocated y ∧ ¬ G.Inst y ∧ m.timeStamp y = none

/-- A link that pointer `p` held is a version of it. -/
def WasHead (G : Chains P) (p : P) (old : Versioned) : Prop :=
  ∀ l, old = .indirect l → ∃ j ≤ G.last p, G.ent p j = .indirect l

/-- What is known of the `old_v` that an update has read: it has a stamp. -/
def Old (G : Chains P) (m : Memory P) (p : P) (old : Versioned) : Prop :=
  m.timeStamp old ≠ none ∧ WasHead G p old

/-- The two attempts of an update: to replace `old_v`, or to replace the value of the link that `old_v`
was. -/
def Aim (G : Chains P) (m : Memory P) (p : P) (old new : Versioned) : Prop :=
  m.next new = old ∧ Old G m p old ∨
    ∃ l, old = .direct (m.value l) ∧ m.next new = .indirect l ∧ Old G m p (.indirect l)

/-- The node `new` with value `ptr` is ready to be put in place of `old`. -/
def Prepared (own : Versioned → Option ι) (c : ι) (G : Chains P) (m : Memory P) (p : P)
    (ptr : Option Nat) (old new : Versioned) : Prop :=
  Private own c G m new ∧ m.getPtr new = ptr ∧
    (∀ l, new = .indirect l → m.timeStamp (.direct (m.value l)) ≠ none) ∧ Aim G m p old new

section Transport

variable (hext : Ext a G m G' m')
include hext

/-- A version stays one. -/
theorem WasHead.ext (ho : WasHead G p old) : WasHead G' p old := by
  intro l hl
  obtain ⟨j, hj, hent⟩ := ho l hl
  exact ⟨j, hj.trans (hext.last p), (hext.ent p j hj).trans hent⟩

/-- What is known of `old_v` stays known. -/
theorem Old.ext (ho : Old G m p old) : Old G' m' p old :=
  ⟨hext.ne_none ho.1, ho.2.ext hext⟩

variable (hown : ∀ y, m.Allocated y → own' y = own y)
  (hne : ∀ y, own y = some c → m.Allocated y → y ≠ a)
include hown hne

/-- A private node stays private. -/
theorem Private.ext (hy : Private own c G m y) : Private own' c G' m' y := by
  obtain ⟨ho, halloc, hinst, hnone⟩ := hy
  exact ⟨(hown y halloc).trans ho, hext.allocated halloc, hext.not_inst hinst (hne y ho halloc),
    hext.eq_none hinst hnone⟩

/-- A node that is ready stays ready. -/
theorem Prepared.ext (hinv : ChainInv G m) (hr : Prepared own c G m p ptr old new) :
    Prepared own' c G' m' p ptr old new := by
  obtain ⟨hpriv, hptr, hlink, haim⟩ := hr
  have hnext := hext.next new (hne new hpriv.1 hpriv.2.1)
  have hvalue : ∀ l, new = .indirect l → m'.value l = m.value l :=
    fun l hl => hext.value l (hpriv.2.1 l hl)
  refine ⟨hpriv.ext hext hown hne, ?_, ?_, ?_⟩
  · rw [hext.getPtr hpriv.2.1, hptr]
  · intro l hl
    rw [hvalue l hl]
    exact hext.ne_none (hlink l hl)
  · rcases haim with ⟨heq, hold⟩ | ⟨l, hl, heq, hold⟩
    · exact .inl ⟨hnext.trans heq, hold.ext hext⟩
    · refine .inr ⟨l, ?_, hnext.trans heq, hold.ext hext⟩
      obtain ⟨j, hj, hent⟩ := hold.2 l rfl
      rw [hext.value l (hinv.value _ j l hj hent).1]
      exact hl

end Transport

section Install

variable (hinv : ChainInv G m)
include hinv

/-- What a pointer holds can be passed to `set_stamp`. -/
theorem setStampOk_word (p : P) : SetStampOk G m (m.v p).2 .load :=
  (hinv.head p).inst_or_stamped le_rfl

/-- What a pointer holds is, if it is a link, a version. -/
theorem wasHead_word (p : P) : WasHead G p (m.v p).2 :=
  fun l hl => ⟨_, le_rfl, hinv.word p l hl⟩

/-- A node that is not a version is in no pointer. -/
theorem Private.ne_word (hy : Private own c G m y) (p : P) : (m.v p).2 ≠ y := by
  rintro rfl
  rcases (hinv.head p).inst_or_stamped le_rfl with hinst | hts
  · exact hy.2.2.1 hinst
  · exact hts hy.2.2.2

/-- A version that is no longer in its pointer has a stamp. -/
theorem stamped_of_ne_word {i : Nat} (hi : i ≤ G.last p) (hv : (m.v p).2 ≠ G.ent p i) :
    m.timeStamp (G.ent p i) ≠ none := by
  rcases Nat.lt_or_eq_of_le hi with hlt | rfl
  · exact hinv.stamped p i hlt
  · rcases hinv.head p with heq | ⟨l, t, _, hl, ht, _⟩
    · exact absurd heq hv
    · simp [hl, ht]

/-- A link that has not been allocated is no version. -/
theorem not_inst_fresh : ¬ G.Inst (.indirect m.fresh) := by
  rintro ⟨p, i, hi, hent⟩
  exact absurd (hinv.value p i _ hi hent).1 (Nat.lt_irrefl _)

/-- A new link is ready. -/
theorem Old.newLink (hold : Old G m p old) (hts : m.timeStamp (.direct ptr) ≠ none) (c : ι)
    (own : Versioned → Option ι) :
    Prepared (Function.update own (.indirect m.fresh) (some c)) c G (m.newLink old ptr) p ptr old
      (.indirect m.fresh) := by
  have hvalue : (m.newLink old ptr).value m.fresh = ptr := Function.update_self ..
  refine ⟨⟨Function.update_self .., ?_, not_inst_fresh hinv, hinv.fresh _ le_rfl⟩, hvalue, ?_,
    .inl ⟨Function.update_self .., hold.ext (hinv.newLink old ptr).1⟩⟩
  · rintro l ⟨⟩
    exact Nat.lt_succ_self _
  · rintro l ⟨⟩
    rw [hvalue]
    exact hts

/-- An object without a stamp is ready once its `next_version` is set. -/
theorem Old.setNext (hold : Old G m p old) (hpriv : Private own c G m (.direct ptr)) :
    Prepared own c G (m.setNext (.direct ptr) old) p ptr old (.direct ptr) := by
  refine ⟨hpriv, rfl, ?_, .inl ⟨Function.update_self .., ?_⟩⟩
  · rintro l ⟨⟩
  · exact hold.ext (hinv.setNext hpriv.2.2.1).1

/-- An update that finds `old` in its pointer installs a node that leads to the last version, and that
version has its stamp. -/
theorem Aim.rep (haim : Aim G m p old new) (hv : (m.v p).2 = old) :
    Rep G m p (G.last p) (m.next new) ∧ m.timeStamp (G.ent p (G.last p)) ≠ none := by
  have hhead := hinv.head p
  rw [hv] at hhead
  rcases haim with ⟨hnext, hts, _⟩ | ⟨l, rfl, hnext, hts, hwas⟩
  · rw [hnext]
    obtain ⟨t, ht⟩ := hhead.stamped hts
    exact ⟨hhead, by simp [ht]⟩
  · rw [hnext]
    obtain ⟨j, hj, hent⟩ := hwas l rfl
    obtain ⟨t₁, ht₁⟩ := Option.ne_none_iff_exists'.mp hts
    rcases hhead with heq | ⟨l', t, _, hl', ht, hshort, _, hval, _⟩
    · -- The value of an older link is not installed again as an object.
      have hlt : j < G.last p := by
        rcases Nat.lt_or_eq_of_le hj with hlt | rfl
        · exact hlt
        · rw [hent] at heq
          cases heq
      exact absurd heq.symm (hinv.ne_value p j _ l hlt le_rfl hent)
    · refine ⟨.inr ⟨l', t, t₁, hl', ht, hshort, ?_, hval, ht₁, ?_⟩, by simp [hl', ht]⟩
      · rintro _ ⟨⟩
        exact (hinv.value p j l hj hent).1
      · exact hinv.stamp_mono hj le_rfl (by rw [hent, ht₁]) (by rw [hl', ht])

/-- A node that is ready is installed. -/
theorem Prepared.install [DecidableEq P] (hr : Prepared own c G m p ptr old new)
    (hv : (m.v p).2 = old) (tag : Nat) :
    Evolves new G m (G.push p new m.stamp) (m.setWord p (tag, new)) := by
  obtain ⟨hpriv, _, hlink, haim⟩ := hr
  obtain ⟨hrep, hstamped⟩ := haim.rep hinv hv
  exact hinv.install tag hpriv.2.2.1 hpriv.2.2.2 hstamped hrep
    fun l hl => ⟨hpriv.2.1 l hl, hlink l hl⟩

end Install

end Verlib.Hybrid
