import Verlib.Interleaving.Object

/-!
# Objects with ghost state

The invariant of a memory and what the calls know may speak about a ghost state that the machine does not have.
`Guarded` collects what has to be shown of the single steps: a step finds a ghost state with the invariant again, and
what other calls know survives it. `Guarded.known` concludes that every run has a ghost state with the invariant and
with what all calls know.
-/

namespace Interleaving

open Machine

/-- What has to be shown of an object. `Known g m o p` is what a call of `o` at position `p` knows when the memory is
`m` and the ghost state is `g`, and `Ext` is what a step may do to both. -/
structure Guarded {O M P R X : Type*} (mach : Machine O M P R X) (init : M → Prop) (G : Type*) where
  Inv : G → M → Prop
  Known : G → M → O → P → Prop
  Ext : G → M → G → M → Prop
  initial : ∀ m, init m → ∃ g, Inv g m
  start : ∀ g m o, Known g m o (mach.start o)
  other : ∀ g m g' m' o p, Ext g m g' m' → Known g m o p → Known g' m' o p
  step : ∀ g m o x p m' k, Inv g m → Known g m o p → mach.step o m x p = some (m', k) →
    ∃ g', Inv g' m' ∧ Ext g m g' m' ∧ ∀ p', k = .inl p' → Known g' m' o p'

namespace Guarded

variable {ι O M P R X G : Type*} {mach : Machine O M P R X} {init : M → Prop} (grd : Guarded mach init G)

/-- The invariant of a run. -/
def RunInv (st : State ι O M P) : Prop :=
  ∃ g, grd.Inv g st.memory ∧ ∀ c op o p, st.threads c = some (op, o, p) → grd.Known g st.memory o p

variable [DecidableEq ι] {st st' : State ι O M P} {h es : List (Event O M R)} {act : Action ι O X} {grd}

/-- Every action preserves the invariant. -/
theorem RunInv.next (hinv : grd.RunInv st) (hnext : mach.next act st = some (es, st')) : grd.RunInv st' := by
  obtain ⟨g, hmem, hknown⟩ := hinv
  cases act with
  | call c o =>
      simp only [Machine.next] at hnext
      split at hnext
      · cases hnext
        refine ⟨g, hmem, fun u op o' p hu => ?_⟩
        obtain ⟨-, heq⟩ | ⟨-, hu⟩ := Sound.update_cases hu
        · cases heq
          exact grd.start g st.memory o
        · exact hknown u op o' p hu
      · cases hnext
  | step c x =>
      simp only [Machine.next] at hnext
      split at hnext
      · cases hnext
      · rename_i op o p hc
        split at hnext
        · cases hnext
        · rename_i m' p' hstep
          cases hnext
          obtain ⟨g', hmem', hext, hp'⟩ := grd.step g _ o x p m' _ hmem (hknown c op o p hc) hstep
          refine ⟨g', hmem', fun u op' o' q hu => ?_⟩
          obtain ⟨-, heq⟩ | ⟨-, hu⟩ := Sound.update_cases hu
          · cases heq
            exact hp' p' rfl
          · exact grd.other g _ g' m' o' q hext (hknown u op' o' q hu)
        · rename_i m' r hstep
          cases hnext
          obtain ⟨g', hmem', hext, -⟩ := grd.step g _ o x p m' _ hmem (hknown c op o p hc) hstep
          refine ⟨g', hmem', fun u op' o' q hu => ?_⟩
          obtain ⟨-, heq⟩ | ⟨-, hu⟩ := Sound.update_cases hu
          · cases heq
          · exact grd.other g _ g' m' o' q hext (hknown u op' o' q hu)

/-- In every run there is a ghost state with the invariant and with what the calls know. -/
theorem known (grd : Guarded mach init G) (hexec : Exec (mach.system init) h st) : grd.RunInv st := by
  induction hexec with
  | init hst =>
      obtain ⟨g, hmem⟩ := grd.initial _ hst.memory
      refine ⟨g, hmem, fun c op o p hc => ?_⟩
      rw [hst.threads c] at hc
      cases hc
  | step _ hnext ih => exact ih.next hnext

end Guarded

end Interleaving
