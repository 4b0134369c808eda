import Verlib.Interleaving.Tracked

/-!
# Operations that only read

An object gets further operations, whose steps read the memory and do not write it. They need an invariant of their
own for what they know; the rest of the proof is the one for the object without them.
-/

namespace Interleaving

open Machine

/-- How the calls of operations that only read run. -/
structure Reader (A M Q T : Type*) where
  start : A → Q
  step : A → M → Q → Option (Q ⊕ T)

section

variable {O M P R X A Q T : Type*}

/-- An object with further operations, which only read. -/
def Machine.withReader (mach : Machine O M P R X) (rd : Reader A M Q T) :
    Machine (O ⊕ A) M (P ⊕ Q) (R ⊕ T) X where
  start
    | .inl o => .inl (mach.start o)
    | .inr a => .inr (rd.start a)
  step
    | .inl o, m, x, .inl p => (mach.step o m x p).map fun r => (r.1, r.2.map .inl .inl)
    | .inr a, m, _, .inr q => (rd.step a m q).map fun r => (m, r.map .inr .inr)
    | _, _, _, _ => none

/-- The specification of an object with further operations: `Answer a t m` says that `t` is the right answer to `a` in
the memory `m`. -/
def Spec.withReader (S : Spec O M R) (Answer : A → T → M → Prop) : Spec (O ⊕ A) M (R ⊕ T) where
  Same := S.Same
  Effect
    | .inl o, .inl r => S.Effect o r
    | _, _ => fun _ _ => False
  Refused
    | .inl o, .inl r => S.Refused o r
    | .inr a, .inr t => Answer a t
    | _, _ => fun _ => False

variable {G : Type*} {mach : Machine O M P R X} {S : Spec O M R} {init : M → Prop}

/-- What has to be shown of operations that only read. -/
structure Reads (trk : Tracked mach S init G) (rd : Reader A M Q T) (Answer : A → T → M → Prop) where
  Known : A → Q → G × M → (G × M → Prop) → Prop
  start : ∀ a n past, trk.Inv n → Known a (rd.start a) n past
  weaken : ∀ a q n (past past' : G × M → Prop), (∀ n₀, past n₀ → past' n₀) → Known a q n past → Known a q n past'
  other : ∀ a q n n' past, trk.Inv n → trk.Inv n' → trk.Ext n n' → Known a q n past →
    Known a q n' fun n₀ => past n₀ ∨ n₀ = n'
  move : ∀ a q n q' past, trk.Inv n → Known a q n past → rd.step a n.2 q = some (.inl q') →
    Known a q' n fun n₀ => past n₀ ∨ n₀ = n
  ret : ∀ a q n t past, trk.Inv n → Known a q n past → rd.step a n.2 q = some (.inr t) →
    ∃ n₀, (past n₀ ∨ n₀ = n) ∧ Answer a t n₀.2

namespace Reads

variable {trk : Tracked mach S init G} {rd : Reader A M Q T} {Answer : A → T → M → Prop} (rds : Reads trk rd Answer)

/-- What a call knows. -/
def BothKnown : O ⊕ A → P ⊕ Q → G × M → (G × M → Prop) → Prop
  | .inl o, .inl p => trk.Known o p
  | .inr a, .inr q => rds.Known a q
  | _, _ => fun _ _ => False

/-- The result of a call that has had its effect. -/
def bothDone (trk : Tracked mach S init G) : P ⊕ Q → Option (R ⊕ T)
  | .inl p => (trk.done p).map .inl
  | .inr _ => none

variable {rds} {o : O} {a : A} {p : P} {q : Q} {k : P ⊕ R} {m : M} {n n' : G × M} {past : G × M → Prop}

/-- A call has the result that it had. -/
theorem bothDone_of_done {r : Option R} (hd : trk.done p = r) :
    (bothDone trk (.inl p : P ⊕ Q) : Option (R ⊕ T)) = r.map Sum.inl := by
  show (trk.done p).map Sum.inl = r.map Sum.inl
  rw [hd]

/-- An update of the object is one of the object with further operations. -/
theorem outcome_update (hout : Outcome S trk.Known trk.done o p m n' past k) :
    Outcome (S.withReader Answer) rds.BothKnown (bothDone trk) (.inl o) (.inl p) m n' past (k.map .inl .inl) := by
  cases k with
  | inl p' =>
      obtain ⟨hknown, hdone⟩ := hout
      refine ⟨hknown, hdone.imp (fun hd => ⟨?_, hd.2⟩) fun hd => ?_⟩
      · show bothDone trk (.inl p') = bothDone trk (.inl p)
        rw [bothDone_of_done hd.1, bothDone_of_done rfl]
      · obtain ⟨hnone, r, hr, heff⟩ := hd
        exact ⟨bothDone_of_done hnone, .inl r, bothDone_of_done hr, heff⟩
  | inr r => exact hout.imp (fun hd => ⟨bothDone_of_done hd.1, hd.2⟩) fun hd => ⟨bothDone_of_done hd.1, hd.2⟩

/-- The object with further operations is sound, if nothing is the same as doing nothing. -/
def tracked (rds : Reads trk rd Answer) (hsame : ∀ m, S.Same m m) (hext : ∀ n, trk.Inv n → trk.Ext n n) :
    Tracked (mach.withReader rd) (S.withReader Answer) init G where
  Inv := trk.Inv
  Ext := trk.Ext
  Known := rds.BothKnown
  done := bothDone trk
  initial := trk.initial
  start o n past hinv := by
    cases o with
    | inl o => exact trk.start o n past hinv
    | inr a => exact rds.start a n past hinv
  start_done o := by
    cases o with
    | inl o => exact bothDone_of_done (trk.start_done o)
    | inr a => rfl
  weaken o p n past past' hpast hk := by
    cases o with
    | inl o =>
        cases p with
        | inl p => exact trk.weaken o p n past past' hpast hk
        | inr q => exact hk.elim
    | inr a =>
        cases p with
        | inl p => exact hk.elim
        | inr q => exact rds.weaken a q n past past' hpast hk
  other o p n n' past hinv hinv' hext' hk := by
    cases o with
    | inl o =>
        cases p with
        | inl p => exact trk.other o p n n' past hinv hinv' hext' hk
        | inr q => exact hk.elim
    | inr a =>
        cases p with
        | inl p => exact hk.elim
        | inr q => exact rds.other a q n n' past hinv hinv' hext' hk
  step o p g m x m' k hinv hk hstep := by
    obtain ⟨past₀, hk₀⟩ := hk
    cases o with
    | inl o =>
        cases p with
        | inl p =>
            obtain ⟨⟨m₁, k₁⟩, hmove, heq⟩ := Option.map_eq_some_iff.mp hstep
            cases heq
            obtain ⟨g', hinv', hext', hout⟩ := trk.step o p g m x m₁ k₁ hinv ⟨past₀, hk₀⟩ hmove
            exact ⟨g', hinv', hext', fun past hknown => outcome_update (hout past hknown)⟩
        | inr q => exact hk₀.elim
    | inr a =>
        cases p with
        | inl p => exact hk₀.elim
        | inr q =>
            obtain ⟨k₁, hmove, heq⟩ := Option.map_eq_some_iff.mp hstep
            cases heq
            refine ⟨g, hinv, hext _ hinv, fun past hknown => ?_⟩
            cases k₁ with
            | inl q' => exact ⟨rds.move a q (g, m) q' past hinv hknown hmove, .inl ⟨rfl, hsame m⟩⟩
            | inr t => exact .inr ⟨rfl, .inr ⟨hsame m, rds.ret a q (g, m) t past hinv hknown hmove⟩⟩

end Reads

end

end Interleaving
