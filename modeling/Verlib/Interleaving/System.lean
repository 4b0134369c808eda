import Mathlib.Data.List.Basic
import Mathlib.Logic.Function.Basic
import Mathlib.Order.Nat

/-!
# Interleaved systems and their histories

A `System` is a set of initial states together with a step relation. An action is the scheduler's
choice of which thread moves and how its internal nondeterminism is resolved; a step also emits the
events (calls, returns, publications) that a specification talks about. `Exec sys h s` says that
some interleaving emits the history `h` and ends in `s`. Safety proofs go through `Exec.invariant`,
and `Before h a b` is the real-time order of two events of a history.
-/

namespace Interleaving

universe u v w

/-- A system of interleaved threads: its initial states and its steps, labelled with the scheduler's
action and the emitted events. -/
structure System (σ : Type u) (α : Type v) (ε : Type w) where
  Init : σ → Prop
  Step : σ → α → List ε → σ → Prop

variable {σ : Type u} {α : Type v} {ε : Type w}

/-- The system whose steps are computed by a partial function. -/
def System.ofNext (init : σ → Prop) (next : α → σ → Option (List ε × σ)) : System σ α ε where
  Init := init
  Step s a es s' := next a s = some (es, s')

/-- The same system, taking only the steps that meet a condition on the state before the step. -/
def System.restrict (sys : System σ α ε) (guard : σ → α → Prop) : System σ α ε where
  Init := sys.Init
  Step s a es s' := guard s a ∧ sys.Step s a es s'

/-- `Exec sys h s` says that some interleaving starts in an initial state, emits the events `h` in
this order and ends in `s`. -/
inductive Exec (sys : System σ α ε) : List ε → σ → Prop where
  | init {s : σ} : sys.Init s → Exec sys [] s
  | step {h : List ε} {s : σ} {a : α} {es : List ε} {s' : σ} :
      Exec sys h s → sys.Step s a es s' → Exec sys (h ++ es) s'

/-- An invariant of the history and the state that holds initially and is preserved by every step
of an execution holds of every execution. -/
theorem Exec.invariant {sys : System σ α ε} {P : List ε → σ → Prop}
    (hinit : ∀ s, sys.Init s → P [] s)
    (hstep : ∀ h s a es s', Exec sys h s → P h s → sys.Step s a es s' → P (h ++ es) s')
    {h : List ε} {s : σ} (hexec : Exec sys h s) : P h s := by
  induction hexec with
  | init h0 => exact hinit _ h0
  | step hprev hnext ih => exact hstep _ _ _ _ _ hprev ih hnext

/-- Executions of a restricted system are executions of the system. -/
theorem Exec.of_restrict {sys : System σ α ε} {guard : σ → α → Prop} {h : List ε} {s : σ}
    (hexec : Exec (sys.restrict guard) h s) : Exec sys h s := by
  induction hexec with
  | init h0 => exact .init h0
  | step _ hnext ih => exact .step ih hnext.2

/-- Two conditions on the steps can be met one after the other. -/
theorem Exec.restrict_restrict {sys : System σ α ε} {guard guard' : σ → α → Prop} {h : List ε} {s : σ}
    (hexec : Exec (sys.restrict fun s a => guard s a ∧ guard' s a) h s) :
    Exec ((sys.restrict guard).restrict guard') h s := by
  induction hexec with
  | init h0 => exact .init h0
  | step _ hnext ih => exact .step ih ⟨hnext.1.2, hnext.1.1, hnext.2⟩

/-- Follow a schedule, collecting the emitted events; `none` when an action is not enabled. -/
def run (next : α → σ → Option (List ε × σ)) : List α → σ → Option (List ε × σ)
  | [], s => some ([], s)
  | a :: rest, s => do
      let (es, s') ← next a s
      let (later, final) ← run next rest s'
      pure (es ++ later, final)

/-- A schedule that runs to its end extends an execution. -/
theorem Exec.append_run {init : σ → Prop} {next : α → σ → Option (List ε × σ)}
    {schedule : List α} {h es : List ε} {s final : σ}
    (hexec : Exec (System.ofNext init next) h s) (hrun : run next schedule s = some (es, final)) :
    Exec (System.ofNext init next) (h ++ es) final := by
  induction schedule generalizing h es s with
  | nil =>
      cases hrun
      simpa using hexec
  | cons a rest ih =>
      simp only [run, bind, Option.bind_eq_some_iff, pure, Option.some.injEq, Prod.mk.injEq] at hrun
      obtain ⟨⟨first, s'⟩, hnext, ⟨later, last⟩, hrest, rfl, rfl⟩ := hrun
      have hstep : Exec (System.ofNext init next) (h ++ first) s' := .step hexec hnext
      simpa [List.append_assoc] using ih hstep hrest

/-- A schedule from an initial state is an execution. -/
theorem exec_of_run {init : σ → Prop} {next : α → σ → Option (List ε × σ)}
    (schedule : List α) {es : List ε} {s final : σ}
    (hinit : init s) (hrun : run next schedule s = some (es, final)) :
    Exec (System.ofNext init next) es final := by
  simpa using Exec.append_run (.init hinit) hrun

/-- A schedule whose every action meets the condition is an execution of the restricted system. -/
theorem exec_restrict_of_run {init : σ → Prop} {next : α → σ → Option (List ε × σ)}
    {guard : σ → α → Prop} [∀ s a, Decidable (guard s a)]
    (schedule : List α) {es : List ε} {s final : σ} (hinit : init s)
    (hrun : run (fun a s => if guard s a then next a s else none) schedule s = some (es, final)) :
    Exec ((System.ofNext init next).restrict guard) es final := by
  have hexec := exec_of_run schedule hinit hrun
  clear hrun
  induction hexec with
  | init h0 => exact .init h0
  | @step h s a es s' _ hnext ih =>
      have hnext : (if guard s a then next a s else none) = some (es, s') := hnext
      split at hnext
      · exact .step ih ⟨‹_›, hnext⟩
      · cases hnext

/-- A schedule that runs to its end, with a decidable fact about its history and final state. -/
theorem exists_exec_of_run {init : σ → Prop} {next : α → σ → Option (List ε × σ)}
    (Q : List ε → σ → Prop) [∀ h st, Decidable (Q h st)] (schedule : List α) {s : σ} (hinit : init s)
    (hrun : (run next schedule s).any (fun r => decide (Q r.1 r.2)) = true) :
    ∃ h st, Exec (System.ofNext init next) h st ∧ Q h st := by
  obtain ⟨r, hsome, hQ⟩ := (Option.any_eq_true _ _).mp hrun
  exact ⟨r.1, r.2, exec_of_run schedule hinit hsome, of_decide_eq_true hQ⟩

/-- A schedule whose every action meets the condition, with a decidable fact about its history and final
state. -/
theorem exists_exec_restrict_of_run {init : σ → Prop} {next : α → σ → Option (List ε × σ)}
    {guard : σ → α → Prop} [∀ s a, Decidable (guard s a)]
    (Q : List ε → σ → Prop) [∀ h st, Decidable (Q h st)] (schedule : List α) {s : σ} (hinit : init s)
    (hrun : (run (fun a s => if guard s a then next a s else none) schedule s).any
      (fun r => decide (Q r.1 r.2)) = true) :
    ∃ h st, Exec ((System.ofNext init next).restrict guard) h st ∧ Q h st := by
  obtain ⟨r, hsome, hQ⟩ := (Option.any_eq_true _ _).mp hrun
  exact ⟨r.1, r.2, exec_restrict_of_run schedule hinit hsome, of_decide_eq_true hQ⟩

/-! ## Real-time order -/

/-- Event `a` occurs before event `b` in the history. -/
def Before (h : List ε) (a b : ε) : Prop :=
  [a, b].Sublist h

/-- The order of two events of a given history is decidable. -/
instance [DecidableEq ε] (h : List ε) (a b : ε) : Decidable (Before h a b) :=
  inferInstanceAs (Decidable ([a, b].Sublist h))

/-- The earlier of two ordered events occurs. -/
theorem Before.left_mem {h : List ε} {a b : ε} (hab : Before h a b) : a ∈ h :=
  hab.subset (by simp)

/-- The later of two ordered events occurs. -/
theorem Before.right_mem {h : List ε} {a b : ε} (hab : Before h a b) : b ∈ h :=
  hab.subset (by simp)

/-- Order is kept when the history grows. -/
theorem Before.append {h : List ε} {a b : ε} (hab : Before h a b) (es : List ε) :
    Before (h ++ es) a b :=
  hab.trans (List.sublist_append_left h es)

/-- Two events are ordered in a grown history if they were ordered, if the later one is new and the
earlier one old, or if both are new and ordered. -/
theorem before_append_iff {h es : List ε} {a b : ε} :
    Before (h ++ es) a b ↔ Before h a b ∨ (a ∈ h ∧ b ∈ es) ∨ Before es a b := by
  unfold Before
  constructor
  · intro hab
    obtain ⟨l₁, l₂, heq, h₁, h₂⟩ := List.sublist_append_iff.mp hab
    match l₁, heq with
    | [], heq =>
        subst heq
        exact .inr (.inr h₂)
    | [_], heq =>
        simp only [List.singleton_append, List.cons.injEq] at heq
        obtain ⟨rfl, rfl⟩ := heq
        exact .inr (.inl ⟨List.singleton_sublist.mp h₁, List.singleton_sublist.mp h₂⟩)
    | [_, _], heq =>
        simp only [List.cons_append, List.nil_append, List.cons.injEq] at heq
        obtain ⟨rfl, rfl, rfl⟩ := heq
        exact .inl h₁
    | _ :: _ :: _ :: _, heq => simp at heq
  · rintro (hab | ⟨ha, hb⟩ | hab)
    · exact hab.trans (List.sublist_append_left h es)
    · exact (List.singleton_sublist.mpr ha).append (List.singleton_sublist.mpr hb)
    · exact hab.trans (List.sublist_append_right h es)

/-- Nothing is ordered in an empty history. -/
@[simp] theorem not_before_nil {a b : ε} : ¬ Before [] a b := by
  simp [Before]

/-- Nothing is ordered by a single event. -/
@[simp] theorem not_before_singleton {a b c : ε} : ¬ Before [c] a b := by
  intro h
  simpa using h.length_le

/-- The one order that two consecutive events give. -/
@[simp] theorem before_pair_iff {a b c d : ε} : Before [c, d] a b ↔ a = c ∧ b = d := by
  constructor
  · intro h
    have heq := h.eq_of_length rfl
    simpa using heq
  · rintro ⟨rfl, rfl⟩
    exact List.Sublist.refl _

/-- New events that do not contain the later event add no order. -/
theorem before_append_of_not_mem {h es : List ε} {a b : ε} (hb : b ∉ es) :
    Before (h ++ es) a b ↔ Before h a b := by
  rw [before_append_iff]
  constructor
  · rintro (hab | ⟨_, hmem⟩ | hab)
    · exact hab
    · exact absurd hmem hb
    · exact absurd hab.right_mem hb
  · exact .inl

/-- An event that is new is preceded by every old event, and by no order of old events. -/
theorem before_append_singleton {h : List ε} {a b : ε} (hb : b ∉ h) :
    Before (h ++ [b]) a b ↔ a ∈ h := by
  rw [before_append_iff]
  constructor
  · rintro (hab | ⟨hmem, _⟩ | hab)
    · exact absurd hab.right_mem hb
    · exact hmem
    · exact absurd hab not_before_singleton
  · intro ha
    exact .inr (.inl ⟨ha, by simp⟩)

end Interleaving
