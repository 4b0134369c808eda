import Verlib.Interleaving.System

/-!
# Threads that own parts of a memory

The steps of a thread may depend on who it is: it writes what it has locked. `Reliance` collects what has to be shown:
an invariant of the memory and the history, what a thread knows at its position, and what it relies on, which is that
the others leave alone what it owns. Every step has to keep the invariant and what its own thread knows, and to be
what all other threads rely on.
-/

namespace Interleaving

/-- How threads step. `ι` are the threads, `M` the memories, `P` the positions, `X` the choices of the scheduler and
`E` the events. -/
structure Process (ι M P X E : Type*) where
  step : ι → M → X → P → Option (List E × M × P)

namespace Process

/-- The memory and the positions of the threads. -/
structure State (ι M P : Type*) where
  memory : M
  threads : ι → P

variable {ι M P X E : Type*}

/-- The next state, if the thread can take the step. -/
def next [DecidableEq ι] (proc : Process ι M P X E) (act : ι × X) (st : State ι M P) :
    Option (List E × State ι M P) :=
  (proc.step act.1 st.memory act.2 (st.threads act.1)).map fun r =>
    (r.1, ⟨r.2.1, Function.update st.threads act.1 r.2.2⟩)

/-- All threads start at the same position. -/
def system [DecidableEq ι] (proc : Process ι M P X E) (init : M → Prop) (start : P) :
    System (State ι M P) (ι × X) E :=
  System.ofNext (fun st => init st.memory ∧ ∀ c, st.threads c = start) proc.next

end Process

/-- What has to be shown of threads that own parts of a memory. -/
structure Reliance {ι M P X E : Type*} (proc : Process ι M P X E) (init : M → Prop) (start : P) where
  Inv : List E → M → Prop
  Known : ι → List E → M → P → Prop
  Rely : ι → List E × M → List E × M → Prop
  initial : ∀ m, init m → Inv [] m
  initial_known : ∀ c m, init m → Known c [] m start
  own : ∀ c h m x p es m' p', Inv h m → Known c h m p → proc.step c m x p = some (es, m', p') →
    Inv (h ++ es) m' ∧ Known c (h ++ es) m' p' ∧ ∀ d, d ≠ c → Rely d (h, m) (h ++ es, m')
  stable : ∀ d h m h' m' p, Inv h m → Inv h' m' → Rely d (h, m) (h', m') → Known d h m p → Known d h' m' p

namespace Reliance

open Process

variable {ι M P X E : Type*} [DecidableEq ι] {proc : Process ι M P X E} {init : M → Prop} {start : P}
  {st : State ι M P} {h : List E}

/-- The invariant holds in every run, and so does what every thread knows. -/
theorem holds (rel : Reliance proc init start) (hexec : Exec (proc.system init start) h st) :
    rel.Inv h st.memory ∧ ∀ c, rel.Known c h st.memory (st.threads c) := by
  induction hexec with
  | init hst =>
      obtain ⟨hinit, hstart⟩ := hst
      refine ⟨rel.initial _ hinit, fun c => ?_⟩
      rw [hstart c]
      exact rel.initial_known c _ hinit
  | @step h st act es st' _ hnext ih =>
      obtain ⟨hinv, hknown⟩ := ih
      obtain ⟨⟨es', m', p'⟩, hstep, heq⟩ := Option.map_eq_some_iff.mp hnext
      cases heq
      obtain ⟨hinv', hown, hrely⟩ := rel.own act.1 h _ _ _ es' m' p' hinv (hknown act.1) hstep
      refine ⟨hinv', fun d => ?_⟩
      show rel.Known d (h ++ es') m' (Function.update st.threads act.1 p' d)
      by_cases hd : d = act.1
      · rw [hd, Function.update_self]
        exact hown
      · rw [Function.update_of_ne hd]
        exact rel.stable d h _ _ _ _ hinv hinv' (hrely d hd) (hknown d)

end Reliance

end Interleaving
