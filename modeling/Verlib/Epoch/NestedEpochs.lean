import Verlib.Epoch.Core

/-!
# Nested epochs

`with_epoch` with `NestedEpochs` defined: a worker may open a section inside a section, and only the outermost one
is to set the announcement slot and to clear it. `announce` finds out whether it is the outermost one by a
compare-exchange of the slot from -1, and returns the outcome as a flag that `with_epoch` tests at its end.

The flag is set anew in every round of the loop of `announce`. When the epoch moves between the compare-exchange and
the second look at the epoch, the next round finds the slot set, so the outermost section is taken for a nested one
and the slot is never cleared. `nested_epochs_released` is the contract for all runs in which no outermost
`announce` goes into a second round. They are runs of the protocol without nesting (`toCore`), in which the
outermost sections are the sections.
-/

namespace Verlib.Epoch.Nested

open Interleaving

/-- Where a worker stands in `announce`: not in it, at the start of another round, about to test the slot after
loading epoch `e`, about to compare-exchange it, or about to look at the epoch again with the flag `succeeded`. -/
inductive Control where
  | idle
  | retry
  | test (e : Nat)
  | swap (e : Nat)
  | check (e : Nat) (succeeded : Bool)
  deriving DecidableEq, Repr

/-- The epoch structure, every worker's position, and the flags `not_in_epoch` of its open sections, innermost first.
The positions in `announce` that the epoch structure has for sections without nesting are not used. -/
structure State (n : Nat) where
  core : Core n
  control : Fin n → Control
  sections : Fin n → List Bool

/-- What the scheduler chooses: a worker goes on with `announce`, leaves its innermost section, or goes on with
`update_epoch`. -/
inductive Action (n : Nat) where
  | announce (t : Fin n)
  | leave (t : Fin n)
  | updateEpoch (t : Fin n)

variable {n : Nat}

/-- Epoch 0, every slot -1 and no section open. -/
def initial : State n :=
  ⟨Core.initial, fun _ => .idle, fun _ => []⟩

namespace State

/-- Worker `t` moves to a position of `announce`. -/
def goto (st : State n) (t : Fin n) (x : Control) : State n :=
  { st with control := Function.update st.control t x }

/-- Worker `t` stores into its announcement slot. -/
def setSlot (st : State n) (t : Fin n) (x : Option Nat) : State n :=
  { st with core := { st.core with announcements := Function.update st.core.announcements t x } }

/-- The open sections of worker `t` change. -/
def setSections (st : State n) (t : Fin n) (flags : List Bool) : State n :=
  { st with sections := Function.update st.sections t flags }

/-- One atomic step of `announce`; its return opens a section. -/
def announce (st : State n) (t : Fin n) : State n :=
  match st.control t with
  | .idle | .retry => st.goto t (.test st.core.currentEpoch)
  | .test e => st.goto t (if st.core.announcements t = none then .swap e else .check e false)
  | .swap e =>
      if st.core.announcements t = none then (st.setSlot t (some e)).goto t (.check e true)
      else st.goto t (.check e false)
  | .check e succeeded =>
      if st.core.currentEpoch = e then (st.setSections t (succeeded :: st.sections t)).goto t .idle
      else st.goto t .retry

/-- The end of the innermost `with_epoch`, with `unannounce` if its flag says so. -/
def leave (st : State n) (t : Fin n) : Option (State n) :=
  match st.control t, st.sections t with
  | .idle, true :: rest => some ((st.setSections t rest).setSlot t none)
  | .idle, false :: rest => some (st.setSections t rest)
  | _, _ => none

/-- Worker `t` is outside of all sections. -/
def Outside (st : State n) (t : Fin n) : Prop :=
  st.control t = .idle ∧ st.sections t = []

end State

/-- The next state, if the action is possible. -/
def next : Action n → State n → Option (List Empty × State n)
  | .announce t, st => some ([], st.announce t)
  | .leave t, st => (st.leave t).map fun st' => ([], st')
  | .updateEpoch t, st => some ([], { st with core := st.core.updateEpoch t })

/-- Any nesting of sections and any calls of `update_epoch` by `n` workers. -/
def system (n : Nat) : System (State n) (Action n) Empty :=
  System.ofNext (fun st => st = initial) next

/-- The step is not the second look of an outermost `announce` at an epoch that has moved. -/
def Steady (st : State n) : Action n → Prop
  | .announce t =>
      match st.control t with
      | .check e _ => st.sections t = [] → st.core.currentEpoch = e
      | _ => True
  | _ => True

instance (st : State n) (a : Action n) : Decidable (Steady st a) := by
  unfold Steady
  split
  · split <;> infer_instance
  · infer_instance

/-! ## The slots of the workers -/

/-- What the slot, the open sections and the position of a worker say about each other. The flag of the outermost
section is set and all others are not. -/
def ThreadOk (slot : Option Nat) : List Bool → Control → Prop
  | [], .idle | [], .test _ | [], .swap _ => slot = none
  | [], .check e succeeded => succeeded = true ∧ slot = some e
  | [], .retry => False
  | flags@(_ :: _), x =>
      slot ≠ none ∧ flags.getLast? = some true ∧ (∀ b ∈ flags.dropLast, b = false) ∧ (∀ e, x ≠ .swap e) ∧
        ∀ e, x ≠ .check e true

/-- The phase of a worker in the protocol without nesting. -/
def phaseOf (slot : Option Nat) : List Bool → Control → Section
  | _ :: _, _ => .inside (slot.getD 0)
  | [], .idle => .outside
  | [], .retry => .retry
  | [], .test e | [], .swap e => .loaded e
  | [], .check e _ => .exchanged e

/-- The state of the protocol without nesting. -/
def State.toCore (st : State n) : Core n :=
  { st.core with phase := fun t => phaseOf (st.core.announcements t) (st.sections t) (st.control t) }

/-- The invariant of nested epochs. -/
structure Inv (st : State n) : Prop where
  threads : ∀ t, ThreadOk (st.core.announcements t) (st.sections t) (st.control t)
  core : st.toCore.Inv

/-! ## Steps of one worker -/

/-- Worker `t` with another slot, other open sections and another position. -/
def State.put (st : State n) (t : Fin n) (slot : Option Nat) (flags : List Bool) (x : Control) : State n where
  core := { st.core with announcements := Function.update st.core.announcements t slot }
  control := Function.update st.control t x
  sections := Function.update st.sections t flags

theorem State.goto_eq_put (st : State n) (t : Fin n) (x : Control) :
    st.goto t x = st.put t (st.core.announcements t) (st.sections t) x := by
  simp [State.goto, State.put]

/-- The protocol without nesting sees the new slot and the new phase. -/
theorem State.toCore_put (st : State n) (t : Fin n) (slot : Option Nat) (flags : List Bool) (x : Control) :
    (st.put t slot flags x).toCore =
      { st.toCore with
        announcements := Function.update st.core.announcements t slot
        phase := Function.update st.toCore.phase t (phaseOf slot flags x) } := by
  have hphase : (st.put t slot flags x).toCore.phase = Function.update st.toCore.phase t (phaseOf slot flags x) := by
    funext u
    show phaseOf (Function.update st.core.announcements t slot u) (Function.update st.sections t flags u)
      (Function.update st.control t x u) = _
    by_cases hu : u = t
    · subst hu
      simp only [Function.update_self]
    · simp only [Function.update_of_ne hu]
      rfl
  rw [← hphase]
  rfl

/-- A step that the protocol without nesting does not see. -/
theorem State.toCore_put_same (st : State n) (t : Fin n) {flags : List Bool} {x : Control}
    (hphase : phaseOf (st.core.announcements t) flags x = st.toCore.phase t) :
    (st.put t (st.core.announcements t) flags x).toCore = st.toCore := by
  rw [State.toCore_put, hphase, Function.update_eq_self, Function.update_eq_self]
  rfl

/-- A step of one worker keeps what holds of all others. -/
theorem Inv.put {st : State n} (hinv : Inv st) {t : Fin n} {slot : Option Nat} {flags : List Bool} {x : Control}
    (hthread : ThreadOk slot flags x) (hcore : (st.put t slot flags x).toCore.Inv) : Inv (st.put t slot flags x) := by
  refine ⟨fun u => ?_, hcore⟩
  show ThreadOk (Function.update st.core.announcements t slot u) (Function.update st.sections t flags u)
    (Function.update st.control t x u)
  by_cases hu : u = t
  · subst hu
    simp only [Function.update_self]
    exact hthread
  · simp only [Function.update_of_ne hu]
    exact hinv.threads u

/-- A step that the protocol without nesting does not see keeps the invariant. -/
theorem Inv.put_same {st : State n} (hinv : Inv st) {t : Fin n} {flags : List Bool} {x : Control}
    (hthread : ThreadOk (st.core.announcements t) flags x)
    (hphase : phaseOf (st.core.announcements t) flags x = st.toCore.phase t) :
    Inv (st.put t (st.core.announcements t) flags x) := by
  refine hinv.put hthread ?_
  rw [st.toCore_put_same t hphase]
  exact hinv.core

/-- The invariant holds initially. -/
theorem inv_initial : Inv (initial : State n) :=
  ⟨fun _ => rfl, Core.Inv.initial⟩

/-- A step of an `announce` inside a section leaves the slot alone. -/
theorem Inv.announce_nested {st : State n} (hinv : Inv st) {t : Fin n} {b : Bool} {rest : List Bool}
    (hsections : st.sections t = b :: rest) : ∃ flags x, st.announce t = st.put t (st.core.announcements t) flags x ∧
      flags ≠ [] ∧ ThreadOk (st.core.announcements t) flags x := by
  have hthread := hinv.threads t
  rw [hsections] at hthread
  obtain ⟨hslot, hlast, hinit, hswap, hcheck⟩ := hthread
  have hstay : ∀ x, (∀ e, x ≠ .swap e) → (∀ e, x ≠ .check e true) →
      ThreadOk (st.core.announcements t) (b :: rest) x :=
    fun x hx hx' => ⟨hslot, hlast, hinit, hx, hx'⟩
  have hgoto : ∀ x, st.goto t x = st.put t (st.core.announcements t) (b :: rest) x := by
    intro x
    rw [st.goto_eq_put, hsections]
  rw [State.announce]
  cases hcontrol : st.control t with
  | idle => exact ⟨_, _, hgoto _, by simp, hstay _ (by simp) (by simp)⟩
  | retry => exact ⟨_, _, hgoto _, by simp, hstay _ (by simp) (by simp)⟩
  | test e =>
      simp only [if_neg hslot]
      exact ⟨_, _, hgoto _, by simp, hstay _ (by simp) (by simp)⟩
  | swap e => exact absurd hcontrol (hswap e)
  | check e succeeded =>
      cases succeeded with
      | true => exact absurd hcontrol (hcheck e)
      | false =>
          by_cases hepoch : st.core.currentEpoch = e
          · refine ⟨false :: b :: rest, .idle, ?_, by simp, hslot, ?_, ?_, by simp, by simp⟩
            · simp only [if_pos hepoch, hsections]
              simp [State.goto, State.setSections, State.put]
            · rw [List.getLast?_cons_cons]
              exact hlast
            · intro x hx
              rw [List.dropLast_cons_cons, List.mem_cons] at hx
              cases hx with
              | inl hx => exact hx
              | inr hx => exact hinit x hx
          · simp only [if_neg hepoch]
            exact ⟨_, _, hgoto _, by simp, hstay _ (by simp) (by simp)⟩

/-- A step of an outermost `announce` that does not go into a second round is a step of the protocol without nesting,
or one that it does not see. -/
theorem Inv.announce_outermost {st : State n} (hinv : Inv st) {t : Fin n} (hsections : st.sections t = [])
    (hsteady : Steady st (.announce t)) : Inv (st.announce t) := by
  have hthread := hinv.threads t
  have hphase : st.toCore.phase t = phaseOf (st.core.announcements t) [] (st.control t) := by
    rw [← hsections]
    rfl
  rw [hsections] at hthread
  cases hcontrol : st.control t with
  | idle =>
      rw [hcontrol] at hthread hphase
      have hannounce : st.announce t = st.put t (st.core.announcements t) [] (.test st.core.currentEpoch) := by
        rw [State.announce, hcontrol, ← hsections]
        exact st.goto_eq_put t _
      rw [hannounce]
      refine hinv.put hthread (hinv.core.announce (t := t) ?_)
      rw [Core.announce, hphase, State.toCore_put, Function.update_eq_self]
      rfl
  | retry =>
      rw [hcontrol] at hthread
      exact hthread.elim
  | test e =>
      rw [hcontrol] at hthread hphase
      have hslot : st.core.announcements t = none := hthread
      have hannounce : st.announce t = st.put t (st.core.announcements t) [] (.swap e) := by
        rw [State.announce, hcontrol, ← hsections]
        simp only [if_pos hslot]
        exact st.goto_eq_put t _
      rw [hannounce]
      exact hinv.put_same hthread hphase.symm
  | swap e =>
      rw [hcontrol] at hthread hphase
      have hslot : st.core.announcements t = none := hthread
      have hannounce : st.announce t = st.put t (some e) [] (.check e true) := by
        rw [State.announce, hcontrol]
        simp only [if_pos hslot]
        rw [State.put, ← hsections, Function.update_eq_self]
        rfl
      rw [hannounce]
      refine hinv.put ⟨rfl, rfl⟩ (hinv.core.announce (t := t) ?_)
      rw [Core.announce, hphase, State.toCore_put]
      rfl
  | check e succeeded =>
      rw [hcontrol] at hthread hphase
      obtain ⟨rfl, hslot⟩ := hthread
      have hepoch : st.core.currentEpoch = e := by
        rw [Steady, hcontrol] at hsteady
        exact hsteady hsections
      have hannounce : st.announce t = st.put t (st.core.announcements t) [true] .idle := by
        rw [State.announce, hcontrol, hsections]
        simp only [if_pos hepoch]
        simp [State.goto, State.setSections, State.put]
      rw [hannounce]
      refine hinv.put ⟨by rw [hslot]; simp, rfl, by simp, by simp, by simp⟩ (hinv.core.announce (t := t) ?_)
      rw [Core.announce, show st.toCore.phase t = .exchanged e from hphase, State.toCore_put, Function.update_eq_self]
      show some { st.toCore with
        phase := Function.update st.toCore.phase t (if st.toCore.currentEpoch = e then .inside e else .retry) } = _
      rw [if_pos (show st.toCore.currentEpoch = e from hepoch), hslot]
      rfl

/-- A step of `announce` keeps the invariant. -/
theorem Inv.announce {st : State n} (hinv : Inv st) {t : Fin n} (hsteady : Steady st (.announce t)) :
    Inv (st.announce t) := by
  cases hsections : st.sections t with
  | nil => exact hinv.announce_outermost hsections hsteady
  | cons b rest =>
      obtain ⟨flags, x, hannounce, hflags, hthread⟩ := hinv.announce_nested hsections
      rw [hannounce]
      refine hinv.put_same hthread ?_
      show _ = phaseOf (st.core.announcements t) (st.sections t) (st.control t)
      cases flags with
      | nil => exact absurd rfl hflags
      | cons b' rest' =>
          rw [hsections]
          rfl

/-- What a step of `leave` does: only the outermost section clears the slot. -/
theorem Inv.leave_cases {st st' : State n} (hinv : Inv st) {t : Fin n} (h : st.leave t = some st') :
    st.control t = .idle ∧
      ((st.sections t = [true] ∧ st' = st.put t none [] .idle) ∨
        ∃ rest, rest ≠ [] ∧ st.sections t = false :: rest ∧ st' = st.put t (st.core.announcements t) rest .idle) := by
  have hthread := hinv.threads t
  rw [State.leave] at h
  split at h
  next rest hcontrol hsections =>
      rw [hsections] at hthread
      obtain ⟨-, -, hinit, -⟩ := hthread
      have hrest : rest = [] := by
        cases rest with
        | nil => rfl
        | cons b rest =>
            rw [List.dropLast_cons_cons] at hinit
            exact absurd (hinit true List.mem_cons_self) (by simp)
      refine ⟨hcontrol, .inl ⟨by rw [hsections, hrest], ?_⟩⟩
      cases h
      rw [hrest, State.put, ← hcontrol, Function.update_eq_self]
      rfl
  next rest hcontrol hsections =>
      rw [hsections] at hthread
      obtain ⟨-, hlast, -⟩ := hthread
      refine ⟨hcontrol, .inr ⟨rest, ?_, hsections, ?_⟩⟩
      · intro hrest
        rw [hrest] at hlast
        simp at hlast
      · cases h
        rw [State.put, ← hcontrol, Function.update_eq_self, Function.update_eq_self]
        rfl
  · cases h

/-- The end of a section keeps the invariant. -/
theorem Inv.leave {st st' : State n} (hinv : Inv st) {t : Fin n} (h : st.leave t = some st') : Inv st' := by
  have hthread := hinv.threads t
  obtain ⟨hcontrol, hcases⟩ := hinv.leave_cases h
  cases hcases with
  | inl houter =>
      obtain ⟨hsections, rfl⟩ := houter
      refine hinv.put rfl (hinv.core.unannounce (t := t) ?_)
      have hphase : st.toCore.phase t = .inside ((st.core.announcements t).getD 0) := by
        show phaseOf _ (st.sections t) _ = _
        rw [hsections]
        rfl
      rw [Core.unannounce, hphase, State.toCore_put]
      rfl
  | inr hinner =>
      obtain ⟨rest, hrest, hsections, rfl⟩ := hinner
      rw [hsections, hcontrol] at hthread
      obtain ⟨hslot, hlast, hinit, -⟩ := hthread
      cases rest with
      | nil => exact absurd rfl hrest
      | cons b rest =>
          rw [List.dropLast_cons_cons] at hinit
          refine hinv.put_same ⟨hslot, ?_, fun x hx => hinit x (List.mem_cons_of_mem _ hx), by simp, by simp⟩ ?_
          · rw [List.getLast?_cons_cons] at hlast
            exact hlast
          · show _ = phaseOf (st.core.announcements t) (st.sections t) (st.control t)
            rw [hsections]
            rfl

/-- `update_epoch` does not write the slots. -/
theorem updateEpoch_announcements (c : Core n) (t : Fin n) : (c.updateEpoch t).announcements = c.announcements := by
  unfold Core.updateEpoch
  split
  case h_5 => split <;> rfl
  all_goals rfl

/-- `update_epoch` does not look at the phases. -/
theorem updateEpoch_with_phase (c : Core n) (phase : Fin n → Section) (t : Fin n) :
    { c with phase := phase }.updateEpoch t = { c.updateEpoch t with phase := phase } := by
  cases hupdate : c.update t with
  | armed e =>
      by_cases hepoch : c.currentEpoch = e
      · simp [Core.updateEpoch, hupdate, hepoch]
      · simp [Core.updateEpoch, hupdate, hepoch]
  | idle | scan e i | check e i | ready e | won e | shifting e => simp [Core.updateEpoch, hupdate]

/-- A step of `update_epoch` is one of the protocol without nesting. -/
theorem toCore_updateEpoch (st : State n) (t : Fin n) :
    State.toCore { st with core := st.core.updateEpoch t } = st.toCore.updateEpoch t := by
  show { st.core.updateEpoch t with
    phase := fun u => phaseOf ((st.core.updateEpoch t).announcements u) (st.sections u) (st.control u) } = _
  rw [updateEpoch_announcements]
  exact (updateEpoch_with_phase st.core _ t).symm

/-- A step of `update_epoch` keeps the invariant. -/
theorem Inv.updateEpoch {st : State n} (hinv : Inv st) (t : Fin n) :
    Inv { st with core := st.core.updateEpoch t } := by
  refine ⟨fun u => ?_, ?_⟩
  · show ThreadOk ((st.core.updateEpoch t).announcements u) _ _
    rw [updateEpoch_announcements]
    exact hinv.threads u
  · rw [toCore_updateEpoch]
    exact hinv.core.updateEpoch t

/-- A steady step keeps the invariant. -/
theorem Inv.next {a : Action n} {st st' : State n} {es : List Empty} (hinv : Inv st) (hsteady : Steady st a)
    (h : next a st = some (es, st')) : Inv st' := by
  cases a with
  | announce t =>
      cases h
      exact hinv.announce hsteady
  | leave t =>
      obtain ⟨st₁, hleave, h⟩ := Option.map_eq_some_iff.mp h
      cases h
      exact hinv.leave hleave
  | updateEpoch t =>
      cases h
      exact hinv.updateEpoch t

/-- The invariant holds in every run of steady steps. -/
theorem exec_inv {h : List Empty} {st : State n} (hexec : Exec ((system n).restrict Steady) h st) : Inv st := by
  refine Exec.invariant (P := fun _ st => Inv st) ?_ ?_ hexec
  · intro st hst
    rw [show st = initial from hst]
    exact inv_initial
  · intro _ st a es st' _ hinv hstep
    exact hinv.next hstep.1 hstep.2

/-- A worker inside a section has announced an epoch that is the current one or the one before. -/
theorem Inv.inside {st : State n} (hinv : Inv st) {t : Fin n} (h : st.sections t ≠ []) :
    ∃ e, st.core.announcements t = some e ∧ e ≤ st.core.currentEpoch ∧ st.core.currentEpoch ≤ e + 1 := by
  cases hsections : st.sections t with
  | nil => exact absurd hsections h
  | cons b rest =>
      have hphase : st.toCore.phase t = .inside ((st.core.announcements t).getD 0) := by
        show phaseOf _ (st.sections t) _ = _
        rw [hsections]
        rfl
      exact ⟨_, hinv.core.inside hphase⟩

/-- No step of a worker that is inside a section before and after it writes the worker's slot. -/
theorem Inv.slot_eq {st st' : State n} (hinv : Inv st) {a : Action n} {es : List Empty} {t : Fin n}
    (h : Nested.next a st = some (es, st')) (hbefore : st.sections t ≠ []) (hafter : st'.sections t ≠ []) :
    st'.core.announcements t = st.core.announcements t := by
  have hother : ∀ u, u ≠ t → ∀ slot, Function.update st.core.announcements u slot t = st.core.announcements t :=
    fun u hu slot => Function.update_of_ne (Ne.symm hu) _ _
  cases a with
  | announce u =>
      cases h
      by_cases hu : u = t
      · subst hu
        cases hsections : st.sections u with
        | nil => exact absurd hsections hbefore
        | cons b rest =>
            obtain ⟨flags, x, hannounce, -, -⟩ := hinv.announce_nested hsections
            rw [hannounce]
            exact Function.update_self u _ _
      · rw [State.announce]
        split
        · rfl
        · rfl
        · split <;> rfl
        · split
          · exact hother u hu _
          · rfl
        · split <;> rfl
  | leave u =>
      obtain ⟨st₁, hleave, h⟩ := Option.map_eq_some_iff.mp h
      cases h
      obtain ⟨-, hcases⟩ := hinv.leave_cases hleave
      by_cases hu : u = t
      · subst hu
        cases hcases with
        | inl houter =>
            obtain ⟨-, rfl⟩ := houter
            exact absurd (Function.update_self u _ _) hafter
        | inr hinner =>
            obtain ⟨rest, -, -, rfl⟩ := hinner
            exact Function.update_self u _ _
      · cases hcases with
        | inl houter =>
            obtain ⟨-, rfl⟩ := houter
            exact hother u hu _
        | inr hinner =>
            obtain ⟨rest, -, -, rfl⟩ := hinner
            exact hother u hu _
  | updateEpoch u =>
      cases h
      show (st.core.updateEpoch u).announcements t = _
      rw [updateEpoch_announcements]

/-- In every run in which no outermost `announce` finds at its second look that the epoch has moved: a worker outside
of all sections has its slot at -1, the slot of a worker inside a section is the current epoch or the one before, and
nested sections leave the slot alone. -/
theorem nested_epochs_released {h : List Empty} {st : State n} (hexec : Exec ((system n).restrict Steady) h st) :
    (∀ t, st.Outside t → st.core.announcements t = none) ∧
    (∀ t, st.sections t ≠ [] →
      ∃ e, st.core.announcements t = some e ∧ e ≤ st.core.currentEpoch ∧ st.core.currentEpoch ≤ e + 1) ∧
    ∀ t a es st', next a st = some (es, st') → st.sections t ≠ [] → st'.sections t ≠ [] →
      st'.core.announcements t = st.core.announcements t := by
  have hinv := exec_inv hexec
  refine ⟨fun t hout => ?_, fun t ht => hinv.inside ht, fun t a es st' hnext => hinv.slot_eq hnext⟩
  have hthread := hinv.threads t
  rw [hout.1, hout.2] at hthread
  exact hthread

instance (st : State n) (t : Fin n) : Decidable (st.Outside t) :=
  inferInstanceAs (Decidable (_ ∧ _))

/-- A worker opens a section inside a section and leaves both. -/
theorem nested_epochs_released_run :
    ∃ h st, Exec ((system 2).restrict Steady) h st ∧ st.Outside 0 ∧ st.core.announcements 0 = none := by
  have hrun : ∃ h st, Exec ((system 2).restrict Steady) h st ∧ st.Outside 0 :=
    exists_exec_restrict_of_run (fun _ (st : State 2) => st.Outside 0)
      (List.replicate 7 (Action.announce 0) ++ [.leave 0, .leave 0]) rfl (by decide)
  obtain ⟨h, st, hexec, hout⟩ := hrun
  exact ⟨h, st, hexec, hout, (nested_epochs_released hexec).1 0 hout⟩

/-- A section that is not nested is never released: between the first look of worker 0 at the epoch and its second
one, worker 1 moves the epoch. -/
theorem outermost_not_released :
    ∃ h st, Exec (system 2) h st ∧ st.Outside 0 ∧ st.core.announcements 0 ≠ none :=
  exists_exec_of_run (fun _ (st : State 2) => st.Outside 0 ∧ st.core.announcements 0 ≠ none)
    ([Action.announce 0] ++ List.replicate 6 (.updateEpoch 1) ++ List.replicate 6 (.announce 0) ++ [.leave 0])
    rfl (by decide)

end Verlib.Epoch.Nested
