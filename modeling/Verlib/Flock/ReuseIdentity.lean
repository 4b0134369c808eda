import Mathlib.Data.Fintype.Basic
import Verlib.Flock.ReuseStep

/-!
# Identities read from reused descriptors

`help_descriptor` reads `epoch_num` and `thread_id` before it protects the descriptor, and its second test
compares only the address. `lock_is_self` reads `thread_id` through a lock word that comes from the log,
with no protection at all. Both go wrong when the memory is reused in between. `Effect` lists what a step
can do to what they read.
-/

namespace Verlib.Flock.Reuse

open Interleaving
open LockWord (Entry Kind LogEntry Call Body firstCounter)

variable {L κ : Type} {n : Nat}

/-- The helper has read `epoch_num` and has not made its second test. -/
def HelpPos.hasEpoch : HelpPos → Bool
  | .readId | .acqRead | .acqWrite | .check => true
  | _ => false

/-- The helper has read `thread_id` and has not made its second test. -/
def HelpPos.hasId : HelpPos → Bool
  | .acqRead | .acqWrite | .check => true
  | _ => false

/-- The positions before the branch of the re-entrancy test, and those of a helper between its reads and its
second test. -/
def Process.watched : Process L κ → Bool
  | .commit _ _ _ _ | .test _ _ _ _ => true
  | .help _ _ _ _ p => p.hasEpoch
  | _ => false

/-- The lock and the descriptor that an action puts into it. -/
def State.installs [DecidableEq L] (st : State L κ n) (set : Setting L κ) :
    Action L κ n → Option (L × Nat)
  | .step i _ =>
      match st.procs i with
      | .inside k s _ (.tryCas x) | .inside k s _ (.withCas x) =>
          if st.locks (set.lockOf k) = .unlocked x then some (set.lockOf k, s) else none
      | _ => none
  | _ => none

/-- What a step can do to the locks, to `epoch_num` and `thread_id`, and to the logged lock words. -/
structure Writes [DecidableEq L] (set : Setting L κ) (st : State L κ n) (a : Action L κ n)
    (st' : State L κ n) : Prop where
  lock : ∀ ℓ s, st'.locks ℓ = .locked s → Address s →
    st.locks ℓ = .locked s ∨ st.installs set a = some (ℓ, s)
  epoch : ∀ s, (st'.slots s).epochNum = (st.slots s).epochNum ∨
    ∃ i x k w e id, a = .step i x ∧ st.procs i = .setEpoch k w e id s
  ident : ∀ s, (st'.slots s).threadId = (st.slots s).threadId ∨
    ∃ i x k w id, a = .step i x ∧ st.procs i = .setId k w id s ∧ (st'.slots s).threadId = id
  current : ∀ k w, (st.calls k).current = some w → (st'.calls k).current = some w
  closed : ∀ k, st'.closed k = false → st.closed k = false

/-- What a step can do to the processes that have read them, and to those that execute a call. -/
structure Effect [DecidableEq L] (set : Setting L κ) (st : State L κ n) (a : Action L κ n)
    (st' : State L κ n) : Prop extends Writes set st a st' where
  call : ∀ j k, (st'.procs j).call = some k → st'.closed k = true →
    st.closed k = true ∧ (st.procs j).call = some k
  help : ∀ j ℓ s e id p, st'.procs j = .help ℓ s e id p → p.hasEpoch →
    st.procs j = .help ℓ s e id p ∨
    (∃ e', st.procs j = .help ℓ s e' id .readEpoch ∧ p = .readId ∧ e ≤ (st.slots s).epochNum) ∨
    (∃ id', st.procs j = .help ℓ s e id' .readId ∧ id = (st.slots s).threadId) ∨
    (∃ p', st.procs j = .help ℓ s e id p' ∧ p'.hasId)
  commit : ∀ j k w e id, st'.procs j = .commit k w e id →
    st.procs j = .commit k w e id ∨ a = .call j k e id
  test : ∀ j k w e id, st'.procs j = .test k w e id → st.procs j = .test k w e id ∨
    (∃ w', st.procs j = .commit k w' e id) ∧ (st'.calls k).current = some w

section

variable [DecidableEq L] {set : Setting L κ} {st st' : State L κ n} {i : Fin n} {a : Action L κ n}

/-- A process moves, and the position it reaches is explained by what it did. -/
theorem Writes.effect {q : Process L κ} (h : Writes set st a st') (hclosed : st'.closed = st.closed)
    (hprocs : st'.procs = Function.update st.procs i q)
    (hcall : ∀ k, q.call = some k → (st.procs i).call = some k ∨ st.closed k = false)
    (hhelp : ∀ ℓ s e id p, q = .help ℓ s e id p → p.hasEpoch →
      (∃ e', st.procs i = .help ℓ s e' id .readEpoch ∧ p = .readId ∧ e ≤ (st.slots s).epochNum) ∨
      (∃ id', st.procs i = .help ℓ s e id' .readId ∧ id = (st.slots s).threadId) ∨
      (∃ p', st.procs i = .help ℓ s e id p' ∧ p'.hasId))
    (hcommit : ∀ k w e id, q = .commit k w e id → a = .call i k e id)
    (htest : ∀ k w e id, q = .test k w e id →
      (∃ w', st.procs i = .commit k w' e id) ∧ (st'.calls k).current = some w) :
    Effect set st a st' := by
  have hcases : ∀ j, st'.procs j = st.procs j ∨ j = i ∧ st'.procs j = q := by
    intro j
    rcases eq_or_ne j i with rfl | hne
    · exact .inr ⟨rfl, by rw [hprocs, Function.update_self]⟩
    · exact .inl (by rw [hprocs, Function.update_of_ne hne])
  refine ⟨h, fun j k hk hc => ?_, fun j ℓ s e id p hj hp => ?_, fun j k w e id hj => ?_,
    fun j k w e id hj => ?_⟩
  · rw [hclosed] at hc
    refine ⟨hc, ?_⟩
    rcases hcases j with hold | ⟨rfl, hnew⟩
    · rwa [hold] at hk
    · rw [hnew] at hk
      refine (hcall k hk).resolve_right ?_
      rw [hc]
      simp
  · rcases hcases j with hold | ⟨rfl, hnew⟩
    · exact .inl (hold.symm.trans hj)
    · exact .inr (hhelp ℓ s e id p (hnew.symm.trans hj) hp)
  · rcases hcases j with hold | ⟨rfl, hnew⟩
    · exact .inl (hold.symm.trans hj)
    · exact .inr (hcommit k w e id (hnew.symm.trans hj))
  · rcases hcases j with hold | ⟨rfl, hnew⟩
    · exact .inl (hold.symm.trans hj)
    · exact .inr (htest k w e id (hnew.symm.trans hj))

/-- A process moves to a position that is not watched. -/
theorem Writes.unwatched {q : Process L κ} (h : Writes set st a st') (hclosed : st'.closed = st.closed)
    (hprocs : st'.procs = Function.update st.procs i q) (hq : q.watched = false)
    (hcall : ∀ k, q.call = some k → (st.procs i).call = some k ∨ st.closed k = false) :
    Effect set st a st' := by
  refine h.effect hclosed hprocs hcall (fun ℓ s e id p hj hp => ?_) (fun k w e id hj => ?_)
    (fun k w e id hj => ?_)
  · rw [hj, show Process.watched _ = p.hasEpoch from rfl, hp] at hq
    cases hq
  · rw [hj] at hq
    cases hq
  · rw [hj] at hq
    cases hq

/-- A process moves on after a write. -/
theorem Writes.moved (h : Writes set st a st') {q : Process L κ} (hclosed : st'.closed = st.closed)
    (hprocs : st'.procs = st.procs) (hq : q.watched = false)
    (hcall : ∀ k, q.call = some k → (st.procs i).call = some k) :
    Effect set st a (st'.move i q) :=
  Writes.unwatched (i := i) (q := q) ⟨h.lock, h.epoch, h.ident, h.current, h.closed⟩ hclosed
    (by rw [State.move, hprocs]) hq fun k hk => .inl (hcall k hk)

/-- A process stops after a write. -/
theorem Writes.finished (h : Writes set st a st') (hclosed : st'.closed = st.closed)
    (hprocs : st'.procs = st.procs) : Effect set st a (st'.finish i) :=
  Writes.unwatched (i := i) (q := .idle) ⟨h.lock, h.epoch, h.ident, h.current, h.closed⟩ hclosed
    (by rw [State.finish, State.move, hprocs]) rfl (by intros; contradiction)

/-- Nothing is written. -/
theorem Writes.refl (st : State L κ n) : Writes set st a st :=
  ⟨fun _ _ h _ => .inl h, fun _ => .inl rfl, fun _ => .inl rfl, fun _ _ h => h, fun _ h => h⟩

/-- A write to a slot. -/
theorem writes_setSlot {s : Nat} {d : Slot}
    (he : d.epochNum = (st.slots s).epochNum ∨
      ∃ i x k w e id, a = .step i x ∧ st.procs i = .setEpoch k w e id s)
    (hi : d.threadId = (st.slots s).threadId ∨
      ∃ i x k w id, a = .step i x ∧ st.procs i = .setId k w id s ∧ d.threadId = id) :
    Writes set st a (st.setSlot s d) := by
  refine ⟨fun _ _ h _ => .inl h, fun x => ?_, fun x => ?_, fun _ _ h => h, fun _ h => h⟩
  · rcases eq_or_ne x s with rfl | hne
    · simpa [State.setSlot] using he
    · exact .inl (by simp [State.setSlot, hne])
  · rcases eq_or_ne x s with rfl | hne
    · simpa [State.setSlot] using hi
    · exact .inl (by simp [State.setSlot, hne])

/-- A write to a lock word, of no address or of the descriptor that the action is said to install. -/
theorem writes_setLock {ℓ : L} {w : Entry}
    (hw : ∀ s, w = .locked s → Address s → st.installs set a = some (ℓ, s)) :
    Writes set st a (st.setLock ℓ w) := by
  refine ⟨fun ℓ' s hl ha => ?_, fun _ => .inl rfl, fun _ => .inl rfl, fun _ _ h => h, fun _ h => h⟩
  rcases eq_or_ne ℓ' ℓ with rfl | hne
  · exact .inr (hw s (by simpa [State.setLock] using hl) ha)
  · exact .inl (by simpa [State.setLock, hne] using hl)

/-- The allocator gives or takes a slot. -/
theorem writes_setStatus (s : Nat) (y : Status n) : Writes set st a (st.setStatus s y) :=
  ⟨fun _ _ h _ => .inl h, fun _ => .inl rfl, fun _ => .inl rfl, fun _ _ h => h, fun _ h => h⟩

/-- A write to the entry of a descriptor in the log. -/
theorem writes_setCall [DecidableEq κ] {k : κ} {c : Call} (hc : c.current = (st.calls k).current) :
    Writes set st a (st.setCall k c) := by
  refine ⟨fun _ _ h _ => .inl h, fun _ => .inl rfl, fun _ => .inl rfl, fun k' w h => ?_,
    fun _ h => h⟩
  rcases eq_or_ne k' k with rfl | hne
  · simpa [State.setCall, hc] using h
  · simpa [State.setCall, hne] using h

/-- The body of a descriptor makes no write that matters. -/
theorem writes_stepBody {ℓ : L} {s : Nat} {b : Body} {r : Option Body}
    (hswap : ∀ x, b = .clearSwap (.locked x) → ¬ Address x)
    (h : st.stepBody ℓ s b = (st', r)) : Writes set st a st' ∧ st'.closed = st.closed ∧ st'.procs = st.procs := by
  cases b with
  | run =>
      cases h
      exact ⟨Writes.refl st, rfl, rfl⟩
  | finish =>
      cases h
      exact ⟨writes_setSlot (.inl rfl) (.inl rfl), rfl, rfl⟩
  | clear =>
      cases h
      exact ⟨Writes.refl st, rfl, rfl⟩
  | clearCount =>
      cases h
      exact ⟨Writes.refl st, rfl, rfl⟩
  | clearSwap w =>
      simp only [State.stepBody] at h
      split at h
      · cases h
        exact ⟨writes_setLock fun x hw ha => absurd ha (hswap x (by rw [hw])), rfl, rfl⟩
      · cases h
        exact ⟨Writes.refl st, rfl, rfl⟩

/-- The effect of a step in the rest of a call. -/
theorem Inv.effect_stepPos [DecidableEq κ] (hinv : Inv set st) {k : κ} {s x : Nat} {own : Bool} {p : Pos}
    (hpc : st.procs i = .inside k s own p) :
    Effect set st (.step i x) (st.stepPos set i k s own p) := by
  have hcall : ∀ {q : Pos} k', (Process.inside (L := L) k s own q).call = some k' →
      (st.procs i).call = some k' := by
    intro q k' h
    rw [hpc]
    exact h
  have hrefl : ∀ q, Effect set st (.step i x) (st.move i (.inside k s own q)) :=
    fun q => (Writes.refl st).moved rfl rfl rfl hcall
  have hinstall : ∀ q c, p = .tryCas c ∨ p = .withCas c →
      st.locks (set.lockOf k) = .unlocked c →
      Effect set st (.step i x) ((st.setLock (set.lockOf k) (.locked s)).move i (.inside k s own q)) := by
    intro q c hp hl
    refine (writes_setLock fun s' hs _ => ?_).moved rfl rfl rfl hcall
    cases hs
    rcases hp with rfl | rfl
    all_goals simp [State.installs, hpc, hl]
  cases p with
  | tryRead c => exact hrefl _
  | tryCas c =>
      simp only [State.stepPos]
      split
      · next hl => exact hinstall _ c (.inl rfl) hl
      · exact hrefl _
  | tryAfter => exact hrefl _
  | tryDone seen =>
      simp only [State.stepPos]
      split
      · exact hrefl _
      · split
        · exact hrefl _
        · exact (Writes.refl st).finished rfl rfl
  | withCount w =>
      cases w with
      | unlocked c => exact hrefl _
      | locked e => exact hrefl _
  | withBump old c =>
      simp only [State.stepPos]
      split
      · refine Writes.moved (writes_setSlot (.inl ?_) (.inl ?_)) rfl rfl rfl hcall
        all_goals rfl
      · exact hrefl _
  | withTest w => exact hrefl _
  | withRead c => exact hrefl _
  | withCas c =>
      simp only [State.stepPos]
      split
      · next hl => exact hinstall _ c (.inr rfl) hl
      · exact hrefl _
  | withAgain => exact hrefl _
  | body b =>
      have hswap : ∀ x, b = .clearSwap (.locked x) → ¬ Address x := by
        intro x hb
        refine hinv.swaps i x ?_
        rw [hpc, hb]
        rfl
      simp only [State.stepPos]
      split
      · next st' b' heq =>
        obtain ⟨hwrites, hclosed, hprocs⟩ := writes_stepBody hswap heq
        exact hwrites.moved hclosed hprocs rfl hcall
      · next st' heq =>
        obtain ⟨hwrites, hclosed, hprocs⟩ := writes_stepBody hswap heq
        split
        · exact hwrites.moved hclosed hprocs rfl hcall
        · exact hwrites.finished hclosed hprocs
  | replace ok =>
      refine Writes.moved (writes_setCall ?_) rfl rfl rfl hcall
      rfl
  | retireRead => exact hrefl _
  | retireReset =>
      refine Writes.moved (writes_setSlot (.inl ?_) (.inl ?_)) rfl rfl rfl hcall
      all_goals rfl
  | retirePool =>
      exact Writes.finished ⟨fun _ _ h _ => .inl h, fun _ => .inl rfl, fun _ => .inl rfl, fun _ _ h => h,
        fun _ h => h⟩ rfl rfl
  | destruct => exact (writes_setStatus s .free).finished rfl rfl

/-- A helper moves to a position between its reads and its second test. -/
theorem Writes.helped (h : Writes set st a st') {ℓ : L} {s e id : Nat} {p : HelpPos}
    (hclosed : st'.closed = st.closed) (hprocs : st'.procs = st.procs)
    (hhelp : (∃ e', st.procs i = .help ℓ s e' id .readEpoch ∧ p = .readId ∧ e ≤ (st.slots s).epochNum) ∨
      (∃ id', st.procs i = .help ℓ s e id' .readId ∧ id = (st.slots s).threadId) ∨
      (∃ p', st.procs i = .help ℓ s e id p' ∧ p'.hasId)) :
    Effect set st a (st'.move i (.help ℓ s e id p)) := by
  refine Writes.effect (i := i) (q := .help ℓ s e id p)
    ⟨h.lock, h.epoch, h.ident, h.current, h.closed⟩ hclosed (by rw [State.move, hprocs]) (by intros; contradiction)
    (fun ℓ' s' e' id' p' hj _ => ?_) (by simp) (by simp)
  cases hj
  exact hhelp

/-- A process goes to the re-entrancy test with the lock word in the log. -/
theorem Writes.tested (h : Writes set st a st') {k : κ} {w w' : Entry} {e id : Nat}
    (hclosed : st'.closed = st.closed) (hprocs : st'.procs = st.procs)
    (hpc : st.procs i = .commit k w' e id) (hcur : (st'.calls k).current = some w) :
    Effect set st a (st'.move i (.test k w e id)) := by
  refine Writes.effect (i := i) (q := .test k w e id) ⟨h.lock, h.epoch, h.ident, h.current, h.closed⟩
    hclosed (by rw [State.move, hprocs]) (fun k' hk => .inl ?_) (by simp) (by simp)
    (fun k' w'' e' id' hj => ?_)
  · rw [hpc]
    exact hk
  · cases hj
    exact ⟨⟨w', hpc⟩, hcur⟩

/-- The effect of a step of a helper. -/
theorem Inv.effect_stepHelp (hinv : Inv set st) {ℓ : L} {s e id x : Nat} {p : HelpPos}
    (hpc : st.procs i = .help ℓ s e id p) :
    Effect set st (.step i x) (st.stepHelp i ℓ s e id p) := by
  have hrefl : ∀ q : HelpPos, q.hasEpoch = false →
      Effect set st (.step i x) (st.move i (.help ℓ s e id q)) :=
    fun q hq => (Writes.refl st).moved rfl rfl hq (by intros; contradiction)
  cases p with
  | look =>
      simp only [State.stepHelp]
      split
      · exact hrefl _ rfl
      · exact (Writes.refl st).finished rfl rfl
  | readEpoch => exact (Writes.refl st).helped rfl rfl (.inl ⟨e, hpc, rfl, Nat.min_le_right _ _⟩)
  | readId => exact (Writes.refl st).helped rfl rfl (.inr (.inl ⟨id, hpc, rfl⟩))
  | acqRead => exact (Writes.refl st).helped rfl rfl (.inr (.inr ⟨_, hpc, rfl⟩))
  | acqWrite =>
      refine Writes.helped (writes_setSlot (.inl ?_) (.inl ?_)) rfl rfl (.inr (.inr ⟨_, hpc, rfl⟩))
      all_goals rfl
  | check =>
      simp only [State.stepHelp]
      split
      · exact hrefl _ rfl
      · exact (Writes.refl st).finished rfl rfl
  | body b =>
      have hswap : ∀ x, b = .clearSwap (.locked x) → ¬ Address x := by
        intro x hb
        refine hinv.swaps i x ?_
        rw [hpc, hb]
        rfl
      simp only [State.stepHelp]
      split
      · next st' b' heq =>
        obtain ⟨hwrites, hclosed, hprocs⟩ := writes_stepBody hswap heq
        exact hwrites.moved hclosed hprocs rfl (by intros; contradiction)
      · next st' heq =>
        obtain ⟨hwrites, hclosed, hprocs⟩ := writes_stepBody hswap heq
        exact hwrites.finished hclosed hprocs

variable [DecidableEq κ]

/-- The effect of a step of a process. -/
theorem Inv.effect_step (hinv : Inv set st) {x : Nat} {es : List (Event κ)}
    (h : st.step set i x = some (es, st')) : Effect set st (.step i x) st' := by
  have hcall : ∀ {p q : Process L κ}, st.procs i = p → q.call = p.call →
      ∀ k, q.call = some k → (st.procs i).call = some k := by
    intro p q hp hq k hk
    rw [hp, ← hq]
    exact hk
  unfold State.step at h
  split at h
  · cases h
  · next k w e id hpc =>
    split at h
    · next hnone =>
      cases h
      have hw : Writes set st (.step i x) (st.setCall k { st.calls k with current := some w }) := by
        refine ⟨fun _ _ h _ => .inl h, fun _ => .inl rfl, fun _ => .inl rfl, fun k' w' h => ?_,
          fun _ h => h⟩
        rcases eq_or_ne k' k with rfl | hne
        · rw [hnone] at h
          cases h
        · simpa [State.setCall, hne] using h
      exact hw.tested rfl rfl hpc (by simp [State.setCall])
    · next w' hsome =>
      cases h
      exact (Writes.refl st).tested rfl rfl hpc hsome
  · next k s e id hpc =>
    split at h
    · cases h
      exact (Writes.refl st).finished rfl rfl
    · cases h
      exact (Writes.refl st).moved rfl rfl rfl (hcall hpc rfl)
  · next k c e id hpc =>
    cases h
    exact (Writes.refl st).moved rfl rfl rfl (hcall hpc rfl)
  · next k w e id hpc =>
    split at h
    · cases h
      have hw : Writes set st (.step i x) (st.newObj i x w) := by
        have hs : Writes set st (.step i x)
            (st.setSlot x { st.slots x with done := false, counter := firstCounter w }) :=
          writes_setSlot (.inl rfl) (.inl rfl)
        exact ⟨hs.lock, hs.epoch, hs.ident, hs.current, hs.closed⟩
      exact hw.moved rfl rfl rfl (hcall hpc rfl)
    · cases h
  · next k w e id s hpc =>
    cases h
    refine Writes.moved (writes_setSlot (.inr ⟨i, x, k, w, e, id, rfl, hpc⟩) (.inl ?_)) rfl rfl rfl
      (hcall hpc rfl)
    rfl
  · next k w id s hpc =>
    cases h
    refine Writes.moved (writes_setSlot (.inl ?_) (.inr ⟨i, x, k, w, id, rfl, hpc, ?_⟩)) rfl rfl rfl
      (hcall hpc rfl)
    all_goals rfl
  · next k w s hpc =>
    split at h
    · cases h
      refine Writes.moved (writes_setCall ?_) rfl rfl rfl (hcall hpc rfl)
      rfl
    · cases h
      exact (Writes.refl st).moved rfl rfl rfl (hcall hpc rfl)
    · cases h
      exact (Writes.refl st).moved rfl rfl rfl (hcall hpc rfl)
  · next k w s r hpc =>
    split at h
    · cases h
      exact (writes_setStatus s .free).moved rfl rfl rfl (hcall hpc rfl)
    · cases h
      exact (writes_setStatus s .free).finished rfl rfl
  · next k w s hpc =>
    cases h
    split
    · exact (Writes.refl st).moved rfl rfl rfl (hcall hpc rfl)
    · exact (Writes.refl st).moved rfl rfl rfl (hcall hpc rfl)
  · next k w s hpc =>
    cases h
    refine Writes.moved (writes_setSlot (.inl ?_) (.inl ?_)) rfl rfl rfl (hcall hpc rfl)
    all_goals rfl
  · next k w s hpc =>
    split at h
    · split at h
      · cases h
        exact (Writes.refl st).finished rfl rfl
      · cases h
        exact (Writes.refl st).moved rfl rfl rfl (hcall hpc rfl)
    · cases h
      exact (Writes.refl st).finished rfl rfl
  · next k s own p hpc =>
    cases h
    exact hinv.effect_stepPos hpc
  · next ℓ s e id p hpc =>
    cases h
    exact hinv.effect_stepHelp hpc

/-- The effect of an action. -/
theorem Inv.effect (hinv : Inv set st) {es : List (Event κ)} (h : Reuse.next set a st = some (es, st')) :
    Effect set st a st' := by
  cases a with
  | step i x => exact hinv.effect_step h
  | call i k e id =>
      simp only [Reuse.next] at h
      split at h
      · next hpc hopen =>
        have hcall : ∀ {q : Process L κ}, q.call = some k → ∀ k', q.call = some k' →
            (st.procs i).call = some k' ∨ st.closed k' = false := by
          intro q hq k' hk
          rw [hq] at hk
          cases hk
          exact .inr hopen
        split at h
        · cases h
          refine Writes.effect (i := i) ?_ rfl rfl (hcall rfl) (by simp) (fun k' w e' id' hj => ?_) (by simp)
          · exact ⟨fun _ _ h _ => .inl h, fun _ => .inl rfl, fun _ => .inl rfl, fun _ _ h => h,
              fun _ h => h⟩
          · cases hj
            rfl
        · cases h
          refine Writes.unwatched (i := i) ?_ rfl rfl rfl (hcall rfl)
          exact ⟨fun _ _ h _ => .inl h, fun _ => .inl rfl, fun _ => .inl rfl, fun _ _ h => h,
            fun _ h => h⟩
      · cases h
  | help i ℓ s e id =>
      simp only [Reuse.next] at h
      split at h
      · cases h
        exact (Writes.refl st).moved rfl rfl rfl (by intros; contradiction)
      · cases h
  | reclaim s =>
      simp only [Reuse.next] at h
      split at h
      · cases h
        exact ⟨writes_setStatus s .free, fun j k hk hc => ⟨hc, hk⟩, fun _ _ _ _ _ _ hj _ => .inl hj,
          fun _ _ _ _ _ hj => .inl hj, fun _ _ _ _ _ hj => .inl hj⟩
      · cases h
  | close k =>
      simp only [Reuse.next] at h
      split at h
      · next hnone =>
        cases h
        refine ⟨⟨fun _ _ h _ => .inl h, fun _ => .inl rfl, fun _ => .inl rfl, fun _ _ h => h,
          fun k' hk => ?_⟩, fun j k' hk hc => ⟨?_, hk⟩, fun _ _ _ _ _ _ hj _ => .inl hj,
          fun _ _ _ _ _ hj => .inl hj, fun _ _ _ _ _ hj => .inl hj⟩
        · rcases eq_or_ne k' k with rfl | hne
          · simp at hk
          · simpa [hne] using hk
        · rcases eq_or_ne k' k with rfl | hne
          · exact absurd hk (hnone j)
          · simpa [hne] using hc
      · cases h

/-! ## Helpers -/

/-- The helper of lock `ℓ` stands between its read of `epoch_num` in slot `s` and its second test. -/
def Process.helpsAt (ℓ : L) (s : Nat) : Process L κ → Bool
  | .help ℓ' s' _ _ p => ℓ' = ℓ && s' = s && p.hasEpoch
  | _ => false

/-- No descriptor is put into a lock in a slot at which a helper of the lock stands between its reads and
its second test. -/
def Undisturbed (set : Setting L κ) (st : State L κ n) (a : Action L κ n) : Prop :=
  ∀ j, (st.installs set a).all (fun (ℓ, s) => !(st.procs j).helpsAt ℓ s) = true

instance (st : State L κ n) (a : Action L κ n) : Decidable (Undisturbed set st a) :=
  inferInstanceAs (Decidable (∀ _, _ = true))

/-- What a helper has read is right if its descriptor is in the lock. -/
def State.HelpersKnow (st : State L κ n) : Prop :=
  ∀ j ℓ s e id p, st.procs j = .help ℓ s e id p → p.hasEpoch → st.locks ℓ = .locked s ∨ ¬ Address s →
    e ≤ (st.slots s).epochNum ∧ (p.hasId → id = (st.slots s).threadId)

omit [DecidableEq L] [DecidableEq κ] in
/-- A descriptor that is being made is in no lock. -/
theorem Inv.lock_ne_of_fresh (hinv : Inv set st) {s : Nat} (hs : (st.procs i).holds s)
    (hnot : ∀ k p, st.procs i ≠ .inside k s true p) : Address s ∧ ∀ ℓ, st.locks ℓ ≠ .locked s := by
  have ha := hinv.address_of_holds hs
  refine ⟨ha, fun ℓ hl => ?_⟩
  have howner : ∀ j k p, st.procs j ≠ .inside k s true p := by
    intro j k p hj
    have hji : j = i := hinv.holder_unique (holds_of_inside hj) hs
    exact hnot k p (hji ▸ hj)
  obtain ⟨j, k, own, p, hj, _, _⟩ := hinv.lock ℓ s hl ha
  cases own with
  | true => exact howner j k p hj
  | false =>
      rcases hinv.kept j k s p hj with ⟨o, k', p', ho⟩ | ⟨hlimbo, _⟩
      · exact howner o k' p' ho
      · rw [hinv.own i s hs] at hlimbo
        cases hlimbo

omit [DecidableEq κ] in
/-- A step that puts nothing under a helper keeps what the helpers know. -/
theorem State.HelpersKnow.step (hknow : st.HelpersKnow) (hinv : Inv set st)
    (hguard : Undisturbed set st a) (heff : Effect set st a st') : st'.HelpersKnow := by
  intro j ℓ s e id p hj hp hlock
  -- a slot whose fields are written has just been taken from the allocator
  have hfresh : ∀ {i x}, a = .step i x → (st.procs i).holds s →
      (∀ k own p, st.procs i ≠ .inside k s own p) → False := by
    intro i x ha hs hnot
    obtain ⟨haddr, hne⟩ := hinv.lock_ne_of_fresh hs (fun k p => hnot k true p)
    rcases hlock with hl | hna
    · rcases heff.lock ℓ s hl haddr with hl | hins
      · exact hne ℓ hl
      · subst ha
        simp only [State.installs] at hins
        split at hins
        all_goals first | cases hins | skip
        all_goals
          split at hins
          · simp only [Option.some.injEq, Prod.mk.injEq] at hins
            obtain ⟨-, rfl⟩ := hins
            exact hnot _ _ _ ‹_›
          · cases hins
    · exact hna haddr
  have hepoch : (st'.slots s).epochNum = (st.slots s).epochNum := by
    rcases heff.epoch s with h | ⟨i, x, k, w, e', id', ha, hi⟩
    · exact h
    · exact (hfresh ha (hi ▸ rfl) (by rw [hi]; exact (by simp))).elim
  have hident : (st'.slots s).threadId = (st.slots s).threadId := by
    rcases heff.ident s with h | ⟨i, x, k, w, id', ha, hi, _⟩
    · exact h
    · exact (hfresh ha (hi ▸ rfl) (by rw [hi]; exact (by simp))).elim
  -- a helper that stood there before stood at the descriptor that is in the lock now
  have hold : ∀ e' id' p', st.procs j = .help ℓ s e' id' p' → p'.hasEpoch = true →
      st.locks ℓ = .locked s ∨ ¬ Address s := by
    intro e' id' p' hj' hp'
    by_cases haddr : Address s
    · rcases hlock with hl | hna
      · rcases heff.lock ℓ s hl haddr with hl | hins
        · exact .inl hl
        · have hg := hguard j
          rw [hins, hj'] at hg
          simp [Process.helpsAt, hp'] at hg
      · exact .inr hna
    · exact .inr haddr
  rw [hepoch, hident]
  rcases heff.help j ℓ s e id p hj hp with hj' | ⟨e', _, rfl, he⟩ | ⟨id', hj', rfl⟩ | ⟨p', hj', hp'⟩
  · exact hknow j ℓ s e id p hj' hp (hold e id p hj' hp)
  · exact ⟨he, by intros; contradiction⟩
  · exact ⟨(hknow j ℓ s e id' _ hj' rfl (hold e id' _ hj' rfl)).1, fun _ => rfl⟩
  · have hp'' : p'.hasEpoch = true := by
      cases p' with
      | acqRead | acqWrite | check => rfl
      | _ => cases hp'
    obtain ⟨he, hid⟩ := hknow j ℓ s e id p' hj' hp'' (hold e id p' hj' hp'')
    exact ⟨he, fun _ => hid hp'⟩

/-- In every run in which no descriptor is put into a lock in a slot at which a helper of the lock stands
between its read of `epoch_num` and its second test, a helper that finds its descriptor in the lock in the
second test, and so runs it, has the identity of the descriptor and an epoch that is not later. -/
theorem helper_identity {h : List (Event κ)}
    (hexec : Exec ((system n set).restrict (Undisturbed set)) h st) {ℓ : L} {s e id : Nat}
    (hpc : st.procs i = .help ℓ s e id .check) (hlock : st.locks ℓ = .locked s) :
    id = (st.slots s).threadId ∧ e ≤ (st.slots s).epochNum := by
  have hinv : Inv set st ∧ st.HelpersKnow := by
    refine hexec.invariant (P := fun _ st => Inv set st ∧ st.HelpersKnow) (fun st h0 => ?_)
      (fun h st a es st' _ hinv hnext => ?_)
    · refine ⟨Inv.initial h0, fun j ℓ s e id p hj => ?_⟩
      rw [h0.procs j] at hj
      cases hj
    · exact ⟨hinv.1.next hnext.2, hinv.2.step hinv.1 hnext.1 (hinv.1.effect hnext.2)⟩
  obtain ⟨he, hid⟩ := hinv.2 i ℓ s e id .check hpc rfl (.inl hlock)
  exact ⟨hid rfl, he⟩

/-- A run in which the helper reaches its second test while the descriptor is in the lock. -/
theorem helper_identity_run :
    ∃ (h : List (Event Unit)) (st : State Unit Unit 2),
      Exec ((system 2 ⟨fun _ => (), fun _ => .tryLock⟩).restrict
        (Undisturbed ⟨fun _ => (), fun _ => .tryLock⟩)) h st ∧
      st.procs 1 = .help () 8 1 1 .check ∧ st.locks () = .locked 8 ∧
      1 = (st.slots 8).threadId ∧ 1 ≤ (st.slots 8).epochNum := by
  have hrun : (run (fun a st => if Undisturbed ⟨fun _ => (), fun _ => .tryLock⟩ st a then
        next ⟨fun _ => (), fun _ => .tryLock⟩ a st else none)
      (List.flatten [[.call 0 () 1 1], List.replicate 8 (.step 0 8), [.help 1 () 8 2 2],
        List.replicate 5 (.step 1 8)])
      (⟨fun _ => .unlocked 0, fun _ => ⟨false, false, .locked 0, 0, 0⟩, fun _ => .free, fun _ _ => false,
        fun _ => ⟨none, .empty⟩, fun _ => false, fun _ => .idle⟩ : State Unit Unit 2)).any
      (fun r => decide (r.2.procs 1 = .help () 8 1 1 .check ∧ r.2.locks () = .locked 8)) = true := by
    decide +kernel
  obtain ⟨⟨h, st⟩, hsome, hfacts⟩ := (Option.any_eq_true _ _).mp hrun
  obtain ⟨hpc, hlock⟩ := of_decide_eq_true hfacts
  have hexec : Exec ((system 2 ⟨fun _ => (), fun _ => .tryLock⟩).restrict
      (Undisturbed ⟨fun _ => (), fun _ => .tryLock⟩)) h st :=
    exec_restrict_of_run _ ⟨fun _ => ⟨0, rfl⟩, fun _ => rfl, fun _ _ h => by cases h; rfl,
      fun _ => rfl, fun _ => rfl⟩ hsome
  exact ⟨h, st, hexec, hpc, hlock, helper_identity hexec hpc hlock⟩

/-- Thread 1 takes the lock with the descriptor in slot 8, and a helper reads its epoch 1 and identity 1.
Thread 1 clears the lock and frees the slot, which nobody has acquired; thread 2, in epoch 0, takes the
slot for its own descriptor and puts it into the lock. The second test of the helper succeeds, and it runs
the descriptor of thread 2 with the identity and the epoch of the other one. -/
theorem helper_wrong_identity :
    ∃ (h : List (Event Bool)) (st : State Unit Bool 3),
      Exec (system 3 ⟨fun _ => (), fun _ => .tryLock⟩) h st ∧
      st.procs 1 = .help () 8 1 1 (.body .run) ∧ st.locks () = .locked 8 ∧
      (st.slots 8).threadId = 2 ∧ (st.slots 8).epochNum = 0 := by
  have hrun : (run (next ⟨fun _ => (), fun _ => .tryLock⟩)
      (List.flatten [[.call 0 false 1 1], List.replicate 8 (.step 0 8), [.help 1 () 8 1 3],
        List.replicate 3 (.step 1 8), List.replicate 10 (.step 0 8), [.call 2 true 0 2],
        List.replicate 8 (.step 2 8), List.replicate 3 (.step 1 8)])
      (⟨fun _ => .unlocked 0, fun _ => ⟨false, false, .locked 0, 0, 0⟩, fun _ => .free, fun _ _ => false,
        fun _ => ⟨none, .empty⟩, fun _ => false, fun _ => .idle⟩ : State Unit Bool 3)).any
      (fun r => decide (r.2.procs 1 = .help () 8 1 1 (.body .run) ∧ r.2.locks () = .locked 8 ∧
        (r.2.slots 8).threadId = 2 ∧ (r.2.slots 8).epochNum = 0)) = true := by
    decide +kernel
  obtain ⟨⟨h, st⟩, hsome, hfacts⟩ := (Option.any_eq_true _ _).mp hrun
  obtain ⟨hpc, hlock⟩ := of_decide_eq_true hfacts
  exact ⟨h, st, exec_of_run _ ⟨fun _ => ⟨0, rfl⟩, fun _ => rfl, fun _ _ h => by cases h; rfl,
    fun _ => rfl, fun _ => rfl⟩ hsome, hpc, hlock⟩

/-! ## The re-entrancy test -/

/-- The process that executes call `k` has the identity of the call's thread; and as long as `k` can be
executed, the slot that the logged lock word of `k` points to is not reused by this thread if it carries
another `thread_id`, nor by another thread if it carries this one. -/
def State.keepsIdentity (st : State L κ n) (identity : κ → Nat) (k : κ) : Action L κ n → Bool
  | .call _ k' _ id => k' = k → id = identity k
  | .step i _ =>
      match st.procs i with
      | .setId _ _ id s =>
          st.closed k = false → (st.calls k).current = some (.locked s) →
            ((st.slots s).threadId = identity k ↔ id = identity k)
      | _ => true
  | _ => true

/-- The condition of `State.keepsIdentity` for all calls. -/
def Separate (identity : κ → Nat) (st : State L κ n) (a : Action L κ n) : Prop :=
  ∀ k, st.keepsIdentity identity k a = true

instance [Fintype κ] (identity : κ → Nat) (st : State L κ n) (a : Action L κ n) :
    Decidable (Separate identity st a) :=
  inferInstanceAs (Decidable (∀ _, _ = true))

/-- The outcome of the re-entrancy test on lock word `w` under identity `id`. -/
def State.SelfLocked (st : State L κ n) (w : Entry) (id : Nat) : Prop :=
  ∃ s, w = .locked s ∧ (st.slots s).threadId = id

/-- The only events are the outcomes of re-entrancy tests. -/
theorem next_events {es : List (Event κ)} (h : next set a st = some (es, st')) :
    es = [] ∨ ∃ i x k w e id b, a = .step i x ∧ st.procs i = .test k w e id ∧ es = [.tested k b] ∧
      (b = true ↔ st.SelfLocked w id) := by
  cases a with
  | step i x =>
      have h : st.step set i x = some (es, st') := h
      unfold State.step at h
      split at h
      · cases h
      · split at h
        all_goals
          cases h
          exact .inl rfl
      · next k s e id hpc =>
        split at h
        · next hid =>
          cases h
          exact .inr ⟨i, x, k, _, e, id, true, rfl, hpc, rfl, fun _ => ⟨s, rfl, hid⟩, fun _ => rfl⟩
        · next hid =>
          cases h
          refine .inr ⟨i, x, k, _, e, id, false, rfl, hpc, rfl, by simp, fun ⟨s', hs, hid'⟩ => ?_⟩
          cases hs
          exact absurd hid' hid
      · next k c e id hpc =>
        cases h
        exact .inr ⟨i, x, k, _, e, id, false, rfl, hpc, rfl, by simp, fun ⟨s', hs, _⟩ => nomatch hs⟩
      · split at h
        · cases h
          exact .inl rfl
        · cases h
      · cases h
        exact .inl rfl
      · cases h
        exact .inl rfl
      · split at h
        all_goals
          cases h
          exact .inl rfl
      · split at h
        all_goals
          cases h
          exact .inl rfl
      · cases h
        exact .inl rfl
      · cases h
        exact .inl rfl
      · split at h
        · split at h
          all_goals
            cases h
            exact .inl rfl
        · cases h
          exact .inl rfl
      · cases h
        exact .inl rfl
      · cases h
        exact .inl rfl
  | call i k e id =>
      simp only [next] at h
      split at h
      · split at h
        all_goals
          cases h
          exact .inl rfl
      · cases h
  | help i ℓ s e id =>
      simp only [next] at h
      split at h
      · cases h
        exact .inl rfl
      · cases h
  | reclaim s =>
      simp only [next] at h
      split at h
      · cases h
        exact .inl rfl
      · cases h
  | close k =>
      simp only [next] at h
      split at h
      · cases h
        exact .inl rfl
      · cases h

/-- What the outcomes of the tests so far have to do with the memory. -/
structure Tested (identity : κ → Nat) (h : List (Event κ)) (st : State L κ n) : Prop where
  agree : ∀ k b b', .tested k b ∈ h → .tested k b' ∈ h → b = b'
  outcome : ∀ k b, .tested k b ∈ h → st.closed k = false →
    ∃ w, (st.calls k).current = some w ∧ (b = true ↔ st.SelfLocked w (identity k))
  commit : ∀ j k w e id, st.procs j = .commit k w e id → id = identity k
  test : ∀ j k w e id, st.procs j = .test k w e id → id = identity k ∧ (st.calls k).current = some w
  opened : ∀ j k, (st.procs j).call = some k → st.closed k = false

/-- The outcome of a test on a logged lock word stays the same while the call can be executed. -/
theorem Separate.selfLocked {identity : κ → Nat} (hguard : Separate identity st a)
    (heff : Effect set st a st') {k : κ} {w : Entry} (hcur : (st.calls k).current = some w)
    (hopen : st.closed k = false) :
    st'.SelfLocked w (identity k) ↔ st.SelfLocked w (identity k) := by
  have hsame : ∀ s, w = .locked s →
      ((st'.slots s).threadId = identity k ↔ (st.slots s).threadId = identity k) := by
    rintro s rfl
    rcases heff.ident s with h | ⟨i, x, k', w', id, rfl, hi, hid⟩
    · rw [h]
    · have hg := hguard k
      simp only [State.keepsIdentity, hi, decide_eq_true_eq] at hg
      rw [hid]
      exact (hg hopen hcur).symm
  constructor
  · rintro ⟨s, hs, hid⟩
    exact ⟨s, hs, (hsame s hs).mp hid⟩
  · rintro ⟨s, hs, hid⟩
    exact ⟨s, hs, (hsame s hs).mpr hid⟩

/-- A step that meets the condition keeps the outcomes of the tests in agreement. -/
theorem Tested.step {identity : κ → Nat} {h es : List (Event κ)} (ht : Tested identity h st)
    (hguard : Separate identity st a) (heff : Effect set st a st')
    (hevents : es = [] ∨ ∃ i x k w e id b, a = .step i x ∧ st.procs i = .test k w e id ∧
      es = [.tested k b] ∧ (b = true ↔ st.SelfLocked w id)) : Tested identity (h ++ es) st' := by
  -- what an event says of the state before the step
  have hout : ∀ k b, .tested k b ∈ h ++ es → st.closed k = false →
      ∃ w, (st.calls k).current = some w ∧ (b = true ↔ st.SelfLocked w (identity k)) := by
    intro k b hb hopen
    rcases List.mem_append.mp hb with hb | hb
    · exact ht.outcome k b hb hopen
    · rcases hevents with rfl | ⟨i, x, k', w, e, id, b', _, hpc, rfl, hb'⟩
      · cases hb
      · rw [List.mem_singleton] at hb
        cases hb
        obtain ⟨rfl, hcur⟩ := ht.test i k w e id hpc
        exact ⟨w, hcur, hb'⟩
  have hopened : ∀ k b, .tested k b ∈ es → st.closed k = false := by
    intro k b hb
    rcases hevents with rfl | ⟨i, x, k', w, e, id, b', _, hpc, rfl, _⟩
    · cases hb
    · rw [List.mem_singleton] at hb
      cases hb
      refine ht.opened i k ?_
      rw [hpc]
      rfl
  refine ⟨fun k b b' hb hb' => ?_, fun k b hb hopen => ?_, fun j k w e id hj => ?_,
    fun j k w e id hj => ?_, fun j k hj => ?_⟩
  · by_cases hopen : st.closed k = false
    · obtain ⟨w, hw, hiff⟩ := hout k b hb hopen
      obtain ⟨w', hw', hiff'⟩ := hout k b' hb' hopen
      rw [hw] at hw'
      cases hw'
      exact Bool.eq_iff_iff.mpr (hiff.trans hiff'.symm)
    · have hold : ∀ b, .tested k b ∈ h ++ es → .tested k b ∈ h := by
        intro b hb
        rcases List.mem_append.mp hb with hb | hb
        · exact hb
        · exact absurd (hopened k b hb) hopen
      exact ht.agree k b b' (hold b hb) (hold b' hb')
  · have hopen := heff.closed k hopen
    obtain ⟨w, hw, hiff⟩ := hout k b hb hopen
    exact ⟨w, heff.current k w hw, hiff.trans (hguard.selfLocked heff hw hopen).symm⟩
  · rcases heff.commit j k w e id hj with hj | rfl
    · exact ht.commit j k w e id hj
    · have hg := hguard k
      simpa [State.keepsIdentity] using hg
  · rcases heff.test j k w e id hj with hj | ⟨⟨w', hj⟩, hcur⟩
    · obtain ⟨hid, hcur⟩ := ht.test j k w e id hj
      exact ⟨hid, heff.current k w hcur⟩
    · exact ⟨ht.commit j k w' e id hj, hcur⟩
  · cases hc : st'.closed k with
    | false => rfl
    | true =>
        obtain ⟨hclosed, hcall⟩ := heff.call j k hj hc
        rw [ht.opened j k hcall] at hclosed
        cases hclosed

/-- In every run in which the processes that execute a call have the identity of its thread, and the slot
that its logged lock word points to is not passed between this thread and others while the call can be
executed, all processes that execute the call take the same branch of the re-entrancy test. -/
theorem reentrancy_agreement {identity : κ → Nat} {h : List (Event κ)}
    (hexec : Exec ((system n set).restrict (Separate identity)) h st) {k : κ} {b b' : Bool}
    (hb : .tested k b ∈ h) (hb' : .tested k b' ∈ h) : b = b' := by
  have hinv : Inv set st ∧ Tested identity h st := by
    refine hexec.invariant (P := fun h st => Inv set st ∧ Tested identity h st) (fun st h0 => ?_)
      (fun h st a es st' _ hinv hnext => ?_)
    · refine ⟨Inv.initial h0, by simp, by simp, fun j k w e id hj => ?_, fun j k w e id hj => ?_,
        fun j k hj => ?_⟩
      all_goals
        rw [h0.procs j] at hj
        cases hj
    · exact ⟨hinv.1.next hnext.2,
        hinv.2.step hnext.1 (hinv.1.effect hnext.2) (next_events hnext.2)⟩
  exact hinv.2.agree k b b' hb hb'

/-- A run in which the second process makes the test after the descriptor in the logged lock word has been
destructed. -/
theorem reentrancy_agreement_run :
    ∃ (h : List (Event Bool)) (st : State Unit Bool 3),
      Exec ((system 3 ⟨fun _ => (), fun _ => .tryLock⟩).restrict
        (Separate fun k => if k then 1 else 2)) h st ∧
      st.status 8 = .free ∧ (h.filter (· == .tested true false)).length = 2 ∧
      ∀ b, .tested true b ∈ h → b = false := by
  have hrun : (run (fun a st => if Separate (fun k => if k then 1 else 2) st a then
        next ⟨fun _ => (), fun _ => .tryLock⟩ a st else none)
      (List.flatten [[.call 2 false 0 2], List.replicate 8 (.step 2 8), [.call 0 true 0 1],
        List.replicate 2 (.step 0 16), List.replicate 10 (.step 2 8), List.replicate 3 (.step 0 16),
        [.call 1 true 0 1], List.replicate 2 (.step 1 24)])
      (⟨fun _ => .unlocked 0, fun _ => ⟨false, false, .locked 0, 0, 0⟩, fun _ => .free, fun _ _ => false,
        fun _ => ⟨none, .empty⟩, fun _ => false, fun _ => .idle⟩ : State Unit Bool 3)).any
      (fun (h, st) => decide (st.status 8 = .free ∧ (h.filter (· == .tested true false)).length = 2 ∧
        .tested true false ∈ h)) = true := by
    decide +kernel
  obtain ⟨⟨h, st⟩, hsome, hfacts⟩ := (Option.any_eq_true _ _).mp hrun
  simp only [decide_eq_true_eq] at hfacts
  obtain ⟨hfree, hlen, hmem⟩ := hfacts
  have hexec : Exec ((system 3 ⟨fun _ => (), fun _ => .tryLock⟩).restrict
      (Separate fun k => if k then 1 else 2)) h st :=
    exec_restrict_of_run _ ⟨fun _ => ⟨0, rfl⟩, fun _ => rfl, fun _ _ h => by cases h; rfl,
      fun _ => rfl, fun _ => rfl⟩ hsome
  exact ⟨h, st, hexec, hfree, hlen, fun b hb => reentrancy_agreement hexec hb hmem⟩

/-- Two processes execute a call of thread 1. The first logs a lock word that points to the descriptor of
thread 2 in slot 8 and finds that it does not hold the lock itself. Thread 2 clears the lock and frees the
slot, and the first process gets it for its own descriptor. The second process finds the identity of thread
1 there, and runs the thunk without the lock. -/
theorem reentrancy_disagreement :
    ∃ (h : List (Event Bool)) (st : State Unit Bool 3),
      Exec (system 3 ⟨fun _ => (), fun _ => .tryLock⟩) h st ∧
      .tested true false ∈ h ∧ .tested true true ∈ h := by
  have hrun : (run (next ⟨fun _ => (), fun _ => .tryLock⟩)
      (List.flatten [[.call 2 false 0 2], List.replicate 8 (.step 2 8), [.call 0 true 0 1],
        List.replicate 2 (.step 0 8), List.replicate 10 (.step 2 8), List.replicate 3 (.step 0 8),
        [.call 1 true 0 1], List.replicate 2 (.step 1 8)])
      (⟨fun _ => .unlocked 0, fun _ => ⟨false, false, .locked 0, 0, 0⟩, fun _ => .free, fun _ _ => false,
        fun _ => ⟨none, .empty⟩, fun _ => false, fun _ => .idle⟩ : State Unit Bool 3)).any
      (fun r => decide (.tested true false ∈ r.1 ∧ .tested true true ∈ r.1)) = true := by
    decide +kernel
  obtain ⟨⟨h, st⟩, hsome, hfacts⟩ := (Option.any_eq_true _ _).mp hrun
  exact ⟨h, st, exec_of_run _ ⟨fun _ => ⟨0, rfl⟩, fun _ => rfl, fun _ _ h => by cases h; rfl,
    fun _ => rfl, fun _ => rfl⟩ hsome, by simpa using hfacts⟩

end

end Verlib.Flock.Reuse
