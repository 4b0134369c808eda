import Verlib.Flock.ReuseInv

/-!
# Runs with reused descriptors

Every step keeps the invariant, so `acquired_pool::retire` never frees a descriptor that a helper or a
replayer uses.
-/

namespace Verlib.Flock.Reuse

open Interleaving
open LockWord (Entry Kind LogEntry Call Body firstCounter)

variable {L κ : Type} {n : Nat} {set : Setting L κ} {st : State L κ n} {i : Fin n}

/-- The word after a counter is not the address of a descriptor. -/
theorem Inv.counter_succ (hinv : Inv set st) {s x : Nat}
    (h : (st.slots s).counter.succ = .locked x) : ¬ Address x := by
  cases hc : (st.slots s).counter with
  | locked d =>
      have hd := hinv.counter s d hc
      rw [hc] at h
      cases h
      rintro ⟨_, ha⟩
      omega
  | unlocked c =>
      rw [hc] at h
      cases h

/-- `new_obj` does not put an address into `counter`. -/
theorem firstCounter_locked {w : Entry} {x : Nat} (h : firstCounter w = .locked x) : x = 0 := by
  cases w with
  | locked d =>
      cases h
      rfl
  | unlocked c => cases h

/-- The slot of a process in the rest of a call is at an address. -/
theorem Inv.address_of_inside (hinv : Inv set st) {k : κ} {s : Nat} {own : Bool} {p : Pos}
    (hpc : st.procs i = .inside k s own p) : Address s := by
  cases own with
  | true => exact hinv.address_of_holds (holds_of_inside hpc)
  | false =>
      rcases hinv.kept i k s p hpc with ⟨j, k', p', hj⟩ | ⟨hlimbo, _⟩
      · exact hinv.address_of_holds (holds_of_inside hj)
      · refine hinv.address s ?_
        rw [hlimbo]
        simp

/-- When the owner finds the flag unset, nobody uses the descriptor and no lock holds it. -/
theorem Inv.unused (hinv : Inv set st) {k : κ} {s : Nat} {p : Pos}
    (hpc : st.procs i = .inside k s true p) (hpool : p ≠ .retirePool) (hclear : ¬ p.clears s)
    (hacq : (st.slots s).acquired = false) :
    (∀ j, ¬ (st.procs j).uses s) ∧ ∀ ℓ, st.locks ℓ ≠ .locked s := by
  have hholds := holds_of_inside hpc
  have howner : ∀ j k' p', st.procs j = .inside k' s true p' → p' = p := by
    intro j k' p' hj
    have hij : j = i := hinv.holder_unique (holds_of_inside hj) hholds
    rw [hij, hpc] at hj
    cases hj
    rfl
  have huses : ∀ j, ¬ (st.procs j).uses s := by
    intro j hj
    rcases hinv.marked j s hj.marks with h | ⟨o, k', ho⟩ | ⟨h, _⟩
    · rw [hacq] at h
      cases h
    · exact hpool (howner o k' _ ho).symm
    · rw [hinv.own i s hholds] at h
      cases h
  refine ⟨huses, fun ℓ hl => ?_⟩
  obtain ⟨j, k', own, p', hj, _, hp'⟩ := hinv.lock ℓ s hl (hinv.address_of_holds hholds)
  cases own with
  | false =>
      refine huses j ?_
      rw [hj]
      exact ⟨rfl, rfl⟩
  | true =>
      rw [howner j k' p' hj] at hp'
      exact hclear hp'

/-- When the holder of a slot moves on without it, nobody holds it. -/
theorem Inv.holds_move (hinv : Inv set st) {s : Nat} {q : Process L κ} (hs : (st.procs i).holds s)
    (hq : ¬ q.holds s) (j : Fin n) : ¬ ((st.move i q).procs j).holds s := by
  intro hj
  rcases eq_or_ne j i with rfl | hne
  · rw [move_self] at hj
    exact hq hj
  · rw [move_other hne] at hj
    exact hne (hinv.holder_unique hj hs)

/-- A slot that nobody holds any more becomes free. -/
theorem Inv.free (hinv : Inv set st) {s : Nat} (hs : ∀ j, ¬ (st.procs j).holds s)
    (hlive : st.status s = .live i) : Inv set (st.setStatus s .free) := by
  refine hinv.setStatus (fun j hj => absurd hj (hs j)) (fun h => absurd rfl h) (fun h => ?_)
  rw [hlive] at h
  cases h

/-- The first position of a call is before the end of its log entry. -/
theorem firstPos_isOpen (kind : Kind) (w : Entry) : (firstPos kind w).isOpen := by
  cases kind <;> cases w <;> trivial

/-- A call does not start in the middle of `clear`. -/
theorem firstPos_swaps (k : κ) (s : Nat) (own : Bool) (kind : Kind) (w x : Entry) :
    ¬ (Process.inside (L := L) k s own (firstPos kind w)).swaps x := by
  cases kind <;> cases w <;> exact id

/-- The invariant holds in the beginning. -/
theorem Inv.initial (h : st.Initial) : Inv set st := by
  refine ⟨fun j s hj => ?_, fun s hs => absurd (h.status s) hs, h.counters, fun j s hj => ?_,
    fun ℓ s hl => ?_, fun k s he => ?_, fun j k s hj => ?_, fun j s hj => ?_, fun j k s p hj => ?_,
    fun j k s p hj => ?_, fun j k s hj => ?_⟩
  all_goals first | rw [h.procs j] at hj | skip
  · exact hj.elim
  · exact hj.elim
  · obtain ⟨x, hx⟩ := h.locks ℓ
    rw [hx] at hl
    cases hl
  · rw [h.calls k] at he
    cases he
  · exact hj.elim
  · exact hj.elim
  · cases hj
  · cases hj
  · cases hj

variable [DecidableEq L]

/-- One step of the body of a descriptor keeps the invariant. A process that finds nothing more to do
does not leave the lock to the descriptor, and the word that it is going to write is no address. -/
theorem Inv.stepBody (hinv : Inv set st) {ℓ : L} {s : Nat} {b : Body} {st' : State L κ n}
    {r : Option Body} (hswap : ∀ x, b = .clearSwap (.locked x) → ¬ Address x)
    (h : st.stepBody ℓ s b = (st', r)) :
    Inv set st' ∧ st'.procs = st.procs ∧ (r = none → Address s → st'.locks ℓ ≠ .locked s) ∧
      ∀ x, r = some (.clearSwap (.locked x)) → ¬ Address x := by
  cases b with
  | run =>
      cases h
      exact ⟨hinv, rfl, by simp, (by simp)⟩
  | finish =>
      cases h
      exact ⟨hinv.setSlot (fun h => .inl h) (hinv.counter s), rfl, by simp, (by simp)⟩
  | clear =>
      simp only [State.stepBody] at h
      split at h
      · cases h
        exact ⟨hinv, rfl, by simp, (by simp)⟩
      · next hl =>
        cases h
        exact ⟨hinv, rfl, fun _ _ => hl, by simp⟩
  | clearCount =>
      cases h
      refine ⟨hinv, rfl, by simp, fun x hx => ?_⟩
      simp only [Option.some.injEq, Body.clearSwap.injEq] at hx
      exact hinv.counter_succ hx
  | clearSwap w =>
      simp only [State.stepBody] at h
      split at h
      · cases h
        have hw : ∀ x, w = .locked x → ¬ Address x := fun x hx => hswap x (by rw [hx])
        refine ⟨hinv.setLock hw, rfl, fun _ hs hl => ?_, by simp⟩
        exact hw s (by simpa [State.setLock] using hl) hs
      · next hl =>
        cases h
        exact ⟨hinv, rfl, fun _ _ => hl, by simp⟩

/-- A step of a helper keeps the invariant. -/
theorem Inv.stepHelp (hinv : Inv set st) {ℓ : L} {s e id : Nat} {p : HelpPos}
    (hpc : st.procs i = .help ℓ s e id p) : Inv set (st.stepHelp i ℓ s e id p) := by
  have hnot : ∀ k x own q, st.procs i ≠ .inside k x own q := by
    intro k x own q h
    rw [hpc] at h
    cases h
  have hfinish : Inv set (st.finish i) :=
    hinv.finish (Inv.moves_quiet hnot trivial)
  cases p with
  | look =>
      simp only [State.stepHelp]
      split
      · exact hinv.move (Inv.moves_quiet hnot trivial)
      · exact hfinish
  | readEpoch => exact hinv.move (Inv.moves_quiet hnot trivial)
  | readId => exact hinv.move (Inv.moves_quiet hnot trivial)
  | acqRead =>
      simp only [State.stepHelp]
      split
      · next hacq =>
        refine hinv.move (Inv.moves_outside hnot (by simp) (fun _ h => h.elim) (fun _ h => h.elim)
          (fun _ _ h => h.elim) (fun x h => ?_) (fun _ h => h.elim))
        cases h
        exact .inl hacq
      · exact hinv.move (Inv.moves_quiet hnot trivial)
  | acqWrite =>
      have hinv' := hinv.setSlot (s := s) (d := { st.slots s with acquired := true }) (fun _ => .inl rfl)
        (hinv.counter s)
      refine hinv'.move (Inv.moves_outside hnot (by simp) (fun _ h => h.elim) (fun _ h => h.elim)
        (fun _ _ h => h.elim) (fun x h => ?_) (fun _ h => h.elim))
      cases h
      exact .inl (by simp [State.setSlot])
  | check =>
      simp only [State.stepHelp]
      split
      · next hl =>
        refine hinv.move (Inv.moves_outside hnot (by simp) (fun _ h => h.elim) (fun _ h => h.elim)
          (fun _ _ h => h.elim) (fun x h => ?_) (fun x h j k hj => ?_))
        · refine hinv.marked i x ?_
          rw [hpc]
          exact h
        · cases h
          exact (hinv.freed j k s hj).2 ℓ hl
      · exact hfinish
  | body b =>
      have hswap : ∀ x, b = .clearSwap (.locked x) → ¬ Address x := by
        intro x hb
        refine hinv.swaps i x ?_
        rw [hpc, hb]
        rfl
      simp only [State.stepHelp]
      split
      · next st' b' heq =>
        obtain ⟨hinv', hprocs, _, hswap'⟩ := hinv.stepBody hswap heq
        rw [← hprocs] at hpc hnot
        refine hinv'.move (Inv.moves_outside hnot (by simp) (fun _ h => h.elim) (fun x h => ?_)
          (fun _ _ h => h.elim) (fun x h => ?_) (fun x h j k hj => ?_))
        · cases b' with
          | clearSwap w => exact hswap' x (by rw [show w = .locked x from h])
          | _ => exact h.elim
        · refine hinv'.marked i x ?_
          rw [hpc]
          exact h
        · refine (hinv'.freed j k x hj).1 i ?_
          rw [hpc]
          exact h
      · next st' heq =>
        obtain ⟨hinv', hprocs, _, _⟩ := hinv.stepBody hswap heq
        rw [← hprocs] at hnot
        exact hinv'.finish (Inv.moves_quiet hnot trivial)

variable [DecidableEq κ]

/-- A step in the rest of a call keeps the invariant. -/
theorem Inv.stepPos (hinv : Inv set st) {k : κ} {s : Nat} {own : Bool} {p : Pos}
    (hpc : st.procs i = .inside k s own p) : Inv set (st.stepPos set i k s own p) := by
  have hpos := hinv.replayed i k s p
  -- a move that stays in the part of the call that all processes execute
  have hmove : ∀ q : Pos, q.replayed → q.isOpen → (∀ x, q ≠ .body (.clearSwap (.locked x))) →
      p.replayed → (p.clears s → st.locks (set.lockOf k) = .locked s → q.clears s) →
      Inv set (st.move i (.inside k s own q)) := by
    intro q hq ho hswap hp hc
    refine hinv.move (hinv.moves_inside hpc (fun x hx => absurd hx (hswap x)) hc (fun _ _ _ => ho)
      (fun _ h => ?_) (fun _ => hq) (fun _ h => ?_))
    · subst h
      exact hp
    · subst h
      exact hq.elim
  cases p with
  | tryRead x =>
      refine hmove _ ?_ ?_ ?_ trivial (fun h => h.elim) <;> split <;> first | trivial | simp
  | tryCas x =>
      have hafter := hmove .tryAfter trivial trivial (by simp) trivial (fun h => h.elim)
      simp only [State.stepPos]
      split
      · exact hafter.install (move_self _) trivial
      · exact hafter
  | tryAfter => exact hmove (.tryDone _) trivial trivial (by simp) trivial (fun _ h => h)
  | tryDone seen =>
      simp only [State.stepPos]
      split
      · exact hmove (.body .run) trivial trivial (by simp) trivial (fun _ _ => trivial)
      · next hseen =>
        have hseen : seen ≠ .locked s := fun h => hseen (by simp [h])
        cases own with
        | true =>
            refine hinv.move (hinv.moves_inside hpc (by simp) (fun h => absurd h hseen) (fun _ _ _ => trivial)
              (by simp) (by simp) (by simp))
        | false => exact hinv.finish (Inv.moves_idle hpc (fun h => absurd h hseen) (by simp))
  | withCount w =>
      cases w with
      | unlocked x =>
          refine hmove _ ?_ ?_ ?_ trivial (fun h => h.elim) <;> split <;> first | trivial | simp
      | locked e => exact hmove _ trivial trivial (by simp) trivial (fun h => h.elim)
  | withBump old x =>
      simp only [State.stepPos]
      split
      · have hinv' := hinv.setSlot (s := s) (d := { st.slots s with counter := .unlocked x })
          (fun h => .inl h) (by simp)
        exact hinv'.move (hinv'.moves_inside hpc (by simp) (fun h => h.elim) (fun _ _ _ => trivial) (by simp)
          (fun _ => trivial) (by simp))
      · exact hmove _ trivial trivial (by simp) trivial (fun h => h.elim)
  | withTest w =>
      simp only [State.stepPos]
      split
      · exact hmove _ trivial trivial (by simp) trivial (fun h => h.elim)
      · cases w with
        | unlocked x => exact hmove (.withRead x) trivial trivial (by simp) trivial (fun h => h.elim)
        | locked e => exact hmove .withAgain trivial trivial (by simp) trivial (fun h => h.elim)
  | withRead x =>
      refine hmove _ ?_ ?_ ?_ trivial (fun h => h.elim) <;> split <;> first | trivial | simp
  | withCas x =>
      simp only [State.stepPos]
      split
      · exact (hmove (.body .run) trivial trivial (by simp) trivial (fun h => h.elim)).install
          (move_self _) trivial
      · exact hmove _ trivial trivial (by simp) trivial (fun h => h.elim)
  | withAgain => exact hmove _ trivial trivial (by simp) trivial (fun h => h.elim)
  | body b =>
      have hswap : ∀ x, b = .clearSwap (.locked x) → ¬ Address x := by
        intro x hb
        refine hinv.swaps i x ?_
        rw [hpc, hb]
        rfl
      simp only [State.stepPos]
      split
      · next st' b' heq =>
        obtain ⟨hinv', hprocs, _, hswap'⟩ := hinv.stepBody hswap heq
        rw [← hprocs] at hpc
        refine hinv'.move (hinv'.moves_inside hpc (fun x hx => ?_) (fun _ _ => trivial)
          (fun _ _ _ => trivial) (by simp) (fun _ => trivial) (by simp))
        cases hx
        exact hswap' x rfl
      · next st' heq =>
        obtain ⟨hinv', hprocs, hlock, _⟩ := hinv.stepBody hswap heq
        have hlock := hlock rfl (hinv.address_of_inside hpc)
        rw [← hprocs] at hpc
        cases own with
        | true =>
            exact hinv'.move (hinv'.moves_inside hpc (by simp) (fun _ h => absurd h hlock)
              (fun _ _ _ => trivial) (by simp) (by simp) (by simp))
        | false => exact hinv'.finish (Inv.moves_idle hpc (fun _ => hlock) (by simp))
  | replace ok =>
      cases own with
      | false => exact (hpos hpc).elim
      | true =>
          have hinv' := hinv.setCall (k := k) (c := { st.calls k with entry := .result ok }) (by simp)
            (fun _ _ _ => .inr ⟨ok, rfl⟩)
          refine hinv'.move (hinv'.moves_inside hpc (by simp) (fun h => h.elim) (fun _ _ he => ?_) (by simp) (by simp)
            (by simp))
          simp [State.setCall] at he
  | retireRead =>
      cases own with
      | false => exact (hpos hpc).elim
      | true =>
          simp only [State.stepPos]
          split
          · exact hinv.move (hinv.moves_inside hpc (by simp) (fun h => h.elim) (fun _ h => h.elim) (by simp) (by simp)
              (by simp))
          · next hacq =>
            exact hinv.move (hinv.moves_inside hpc (by simp) (fun h => h.elim) (fun _ h => h.elim) (by simp) (by simp)
              fun _ _ => hinv.unused hpc (by simp) id (by simpa using hacq))
  | retireReset =>
      cases own with
      | false => exact (hpos hpc).elim
      | true =>
          have hmoves : Moves set st i (.inside k s true .retirePool) :=
            hinv.moves_inside hpc (by simp) (fun h => h.elim) (fun _ h => h.elim) (by simp) (by simp) (by simp)
          have hinv' := hinv.move hmoves
          exact hinv'.setSlot (fun _ => .inr ⟨i, k, move_self _⟩) (hinv.counter s)
  | retirePool =>
      cases own with
      | false => exact (hpos hpc).elim
      | true => exact hinv.retire hpc
  | destruct =>
      cases own with
      | false => exact (hpos hpc).elim
      | true =>
          have hfree := hinv.freed i k s hpc
          have hinv' := hinv.finish (Inv.moves_idle hpc (fun h => h.elim) fun _ => ⟨rfl, hfree.1⟩)
          exact hinv'.free (hinv.holds_move (holds_of_inside hpc) id)
            (hinv.own i s (holds_of_inside hpc))

omit [DecidableEq L] in
/-- `new_obj_acquired` commits the descriptor. -/
theorem Inv.publish (hinv : Inv set st) {k : κ} {w : Entry} {s : Nat}
    (hpc : st.procs i = .publish k w s) (hempty : (st.calls k).entry = .empty) :
    Inv set ((st.setCall k { st.calls k with entry := .desc s }).move i
      (.inside k s true (firstPos (set.kind k) w))) := by
  have hnot : ∀ k' x own p, st.procs i ≠ .inside k' x own p := by rw [hpc]; simp
  have hm : Moves set st i (.inside k s true (firstPos (set.kind k) w)) := by
    refine ⟨fun x hx => ?_, fun x hx => ?_, fun k' x own p h => absurd h (hnot _ _ _ _),
      fun k' x p h => absurd h (hnot _ _ _ _), fun _ _ h => h.elim, fun _ h => (by cases h.1),
      fun k' x p h => absurd h (hnot _ _ _ _), fun k' x => hnot _ _ _ _, by simp, by simp,
      fun k' x h => ?_, fun _ h => (by cases h.1)⟩
    · cases hx.2
      exact hinv.own i s (hpc ▸ rfl)
    · exact absurd hx (firstPos_swaps k s true (set.kind k) w _)
    · simp only [Process.inside.injEq] at h
      have ho := firstPos_isOpen (set.kind k) w
      rw [h.2.2.2] at ho
      exact ho.elim
  refine (hinv.move hm).setCall (fun x hx => ?_) (fun j x hj => ?_)
  · cases hx
    exact ⟨i, _, move_self _, firstPos_isOpen _ _⟩
  · rcases eq_or_ne j i with rfl | hne
    · rw [move_self] at hj
      exact hj.elim
    · rw [move_other hne] at hj
      rcases hinv.reads j k x hj with h | ⟨ok, h⟩
      · rw [hempty] at h
        cases h
      · rw [hempty] at h
        cases h

omit [DecidableEq L] [DecidableEq κ] in
/-- `new_obj_acquired` finds the descriptor in the log once more. -/
theorem Inv.replay (hinv : Inv set st) {k : κ} {w : Entry} {s : Nat}
    (hpc : st.procs i = .reload k w s) (he : (st.calls k).entry = .desc s)
    (hfirst : ∀ x, set.kind k = .tryLock → w ≠ .locked x) :
    Inv set (st.move i (.inside k s false (firstPos (set.kind k) w))) := by
  have hnot : ∀ k' x own p, st.procs i ≠ .inside k' x own p := by rw [hpc]; simp
  obtain ⟨j, p, hj, hp⟩ := hinv.entry k s he
  refine hinv.move ⟨fun x hx => (nomatch hx.1), fun x hx => ?_,
    fun k' x own p h => absurd h (hnot _ _ _ _), fun k' x p h => absurd h (hnot _ _ _ _),
    fun _ _ h => h.elim, fun x hx => ?_, fun k' x p h => absurd h (hnot _ _ _ _),
    fun k' x => hnot _ _ _ _, fun k' x p' h => ?_, fun k' x p' h => ?_, by simp,
    fun x hx o k' ho => ?_⟩
  · exact absurd hx (firstPos_swaps k s false (set.kind k) w _)
  · cases hx.2
    exact hinv.marked i s (hpc ▸ rfl)
  · cases h
    exact ⟨.inl ⟨j, k, p, hj⟩, fun _ _ => hnot _ _ _ _⟩
  · cases h
    cases hk : set.kind k with
    | tryLock =>
        cases w with
        | locked x => exact absurd rfl (hfirst x hk)
        | unlocked c => trivial
    | withLock => trivial
  · cases hx.2
    have hjo : j = o := hinv.holder_unique (holds_of_inside hj) (holds_of_inside ho)
    subst hjo
    rw [hj] at ho
    cases ho
    exact hp

/-- A step keeps the invariant. -/
theorem Inv.step (hinv : Inv set st) {x : Nat} {es : List (Event κ)} {st' : State L κ n}
    (h : st.step set i x = some (es, st')) : Inv set st' := by
  have hnot : ∀ {q : Process L κ}, st.procs i = q → (∀ k s own p, q ≠ .inside k s own p) →
      ∀ k s own p, st.procs i ≠ .inside k s own p := by
    intro q hq hne
    rwa [hq]
  unfold State.step at h
  split at h
  · cases h
  · next k w e id hpc =>
    split at h
    · cases h
      have hinv' := hinv.setCall (k := k) (c := { st.calls k with current := some w })
        (fun s he => hinv.entry k s he) (fun j s hj => hinv.reads j k s hj)
      exact hinv'.move (Inv.moves_quiet (hnot hpc (by simp)) trivial)
    · cases h
      exact hinv.move (Inv.moves_quiet (hnot hpc (by simp)) trivial)
  · next k s e id hpc =>
    split at h
    · cases h
      exact hinv.finish (Inv.moves_quiet (hnot hpc (by simp)) trivial)
    · cases h
      exact hinv.move (Inv.moves_quiet (hnot hpc (by simp)) trivial)
  · next k c e id hpc =>
    cases h
    exact hinv.move (Inv.moves_quiet (hnot hpc (by simp)) trivial)
  · next k w e id hpc =>
    split at h
    · next hfree =>
      cases h
      have hnone : ∀ j, ¬ (st.procs j).holds x := by
        intro j hj
        have hlive := hinv.own j x hj
        rw [hfree.2] at hlive
        cases hlive
      have hinv' : Inv set (st.newObj i x w) := by
        refine (hinv.setStatus (y := .live i) (fun j hj => absurd hj (hnone j)) (fun _ => hfree.1)
          (fun h => ?_)).setSlot (fun h => .inl h) (fun d hd => firstCounter_locked hd)
        rw [hfree.2] at h
        cases h
      refine hinv'.move (Inv.moves_outside (hnot hpc (by simp)) (by simp) (fun s hs => ?_)
        (fun _ h => h.elim) (fun _ _ h => h.elim) (fun _ h => h.elim) (fun _ h => h.elim))
      cases hs
      simp [State.newObj, State.setStatus, State.setSlot]
    · cases h
  · next k w e id s hpc =>
    cases h
    have hinv' := hinv.setSlot (s := s) (d := { st.slots s with epochNum := e }) (fun h => .inl h)
      (hinv.counter s)
    exact hinv'.move (hinv'.moves_holding (hnot hpc (by simp)) (x := s) (hpc ▸ rfl) (by simp) (fun _ h => h)
      (fun _ _ h => h.elim) (fun _ => ⟨fun h => h, fun h => h⟩))
  · next k w id s hpc =>
    cases h
    have hinv' := hinv.setSlot (s := s) (d := { st.slots s with threadId := id }) (fun h => .inl h)
      (hinv.counter s)
    exact hinv'.move (hinv'.moves_holding (hnot hpc (by simp)) (x := s) (hpc ▸ rfl) (by simp) (fun _ h => h)
      (fun _ _ h => h.elim) (fun _ => ⟨fun h => h, fun h => h⟩))
  · next k w s hpc =>
    have hholds : (st.procs i).holds s := hpc ▸ rfl
    split at h
    · next hempty =>
      cases h
      exact hinv.publish hpc hempty
    · next s' he =>
      cases h
      refine hinv.move (hinv.moves_holding (hnot hpc (by simp)) hholds (by simp) (fun _ h => h)
        (fun k' x hx => ?_) (fun _ => ⟨fun h => h, fun h => h⟩))
      obtain ⟨rfl, rfl⟩ := hx
      exact .inl he
    · cases h
      exact hinv.move (hinv.moves_holding (hnot hpc (by simp)) hholds (by simp) (fun _ h => h)
        (fun _ _ h => h.elim) (fun _ => ⟨fun h => h, fun h => h⟩))
  · next k w s r hpc =>
    have hholds : (st.procs i).holds s := hpc ▸ rfl
    split at h
    · next s' =>
      cases h
      have hinv' := hinv.move (q := .acqRead k w s') (Inv.moves_outside (hnot hpc (by simp)) (by simp)
        (fun _ h => h.elim) (fun _ h => h.elim) (fun k' x hx => hinv.reads i k' x (hpc ▸ hx))
        (fun _ h => h.elim) (fun _ h => h.elim))
      exact hinv'.free (hinv.holds_move hholds id) (hinv.own i s hholds)
    · cases h
      have hinv' := hinv.finish (Inv.moves_quiet (hnot hpc (by simp)) trivial)
      exact hinv'.free (hinv.holds_move hholds id) (hinv.own i s hholds)
  · next k w s hpc =>
    cases h
    split
    · next hacq =>
      refine hinv.move (Inv.moves_outside (hnot hpc (by simp)) (by simp) (fun _ h => h.elim)
        (fun _ h => h.elim) (fun k' x hx => hinv.reads i k' x (hpc ▸ hx)) (fun x hx => ?_)
        (fun _ h => h.elim))
      cases hx
      exact .inl hacq
    · exact hinv.move (Inv.moves_outside (hnot hpc (by simp)) (by simp) (fun _ h => h.elim)
        (fun _ h => h.elim) (fun k' x hx => hinv.reads i k' x (hpc ▸ hx)) (fun _ h => h.elim)
        (fun _ h => h.elim))
  · next k w s hpc =>
    cases h
    have hinv' := hinv.setSlot (s := s) (d := { st.slots s with acquired := true }) (fun _ => .inl rfl)
      (hinv.counter s)
    refine hinv'.move (Inv.moves_outside (hnot hpc (by simp)) (by simp) (fun _ h => h.elim)
      (fun _ h => h.elim) (fun k' x hx => hinv.reads i k' x (hpc ▸ hx)) (fun x hx => ?_)
      (fun _ h => h.elim))
    cases hx
    exact .inl (by simp [State.setSlot])
  · next k w s hpc =>
    have hfinish := hinv.finish (Inv.moves_quiet (hnot hpc (by simp)) trivial)
    split at h
    · next s' he =>
      have hs : s' = s := by
        rcases hinv.reads i k s (hpc ▸ ⟨rfl, rfl⟩) with h' | ⟨ok, h'⟩
        · rw [he] at h'
          cases h'
          rfl
        · rw [he] at h'
          cases h'
      subst hs
      split at h
      · cases h
        exact hfinish
      · next hfirst =>
        cases h
        exact hinv.replay hpc he hfirst
    · cases h
      exact hfinish
  · next k s own p hpc =>
    cases h
    exact hinv.stepPos hpc
  · next ℓ s e id p hpc =>
    cases h
    exact hinv.stepHelp hpc

/-- Every action keeps the invariant. -/
theorem Inv.next {a : Action L κ n} (hinv : Inv set st) {es : List (Event κ)} {st' : State L κ n}
    (h : next set a st = some (es, st')) : Inv set st' := by
  cases a with
  | step i x => exact hinv.step h
  | call i k e id =>
      simp only [Reuse.next] at h
      split at h
      · next hpc _ =>
        have hnot : ∀ k' x own p, st.procs i ≠ .inside k' x own p := by rw [hpc]; simp
        split at h
        all_goals
          cases h
          exact hinv.move (Inv.moves_quiet hnot trivial)
      · cases h
  | help i ℓ s e id =>
      simp only [Reuse.next] at h
      split at h
      · next hpc =>
        cases h
        exact hinv.move (Inv.moves_quiet (by rw [hpc]; exact (by simp)) trivial)
      · cases h
  | reclaim s =>
      simp only [Reuse.next] at h
      split at h
      · next hlimbo =>
        cases h
        refine hinv.setStatus (fun j hj => ?_) (fun h => absurd rfl h) (fun _ => hlimbo.2)
        have hlive := hinv.own j s hj
        rw [hlimbo.1] at hlive
        cases hlive
      · cases h
  | close k =>
      simp only [Reuse.next] at h
      split at h
      · cases h
        exact ⟨hinv.own, hinv.address, hinv.counter, hinv.swaps, hinv.lock, hinv.entry, hinv.reads,
          hinv.marked, hinv.kept, hinv.replayed, hinv.freed⟩
      · cases h

/-- Every run keeps the invariant. -/
theorem exec_inv {h : List (Event κ)} (hexec : Exec (system n set) h st) : Inv set st :=
  hexec.invariant (P := fun _ st => Inv set st) (fun _ h => Inv.initial h)
    (fun _ _ _ _ _ _ hinv hnext => hinv.next hnext)

/-- In every run, when `acquired_pool::retire` has read the flag of a descriptor as false and destructs it,
no helper whose second test found the descriptor in the lock and no replayer whose second read of the log
returned it is still using it. -/
theorem destruct_unused {h : List (Event κ)} (hexec : Exec (system n set) h st) {k : κ} {s : Nat}
    (hpc : st.procs i = .inside k s true .destruct) (j : Fin n) : ¬ (st.procs j).uses s :=
  ((exec_inv hexec).freed i k s hpc).1 j

/-- A run in which the helper sets the flag after the owner has read it as false: it stands before its
second test when the owner destructs the descriptor. -/
theorem destruct_unused_run :
    ∃ (h : List (Event Unit)) (st : State Unit Unit 2), Exec (system 2 ⟨id, fun _ => .tryLock⟩) h st ∧
      st.procs 0 = .inside () 8 true .destruct ∧ st.procs 1 = .help () 8 0 1 .check ∧
      (st.slots 8).acquired = true ∧ ∀ j, ¬ (st.procs j).uses 8 := by
  have hrun : (run (next ⟨id, fun _ => .tryLock⟩)
      (List.flatten [[.call 0 () 0 1], List.replicate 8 (.step 0 8), [.help 1 () 8 0 2],
        List.replicate 4 (.step 1 8), List.replicate 9 (.step 0 8), [.step 1 8]])
      (⟨fun _ => .unlocked 0, fun _ => ⟨false, false, .locked 0, 0, 0⟩, fun _ => .free, fun _ _ => false,
        fun _ => ⟨none, .empty⟩, fun _ => false, fun _ => .idle⟩ : State Unit Unit 2)).any
      (fun r => decide (r.2.procs 0 = .inside () 8 true .destruct ∧
        r.2.procs 1 = .help () 8 0 1 .check ∧ (r.2.slots 8).acquired = true)) = true := by
    decide +kernel
  obtain ⟨⟨h, st⟩, hsome, hfacts⟩ := (Option.any_eq_true _ _).mp hrun
  obtain ⟨h₀, h₁, hacq⟩ := of_decide_eq_true hfacts
  have hexec : Exec (system 2 ⟨id, fun _ => .tryLock⟩) h st :=
    exec_of_run _ ⟨fun _ => ⟨0, rfl⟩, fun _ => rfl, fun _ _ h => by cases h; rfl, fun _ => rfl,
      fun _ => rfl⟩ hsome
  exact ⟨h, st, hexec, h₀, h₁, hacq, destruct_unused hexec h₀⟩

end Verlib.Flock.Reuse
