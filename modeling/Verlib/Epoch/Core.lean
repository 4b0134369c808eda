import Verlib.Interleaving.System

/-!
# Epochs: announcements and the epoch counter

The shared part of `epoch_s` in `flock/epoch.h` for `n` workers: one announcement slot per worker
and the epoch counter, together with the position of every worker in `announce` and `update_epoch`.
Every load, exchange, store and compare-exchange is one step. `update_epoch` loads a slot twice, once
for the test against -1 and once for the comparison, so the two loads are two steps.

`Inv` says what the protocol guarantees: while a section announced at `a` is open the counter is `a`
or `a + 1`, and a scan for epoch `e` has only passed workers whose open section is announced at `e`
or later.
-/

namespace Verlib.Epoch

/-- Where a worker stands in `with_epoch`: outside, in the loop of `announce` (about to load the
epoch again, epoch `e` loaded, slot set to `e`), or inside a section announced at `a`. -/
inductive Section where
  | outside
  | retry
  | loaded (e : Nat)
  | exchanged (e : Nat)
  | inside (a : Nat)
  deriving DecidableEq, Repr

/-- Where a worker stands in `update_epoch`: at the first or second load of slot `i` while scanning
for epoch `e`, past the scan (`ready` before and `armed` after the before-hooks), or past a won
compare-exchange (`won` and `shifting` are the two assignments of the after-hook). -/
inductive Update where
  | idle
  | scan (e i : Nat)
  | check (e i : Nat)
  | ready (e : Nat)
  | armed (e : Nat)
  | won (e : Nat)
  | shifting (e : Nat)
  deriving DecidableEq, Repr

/-- The epoch structure of `n` workers. A slot holding `none` is a slot holding -1. -/
structure Core (n : Nat) where
  currentEpoch : Nat
  announcements : Fin n → Option Nat
  phase : Fin n → Section
  update : Fin n → Update

namespace Core

variable {n : Nat}

/-- The constructor: epoch 0 and every slot -1. -/
def initial : Core n :=
  ⟨0, fun _ => none, fun _ => .outside, fun _ => .idle⟩

/-- One atomic step of `announce` by worker `t`. -/
def announce (c : Core n) (t : Fin n) : Option (Core n) :=
  match c.phase t with
  | .outside | .retry =>
      some { c with phase := Function.update c.phase t (.loaded c.currentEpoch) }
  | .loaded e =>
      some { c with
        announcements := Function.update c.announcements t (some e)
        phase := Function.update c.phase t (.exchanged e) }
  | .exchanged e =>
      some { c with
        phase := Function.update c.phase t
          (if c.currentEpoch = e then .inside e else .retry) }
  | .inside _ => none

/-- `unannounce` by worker `t`: the slot is set back to -1. -/
def unannounce (c : Core n) (t : Fin n) : Option (Core n) :=
  match c.phase t with
  | .inside _ =>
      some { c with
        announcements := Function.update c.announcements t none
        phase := Function.update c.phase t .outside }
  | _ => none

/-- One atomic step of `update_epoch` by worker `t`. -/
def updateEpoch (c : Core n) (t : Fin n) : Core n :=
  match c.update t with
  | .idle => { c with update := Function.update c.update t (.scan c.currentEpoch 0) }
  | .scan e i =>
      { c with
        update := Function.update c.update t
          (if hi : i < n then
            match c.announcements ⟨i, hi⟩ with
            | none => .scan e (i + 1)
            | some _ => .check e i
          else .ready e) }
  | .check e i =>
      { c with
        update := Function.update c.update t
          (if hi : i < n then
            match c.announcements ⟨i, hi⟩ with
            -- A slot that turned -1 between the two loads compares as -1 < e.
            | none => .idle
            | some a => if a < e then .idle else .scan e (i + 1)
          else .idle) }
  | .ready e => { c with update := Function.update c.update t (.armed e) }
  | .armed e =>
      if c.currentEpoch = e then
        { c with currentEpoch := e + 1, update := Function.update c.update t (.won e) }
      else
        { c with update := Function.update c.update t .idle }
  | .won e => { c with update := Function.update c.update t (.shifting e) }
  | .shifting _ => { c with update := Function.update c.update t .idle }

/-! ## The protocol's invariant -/

/-- If worker `t` has an open section, it is announced at epoch `e` or later. -/
def Passed (c : Core n) (e : Nat) (t : Fin n) : Prop :=
  ∀ a, c.phase t = .inside a → e ≤ a

/-- What worker `t`'s position in `announce` says about its slot and the counter. -/
def PhaseOk (c : Core n) (t : Fin n) : Section → Prop
  | .outside | .retry => True
  | .loaded e => e ≤ c.currentEpoch
  | .exchanged e => c.announcements t = some e ∧ e ≤ c.currentEpoch
  | .inside a => c.announcements t = some a ∧ a ≤ c.currentEpoch ∧ c.currentEpoch ≤ a + 1

/-- What a position in `update_epoch` says about the open sections and the counter. -/
def UpdateOk (c : Core n) : Update → Prop
  | .idle => True
  | .scan e i | .check e i => e ≤ c.currentEpoch ∧ ∀ t : Fin n, t.val < i → c.Passed e t
  | .ready e | .armed e => e ≤ c.currentEpoch ∧ ∀ t, c.Passed e t
  | .won e | .shifting e => e + 1 ≤ c.currentEpoch

/-- The invariant of the epoch structure. -/
structure Inv (c : Core n) : Prop where
  phases : ∀ t, c.PhaseOk t (c.phase t)
  updates : ∀ u, c.UpdateOk (c.update u)

/-- The invariant holds initially. -/
theorem Inv.initial : Inv (initial : Core n) :=
  ⟨fun _ => trivial, fun _ => trivial⟩

/-- While a section announced at `a` is open, its slot holds `a` and the counter is `a` or `a + 1`. -/
theorem Inv.inside {c : Core n} (hinv : c.Inv) {t : Fin n} {a : Nat} (h : c.phase t = .inside a) :
    c.announcements t = some a ∧ a ≤ c.currentEpoch ∧ c.currentEpoch ≤ a + 1 := by
  have hphase := hinv.phases t
  rwa [h] at hphase

/-- A position in `announce` stays right when the worker's own slot and the counter are unchanged. -/
theorem PhaseOk.congr {c c' : Core n} {t : Fin n} {p : Section} (h : c.PhaseOk t p)
    (hslot : c'.announcements t = c.announcements t)
    (hepoch : c'.currentEpoch = c.currentEpoch) : c'.PhaseOk t p := by
  cases p <;> simp_all [PhaseOk]

/-- A position in `update_epoch` stays right when the counter does not fall and no section is opened
below the old counter. -/
theorem UpdateOk.mono {c c' : Core n} {x : Update} (h : c.UpdateOk x)
    (hepoch : c.currentEpoch ≤ c'.currentEpoch)
    (hphase : ∀ t e, e ≤ c.currentEpoch → c.Passed e t → c'.Passed e t) : c'.UpdateOk x := by
  cases x with
  | idle => trivial
  | scan e i | check e i =>
      exact ⟨h.1.trans hepoch, fun t ht => hphase t e h.1 (h.2 t ht)⟩
  | ready e | armed e =>
      exact ⟨h.1.trans hepoch, fun t => hphase t e h.1 (h.2 t)⟩
  | won e | shifting e => exact Nat.le_trans h hepoch

/-- Moving worker `t` to a phase that is not an open section below the counter keeps every scan's
findings. -/
theorem passed_update {c : Core n} {ann : Fin n → Option Nat} {t : Fin n} {p : Section}
    (hp : ∀ a, p = .inside a → c.currentEpoch ≤ a) (u : Fin n) (e : Nat)
    (he : e ≤ c.currentEpoch) (h : c.Passed e u) :
    Passed { c with announcements := ann, phase := Function.update c.phase t p } e u := by
  intro a ha
  by_cases hut : u = t
  · subst hut
    exact he.trans (hp a (by simpa using ha))
  · exact h a (by simpa [hut] using ha)

/-- Everything a step of `announce` can do. -/
theorem announce_cases {c c' : Core n} {t : Fin n} (h : c.announce t = some c') :
    c' = { c with phase := Function.update c.phase t (.loaded c.currentEpoch) } ∨
      (∃ e, c.phase t = .loaded e ∧
        c' = { c with
          announcements := Function.update c.announcements t (some e)
          phase := Function.update c.phase t (.exchanged e) }) ∨
      (c.phase t = .exchanged c.currentEpoch ∧
        c' = { c with phase := Function.update c.phase t (.inside c.currentEpoch) }) ∨
      c' = { c with phase := Function.update c.phase t .retry } := by
  unfold announce at h
  split at h
  · exact .inl (Option.some.inj h).symm
  · exact .inl (Option.some.inj h).symm
  · exact .inr (.inl ⟨_, ‹_›, (Option.some.inj h).symm⟩)
  · split at h
    · subst_vars
      exact .inr (.inr (.inl ⟨‹_›, (Option.some.inj h).symm⟩))
    · exact .inr (.inr (.inr (Option.some.inj h).symm))
  · cases h

/-- A step of `announce` preserves the invariant. A worker enters its section only after it has
re-read the counter, so the section is announced at the current epoch. -/
theorem Inv.announce {c c' : Core n} {t : Fin n} (hinv : c.Inv) (h : c.announce t = some c') :
    c'.Inv := by
  have hown := hinv.phases t
  obtain rfl | ⟨e, hp, rfl⟩ | ⟨hp, rfl⟩ | rfl := announce_cases h
  · refine ⟨Function.forall_update_iff _ _ |>.mpr ⟨le_rfl, fun u _ => ?_⟩, fun u => ?_⟩
    · exact (hinv.phases u).congr rfl rfl
    · exact (hinv.updates u).mono le_rfl (passed_update (by simp))
  · rw [hp] at hown
    refine ⟨Function.forall_update_iff _ _ |>.mpr ⟨⟨by simp, hown⟩, fun u hu => ?_⟩, fun u => ?_⟩
    · exact (hinv.phases u).congr (by simp [hu]) rfl
    · exact (hinv.updates u).mono le_rfl (passed_update (by simp))
  · rw [hp] at hown
    refine ⟨Function.forall_update_iff _ _ |>.mpr
      ⟨⟨hown.1, le_rfl, Nat.le_succ _⟩, fun u _ => ?_⟩, fun u => ?_⟩
    · exact (hinv.phases u).congr rfl rfl
    · exact (hinv.updates u).mono le_rfl (passed_update (by simp))
  · refine ⟨Function.forall_update_iff _ _ |>.mpr ⟨trivial, fun u _ => ?_⟩, fun u => ?_⟩
    · exact (hinv.phases u).congr rfl rfl
    · exact (hinv.updates u).mono le_rfl (passed_update (by simp))

/-- `unannounce` closes the section and clears the slot. -/
theorem unannounce_eq_some {c c' : Core n} {t : Fin n} (h : c.unannounce t = some c') :
    c' = { c with
      announcements := Function.update c.announcements t none
      phase := Function.update c.phase t .outside } := by
  unfold unannounce at h
  split at h
  · exact (Option.some.inj h).symm
  · cases h

/-- `unannounce` preserves the invariant. -/
theorem Inv.unannounce {c c' : Core n} {t : Fin n} (hinv : c.Inv) (h : c.unannounce t = some c') :
    c'.Inv := by
  obtain rfl := unannounce_eq_some h
  refine ⟨Function.forall_update_iff _ _ |>.mpr ⟨trivial, fun u hu => ?_⟩, fun u => ?_⟩
  · exact (hinv.phases u).congr (by simp [hu]) rfl
  · exact (hinv.updates u).mono le_rfl (passed_update (by simp))

/-- Everything a step of `update_epoch` can do: start a scan, pass slot `i` at its first or second
load, give up, finish the scan, run the before-hooks, win the compare-exchange, or run one of the
assignments of the after-hook. -/
theorem updateEpoch_cases (c : Core n) (t : Fin n) :
    (c.update t = .idle ∧
      c.updateEpoch t = { c with update := Function.update c.update t (.scan c.currentEpoch 0) }) ∨
    (∃ e i, ∃ hi : i < n, (c.update t = .scan e i ∧ c.announcements ⟨i, hi⟩ = none ∨
        c.update t = .check e i ∧ ∃ a, c.announcements ⟨i, hi⟩ = some a ∧ e ≤ a) ∧
      c.updateEpoch t = { c with update := Function.update c.update t (.scan e (i + 1)) }) ∨
    (∃ e i, c.update t = .scan e i ∧
      c.updateEpoch t = { c with update := Function.update c.update t (.check e i) }) ∨
    (∃ e i, c.update t = .scan e i ∧ n ≤ i ∧
      c.updateEpoch t = { c with update := Function.update c.update t (.ready e) }) ∨
    (∃ e, c.update t = .ready e ∧
      c.updateEpoch t = { c with update := Function.update c.update t (.armed e) }) ∨
    (c.update t = .armed c.currentEpoch ∧
      c.updateEpoch t = { c with
        currentEpoch := c.currentEpoch + 1
        update := Function.update c.update t (.won c.currentEpoch) }) ∨
    (∃ e, c.update t = .won e ∧
      c.updateEpoch t = { c with update := Function.update c.update t (.shifting e) }) ∨
    (c.update t ≠ .idle ∧
      c.updateEpoch t = { c with update := Function.update c.update t .idle }) := by
  cases hu : c.update t with
  | idle => simp [updateEpoch, hu]
  | scan e i =>
      by_cases hi : i < n
      · cases ha : c.announcements ⟨i, hi⟩ with
        | none =>
            refine .inr (.inl ⟨e, i, hi, .inl ⟨rfl, ha⟩, ?_⟩)
            simp [updateEpoch, hu, hi, ha]
        | some a =>
            refine .inr (.inr (.inl ⟨e, i, rfl, ?_⟩))
            simp [updateEpoch, hu, hi, ha]
      · refine .inr (.inr (.inr (.inl ⟨e, i, rfl, by omega, ?_⟩)))
        simp [updateEpoch, hu, hi]
  | check e i =>
      by_cases hi : i < n
      · cases ha : c.announcements ⟨i, hi⟩ with
        | none => simp [updateEpoch, hu, hi, ha]
        | some a =>
            by_cases hlt : a < e
            · simp [updateEpoch, hu, hi, ha, hlt]
            · refine .inr (.inl ⟨e, i, hi, .inr ⟨rfl, a, ha, by omega⟩, ?_⟩)
              simp [updateEpoch, hu, hi, ha, hlt]
      · simp [updateEpoch, hu, hi]
  | ready e => simp [updateEpoch, hu]
  | armed e =>
      by_cases he : c.currentEpoch = e
      · subst he
        simp [updateEpoch, hu]
      · simp [updateEpoch, hu, he]
  | won e => simp [updateEpoch, hu]
  | shifting e => simp [updateEpoch, hu]

/-- Once the first load finds -1 or the second finds an epoch not below `e`, the worker of that slot
has no open section announced before `e`. -/
theorem Inv.passed_slot {c : Core n} (hinv : c.Inv) {e i : Nat} {hi : i < n}
    (h : c.announcements ⟨i, hi⟩ = none ∨ ∃ a, c.announcements ⟨i, hi⟩ = some a ∧ e ≤ a) :
    c.Passed e ⟨i, hi⟩ := by
  intro a ha
  have hslot := (hinv.inside ha).1
  rcases h with h | ⟨b, hb, hle⟩
  · simp [h] at hslot
  · rw [hb] at hslot
    cases hslot
    exact hle

/-- Moving worker `t` to a position in `update_epoch` that is right preserves the invariant. -/
theorem Inv.set_update {c : Core n} (hinv : c.Inv) {t : Fin n} {x : Update} (hx : c.UpdateOk x) :
    Inv { c with update := Function.update c.update t x } :=
  ⟨fun u => (hinv.phases u).congr rfl rfl,
    Function.forall_update_iff _ _ |>.mpr
      ⟨hx.mono le_rfl fun _ _ _ h => h, fun u _ => (hinv.updates u).mono le_rfl fun _ _ _ h => h⟩⟩

/-- A step of `update_epoch` preserves the invariant. The compare-exchange from `e` to `e + 1` can
only succeed when every open section is announced at `e`. -/
theorem Inv.updateEpoch {c : Core n} (hinv : c.Inv) (t : Fin n) : (c.updateEpoch t).Inv := by
  have hown := hinv.updates t
  obtain ⟨hu, h⟩ | ⟨e, i, hin, hu, h⟩ | ⟨e, i, hu, h⟩ | ⟨e, i, hu, hin, h⟩ | ⟨e, hu, h⟩ | ⟨hu, h⟩ |
    ⟨e, hu, h⟩ | ⟨hu, h⟩ := c.updateEpoch_cases t <;> rw [h]
  · exact hinv.set_update ⟨le_rfl, fun t ht => absurd ht (Nat.not_lt_zero _)⟩
  · -- Slot `i` is passed, so the scan's findings extend from `[0, i)` to `[0, i]`.
    have hpassed : c.Passed e ⟨i, hin⟩ := hinv.passed_slot (hu.imp And.right And.right)
    have hscan : e ≤ c.currentEpoch ∧ ∀ t : Fin n, t.val < i → c.Passed e t := by
      rcases hu with ⟨hu, _⟩ | ⟨hu, _⟩ <;> simpa [hu, UpdateOk] using hown
    refine hinv.set_update ⟨hscan.1, fun t ht => ?_⟩
    rcases Nat.lt_succ_iff_lt_or_eq.mp ht with hlt | heq
    · exact hscan.2 t hlt
    · rwa [show t = ⟨i, hin⟩ from Fin.ext heq]
  · exact hinv.set_update (by simpa [hu, UpdateOk] using hown)
  · rw [hu] at hown
    exact hinv.set_update ⟨hown.1, fun t => hown.2 t (t.isLt.trans_le hin)⟩
  · exact hinv.set_update (by simpa [hu, UpdateOk] using hown)
  · rw [hu] at hown
    refine ⟨fun u => ?_, Function.forall_update_iff _ _ |>.mpr ⟨le_rfl, fun u _ => ?_⟩⟩
    · -- No open section is announced before the old counter, so the new one is at most one above.
      have hphase := hinv.phases u
      have hpassed := hown.2 u
      cases hp : c.phase u with
      | outside | retry => trivial
      | loaded e =>
          rw [hp] at hphase
          exact Nat.le_succ_of_le hphase
      | exchanged e =>
          rw [hp] at hphase
          exact ⟨hphase.1, Nat.le_succ_of_le hphase.2⟩
      | inside a =>
          rw [hp] at hphase
          exact ⟨hphase.1, Nat.le_succ_of_le hphase.2.1, Nat.succ_le_succ (hpassed a hp)⟩
    · exact (hinv.updates u).mono (Nat.le_succ _) fun _ _ _ h => h
  · exact hinv.set_update (by simpa [hu, UpdateOk] using hown)
  · exact hinv.set_update trivial

/-- A step of `update_epoch` opens and closes no section. -/
@[simp] theorem updateEpoch_phase (c : Core n) (t : Fin n) : (c.updateEpoch t).phase = c.phase := by
  unfold updateEpoch
  split <;> first | rfl | (split <;> rfl)

/-- A step of `update_epoch` does not lower the counter. -/
theorem le_updateEpoch (c : Core n) (t : Fin n) :
    c.currentEpoch ≤ (c.updateEpoch t).currentEpoch := by
  unfold updateEpoch
  split
  case h_5 => split <;> simp_all
  all_goals exact le_rfl

/-- A step of `announce` does not change the counter or the other workers' phases. -/
theorem announce_frame {c c' : Core n} {t : Fin n} (h : c.announce t = some c') :
    c'.currentEpoch = c.currentEpoch ∧ c'.update = c.update ∧
      (∀ u, u ≠ t → c'.phase u = c.phase u) ∧ ∀ a, c.phase t ≠ .inside a := by
  have hphase : ∀ a, c.phase t ≠ .inside a := by
    intro a ha
    simp [announce, ha] at h
  refine ⟨?_, ?_, ?_, hphase⟩ <;>
    obtain rfl | ⟨e, _, rfl⟩ | ⟨_, rfl⟩ | rfl := announce_cases h <;> simp +contextual

/-- `unannounce` does not change the counter or the other workers' phases. -/
theorem unannounce_frame {c c' : Core n} {t : Fin n} (h : c.unannounce t = some c') :
    c'.currentEpoch = c.currentEpoch ∧ c'.update = c.update ∧
      ∀ u, u ≠ t → c'.phase u = c.phase u := by
  obtain rfl := unannounce_eq_some h
  simp +contextual

end Core

end Verlib.Epoch
