import Verlib.Epoch.Core

/-!
# `done_stamp` and the active snapshots

`timestamps.h` hangs two hooks on the epoch: before the compare-exchange the updater samples the
clock into its thread-local `current_stamp`, and after winning it shifts `done_stamp = prev_stamp`
and `prev_stamp = current_stamp`, two plain assignments. A snapshot opens a section, takes its stamp
with `get_read_stamp` and keeps it until it closes the section.

The clock is arbitrary: its stamp may rise at any moment, and `get_read_stamp` returns any value it
loaded during the call. `done_le_local_stamp` says that no hook ever moves `done_stamp` above the
stamp of a snapshot that is still open.
-/

namespace Verlib.Epoch.DoneStamp

open Interleaving

/-- Where a worker stands in the body of `with_snapshot`: in a plain section (or none), in
`get_read_stamp` with the values it has loaded so far, holding its local stamp, or past the
assignment that sets `local_stamp` back to -1. -/
inductive Snapshot where
  | idle
  | reading (seen : List Nat)
  | holding (ls : Nat)
  | ended (ls : Nat)

/-- The epoch structure, the clock, the two shared stamps of the hooks, and every worker's
`current_stamp` and snapshot. -/
structure State (n : Nat) where
  core : Core n
  stamp : Nat
  doneStamp : Nat
  prevStamp : Nat
  currentStamp : Fin n → Nat
  snapshot : Fin n → Snapshot

/-- What the scheduler chooses: a worker and what it does next, or a rise of the clock. -/
inductive Action (n : Nat) where
  | tick (stamp : Nat)
  | announce (t : Fin n)
  | unannounce (t : Fin n)
  | updateEpoch (t : Fin n)
  | getReadStamp (t : Fin n)
  | setLocalStamp (t : Fin n) (ls : Nat)
  | endBody (t : Fin n)

variable {n : Nat}

/-- Both stamps start at the clock's initial value. -/
def initial (stamp : Nat) : State n :=
  ⟨Core.initial, stamp, stamp, stamp, fun _ => 0, fun _ => .idle⟩

/-- One atomic step of `update_epoch` with the hooks of `add_epoch_hooks`. -/
def updateEpoch (st : State n) (t : Fin n) : State n :=
  let core := st.core.updateEpoch t
  match st.core.update t with
  | .ready _ =>
      { st with core := core, currentStamp := Function.update st.currentStamp t st.stamp }
  | .won _ => { st with core := core, doneStamp := st.prevStamp }
  | .shifting _ => { st with core := core, prevStamp := st.currentStamp t }
  | _ => { st with core := core }

/-- Worker `t` moves to a position of `with_snapshot`. -/
def State.setSnapshot (st : State n) (t : Fin n) (x : Snapshot) : State n :=
  { st with snapshot := Function.update st.snapshot t x }

/-- The next state, if the action is possible. A worker runs one function at a time, `update_epoch`
is called from inside a section only, and a section is closed after the body has ended. -/
def next : Action n → State n → Option (List Empty × State n)
  | .tick stamp, st => if st.stamp ≤ stamp then some ([], { st with stamp := stamp }) else none
  | .announce t, st => (st.core.announce t).map fun core => ([], { st with core := core })
  | .unannounce t, st =>
      match st.snapshot t, st.core.update t with
      | .idle, .idle | .ended _, .idle =>
          (st.core.unannounce t).map fun core =>
            ([], { st with core := core }.setSnapshot t .idle)
      | _, _ => none
  | .updateEpoch t, st =>
      match st.core.phase t with
      | .inside _ => some ([], updateEpoch st t)
      | _ => none
  | .getReadStamp t, st =>
      match st.core.phase t, st.snapshot t with
      | .inside _, .idle => some ([], st.setSnapshot t (.reading [st.stamp]))
      | .inside _, .reading seen => some ([], st.setSnapshot t (.reading (st.stamp :: seen)))
      | _, _ => none
  | .setLocalStamp t ls, st =>
      match st.snapshot t with
      | .reading seen =>
          if ls ∈ seen then some ([], st.setSnapshot t (.holding ls)) else none
      | _ => none
  | .endBody t, st =>
      match st.snapshot t with
      | .holding ls => some ([], st.setSnapshot t (.ended ls))
      | _ => none

/-- Any number of workers running snapshots, plain sections and `update_epoch`, over any clock whose
stamp never decreases. -/
def system (n : Nat) : System (State n) (Action n) Empty :=
  System.ofNext (fun st => ∃ stamp, st = initial stamp) next

/-! ## The invariant -/

/-- The values a snapshot has loaded in `get_read_stamp`, or the one it keeps. -/
def Snapshot.stamps : Snapshot → List Nat
  | .idle => []
  | .reading seen => seen
  | .holding ls | .ended ls => [ls]

/-- The worker has won the compare-exchange from `e` and has not finished the after-hook. -/
def Winner (c : Core n) (t : Fin n) (e : Nat) : Prop :=
  c.update t = .won e ∨ c.update t = .shifting e

/-- The stamps `f₀` and `f₁` that bound from below what sections announced at the previous and at the
current epoch have loaded. At rest they are `done_stamp` and `prev_stamp`; while a winner's hook is
pending they are the values it will leave there. -/
structure Floors (st : State n) (f₀ f₁ : Nat) : Prop where
  rest : (∀ t e, ¬ Winner st.core t e) → f₀ = st.doneStamp ∧ f₁ = st.prevStamp
  won : ∀ t e, st.core.update t = .won e → f₀ = st.prevStamp ∧ f₁ = st.currentStamp t
  shifting : ∀ t e, st.core.update t = .shifting e →
    f₀ = st.doneStamp ∧ f₁ = st.currentStamp t
  done_le : st.doneStamp ≤ f₀
  le : f₀ ≤ f₁
  le_stamp : f₁ ≤ st.stamp
  armed : ∀ t, st.core.update t = .armed st.core.currentEpoch →
    f₁ ≤ st.currentStamp t ∧ st.currentStamp t ≤ st.stamp
  loaded : ∀ t a, st.core.phase t = .inside a → ∀ v ∈ (st.snapshot t).stamps,
    f₀ ≤ v ∧ (a = st.core.currentEpoch → f₁ ≤ v)

/-- The invariant: workers update the epoch from inside their section, a winner's section is
announced at the epoch it has just left, there is at most one winner, and the floors exist. -/
structure Inv (st : State n) : Prop where
  core : st.core.Inv
  updating : ∀ t, st.core.update t ≠ .idle → ∃ a, st.core.phase t = .inside a
  body : ∀ t, (st.snapshot t).stamps ≠ [] → ∃ a, st.core.phase t = .inside a
  winner : ∀ t e, Winner st.core t e →
    st.core.phase t = .inside e ∧ st.core.currentEpoch = e + 1
  unique : ∀ t u e f, Winner st.core t e → Winner st.core u f → t = u
  floors : ∃ f₀ f₁, Floors st f₀ f₁

/-- The invariant holds initially. -/
theorem Inv.initial (stamp : Nat) : Inv (initial stamp : State n) where
  core := Core.Inv.initial
  updating := by simp [DoneStamp.initial, Core.initial]
  body := by simp [DoneStamp.initial, Snapshot.stamps]
  winner := by simp [DoneStamp.initial, Core.initial, Winner]
  unique := by simp [DoneStamp.initial, Core.initial, Winner]
  floors := ⟨stamp, stamp, by
    constructor <;> simp [DoneStamp.initial, Core.initial, Snapshot.stamps]⟩

/-- A rise of the clock preserves the invariant. -/
theorem Inv.tick {st : State n} (hinv : Inv st) {stamp : Nat} (h : st.stamp ≤ stamp) :
    Inv { st with stamp := stamp } := by
  obtain ⟨hcore, hup, hbody, hwin, huniq, f₀, f₁, hf⟩ := hinv
  refine ⟨hcore, hup, hbody, hwin, huniq, f₀, f₁, ?_⟩
  exact { hf with
    le_stamp := hf.le_stamp.trans h
    armed := fun t ht => ⟨(hf.armed t ht).1, (hf.armed t ht).2.trans h⟩ }

/-- Opening or closing a section preserves the invariant, as long as the snapshot of a section that
is open afterwards has loaded nothing and no update is under way in a section that closes. -/
theorem Inv.set_section {st : State n} {c' : Core n} {t : Fin n} {x : Snapshot} (hinv : Inv st)
    (hcore : c'.Inv) (hepoch : c'.currentEpoch = st.core.currentEpoch)
    (hupdate : c'.update = st.core.update) (hidle : st.core.update t = .idle)
    (hphase : ∀ u, u ≠ t → c'.phase u = st.core.phase u) (hx : x.stamps = []) :
    Inv { st with core := c', snapshot := Function.update st.snapshot t x } := by
  obtain ⟨_, hup, hbody, hwin, huniq, f₀, f₁, hf⟩ := hinv
  have hne : ∀ u e, Winner st.core u e → u ≠ t := by
    rintro u e hw rfl
    simp [Winner, hidle] at hw
  have hwinner : ∀ u e, Winner c' u e ↔ Winner st.core u e := by simp [Winner, hupdate]
  refine ⟨hcore, ?_, ?_, ?_, ?_, f₀, f₁, ?_⟩
  · intro u hu
    simp only [hupdate] at hu
    have hut : u ≠ t := by
      rintro rfl
      exact hu hidle
    simpa [hphase u hut] using hup u hu
  · intro u hu
    by_cases hut : u = t
    · subst hut
      simp [hx] at hu
    · simp only [Function.update_of_ne hut] at hu
      simpa [hphase u hut] using hbody u hu
  · intro u e hw
    have hw := (hwinner u e).mp hw
    simpa [hepoch, hphase u (hne u e hw)] using hwin u e hw
  · intro u v e f hu hv
    exact huniq u v e f ((hwinner u e).mp hu) ((hwinner v f).mp hv)
  · refine ⟨?_, ?_, ?_, hf.done_le, hf.le, hf.le_stamp, ?_, ?_⟩
    · intro hrest
      exact hf.rest fun u e hw => hrest u e ((hwinner u e).mpr hw)
    · simpa [hupdate] using hf.won
    · simpa [hupdate] using hf.shifting
    · simpa [hupdate, hepoch] using hf.armed
    · intro u a hu v hv
      by_cases hut : u = t
      · subst hut
        simp [hx] at hv
      · simp only [Function.update_of_ne hut] at hv
        simpa [hepoch] using hf.loaded u a (by simpa [hphase u hut] using hu) v hv

/-- A step inside the body of a snapshot preserves the invariant when every stamp it holds afterwards
was held before or is the clock's current stamp. -/
theorem Inv.set_snapshot {st : State n} {t : Fin n} {a : Nat} {x : Snapshot} (hinv : Inv st)
    (hopen : st.core.phase t = .inside a)
    (hx : ∀ v ∈ x.stamps, v = st.stamp ∨ v ∈ (st.snapshot t).stamps) :
    Inv (st.setSnapshot t x) := by
  obtain ⟨hcore, hup, hbody, hwin, huniq, f₀, f₁, hf⟩ := hinv
  refine ⟨hcore, hup, ?_, hwin, huniq, f₀, f₁, ?_⟩
  · intro u hu
    by_cases hut : u = t
    · subst hut
      exact ⟨a, hopen⟩
    · exact hbody u (by simpa [State.setSnapshot, hut] using hu)
  · refine { hf with loaded := fun u b hu v hv => ?_ }
    by_cases hut : u = t
    · subst hut
      simp only [State.setSnapshot, Function.update_self] at hv
      rcases hx v hv with rfl | hold
      · exact ⟨hf.le.trans hf.le_stamp, fun _ => hf.le_stamp⟩
      · exact hf.loaded u b hu v hold
    · exact hf.loaded u b hu v (by simpa [State.setSnapshot, hut] using hv)

/-- The positions of `update_epoch` in which the worker has neither sampled the clock nor won. -/
def Plain (x : Update) : Prop :=
  ∀ e, x ≠ .armed e ∧ x ≠ .won e ∧ x ≠ .shifting e

/-- A step of `update_epoch` that neither samples the clock nor wins nor runs an after-hook preserves
the invariant. -/
theorem Inv.set_plain {st : State n} {t : Fin n} {x : Update} (hinv : Inv st)
    (hcore : Core.Inv { st.core with update := Function.update st.core.update t x })
    (hopen : ∃ a, st.core.phase t = .inside a) (hold : ∀ e, ¬ Winner st.core t e)
    (hx : Plain x) :
    Inv { st with core := { st.core with update := Function.update st.core.update t x } } := by
  obtain ⟨_, hup, hbody, hwin, huniq, f₀, f₁, hf⟩ := hinv
  have hupdate : ∀ u, u ≠ t → Function.update st.core.update t x u = st.core.update u :=
    fun u hu => Function.update_of_ne hu _ _
  have hwinner : ∀ u e, Winner { st.core with update := Function.update st.core.update t x } u e ↔
      Winner st.core u e := by
    intro u e
    by_cases hu : u = t
    · subst hu
      simp [Winner, (hx e).2.1, (hx e).2.2, not_or.mp (hold e)]
    · simp [Winner, hupdate u hu]
  refine ⟨hcore, ?_, hbody, ?_, ?_, f₀, f₁, ⟨?_, ?_, ?_, hf.done_le, hf.le, hf.le_stamp, ?_, ?_⟩⟩
  · intro u hu
    by_cases hut : u = t
    · subst hut
      exact hopen
    · exact hup u (by simpa [hut] using hu)
  · intro u e hw
    exact hwin u e ((hwinner u e).mp hw)
  · intro u v e f hu hv
    exact huniq u v e f ((hwinner u e).mp hu) ((hwinner v f).mp hv)
  · intro hrest
    exact hf.rest fun u e hw => hrest u e ((hwinner u e).mpr hw)
  · intro u e hu
    by_cases hut : u = t
    · subst hut
      exact absurd (by simpa using hu) (hx e).2.1
    · exact hf.won u e (by simpa [hut] using hu)
  · intro u e hu
    by_cases hut : u = t
    · subst hut
      exact absurd (by simpa using hu) (hx e).2.2
    · exact hf.shifting u e (by simpa [hut] using hu)
  · intro u hu
    by_cases hut : u = t
    · subst hut
      exact absurd (by simpa using hu) (hx _).1
    · exact hf.armed u (by simpa [hut] using hu)
  · exact hf.loaded

/-- The before-hook preserves the invariant: the sample it takes is at least the current floor. -/
theorem Inv.before_hook {st : State n} {t : Fin n} {e : Nat} (hinv : Inv st)
    (hu : st.core.update t = .ready e)
    (hcore : Core.Inv { st.core with update := Function.update st.core.update t (.armed e) }) :
    Inv { st with
      core := { st.core with update := Function.update st.core.update t (.armed e) }
      currentStamp := Function.update st.currentStamp t st.stamp } := by
  obtain ⟨_, hup, hbody, hwin, huniq, f₀, f₁, hf⟩ := hinv
  have hwinner : ∀ u f, Winner { st.core with
      update := Function.update st.core.update t (.armed e) } u f ↔ Winner st.core u f := by
    intro u f
    by_cases hut : u = t
    · subst hut
      simp [Winner, hu]
    · simp [Winner, hut]
  refine ⟨hcore, ?_, hbody, ?_, ?_, f₀, f₁, ⟨?_, ?_, ?_, hf.done_le, hf.le, hf.le_stamp, ?_, ?_⟩⟩
  · intro u hne
    by_cases hut : u = t
    · subst hut
      exact hup u (by simp [hu])
    · exact hup u (by simpa [hut] using hne)
  · intro u f hw
    exact hwin u f ((hwinner u f).mp hw)
  · intro u v f g hw hv
    exact huniq u v f g ((hwinner u f).mp hw) ((hwinner v g).mp hv)
  · intro hrest
    exact hf.rest fun u f hw => hrest u f ((hwinner u f).mpr hw)
  · intro u f hw
    have hut : u ≠ t := by
      rintro rfl
      simp at hw
    simpa [hut] using hf.won u f (by simpa [hut] using hw)
  · intro u f hw
    have hut : u ≠ t := by
      rintro rfl
      simp at hw
    simpa [hut] using hf.shifting u f (by simpa [hut] using hw)
  · intro u ha
    by_cases hut : u = t
    · subst hut
      simpa using hf.le_stamp
    · simpa [hut] using hf.armed u (by simpa [hut] using ha)
  · exact hf.loaded

/-- Winning the compare-exchange preserves the invariant. Every open section is announced at the old
epoch, so no earlier winner's hook is pending, and the old current floor becomes the previous one. -/
theorem Inv.win {st : State n} {t : Fin n} (hinv : Inv st)
    (hu : st.core.update t = .armed st.core.currentEpoch)
    (hcore : Core.Inv { st.core with
      currentEpoch := st.core.currentEpoch + 1
      update := Function.update st.core.update t (.won st.core.currentEpoch) }) :
    Inv { st with
      core := { st.core with
        currentEpoch := st.core.currentEpoch + 1
        update := Function.update st.core.update t (.won st.core.currentEpoch) } } := by
  obtain ⟨hold, hup, hbody, hwin, huniq, f₀, f₁, hf⟩ := hinv
  have hpassed : ∀ u, st.core.Passed st.core.currentEpoch u := by
    have hok := hold.updates t
    rw [hu] at hok
    exact hok.2
  have hnone : ∀ u e, ¬ Winner st.core u e := by
    intro u e hw
    obtain ⟨hopen, hepoch⟩ := hwin u e hw
    have hle := hpassed u e hopen
    omega
  obtain ⟨rfl, rfl⟩ := hf.rest hnone
  obtain ⟨a, ha⟩ := hup t (by simp [hu])
  have hopen : st.core.phase t = .inside st.core.currentEpoch := by
    have hle := hpassed t a ha
    have hge := (hold.inside ha).2.1
    rwa [show a = st.core.currentEpoch by omega] at ha
  obtain ⟨hlow, hhigh⟩ := hf.armed t hu
  have hself : ∀ u e, Winner { st.core with
      currentEpoch := st.core.currentEpoch + 1
      update := Function.update st.core.update t (.won st.core.currentEpoch) } u e →
      u = t ∧ e = st.core.currentEpoch := by
    intro u e hw
    by_cases hut : u = t
    · subst hut
      simpa [Winner, eq_comm] using hw
    · exact absurd (by simpa [Winner, hut] using hw) (hnone u e)
  refine ⟨hcore, ?_, hbody, ?_, ?_, st.prevStamp, st.currentStamp t,
    ⟨?_, ?_, ?_, hf.le, hlow, hhigh, ?_, ?_⟩⟩
  · intro u hne
    by_cases hut : u = t
    · subst hut
      exact ⟨_, hopen⟩
    · exact hup u (by simpa [hut] using hne)
  · intro u e hw
    obtain ⟨rfl, rfl⟩ := hself u e hw
    exact ⟨hopen, rfl⟩
  · intro u v e f hw hv
    exact (hself u e hw).1.trans (hself v f hv).1.symm
  · intro hrest
    exact absurd (.inl (by simp)) (hrest t st.core.currentEpoch)
  · intro u e hw
    obtain ⟨rfl, rfl⟩ := hself u e (.inl hw)
    exact ⟨rfl, rfl⟩
  · intro u e hw
    obtain ⟨rfl, rfl⟩ := hself u e (.inr hw)
    simp at hw
  · intro u ha
    have hut : u ≠ t := by
      rintro rfl
      simp at ha
    have hok := hold.updates u
    simp only [Function.update_of_ne hut] at ha
    rw [ha] at hok
    exact absurd hok.1 (Nat.not_succ_le_self _)
  · intro u b hb v hv
    have hle := hpassed u b hb
    have hge := (hold.inside hb).2.1
    have hload := (hf.loaded u b hb v hv).2 (by omega)
    exact ⟨hload, fun hb' => by simp only at hb'; omega⟩

/-- The first assignment of the after-hook preserves the invariant. -/
theorem Inv.shift_done {st : State n} {t : Fin n} {e : Nat} (hinv : Inv st)
    (hu : st.core.update t = .won e)
    (hcore : Core.Inv { st.core with update := Function.update st.core.update t (.shifting e) }) :
    Inv { st with
      core := { st.core with update := Function.update st.core.update t (.shifting e) }
      doneStamp := st.prevStamp } := by
  obtain ⟨_, hup, hbody, hwin, huniq, f₀, f₁, hf⟩ := hinv
  obtain ⟨rfl, rfl⟩ := hf.won t e hu
  have hself : ∀ u f, Winner { st.core with
      update := Function.update st.core.update t (.shifting e) } u f → u = t ∧ f = e := by
    intro u f hw
    by_cases hut : u = t
    · subst hut
      simpa [Winner, eq_comm] using hw
    · exact absurd (huniq u t f e (by simpa [Winner, hut] using hw) (.inl hu)) hut
  refine ⟨hcore, ?_, hbody, ?_, ?_, st.prevStamp, st.currentStamp t,
    ⟨?_, ?_, ?_, le_rfl, hf.le, hf.le_stamp, ?_, hf.loaded⟩⟩
  · intro u hne
    by_cases hut : u = t
    · subst hut
      exact hup u (by simp [hu])
    · exact hup u (by simpa [hut] using hne)
  · intro u f hw
    obtain ⟨rfl, rfl⟩ := hself u f hw
    exact hwin u f (.inl hu)
  · intro u v f g hw hv
    exact (hself u f hw).1.trans (hself v g hv).1.symm
  · intro hrest
    exact absurd (.inr (by simp)) (hrest t e)
  · intro u f hw
    obtain ⟨rfl, rfl⟩ := hself u f (.inl hw)
    simp at hw
  · intro u f hw
    obtain ⟨rfl, rfl⟩ := hself u f (.inr hw)
    exact ⟨rfl, rfl⟩
  · intro u ha
    have hut : u ≠ t := by
      rintro rfl
      simp at ha
    exact hf.armed u (by simpa [hut] using ha)

/-- The second assignment of the after-hook preserves the invariant. -/
theorem Inv.shift_prev {st : State n} {t : Fin n} {e : Nat} (hinv : Inv st)
    (hu : st.core.update t = .shifting e)
    (hcore : Core.Inv { st.core with update := Function.update st.core.update t .idle }) :
    Inv { st with
      core := { st.core with update := Function.update st.core.update t .idle }
      prevStamp := st.currentStamp t } := by
  obtain ⟨_, hup, hbody, hwin, huniq, f₀, f₁, hf⟩ := hinv
  obtain ⟨rfl, rfl⟩ := hf.shifting t e hu
  have hnone : ∀ u f, ¬ Winner { st.core with
      update := Function.update st.core.update t .idle } u f := by
    intro u f hw
    by_cases hut : u = t
    · subst hut
      simp [Winner] at hw
    · exact hut (huniq u t f e (by simpa [Winner, hut] using hw) (.inr hu))
  refine ⟨hcore, ?_, hbody, ?_, ?_, st.doneStamp, st.currentStamp t,
    ⟨fun _ => ⟨rfl, rfl⟩, ?_, ?_, le_rfl, hf.le, hf.le_stamp, ?_, hf.loaded⟩⟩
  · intro u hne
    have hut : u ≠ t := by
      rintro rfl
      simp at hne
    exact hup u (by simpa [hut] using hne)
  · intro u f hw
    exact absurd hw (hnone u f)
  · intro u v f g hw _
    exact absurd hw (hnone u f)
  · intro u f hw
    exact absurd (.inl hw) (hnone u f)
  · intro u f hw
    exact absurd (.inr hw) (hnone u f)
  · intro u ha
    have hut : u ≠ t := by
      rintro rfl
      simp at ha
    exact hf.armed u (by simpa [hut] using ha)

/-- Every step of `update_epoch`, hooks included, preserves the invariant. -/
theorem Inv.updateEpoch {st : State n} {t : Fin n} (hinv : Inv st)
    (hopen : ∃ a, st.core.phase t = .inside a) : Inv (updateEpoch st t) := by
  have hcore := hinv.core.updateEpoch t
  have hnot : ∀ x, st.core.update t = x → (∀ e, x ≠ .won e ∧ x ≠ .shifting e) →
      ∀ e, ¬ Winner st.core t e := by
    rintro x rfl hx e (hw | hw)
    · exact (hx e).1 hw
    · exact (hx e).2 hw
  unfold DoneStamp.updateEpoch
  obtain ⟨hu, h⟩ | ⟨e, i, hin, hu, h⟩ | ⟨e, i, hu, h⟩ | ⟨e, i, hu, hin, h⟩ | ⟨e, hu, h⟩ | ⟨hu, h⟩ |
    ⟨e, hu, h⟩ | ⟨hu, h⟩ := st.core.updateEpoch_cases t <;> rw [h] at hcore ⊢
  · simp only [hu]
    exact hinv.set_plain hcore hopen (hnot _ hu (by simp)) (by simp [Plain])
  · rcases hu with ⟨hu, _⟩ | ⟨hu, _⟩ <;> simp only [hu] <;>
      exact hinv.set_plain hcore hopen (hnot _ hu (by simp)) (by simp [Plain])
  · simp only [hu]
    exact hinv.set_plain hcore hopen (hnot _ hu (by simp)) (by simp [Plain])
  · simp only [hu]
    exact hinv.set_plain hcore hopen (hnot _ hu (by simp)) (by simp [Plain])
  · simp only [hu]
    exact hinv.before_hook hu hcore
  · simp only [hu]
    exact hinv.win hu hcore
  · simp only [hu]
    exact hinv.shift_done hu hcore
  · -- The call ends: after the last assignment of the hook, or without having won.
    cases hx : st.core.update t with
    | idle => exact absurd hx hu
    | shifting e => exact hinv.shift_prev hx hcore
    | ready e =>
        rw [Core.updateEpoch, hx] at h
        have heq := congrFun (congrArg Core.update h) t
        simp at heq
    | won e =>
        rw [Core.updateEpoch, hx] at h
        have heq := congrFun (congrArg Core.update h) t
        simp at heq
    | scan e i | check e i | armed e =>
        exact hinv.set_plain hcore hopen (hnot _ hx (by simp)) (by simp [Plain])

/-- Every step preserves the invariant. -/
theorem Inv.step {st st' : State n} {act : Action n} {es : List Empty} (hinv : Inv st)
    (hstep : next act st = some (es, st')) : Inv st' := by
  cases act with
  | tick stamp =>
      simp only [next, Option.ite_none_right_eq_some, Option.some.injEq, Prod.mk.injEq] at hstep
      obtain ⟨hle, _, rfl⟩ := hstep
      exact hinv.tick hle
  | announce t =>
      simp only [next, Option.map_eq_some_iff, Prod.mk.injEq] at hstep
      obtain ⟨core, hcore, _, rfl⟩ := hstep
      obtain ⟨hepoch, hupdate, hphase, hout⟩ := Core.announce_frame hcore
      have hidle : st.core.update t = .idle := by
        by_contra hne
        obtain ⟨a, ha⟩ := hinv.updating t hne
        exact hout a ha
      have hx : (st.snapshot t).stamps = [] := by
        by_contra hne
        obtain ⟨a, ha⟩ := hinv.body t hne
        exact hout a ha
      have hset := hinv.set_section (hinv.core.announce hcore) hepoch hupdate hidle hphase hx
      rwa [Function.update_eq_self] at hset
  | unannounce t =>
      simp only [next] at hstep
      split at hstep
      case h_3 => cases hstep
      all_goals
        simp only [Option.map_eq_some_iff, Prod.mk.injEq] at hstep
        obtain ⟨core, hcore, _, rfl⟩ := hstep
        obtain ⟨hepoch, hupdate, hphase⟩ := Core.unannounce_frame hcore
        exact hinv.set_section (hinv.core.unannounce hcore) hepoch hupdate ‹_› hphase rfl
  | updateEpoch t =>
      simp only [next] at hstep
      split at hstep <;> cases hstep
      exact hinv.updateEpoch ⟨_, ‹_›⟩
  | getReadStamp t =>
      simp only [next] at hstep
      split at hstep
      case h_1 a hopen hs =>
        cases hstep
        exact hinv.set_snapshot hopen (by simp [Snapshot.stamps])
      case h_2 a seen hopen hs =>
        cases hstep
        exact hinv.set_snapshot hopen (by simp [Snapshot.stamps, hs])
      case h_3 => cases hstep
  | setLocalStamp t ls =>
      simp only [next] at hstep
      split at hstep
      case h_1 seen hs =>
        split at hstep <;> cases hstep
        have hseen : ls ∈ (st.snapshot t).stamps := by simpa [hs, Snapshot.stamps]
        obtain ⟨a, hopen⟩ := hinv.body t (List.ne_nil_of_mem hseen)
        exact hinv.set_snapshot hopen fun v hv => .inr (List.mem_singleton.mp hv ▸ hseen)
      case h_2 => cases hstep
  | endBody t =>
      simp only [next] at hstep
      split at hstep
      case h_1 ls hs =>
        cases hstep
        obtain ⟨a, hopen⟩ := hinv.body t (by simp [hs, Snapshot.stamps])
        exact hinv.set_snapshot hopen (by simp [hs, Snapshot.stamps])
      case h_2 => cases hstep

/-- The invariant holds in every reachable state. -/
theorem exec_inv {h : List Empty} {st : State n} (hexec : Exec (system n) h st) : Inv st := by
  refine Exec.invariant (P := fun _ st => Inv st) ?_ ?_ hexec
  · rintro st ⟨stamp, rfl⟩
    exact Inv.initial stamp
  · intro h st act es st' _ hinv hstep
    exact hinv.step hstep

/-- In every reachable state and for every worker between the assignment of `local_stamp` and its
`unannounce`, `done_stamp` is at most the stamp that was assigned. -/
theorem done_le_local_stamp {h : List Empty} {st : State n} (hexec : Exec (system n) h st)
    {t : Fin n} {ls : Nat} (ht : st.snapshot t = .holding ls ∨ st.snapshot t = .ended ls) :
    st.doneStamp ≤ ls := by
  have hinv := exec_inv hexec
  have hls : ls ∈ (st.snapshot t).stamps := by
    rcases ht with ht | ht <;> simp [ht, Snapshot.stamps]
  obtain ⟨a, hopen⟩ := hinv.body t (List.ne_nil_of_mem hls)
  obtain ⟨f₀, f₁, hf⟩ := hinv.floors
  exact hf.done_le.trans (hf.loaded t a hopen ls hls).1

/-- Two workers: while worker 0 holds the stamp 5, worker 1 runs `update_epoch` twice. Its first call
moves the epoch and shifts the stamps; its second is blocked by worker 0's announcement, so
`done_stamp` stays at most 5 although the clock is at 9. -/
theorem done_le_local_stamp_run :
    ∃ (h : List Empty) (st : State 2), Exec (system 2) h st ∧ st.snapshot 0 = .holding 5 ∧
      st.stamp = 9 ∧ st.core.currentEpoch = 1 ∧ st.prevStamp = 9 ∧ st.doneStamp ≤ 5 := by
  obtain ⟨st, hexec, hs, hstamp, hepoch, hprev⟩ : ∃ st, Exec (system 2) [] st ∧
      st.snapshot 0 = .holding 5 ∧ st.stamp = 9 ∧ st.core.currentEpoch = 1 ∧ st.prevStamp = 9 :=
    ⟨_, exec_of_run
      (List.flatten [[.tick 5], List.replicate 3 (.announce 0), [.getReadStamp 0, .setLocalStamp 0 5],
        List.replicate 3 (.announce 1), [.tick 9], List.replicate 10 (.updateEpoch 1),
        List.replicate 3 (.updateEpoch 1)]) ⟨1, rfl⟩ rfl,
      rfl, rfl, rfl, rfl⟩
  exact ⟨_, st, hexec, hs, hstamp, hepoch, hprev, done_le_local_stamp hexec (.inl hs)⟩

end Verlib.Epoch.DoneStamp
