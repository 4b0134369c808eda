import Verlib.Epoch.Core

/-!
# Epoch-based reclamation

The retire path of `mem_pool` over the epoch structure. Each worker keeps two lists of retired
objects and the epoch of its last rotation; `retire` calls `add_to_current_list`, which first runs
`advance_epoch`. `advance_epoch` loads the epoch twice, destructs the old list, rotates the lists and
may call `update_epoch`, with other workers moving in between. A second pool of the same worker
touches this one only through `update_epoch`, which may be called at any time, so one pool is enough.

`destruct_after_grace` is the bound that version chains rely on: an object retired in a section
announced at `a` is destructed only when the epoch is at least `a + 3`, and then every open section
is announced at `a + 2` or later.
-/

namespace Verlib.Epoch.Reclaim

open Interleaving

/-- A retired object in a worker's list (`Link`). The epoch at which the retiring section was
announced is recorded for the specification only; no step reads it. -/
structure Link (ω : Type) where
  value : ω
  skip : Bool
  announced : Nat

/-- A worker's lists and the epoch of its last rotation (`old_current`). -/
structure OldCurrent (ω : Type) where
  old : List (Link ω)
  current : List (Link ω)
  epoch : Nat

/-- Where a worker stands in `retire(p)`, called in a section announced at `a`: at the test of
`advance_epoch`, in `clear_list` with `todo` left to destruct, about to load the epoch after the
rotation, at the heuristic that decides whether to call `update_epoch`, inside that call, or about
to push the object. -/
inductive Control (ω : Type) where
  | idle
  | test (p : ω) (a : Nat)
  | clear (p : ω) (a : Nat) (todo : List (Link ω))
  | rotated (p : ω) (a : Nat)
  | heuristic (p : ω) (a : Nat)
  | updating (p : ω) (a : Nat)
  | push (p : ω) (a : Nat)

/-- The epoch structure, and every worker's lists and position. -/
structure State (n : Nat) (ω : Type) where
  core : Core n
  pools : Fin n → OldCurrent ω
  control : Fin n → Control ω

/-- What the scheduler chooses: a worker and the call it makes or continues. `advance t update`
continues a `retire`, with `update` the outcome of the heuristic. -/
inductive Action (n : Nat) (ω : Type) where
  | announce (t : Fin n)
  | unannounce (t : Fin n)
  | updateEpoch (t : Fin n)
  | retire (t : Fin n) (p : ω)
  | advance (t : Fin n) (update : Bool)

/-- A call of `retire(p)` in a section announced at `a`, and the destruction of such an object. -/
inductive Event (n : Nat) (ω : Type) where
  | retire (t : Fin n) (p : ω) (a : Nat)
  | destruct (t : Fin n) (p : ω) (a : Nat)

variable {n : Nat} {ω : Type}

/-- No section is open and every list is empty. -/
def initial : State n ω :=
  ⟨Core.initial, fun _ => ⟨[], [], 0⟩, fun _ => .idle⟩

/-- Worker `t` moves to a position of `retire`. -/
def State.goto (st : State n ω) (t : Fin n) (x : Control ω) : State n ω :=
  { st with control := Function.update st.control t x }

/-- Worker `t` stores into its lists. -/
def State.setPool (st : State n ω) (t : Fin n) (pid : OldCurrent ω) : State n ω :=
  { st with pools := Function.update st.pools t pid }

/-- One step of `clear_list`: the next link is destructed unless its retire was undone. -/
def clearList (t : Fin n) (l : Link ω) : List (Event n ω) :=
  if l.skip then [] else [.destruct t l.value l.announced]

/-- One atomic step of `add_to_current_list` and the `advance_epoch` in it. -/
def advanceEpoch (st : State n ω) (t : Fin n) (update : Bool) :
    Option (List (Event n ω) × State n ω) :=
  let pid := st.pools t
  match st.control t with
  | .idle => none
  | .test p a =>
      if pid.epoch + 1 < st.core.currentEpoch then
        some ([], st.goto t (.clear p a pid.old))
      else
        some ([], st.goto t (.heuristic p a))
  | .clear p a (l :: todo) => some (clearList t l, st.goto t (.clear p a todo))
  | .clear p a [] =>
      some ([], (st.setPool t { pid with old := pid.current, current := [] }).goto t (.rotated p a))
  | .rotated p a =>
      some ([], (st.setPool t { pid with epoch := st.core.currentEpoch }).goto t (.heuristic p a))
  | .heuristic p a =>
      if update then
        some ([], { st with core := st.core.updateEpoch t }.goto t (.updating p a))
      else
        some ([], st.goto t (.push p a))
  | .updating p a =>
      match st.core.update t with
      | .idle => some ([], st.goto t (.push p a))
      | _ => some ([], { st with core := st.core.updateEpoch t })
  | .push p a =>
      some ([], (st.setPool t { pid with current := ⟨p, false, a⟩ :: pid.current }).goto t .idle)

/-- Worker `t` is between calls. -/
def State.Free (st : State n ω) (t : Fin n) : Prop :=
  match st.control t, st.core.update t with
  | .idle, .idle => True
  | _, _ => False

instance (st : State n ω) (t : Fin n) : Decidable (st.Free t) := by
  unfold State.Free
  split <;> infer_instance

/-- The next state, if the action is possible. Sections are opened and closed between calls,
`retire` is called inside a section, and `update_epoch` may be called inside or outside one. -/
def next : Action n ω → State n ω → Option (List (Event n ω) × State n ω)
  | .announce t, st =>
      if st.Free t then (st.core.announce t).map fun core => ([], { st with core := core })
      else none
  | .unannounce t, st =>
      if st.Free t then (st.core.unannounce t).map fun core => ([], { st with core := core })
      else none
  | .updateEpoch t, st =>
      match st.control t with
      | .idle => some ([], { st with core := st.core.updateEpoch t })
      | _ => none
  | .retire t p, st =>
      match st.core.phase t with
      | .inside a => if st.Free t then some ([.retire t p a], st.goto t (.test p a)) else none
      | _ => none
  | .advance t update, st => advanceEpoch st t update

/-- Any number of workers opening and closing sections, retiring objects and updating the epoch. -/
def system (n : Nat) (ω : Type) : System (State n ω) (Action n ω) (Event n ω) :=
  System.ofNext (fun st => st = initial) next

/-! ## The invariant -/

/-- A list entry records an object that worker `t` retired in a section announced at most at `b`. -/
def Recorded (h : List (Event n ω)) (t : Fin n) (b : Nat) (ls : List (Link ω)) : Prop :=
  ∀ l ∈ ls, l.announced ≤ b ∧ .retire t l.value l.announced ∈ h

/-- The two lists of a worker at rest: objects of the current list were retired in sections announced
at most one epoch after the last rotation, objects of the old list before it. -/
structure Lists (h : List (Event n ω)) (t : Fin n) (pid : OldCurrent ω) : Prop where
  current : Recorded h t (pid.epoch + 1) pid.current
  old : ∀ l ∈ pid.old, l.announced + 1 ≤ pid.epoch ∧ .retire t l.value l.announced ∈ h

/-- What worker `t`'s position in `retire` says about its lists. While it retires, its section stays
open. From the test to the end of `clear_list` the counter is at least two above the last rotation,
so what was in the old list is three epochs old. -/
def PoolOk (h : List (Event n ω)) (c : Core n) (t : Fin n) (pid : OldCurrent ω) :
    Control ω → Prop
  | .idle => Lists h t pid
  | .test p a => Lists h t pid ∧ c.phase t = .inside a ∧ .retire t p a ∈ h
  | .clear p a todo =>
      Lists h t pid ∧ c.phase t = .inside a ∧ .retire t p a ∈ h ∧
        pid.epoch + 1 < c.currentEpoch ∧
        ∀ l ∈ todo, l.announced + 3 ≤ c.currentEpoch ∧ .retire t l.value l.announced ∈ h
  | .rotated p a =>
      pid.current = [] ∧ c.phase t = .inside a ∧ .retire t p a ∈ h ∧
        ∀ l ∈ pid.old, l.announced + 1 ≤ c.currentEpoch ∧ .retire t l.value l.announced ∈ h
  | .heuristic p a | .updating p a | .push p a =>
      Lists h t pid ∧ c.phase t = .inside a ∧ .retire t p a ∈ h ∧ a ≤ pid.epoch + 1

/-- The invariant of the reclamation system. -/
structure Inv (h : List (Event n ω)) (st : State n ω) : Prop where
  core : st.core.Inv
  pools : ∀ t, PoolOk h st.core t (st.pools t) (st.control t)

/-- Lists stay right when the history grows. -/
theorem Lists.mono {h es : List (Event n ω)} {t : Fin n} {pid : OldCurrent ω}
    (hl : Lists h t pid) : Lists (h ++ es) t pid where
  current l hmem := ⟨(hl.current l hmem).1, List.mem_append_left _ (hl.current l hmem).2⟩
  old l hmem := ⟨(hl.old l hmem).1, List.mem_append_left _ (hl.old l hmem).2⟩

/-- A worker's facts survive any step that keeps its phase and does not lower the counter. -/
theorem PoolOk.mono {h es : List (Event n ω)} {c c' : Core n} {t : Fin n} {pid : OldCurrent ω}
    {x : Control ω} (hok : PoolOk h c t pid x) (hepoch : c.currentEpoch ≤ c'.currentEpoch)
    (hphase : c'.phase t = c.phase t) : PoolOk (h ++ es) c' t pid x := by
  cases x with
  | idle => exact Lists.mono hok
  | test p a =>
      obtain ⟨hl, hp, hr⟩ := hok
      exact ⟨hl.mono, hphase.trans hp, List.mem_append_left _ hr⟩
  | clear p a todo =>
      obtain ⟨hl, hp, hr, he, htodo⟩ := hok
      refine ⟨hl.mono, hphase.trans hp, List.mem_append_left _ hr, he.trans_le hepoch, ?_⟩
      intro l hmem
      exact ⟨(htodo l hmem).1.trans hepoch, List.mem_append_left _ (htodo l hmem).2⟩
  | rotated p a =>
      obtain ⟨hc, hp, hr, hold⟩ := hok
      refine ⟨hc, hphase.trans hp, List.mem_append_left _ hr, fun l hmem => ?_⟩
      exact ⟨(hold l hmem).1.trans hepoch, List.mem_append_left _ (hold l hmem).2⟩
  | heuristic p a | updating p a | push p a =>
      obtain ⟨hl, hp, hr, ha⟩ := hok
      exact ⟨hl.mono, hphase.trans hp, List.mem_append_left _ hr, ha⟩

/-- A worker at rest keeps its facts whatever happens to its section. -/
theorem PoolOk.of_idle {h es : List (Event n ω)} {c c' : Core n} {t : Fin n} {pid : OldCurrent ω}
    (hok : PoolOk h c t pid .idle) : PoolOk (h ++ es) c' t pid .idle :=
  Lists.mono hok

/-- The invariant holds initially. -/
theorem Inv.initial : Inv [] (initial : State n ω) where
  core := Core.Inv.initial
  pools _ := ⟨by simp [Recorded, Reclaim.initial], by simp [Reclaim.initial]⟩

/-- A step of worker `t` that stores its own lists and position, and leaves the sections of the
others alone, preserves the invariant if `t`'s new facts hold. -/
theorem Inv.set {h es : List (Event n ω)} {st : State n ω} {c' : Core n} {t : Fin n}
    {pid : OldCurrent ω} {x : Control ω} (hinv : Inv h st) (hcore : c'.Inv)
    (hepoch : st.core.currentEpoch ≤ c'.currentEpoch)
    (hphase : ∀ u, u ≠ t → c'.phase u = st.core.phase u)
    (hown : PoolOk (h ++ es) c' t pid x) :
    Inv (h ++ es) ⟨c', Function.update st.pools t pid, Function.update st.control t x⟩ := by
  refine ⟨hcore, fun u => ?_⟩
  by_cases hu : u = t
  · subst hu
    simpa using hown
  · simpa [hu] using (hinv.pools u).mono hepoch (hphase u hu)

/-- `set` for a step that leaves the epoch structure alone. -/
theorem Inv.set_own {h es : List (Event n ω)} {st : State n ω} {t : Fin n}
    {pid : OldCurrent ω} {x : Control ω} (hinv : Inv h st)
    (hown : PoolOk (h ++ es) st.core t pid x) :
    Inv (h ++ es) ⟨st.core, Function.update st.pools t pid, Function.update st.control t x⟩ :=
  hinv.set hinv.core le_rfl (fun _ _ => rfl) hown

/-- `set_own` for a step that also leaves the lists alone. -/
theorem Inv.goto {h es : List (Event n ω)} {st : State n ω} {t : Fin n} {x : Control ω}
    (hinv : Inv h st) (hown : PoolOk (h ++ es) st.core t (st.pools t) x) :
    Inv (h ++ es) (st.goto t x) := by
  have hset := hinv.set_own hown
  rwa [Function.update_eq_self] at hset

/-- A step of `retire` preserves the invariant, and an object it destructs was retired by this worker
in a section announced at least three epochs ago. -/
theorem Inv.advanceEpoch {h es : List (Event n ω)} {st st' : State n ω} {t : Fin n} {update : Bool}
    (hinv : Inv h st) (hstep : advanceEpoch st t update = some (es, st')) :
    Inv (h ++ es) st' ∧ ∀ u p a, .destruct u p a ∈ es →
      .retire u p a ∈ h ∧ a + 3 ≤ st.core.currentEpoch := by
  have hown := hinv.pools t
  unfold Reclaim.advanceEpoch at hstep
  simp only at hstep
  split at hstep
  case h_1 => cases hstep
  case h_2 p a hc =>
    rw [hc] at hown
    obtain ⟨hl, hp, hr⟩ := hown
    have ha := (hinv.core.inside hp).2.1
    split at hstep <;> cases hstep
    · refine ⟨hinv.goto ⟨hl.mono, hp, List.mem_append_left _ hr, ‹_›, fun l hmem => ?_⟩, by simp⟩
      obtain ⟨hle, hret⟩ := hl.old l hmem
      exact ⟨by omega, List.mem_append_left _ hret⟩
    · exact ⟨hinv.goto ⟨hl.mono, hp, List.mem_append_left _ hr, by omega⟩, by simp⟩
  case h_3 p a l todo hc =>
    rw [hc] at hown
    obtain ⟨hl, hp, hr, he, htodo⟩ := hown
    cases hstep
    refine ⟨hinv.goto ⟨hl.mono, hp, List.mem_append_left _ hr, he, fun l' hmem => ?_⟩, ?_⟩
    · obtain ⟨hle, hret⟩ := htodo l' (List.mem_cons_of_mem _ hmem)
      exact ⟨hle, List.mem_append_left _ hret⟩
    · intro u q b hmem
      obtain ⟨hle, hret⟩ := htodo l List.mem_cons_self
      unfold clearList at hmem
      split at hmem <;> simp only [List.not_mem_nil, List.mem_singleton, Event.destruct.injEq] at hmem
      obtain ⟨rfl, rfl, rfl⟩ := hmem
      exact ⟨hret, hle⟩
  case h_4 p a hc =>
    rw [hc] at hown
    obtain ⟨hl, hp, hr, he, _⟩ := hown
    cases hstep
    refine ⟨hinv.set_own ⟨rfl, hp, List.mem_append_left _ hr, fun l hmem => ?_⟩, by simp⟩
    obtain ⟨hle, hret⟩ := hl.current l hmem
    exact ⟨by omega, List.mem_append_left _ hret⟩
  case h_5 p a hc =>
    rw [hc] at hown
    obtain ⟨hcur, hp, hr, hold⟩ := hown
    have ha := (hinv.core.inside hp).2.1
    cases hstep
    refine ⟨hinv.set_own ⟨⟨?_, fun l hmem => ?_⟩, hp, List.mem_append_left _ hr,
      Nat.le_succ_of_le ha⟩, by simp⟩
    · simp [Recorded, hcur]
    · exact ⟨(hold l hmem).1, List.mem_append_left _ (hold l hmem).2⟩
  case h_6 p a hc =>
    rw [hc] at hown
    obtain ⟨hl, hp, hr, ha⟩ := hown
    split at hstep <;> cases hstep
    · have hset : Inv (h ++ []) ⟨st.core.updateEpoch t, Function.update st.pools t (st.pools t),
          Function.update st.control t (.updating p a)⟩ :=
        hinv.set (hinv.core.updateEpoch t) (st.core.le_updateEpoch t) (by simp)
          ⟨hl.mono, by simpa using hp, List.mem_append_left _ hr, ha⟩
      rw [Function.update_eq_self] at hset
      exact ⟨hset, by simp⟩
    · exact ⟨hinv.goto ⟨hl.mono, hp, List.mem_append_left _ hr, ha⟩, by simp⟩
  case h_7 p a hc =>
    rw [hc] at hown
    obtain ⟨hl, hp, hr, ha⟩ := hown
    split at hstep <;> cases hstep
    · exact ⟨hinv.goto ⟨hl.mono, hp, List.mem_append_left _ hr, ha⟩, by simp⟩
    · refine ⟨⟨hinv.core.updateEpoch t, fun u => ?_⟩, by simp⟩
      exact (hinv.pools u).mono (st.core.le_updateEpoch t) (by simp)
  case h_8 p a hc =>
    rw [hc] at hown
    obtain ⟨hl, hp, hr, ha⟩ := hown
    cases hstep
    refine ⟨hinv.set_own ⟨?_, hl.mono.old⟩, by simp⟩
    intro l hmem
    rcases List.mem_cons.mp hmem with rfl | hmem
    · exact ⟨ha, List.mem_append_left _ hr⟩
    · exact hl.mono.current l hmem

/-- A free worker is not retiring. -/
theorem State.Free.control_eq {st : State n ω} {t : Fin n} (h : st.Free t) :
    st.control t = .idle := by
  unfold State.Free at h
  split at h
  · assumption
  · exact h.elim

/-- A change of the epoch structure by a free worker `t` that leaves the other sections alone
preserves the invariant. -/
theorem Inv.set_core {h : List (Event n ω)} {st : State n ω} {c' : Core n} {t : Fin n}
    (hinv : Inv h st) (hfree : st.Free t) (hcore : c'.Inv)
    (hepoch : c'.currentEpoch = st.core.currentEpoch)
    (hphase : ∀ u, u ≠ t → c'.phase u = st.core.phase u) :
    Inv (h ++ []) { st with core := c' } := by
  refine ⟨hcore, fun u => ?_⟩
  by_cases hu : u = t
  · subst hu
    have hown := hinv.pools u
    rw [hfree.control_eq] at hown
    show PoolOk (h ++ []) c' u (st.pools u) (st.control u)
    rw [hfree.control_eq]
    exact hown.of_idle
  · exact (hinv.pools u).mono hepoch.ge (hphase u hu)

/-- Every step preserves the invariant, and an object it destructs was retired in a section announced
at least three epochs ago. -/
theorem Inv.step {h es : List (Event n ω)} {st st' : State n ω} {act : Action n ω}
    (hinv : Inv h st) (hstep : next act st = some (es, st')) :
    Inv (h ++ es) st' ∧ ∀ u p a, .destruct u p a ∈ es →
      .retire u p a ∈ h ∧ a + 3 ≤ st.core.currentEpoch := by
  cases act with
  | announce t =>
      simp only [next, Option.ite_none_right_eq_some, Option.map_eq_some_iff, Prod.mk.injEq] at hstep
      obtain ⟨hfree, core, hcore, rfl, rfl⟩ := hstep
      obtain ⟨hepoch, _, hphase, _⟩ := Core.announce_frame hcore
      exact ⟨hinv.set_core hfree (hinv.core.announce hcore) hepoch hphase, by simp⟩
  | unannounce t =>
      simp only [next, Option.ite_none_right_eq_some, Option.map_eq_some_iff, Prod.mk.injEq] at hstep
      obtain ⟨hfree, core, hcore, rfl, rfl⟩ := hstep
      obtain ⟨hepoch, _, hphase⟩ := Core.unannounce_frame hcore
      exact ⟨hinv.set_core hfree (hinv.core.unannounce hcore) hepoch hphase, by simp⟩
  | updateEpoch t =>
      simp only [next] at hstep
      split at hstep <;> cases hstep
      refine ⟨⟨hinv.core.updateEpoch t, fun u => ?_⟩, by simp⟩
      exact (hinv.pools u).mono (st.core.le_updateEpoch t) (by simp)
  | retire t p =>
      simp only [next] at hstep
      split at hstep
      case h_1 a hp =>
        split at hstep <;> cases hstep
        have hown := hinv.pools t
        rw [State.Free.control_eq ‹_›] at hown
        exact ⟨hinv.goto ⟨Lists.mono hown, hp, by simp⟩, by simp⟩
      case h_2 => cases hstep
  | advance t update => exact hinv.advanceEpoch hstep

/-- The invariant holds along every execution. -/
theorem exec_inv {h : List (Event n ω)} {st : State n ω} (hexec : Exec (system n ω) h st) :
    Inv h st := by
  refine Exec.invariant ?_ ?_ hexec
  · rintro st rfl
    exact Inv.initial
  · intro h st act es st' _ hinv hstep
    exact (hinv.step hstep).1

/-- Whenever `clear_list` destructs an object, it was retired by the same worker in a section
announced at some `a`, the epoch is at least `a + 3`, and no worker is still inside a section whose
announced epoch is at most `a + 1`. -/
theorem destruct_after_grace {h es : List (Event n ω)} {st st' : State n ω} {act : Action n ω}
    (hexec : Exec (system n ω) h st) (hstep : (system n ω).Step st act es st')
    {t : Fin n} {p : ω} {a : Nat} (hdestruct : .destruct t p a ∈ es) :
    .retire t p a ∈ h ∧ a + 3 ≤ st.core.currentEpoch ∧
      ∀ u b, st.core.phase u = .inside b → ¬ b ≤ a + 1 := by
  have hinv := exec_inv hexec
  obtain ⟨hret, hepoch⟩ := (hinv.step hstep).2 t p a hdestruct
  refine ⟨hret, hepoch, fun u b hb hle => ?_⟩
  have hopen := (hinv.core.inside hb).2.2
  omega

/-- One worker opens a section and runs one `retire` up to its first destruction or its end. -/
def retireOnce (p steps : Nat) : List (Action 1 Nat) :=
  List.replicate 3 (.announce 0) ++ .retire 0 p :: List.replicate steps (.advance 0 false)

/-- One worker alone runs `update_epoch` outside a section, which moves the epoch by one. -/
def updateOnce : List (Action 1 Nat) :=
  List.replicate 7 (.updateEpoch 0)

/-- A run in which the bound is tight: object 7 is retired in a section announced at epoch 1 and
destructed at epoch 4, two rotations later. -/
theorem destruct_after_grace_run :
    ∃ (h : List (Event 1 Nat)) (st st' : State 1 Nat) (es : List (Event 1 Nat)),
      Exec (system 1 Nat) h st ∧ (system 1 Nat).Step st (.advance 0 false) es st' ∧
      .destruct 0 7 1 ∈ es ∧ st.core.currentEpoch = 4 ∧ .retire 0 7 1 ∈ h := by
  obtain ⟨st, hexec, st', hstep, hepoch⟩ : ∃ st,
      Exec (system 1 Nat) [.retire 0 7 1, .retire 0 8 2, .retire 0 9 4] st ∧ ∃ st',
      next (.advance 0 false) st = some ([.destruct 0 7 1], st') ∧ st.core.currentEpoch = 4 :=
    ⟨_, exec_of_run
      (List.flatten [updateOnce, retireOnce 7 3, [.unannounce 0], updateOnce, retireOnce 8 5,
        [.unannounce 0], updateOnce, updateOnce, retireOnce 9 1]) rfl rfl,
      _, rfl, rfl⟩
  exact ⟨_, st, st', _, hexec, hstep, List.mem_cons_self, hepoch,
    (destruct_after_grace hexec hstep List.mem_cons_self).1⟩

end Verlib.Epoch.Reclaim
