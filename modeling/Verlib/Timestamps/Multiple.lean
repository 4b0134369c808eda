import Verlib.Counters.Collect
import Verlib.Timestamps.Contract

/-!
# The clock `timestamp_multiple`

The clock is the sum of several counters. `get_write_stamp` loads them one after the other, so what it returns may never
have been the sum. `get_read_stamp` collects the sum, loads the counter of its own thread, collects the sum again, and
if it is the same, tries to move its counter with a compare-and-swap; if the sum has changed or the swap fails, somebody
else has moved the clock. `multiple_stamps_ordered` says that the clock satisfies the contract all the same.
-/

namespace Verlib.Timestamps.Multiple

open Interleaving Counters

/-- The number of counters; `gap` only keeps them apart in the memory. -/
def slots : Nat := 4

/-- Where a call stands: before its first load, in its first collect, before the load of its own counter, in its second
collect, or before the compare-and-swap. -/
inductive Control where
  | idle
  | collect (i total : Nat)
  | own (ts : Nat)
  | again (ts tsl i total : Nat)
  | swap (ts tsl : Nat)
  | done (v : Nat)
  deriving DecidableEq

/-- A turn of the loop of `get_write_stamp`: the next position in the loop, or the result. -/
def turn (stamps : Nat → Nat) (i total : Nat) : Nat × Nat ⊕ Nat :=
  if i + 1 < slots then .inl (i + 1, total + stamps i) else .inr (total + stamps i)

/-- The result of the first collect. -/
def collected : Kind → Nat → Control
  | .write, ts => .done ts
  | .read, ts => .own ts

/-- The first collect of a call. -/
def collect (kind : Kind) (stamps : Nat → Nat) (i total : Nat) : Control :=
  match turn stamps i total with
  | .inl r => .collect r.1 r.2
  | .inr ts => collected kind ts

/-- The second collect of a `get_read_stamp`. -/
def again (stamps : Nat → Nat) (ts tsl i total : Nat) : Control :=
  match turn stamps i total with
  | .inl r => .again ts tsl r.1 r.2
  | .inr total => if ts = total then .swap ts tsl else .done ts

/-- The step of a call whose thread has the counter `own`: the counters and the next position. -/
def program (kind : Kind) (own : Nat) (stamps : Nat → Nat) : Control → Option ((Nat → Nat) × Control)
  | .idle => some (stamps, collect kind stamps 0 0)
  | .collect i total => some (stamps, collect kind stamps i total)
  | .own ts => some (stamps, .again ts (stamps own) 0 0)
  | .again ts tsl i total => some (stamps, again stamps ts tsl i total)
  | .swap ts tsl =>
      some (if stamps own = tsl then Function.update stamps own (stamps own + 1) else stamps, .done ts)
  | .done _ => none

variable {ι : Type}

/-- The counters and the position of every call. -/
structure State (ι : Type) where
  stamps : Nat → Nat
  control : ι → Control

/-- The constructor: every counter is 1. -/
def initial : State ι := ⟨fun _ => 1, fun _ => .idle⟩

/-- The events of a step. -/
def events (c : ι) (before after : Control) : List (Event ι) :=
  (if before = .idle then [.call c] else []) ++
    match after with
    | .done v => [.ret c v]
    | _ => []

/-- Call `c`, whose thread has the number `worker c`, takes its next step. -/
def next [DecidableEq ι] (kind : ι → Kind) (worker : ι → Nat) (c : ι) (st : State ι) :
    Option (List (Event ι) × State ι) := do
  let (stamps, control) ← program (kind c) (worker c % slots) st.stamps (st.control c)
  pure (events c (st.control c) control, ⟨stamps, Function.update st.control c control⟩)

/-- Any set of calls of the two functions. -/
def system [DecidableEq ι] (kind : ι → Kind) (worker : ι → Nat) : System (State ι) ι (Event ι) :=
  System.ofNext (fun st => st = initial) (next kind worker)

/-! ## The invariant -/

/-- The stamps that were returned before the call `c` are at most `v`, and less if they are read stamps. -/
def Floor (kind : ι → Kind) (h : List (Event ι)) (c : ι) (v : Nat) : Prop :=
  ∀ c' r, Before h (.ret c' r) (.call c) → r ≤ v ∧ (kind c' = .read → r < v)

/-- A reader has collected `ts`. -/
structure Read (kind : ι → Kind) (h : List (Event ι)) (stamps : Nat → Nat) (c : ι) (ts : Nat) : Prop where
  read : kind c = .read
  floor : Floor kind h c ts
  le : ts ≤ sum stamps slots

/-- Since a reader has loaded its own counter, the sum has grown as much as this counter. -/
structure Loaded (stamps : Nat → Nat) (own ts tsl : Nat) : Prop where
  le : tsl ≤ stamps own
  grown : ts + stamps own ≤ sum stamps slots + tsl

/-- What holds at each position of a call. -/
def At (kind : ι → Kind) (h : List (Event ι)) (stamps : Nat → Nat) (c : ι) (own : Nat) : Control → Prop
  | .idle => .call c ∉ h
  | .collect i total => i < slots ∧ ∃ floor, Floor kind h c floor ∧ Collecting stamps slots i total floor
  | .own ts => Read kind h stamps c ts
  | .again ts tsl i total =>
      i < slots ∧ Read kind h stamps c ts ∧ Loaded stamps own ts tsl ∧ Collecting stamps slots i total ts
  | .swap ts tsl => Read kind h stamps c ts ∧ Loaded stamps own ts tsl
  | .done v => Floor kind h c v ∧ v ≤ sum stamps slots ∧ (kind c = .read → v < sum stamps slots)

/-- The invariant of the clock. -/
structure Inv (kind : ι → Kind) (worker : ι → Nat) (h : List (Event ι)) (st : State ι) : Prop where
  ended : ∀ c v, .ret c v ∈ h → st.control c = .done v
  position : ∀ c, At kind h st.stamps c (worker c % slots) (st.control c)

section

variable {kind : ι → Kind} {worker : ι → Nat} {h es : List (Event ι)} {x y : Nat → Nat} {c : ι}
  {own i total ts floor v : Nat} {control : Control}

theorem own_lt (n : Nat) : n % slots < slots := Nat.mod_lt n (by decide)

theorem Inv.initial : Inv kind worker [] (initial : State ι) := by
  refine ⟨fun c v hmem => absurd hmem List.not_mem_nil, fun c => ?_⟩
  show Event.call c ∉ []
  exact List.not_mem_nil

theorem Floor.append (hfloor : Floor kind h c v) (hes : .call c ∉ es) : Floor kind (h ++ es) c v :=
  fun c' r hb => hfloor c' r ((before_append_of_not_mem hes).mp hb)

theorem Read.mono (hr : Read kind h x c ts) (hxy : ∀ j, x j ≤ y j) (hes : .call c ∉ es) :
    Read kind (h ++ es) y c ts :=
  ⟨hr.read, hr.floor.append hes, hr.le.trans (sum_mono hxy)⟩

theorem Loaded.mono {tsl : Nat} (hl : Loaded x own ts tsl) (hxy : ∀ j, x j ≤ y j) (hown : own < slots) :
    Loaded y own ts tsl := by
  have hgrows := counter_grows hxy hown
  have hle := hxy own
  obtain ⟨htsl, hgrown⟩ := hl
  exact ⟨by omega, by omega⟩

/-- What holds at a position survives the steps of the others. -/
theorem At.mono (hat : At kind h x c own control) (hxy : ∀ j, x j ≤ y j) (hown : own < slots)
    (hes : .call c ∉ es) : At kind (h ++ es) y c own control := by
  cases control with
  | idle =>
      intro hmem
      cases List.mem_append.mp hmem with
      | inl hold => exact hat hold
      | inr hnew => exact hes hnew
  | collect i total =>
      obtain ⟨hi, floor, hfloor, hcollect⟩ := hat
      exact ⟨hi, floor, hfloor.append hes, hcollect.mono hxy⟩
  | own ts => exact Read.mono hat hxy hes
  | again ts tsl i total =>
      obtain ⟨hi, hread, hloaded, hcollect⟩ := hat
      exact ⟨hi, hread.mono hxy hes, hloaded.mono hxy hown, hcollect.mono hxy⟩
  | swap ts tsl =>
      obtain ⟨hread, hloaded⟩ := hat
      exact ⟨hread.mono hxy hes, hloaded.mono hxy hown⟩
  | done v =>
      obtain ⟨hfloor, hle, hlt⟩ := hat
      exact ⟨hfloor.append hes, hle.trans (sum_mono hxy), fun hread => (hlt hread).trans_le (sum_mono hxy)⟩

/-- A turn of a collect goes on, or ends with a sum that lies between the first and the last one. -/
theorem turn_spec (hi : i < slots) (hcollect : Collecting x slots i total floor) :
    (∃ total', turn x i total = .inl (i + 1, total') ∧ i + 1 < slots ∧ Collecting x slots (i + 1) total' floor) ∨
      ∃ v, turn x i total = .inr v ∧ floor ≤ v ∧ v ≤ sum x slots := by
  have hload := hcollect.load hi
  unfold turn
  split
  next hlt => exact .inl ⟨_, rfl, hlt, hload⟩
  next hge =>
      have hend : i + 1 = slots := by omega
      rw [hend] at hload
      exact .inr ⟨_, rfl, hload.finish⟩

/-- A turn of the first collect. -/
theorem collect_spec (hi : i < slots) (hfloor : Floor kind h c floor) (hcollect : Collecting x slots i total floor) :
    At kind h x c own (collect (kind c) x i total) := by
  unfold collect
  obtain ⟨total', heq, hlt, hload⟩ | ⟨ts, heq, hge, hle⟩ := turn_spec hi hcollect
  · rw [heq]
    exact ⟨hlt, floor, hfloor, hload⟩
  · have hts : Floor kind h c ts := fun c' r hb =>
      ⟨(hfloor c' r hb).1.trans hge, fun hread => ((hfloor c' r hb).2 hread).trans_le hge⟩
    rw [heq]
    cases hkind : kind c with
    | read => exact ⟨hkind, hts, hle⟩
    | write =>
        refine ⟨hts, hle, fun hread => ?_⟩
        rw [hkind] at hread
        cases hread

/-- A turn of the second collect: if the sum has changed, it is larger than the stamp. -/
theorem again_spec {tsl : Nat} (hi : i < slots) (hread : Read kind h x c ts) (hloaded : Loaded x own ts tsl)
    (hcollect : Collecting x slots i total ts) : At kind h x c own (again x ts tsl i total) := by
  unfold again
  obtain ⟨total', heq, hlt, hload⟩ | ⟨v, heq, hge, hle⟩ := turn_spec hi hcollect
  · rw [heq]
    exact ⟨hlt, hread, hloaded, hload⟩
  · rw [heq]
    show At kind h x c own (if ts = v then .swap ts tsl else .done ts)
    split
    next => exact ⟨hread, hloaded⟩
    next hne => exact ⟨hread.floor, hread.le, fun _ => by omega⟩

/-- The compare-and-swap: it moves the clock, or somebody has moved the counter. -/
theorem swap_spec {tsl : Nat} (hown : own < slots) (hread : Read kind h x c ts) (hloaded : Loaded x own ts tsl) :
    let y := if x own = tsl then Function.update x own (x own + 1) else x
    (∀ j, x j ≤ y j) ∧ At kind h y c own (.done ts) := by
  obtain ⟨hle, hgrown⟩ := hloaded
  have hts := hread.le
  show (∀ j, x j ≤ (if x own = tsl then Function.update x own (x own + 1) else x) j) ∧ _
  split
  next =>
      have hsum : sum (Function.update x own (x own + 1)) slots = sum x slots + 1 := sum_update hown
      refine ⟨fun j => ?_, hread.floor, by omega, fun _ => by omega⟩
      by_cases hj : j = own
      · rw [hj, Function.update_self]
        exact Nat.le_succ _
      · rw [Function.update_of_ne hj]
  next hne => exact ⟨fun j => le_rfl, hread.floor, hts, fun _ => by omega⟩

/-- The step of a call moves no counter back and keeps what is known of the call. -/
theorem program_spec {y : Nat → Nat} {control' : Control} (hown : own < slots)
    (hat : control ≠ .idle → At kind h x c own control) (hstart : control = .idle → Floor kind h c (sum x slots))
    (hstep : program (kind c) own x control = some (y, control')) :
    (∀ j, x j ≤ y j) ∧ At kind h y c own control' := by
  cases control with
  | idle =>
      cases hstep
      exact ⟨fun j => le_rfl, collect_spec (by decide) (hstart rfl) (.start le_rfl)⟩
  | collect i total =>
      cases hstep
      obtain ⟨hi, floor, hfloor, hcollect⟩ := hat nofun
      exact ⟨fun j => le_rfl, collect_spec hi hfloor hcollect⟩
  | own ts =>
      cases hstep
      have hread : Read kind h x c ts := hat nofun
      refine ⟨fun j => le_rfl, by decide, hread, ⟨le_rfl, ?_⟩, .start hread.le⟩
      exact Nat.add_le_add_right hread.le _
  | again ts tsl i total =>
      cases hstep
      obtain ⟨hi, hread, hloaded, hcollect⟩ := hat nofun
      exact ⟨fun j => le_rfl, again_spec hi hread hloaded hcollect⟩
  | swap ts tsl =>
      cases hstep
      obtain ⟨hread, hloaded⟩ := hat nofun
      exact swap_spec hown hread hloaded
  | done v => cases hstep

theorem mem_events_call {c' : ι} {control' : Control} (hmem : .call c' ∈ events c control control') :
    c' = c ∧ control = .idle := by
  unfold events at hmem
  cases List.mem_append.mp hmem with
  | inl hcall =>
      split at hcall
      next hidle =>
          cases List.mem_singleton.mp hcall
          exact ⟨rfl, hidle⟩
      · cases hcall
  | inr hret =>
      split at hret
      · cases List.mem_singleton.mp hret
      · cases hret

theorem mem_events_ret {c' : ι} {control' : Control} (hmem : .ret c' v ∈ events c control control') :
    c' = c ∧ control' = .done v := by
  unfold events at hmem
  cases List.mem_append.mp hmem with
  | inl hcall =>
      split at hcall
      · cases List.mem_singleton.mp hcall
      · cases hcall
  | inr hret =>
      split at hret
      · cases List.mem_singleton.mp hret
        exact ⟨rfl, rfl⟩
      · cases hret

/-- What was returned before the first event of a call. -/
theorem before_call {c' : ι} {r : Nat} {control' : Control} (hnew : .call c ∉ h)
    (hb : Before (h ++ events c .idle control') (.ret c' r) (.call c)) : .ret c' r ∈ h := by
  have hret : ∀ es : List (Event ι), .call c ∉ es → Before (h ++ ([.call c] ++ es)) (.ret c' r) (.call c) →
      .ret c' r ∈ h := by
    intro es hes hb
    rw [← List.append_assoc, before_append_of_not_mem hes] at hb
    exact (before_append_singleton hnew).mp hb
  refine hret _ (fun hmem => ?_) hb
  split at hmem
  · cases List.mem_singleton.mp hmem
  · cases hmem

variable [DecidableEq ι] {st st' : State ι}

/-- Every step keeps the invariant. -/
theorem Inv.step (hinv : Inv kind worker h st) (hstep : next kind worker c st = some (es, st')) :
    Inv kind worker (h ++ es) st' := by
  obtain ⟨⟨y, control'⟩, hprogram, heq⟩ := Option.bind_eq_some_iff.mp hstep
  cases heq
  have hat := hinv.position c
  have hstart : st.control c = .idle → Floor kind (h ++ events c (st.control c) control') c (sum st.stamps slots) := by
    intro hidle c' r hb
    rw [hidle] at hb hat
    have hret := before_call hat hb
    have hdone := hinv.position c'
    rw [hinv.ended c' r hret] at hdone
    exact hdone.2
  obtain ⟨hle, hself⟩ := program_spec (own_lt _)
    (fun hne => hat.mono (fun j => le_rfl) (own_lt _) fun hmem => hne (mem_events_call hmem).2) hstart hprogram
  refine ⟨fun c' v hmem => ?_, fun c' => ?_⟩
  · show Function.update st.control c control' c' = .done v
    cases List.mem_append.mp hmem with
    | inl hold =>
        have hdone := hinv.ended c' v hold
        have hne : c' ≠ c := by
          intro heq
          rw [heq] at hdone
          rw [hdone] at hprogram
          cases hprogram
        rw [Function.update_of_ne hne]
        exact hdone
    | inr hnew =>
        obtain ⟨rfl, rfl⟩ := mem_events_ret hnew
        rw [Function.update_self]
  · show At kind _ y c' (worker c' % slots) (Function.update st.control c control' c')
    by_cases hc : c' = c
    · rw [hc, Function.update_self]
      exact hself
    · rw [Function.update_of_ne hc]
      exact (hinv.position c').mono hle (own_lt _) fun hmem => hc (mem_events_call hmem).1

/-- The invariant holds along every execution. -/
theorem exec_inv (hexec : Exec (system kind worker) h st) : Inv kind worker h st := by
  refine Exec.invariant (P := Inv kind worker) ?_ ?_ hexec
  · intro st hst
    cases hst
    exact Inv.initial
  · intro h st c es st' _ hinv hstep
    exact hinv.step hstep

/-- The contract of the clock, although nobody ever reads all counters at once: a stamp is not below the stamps
returned before its call, and above those of them that are read stamps. -/
theorem multiple_stamps_ordered (hexec : Exec (system kind worker) h st) :
    WriteAfterRead kind h ∧ ReadAfterWrite kind h ∧
      ∀ c c' r v, Before h (.ret c r) (.call c') → .ret c' v ∈ h → r ≤ v ∧ (kind c = .read → r < v) := by
  have hinv := exec_inv hexec
  have hordered : ∀ c c' r v, Before h (.ret c r) (.call c') → .ret c' v ∈ h → r ≤ v ∧ (kind c = .read → r < v) := by
    intro c c' r v hb hret
    have hdone := hinv.position c'
    rw [hinv.ended c' v hret] at hdone
    exact hdone.1 c r hb
  exact ⟨fun c c' r w hc _ hb hret => (hordered c c' r w hb hret).2 hc,
    fun c c' w r _ _ hb hret => (hordered c c' w r hb hret).1, hordered⟩

/-- A run in which two readers have collected the same sum: one of them moves their counter, and the other one finds
that it has been moved. -/
theorem multiple_stamps_ordered_run :
    ∃ h st, Exec (system (fun c : Fin 3 => if c < 2 then .read else .write) fun _ => 1) h st ∧
      Before h (.ret 1 4) (.call 2) ∧ .ret 2 5 ∈ h ∧
      WriteAfterRead (fun c : Fin 3 => if c < 2 then .read else .write) h := by
  obtain ⟨st, hexec⟩ : ∃ st, Exec (system (fun c : Fin 3 => if c < 2 then .read else .write) fun _ => 1)
      [.call 0, .call 1, .ret 0 4, .ret 1 4, .call 2, .ret 2 5] st :=
    ⟨_, exec_of_run ((List.replicate 9 [0, 1]).flatten ++ [0, 1, 2, 2, 2, 2]) rfl rfl⟩
  exact ⟨_, st, hexec, by decide, by decide, (multiple_stamps_ordered hexec).1⟩

end

end Verlib.Timestamps.Multiple
