import Verlib.Timestamps.Contract

/-!
# The default clock `timestamp_read_write`

The stamp is odd in write mode and even in read mode, and a call that finds the wrong mode tries to
increment it. Each function is a step program over the shared stamp: the first load, the second load
after the back-off, and the compare-exchange are one atomic step each.

`get_write_stamp` has a defect: when the stamp changes during the back-off it returns the even stamp
it loaded first, which a reader may already hold. `write_stamp_not_fresh` is a run that shows it, and
`stamps_ordered` proves both halves of the clock contract for every run in which no writer takes
that exit.
-/

namespace Verlib.Timestamps.ReadWrite

open Interleaving

/-- Where a call stands: not called yet, in the back-off after loading `s`, about to
compare-exchange `s`, or returned. -/
inductive Control where
  | idle
  | backoff (s : Nat)
  | swap (s : Nat)
  | done (v : Nat)
  deriving DecidableEq, Repr

/-- `compare_exchange_strong(s, s + 1)` on the stamp. -/
def increment (stamp s : Nat) : Nat :=
  if stamp = s then s + 1 else stamp

/-- One atomic step of `get_write_stamp` on the shared stamp. -/
def getWriteStamp (stamp : Nat) : Control → Option (Nat × Control)
  | .idle => some (stamp, if stamp % 2 = 1 then .done stamp else .backoff stamp)
  | .backoff s => some (stamp, if s ≠ stamp then .done s else .swap s)
  | .swap s => some (increment stamp s, .done (s + 1))
  | .done _ => none

/-- One atomic step of `get_read_stamp` on the shared stamp. -/
def getReadStamp (stamp : Nat) : Control → Option (Nat × Control)
  | .idle => some (stamp, if stamp % 2 = 0 then .done stamp else .backoff stamp)
  | .backoff s => some (stamp, if s ≠ stamp then .done s else .swap s)
  | .swap s => some (increment stamp s, .done s)
  | .done _ => none

/-- The step program that a call of the given kind runs. -/
def program : Kind → Nat → Control → Option (Nat × Control)
  | .read => getReadStamp
  | .write => getWriteStamp

variable {ι : Type}

/-- The shared stamp and the position of every call. -/
structure State (ι : Type) where
  stamp : Nat
  control : ι → Control

/-- The constructor: the stamp is 1 and nothing has been called. -/
def initial : State ι :=
  ⟨1, fun _ => .idle⟩

/-- The events of a step that takes call `c` from one position to another. -/
def events (c : ι) (before after : Control) : List (Event ι) :=
  (match before with
    | .idle => [.call c]
    | _ => []) ++
  (match after with
    | .done v => [.ret c v]
    | _ => [])

variable [DecidableEq ι]

/-- Call `c` takes its next atomic step. -/
def next (kind : ι → Kind) (c : ι) (st : State ι) : Option (List (Event ι) × State ι) := do
  let (stamp, control) ← program (kind c) st.stamp (st.control c)
  pure (events c (st.control c) control, ⟨stamp, Function.update st.control c control⟩)

/-- Any set of calls of the two functions, interleaved in any order from stamp 1. -/
def system (kind : ι → Kind) : System (State ι) ι (Event ι) :=
  System.ofNext (fun st => st = initial) (next kind)

/-- The step is not a `get_write_stamp` whose second load finds a changed stamp. -/
def NoLateWriter (kind : ι → Kind) (st : State ι) (c : ι) : Prop :=
  match kind c, st.control c with
  | .write, .backoff s => st.stamp = s
  | _, _ => True

instance (kind : ι → Kind) (st : State ι) (c : ι) : Decidable (NoLateWriter kind st c) := by
  unfold NoLateWriter
  split <;> infer_instance

/-! ## What a step does -/

/-- The stamp value modulo 2 in which a call of this kind returns at once. -/
def mode : Kind → Nat
  | .read => 0
  | .write => 1

/-- Everything a step of the clock can do: the first load, with or without an immediate return; a
second load; or the compare-exchange. -/
theorem program_cases {k : Kind} {stamp stamp' : Nat} {control control' : Control}
    (h : program k stamp control = some (stamp', control')) :
    (control = .idle ∧ stamp' = stamp ∧ stamp % 2 = mode k ∧ control' = .done stamp) ∨
      (control = .idle ∧ stamp' = stamp ∧ stamp % 2 ≠ mode k ∧ control' = .backoff stamp) ∨
      (∃ s, control = .backoff s ∧ stamp' = stamp ∧ s ≠ stamp ∧ control' = .done s) ∨
      (∃ s, control = .backoff s ∧ stamp' = stamp ∧ s = stamp ∧ control' = .swap s) ∨
      (∃ s, control = .swap s ∧ stamp' = increment stamp s ∧ control' = .done (s + mode k)) := by
  cases k <;> cases control <;>
    simp only [program, getReadStamp, getWriteStamp, Option.some.injEq, Prod.mk.injEq,
      reduceCtorEq] at h
  all_goals
    obtain ⟨rfl, rfl⟩ := h
    try split
    all_goals simp_all [mode]

/-- The compare-exchange never lowers the stamp. -/
theorem le_increment (stamp s : Nat) : stamp ≤ increment stamp s := by
  unfold increment
  split <;> omega

/-- After the compare-exchange the stamp has passed a value that was not above it. -/
theorem lt_increment {stamp s : Nat} (h : s ≤ stamp) : s < increment stamp s := by
  unfold increment
  split <;> omega

/-! ## The invariant -/

/-- A call that has loaded `s` and not returned: `s` is a past value of the stamp in the other mode,
and it is not below any stamp returned before the call. -/
structure Pending (kind : ι → Kind) (h : List (Event ι)) (stamp : Nat) (c : ι) (s : Nat) : Prop where
  le : s ≤ stamp
  mode : s % 2 ≠ mode (kind c)
  floor : ∀ c' r, Before h (.ret c' r) (.call c) → r ≤ s

/-- The invariant of the clock. Returned stamps are past values of the stamp, and a returned odd
read stamp is strictly past, since the read itself moved the clock or saw it moved. -/
structure Inv (kind : ι → Kind) (h : List (Event ι)) (st : State ι) : Prop where
  idle : ∀ c, st.control c = .idle → .call c ∉ h
  started : ∀ c v, .ret c v ∈ h → st.control c = .done v
  ret_le : ∀ c v, .ret c v ∈ h → v ≤ st.stamp
  read_lt : ∀ c v, kind c = .read → .ret c v ∈ h → v % 2 = 1 → v < st.stamp
  backoff : ∀ c s, st.control c = .backoff s → Pending kind h st.stamp c s
  swap : ∀ c s, st.control c = .swap s → Pending kind h st.stamp c s

omit [DecidableEq ι] in
/-- The invariant holds before the first call. -/
theorem Inv.initial (kind : ι → Kind) : Inv kind [] (initial : State ι) := by
  constructor <;> simp [ReadWrite.initial]

/-- The parts of a step: the program's own step, the events it emits and the updated state. -/
theorem next_eq_some {kind : ι → Kind} {c : ι} {st st' : State ι} {es : List (Event ι)}
    (h : next kind c st = some (es, st')) :
    ∃ stamp control, program (kind c) st.stamp (st.control c) = some (stamp, control) ∧
      es = events c (st.control c) control ∧
      st' = ⟨stamp, Function.update st.control c control⟩ := by
  simp only [next, bind, Option.bind_eq_some_iff, pure, Option.some.injEq, Prod.mk.injEq] at h
  obtain ⟨⟨stamp, control⟩, hprogram, rfl, rfl⟩ := h
  exact ⟨stamp, control, hprogram, rfl, rfl⟩

omit [DecidableEq ι] in
/-- A pending call is not affected by steps of other calls. -/
theorem Pending.mono {kind : ι → Kind} {h es : List (Event ι)} {stamp stamp' : Nat} {c : ι} {s : Nat}
    (hp : Pending kind h stamp c s) (hle : stamp ≤ stamp') (hes : .call c ∉ es) :
    Pending kind (h ++ es) stamp' c s where
  le := hp.le.trans hle
  mode := hp.mode
  floor c' r hb := hp.floor c' r ((before_append_of_not_mem hes).mp hb)

/-- The calls other than `c` keep their pending facts when `c` moves to a new position. -/
theorem pending_update {kind : ι → Kind} {h es : List (Event ι)} {stamp stamp' : Nat}
    {control : ι → Control} {c : ι} {after : Control} {position : Nat → Control}
    (hold : ∀ c' s, control c' = position s → Pending kind h stamp c' s)
    (hle : stamp ≤ stamp') (hes : ∀ c', c' ≠ c → .call c' ∉ es)
    (hself : ∀ s, after = position s → Pending kind (h ++ es) stamp' c s) :
    ∀ c' s, Function.update control c after c' = position s → Pending kind (h ++ es) stamp' c' s := by
  intro c' s hc'
  by_cases hcc : c' = c
  · subst hcc
    exact hself s (by simpa using hc')
  · exact (hold c' s (by simpa [hcc] using hc')).mono hle (hes c' hcc)

/-- Every step preserves the invariant. -/
theorem Inv.step {kind : ι → Kind} {h : List (Event ι)} {st st' : State ι} {c : ι}
    {es : List (Event ι)} (hinv : Inv kind h st) (hstep : next kind c st = some (es, st')) :
    Inv kind (h ++ es) st' := by
  obtain ⟨stamp, control, hprogram, rfl, rfl⟩ := next_eq_some hstep
  obtain ⟨hidle, hstarted, hle, hlt, hback, hswap⟩ := hinv
  clear hstep
  obtain ⟨hc, rfl, hmode, rfl⟩ | ⟨hc, rfl, hmode, rfl⟩ | ⟨s, hc, rfl, hne, rfl⟩ |
    ⟨s, hc, rfl, heq, rfl⟩ | ⟨s, hc, rfl, rfl⟩ := program_cases hprogram <;> clear hprogram
  -- The first load returns at once.
  · have hes : events c (st.control c) (.done st.stamp) = [.call c, .ret c st.stamp] := by
      simp [events, hc]
    rw [hes]
    refine ⟨by grind, by grind, by grind, by grind [mode], ?_, ?_⟩
    · exact pending_update hback le_rfl (by simp) (by simp)
    · exact pending_update hswap le_rfl (by simp) (by simp)
  -- The first load finds the other mode.
  · have hes : events c (st.control c) (.backoff st.stamp) = [.call c] := by
      simp [events, hc]
    rw [hes]
    refine ⟨by grind, by grind, by grind, by grind, ?_, ?_⟩
    · refine pending_update hback le_rfl (by simp) ?_
      rintro s ⟨rfl⟩
      refine ⟨le_rfl, hmode, fun c' r hb => ?_⟩
      exact hle c' r ((before_append_singleton (hidle c hc)).mp hb)
    · exact pending_update hswap le_rfl (by simp) (by simp)
  -- The second load finds a changed stamp.
  · have hes : events c (st.control c) (.done s) = [.ret c s] := by
      simp [events, hc]
    have hp := hback c s hc
    rw [hes]
    refine ⟨by grind, by grind, by grind [hp.le], by grind [hp.le], ?_, ?_⟩
    · exact pending_update hback le_rfl (by simp) (by simp)
    · exact pending_update hswap le_rfl (by simp) (by simp)
  -- The second load finds the stamp unchanged.
  · have hes : events c (st.control c) (.swap s) = [] := by
      simp [events, hc]
    have hp := hback c s hc
    rw [hes]
    refine ⟨by grind, by grind, by grind, by grind, ?_, ?_⟩
    · exact pending_update hback le_rfl (by simp) (by simp)
    · refine pending_update hswap le_rfl (by simp) ?_
      rintro s ⟨rfl⟩
      exact hp.mono le_rfl (by simp)
  -- The compare-exchange, won or lost.
  · have hes : events c (st.control c) (.done (s + mode (kind c))) =
        [.ret c (s + mode (kind c))] := by
      simp [events, hc]
    have hp := hswap c s hc
    have hup := le_increment st.stamp s
    have hpast := lt_increment hp.le
    have hmode : mode (kind c) ≤ 1 := by cases kind c <;> simp [mode]
    rw [hes]
    refine ⟨by grind, by grind, by grind, by grind [mode], ?_, ?_⟩
    · exact pending_update hback hup (by simp) (by simp)
    · exact pending_update hswap hup (by simp) (by simp)

/-- The invariant holds along every execution. -/
theorem exec_inv {kind : ι → Kind} {h : List (Event ι)} {st : State ι}
    (hexec : Exec (system kind) h st) : Inv kind h st := by
  refine Exec.invariant (P := Inv kind) ?_ ?_ hexec
  · rintro st rfl
    exact Inv.initial kind
  · intro h st c es st' _ hinv hstep
    exact hinv.step hstep

/-! ## The clock contract -/

/-- A call that has already returned does not start again. -/
theorem Inv.not_call_mem {kind : ι → Kind} {h : List (Event ι)} {st st' : State ι} {c c' : ι}
    {es : List (Event ι)} {v : Nat} (hinv : Inv kind h st) (hstep : next kind c st = some (es, st'))
    (hret : .ret c' v ∈ h) : .call c' ∉ es := by
  have hdone := hinv.started c' v hret
  obtain ⟨stamp, control, hprogram, rfl, rfl⟩ := next_eq_some hstep
  intro hmem
  have hcc : c' = c ∧ st.control c = .idle := by
    unfold events at hmem
    grind
  obtain ⟨rfl, hidle⟩ := hcc
  simp [hdone] at hidle

/-- A stamp is not below any stamp returned before its call. A write stamp is strictly above every
such read stamp, unless it is returned because the stamp changed during the back-off. -/
theorem Inv.returned {kind : ι → Kind} {h : List (Event ι)} {st st' : State ι} {c c' c₀ : ι}
    {es : List (Event ι)} {v r : Nat} (hinv : Inv kind h st)
    (hstep : next kind c st = some (es, st')) (hret : .ret c' v ∈ es)
    (hbefore : Before (h ++ es) (.ret c₀ r) (.call c')) :
    r ≤ v ∧ (kind c' = .write → kind c₀ = .read → NoLateWriter kind st c → r < v) := by
  obtain ⟨stamp, control, hprogram, rfl, rfl⟩ := next_eq_some hstep
  obtain ⟨hc, rfl, hmode, rfl⟩ | ⟨hc, rfl, hmode, rfl⟩ | ⟨s, hc, rfl, hne, rfl⟩ |
    ⟨s, hc, rfl, heq, rfl⟩ | ⟨s, hc, rfl, rfl⟩ := program_cases hprogram <;>
    simp only [events, hc, List.nil_append, List.mem_append, List.mem_singleton, reduceCtorEq,
      Event.ret.injEq, false_or, List.not_mem_nil] at hret
  · obtain ⟨rfl, rfl⟩ := hret
    have hmem : .ret c₀ r ∈ h := by
      simp only [events, hc, before_append_iff, List.singleton_append, before_pair_iff] at hbefore
      grind [hinv.idle c' hc, Before.right_mem]
    refine ⟨hinv.ret_le _ _ hmem, fun hw hr _ => ?_⟩
    have hle := hinv.ret_le _ _ hmem
    have hlt := hinv.read_lt _ _ hr hmem
    simp only [hw, mode] at hmode
    omega
  · obtain ⟨rfl, rfl⟩ := hret
    have hp := hinv.backoff c' v hc
    have hold := (before_append_of_not_mem (by simp [events, hc])).mp hbefore
    refine ⟨hp.floor _ _ hold, fun hw _ hguard => ?_⟩
    simp only [NoLateWriter, hw, hc] at hguard
    exact absurd hguard.symm hne
  · obtain ⟨rfl, rfl⟩ := hret
    have hp := hinv.swap c' s hc
    have hold := (before_append_of_not_mem (by simp [events, hc])).mp hbefore
    have hfloor := hp.floor _ _ hold
    refine ⟨by omega, fun hw _ _ => ?_⟩
    simp only [hw, mode]
    omega

/-- A write stamp returned before a read stamp is taken is at most that read stamp, in every run. -/
theorem read_after_write {kind : ι → Kind} {h : List (Event ι)} {st : State ι}
    (hexec : Exec (system kind) h st) : ReadAfterWrite kind h := by
  refine Exec.invariant (P := fun h _ => ReadAfterWrite kind h) ?_ ?_ hexec
  · intro st _ c c' w r _ _ hbefore
    simp at hbefore
  · intro h st a es st' hexec ih hstep c c' w r hc hc' hbefore hret
    rcases List.mem_append.mp hret with hold | hnew
    · have hcall := (exec_inv hexec).not_call_mem hstep hold
      exact ih c c' w r hc hc' ((before_append_of_not_mem hcall).mp hbefore) hold
    · exact ((exec_inv hexec).returned hstep hnew hbefore).1

/-- In every run in which no `get_write_stamp` finds at its second load that the stamp changed during
the back-off, write stamps are above the read stamps returned before their call, and read stamps are
not below the write stamps returned before theirs. -/
theorem stamps_ordered {kind : ι → Kind} {h : List (Event ι)} {st : State ι}
    (hexec : Exec ((system kind).restrict (NoLateWriter kind)) h st) :
    WriteAfterRead kind h ∧ ReadAfterWrite kind h := by
  refine ⟨?_, read_after_write hexec.of_restrict⟩
  refine Exec.invariant (P := fun h _ => WriteAfterRead kind h) ?_ ?_ hexec
  · intro st _ c c' r w _ _ hbefore
    simp at hbefore
  · intro h st a es st' hexec ih ⟨hguard, hstep⟩ c c' r w hc hc' hbefore hret
    have hinv := exec_inv hexec.of_restrict
    rcases List.mem_append.mp hret with hold | hnew
    · have hcall := hinv.not_call_mem hstep hold
      exact ih c c' r w hc hc' ((before_append_of_not_mem hcall).mp hbefore) hold
    · exact (hinv.returned hstep hnew hbefore).2 hc' hc hguard

/-- Two readers and two writers. -/
def readersThenWriters (c : Fin 4) : Kind :=
  if c < 2 then .read else .write

/-- A run that meets the condition: a reader moves the clock to 2, the second reader and a writer
follow, and the writer's stamp 3 is above both read stamps. -/
theorem stamps_ordered_run :
    ∃ h st, Exec ((system readersThenWriters).restrict (NoLateWriter readersThenWriters)) h st ∧
      Before h (.ret 1 2) (.call 2) ∧ .ret 2 3 ∈ h ∧
      WriteAfterRead readersThenWriters h ∧ ReadAfterWrite readersThenWriters h := by
  have hexec : Exec ((system readersThenWriters).restrict (NoLateWriter readersThenWriters))
      [.call 0, .ret 0 1, .call 1, .ret 1 2, .call 2, .ret 2 3] _ :=
    exec_restrict_of_run [0, 0, 0, 1, 2, 2, 2] rfl rfl
  exact ⟨_, _, hexec, by decide, by decide, stamps_ordered hexec⟩

/-- The contract fails in general. The first reader moves the clock to 2 and the second returns 2;
then both writers load 2, one of them moves the clock to 3, and the other finds the stamp changed and
returns 2, which the second reader already holds. -/
theorem write_stamp_not_fresh :
    ∃ h st, Exec (system readersThenWriters) h st ∧ ¬ WriteAfterRead readersThenWriters h := by
  have hexec : Exec (system readersThenWriters)
      [.call 0, .ret 0 1, .call 1, .ret 1 2, .call 2, .call 3, .ret 3 3, .ret 2 2] _ :=
    exec_of_run [0, 0, 0, 1, 2, 3, 3, 3, 2] rfl rfl
  refine ⟨_, _, hexec, fun hlaw => ?_⟩
  have hlt := hlaw 1 2 2 2 rfl rfl (by decide) (by decide)
  exact absurd hlt (by decide)

end Verlib.Timestamps.ReadWrite
