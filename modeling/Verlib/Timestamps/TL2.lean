import Verlib.Interleaving.System

/-!
# The clock `timestamp_tl2`

The low `thread_bits` bits of a stamp are the id of the thread that made it, and only the bits above
them, its round, are compared by `less`. A version with the round of the reader's stamp counts as old,
unless `equal` finds that it is not the reader's stamp itself. So a writer must never hand out the
current stamp for a later write; `last_ts` is to make sure of that.

It does not always do so: the initial stamp looks like one of thread 0, and a thread that gives up a
snapshot overwrites its `last_ts`. `own_stamp_handed_out` is a run that shows it, and
`write_stamp_visible` proves the law for every run in which no write finds a stamp with the id of its
own thread that is not its `last_ts`.
-/

namespace Verlib.Timestamps.TL2

open Interleaving

/-- The number of bits for the thread id. -/
def threadBits : Nat :=
  10

/-- The difference between the stamps of consecutive rounds. -/
def step : Nat :=
  1 <<< threadBits

/-- The stamp without the thread id: `ts & ~mask`. -/
def unmasked (ts : Nat) : Nat :=
  (ts >>> threadBits) <<< threadBits

/-- `less`: the thread ids are masked out. -/
def less (a b : Nat) : Bool :=
  a >>> threadBits < b >>> threadBits

/-- `equal`: the same round, but not the same stamp. -/
def equal (a b : Nat) : Bool :=
  a >>> threadBits = b >>> threadBits && a ≠ b

/-- The new stamp of `increment_stamp`. -/
def incremented (ts : Nat) (id : Fin step) : Nat :=
  unmasked (ts + step) ||| id

/-- The stamp of `get_write_stamp` if the clock need not move. -/
def owned (ts : Nat) (id : Fin step) : Nat :=
  unmasked ts ||| id

/-- Where a thread stands: outside of a call, or in `increment_stamp(ts)`, before its load or before its
compare-exchange; `op` is the call of `get_write_stamp` that it is part of. -/
inductive Control where
  | idle
  | load (ts : Nat) (op : Option Nat)
  | swap (ts : Nat) (op : Option Nat)

/-- What a run shows: a stamp returned by `get_stamp`, the first step of a `get_write_stamp`, and its
return. -/
inductive Event where
  | got (ls : Nat)
  | call (op : Nat)
  | ret (op s : Nat)
  deriving DecidableEq

/-- The stamp, and of each thread `last_ts`, the stamps that `get_stamp` has returned to it, and its
position; the next call of `get_write_stamp`. -/
structure State (ι : Type) where
  stamp : Nat
  lastTs : ι → Nat
  localStamps : ι → List Nat
  control : ι → Control
  ops : Nat

/-- What the scheduler chooses: a thread calls `get_stamp` or `get_write_stamp`, it calls
`increment_stamp` for a stamp that it has got, or it takes a step of the latter. -/
inductive Action (ι : Type) where
  | getStamp (t : ι)
  | getWriteStamp (t : ι)
  | incrementStamp (t : ι) (ts : Nat)
  | step (t : ι)

variable {ι : Type} [DecidableEq ι]

/-- The return of `increment_stamp(ts)`, with the clock at `stamp`. -/
def State.finish (workerId : ι → Fin step) (st : State ι) (t : ι) (ts stamp : Nat) (op : Option Nat) :
    List Event × State ι :=
  (op.toList.map (.ret · (incremented ts (workerId t))),
    { st with
      stamp := stamp
      lastTs := Function.update st.lastTs t (incremented ts (workerId t))
      control := Function.update st.control t .idle })

/-- The next state, if the action is possible. The busy waiting in `increment_stamp` lies between two
steps. -/
def next (workerId : ι → Fin step) : Action ι → State ι → Option (List Event × State ι)
  | .getStamp t, st =>
      match st.control t with
      | .idle =>
          some ([.got st.stamp],
            { st with
              localStamps := Function.update st.localStamps t (st.stamp :: st.localStamps t) })
      | _ => none
  | .getWriteStamp t, st =>
      match st.control t with
      | .idle =>
          if st.stamp = st.lastTs t then
            some ([.call st.ops],
              { st with
                control := Function.update st.control t (.load st.stamp (some st.ops))
                ops := st.ops + 1 })
          else
            some ([.call st.ops, .ret st.ops (owned st.stamp (workerId t))],
              { st with
                lastTs := Function.update st.lastTs t (owned st.stamp (workerId t))
                ops := st.ops + 1 })
      | _ => none
  | .incrementStamp t ts, st =>
      match st.control t with
      | .idle =>
          if ts ∈ st.localStamps t then
            some ([], { st with control := Function.update st.control t (.load ts none) })
          else none
      | _ => none
  | .step t, st =>
      match st.control t with
      | .idle => none
      | .load ts op =>
          if ts = st.stamp then
            some ([], { st with control := Function.update st.control t (.swap ts op) })
          else some (st.finish workerId t ts st.stamp op)
      | .swap ts op =>
          some (st.finish workerId t ts (if st.stamp = ts then incremented ts (workerId t) else st.stamp) op)

/-- The constructor, and `last_ts = 0` in every thread. -/
def initial : State ι :=
  ⟨step, fun _ => 0, fun _ => [], fun _ => .idle, 0⟩

/-- Any number of threads. -/
def system (workerId : ι → Fin step) : System (State ι) (Action ι) Event :=
  System.ofNext (fun st => st = initial) (next workerId)

/-- The action is the load of a `get_write_stamp` that finds a stamp with the id of its own thread which
is not its `last_ts`. -/
def findsOwn (workerId : ι → Fin step) (st : State ι) : Action ι → Prop
  | .getWriteStamp t => st.stamp % step = workerId t ∧ st.stamp ≠ st.lastTs t
  | _ => False

instance (workerId : ι → Fin step) (st : State ι) (act : Action ι) : Decidable (findsOwn workerId st act) :=
  match act with
  | .getWriteStamp t => inferInstanceAs (Decidable (st.stamp % step = workerId t ∧ st.stamp ≠ st.lastTs t))
  | .getStamp _ | .incrementStamp _ _ | .step _ => isFalse id

/-! ## Rounds -/

/-- The bits of a stamp above the thread id. -/
def round (ts : Nat) : Nat :=
  ts / step

/-- `less` compares the rounds. -/
theorem less_iff {a b : Nat} : less a b = true ↔ round a < round b := by
  simp [less, round, step, threadBits, Nat.shiftRight_eq_div_pow]

/-- `equal` compares the rounds and the stamps. -/
theorem equal_iff {a b : Nat} : equal a b = true ↔ round a = round b ∧ a ≠ b := by
  simp [equal, round, step, threadBits, Nat.shiftRight_eq_div_pow]

/-- A stamp made from another one by putting an id into its low bits. -/
theorem owned_eq (ts : Nat) (id : Fin step) : owned ts id = round ts * step + id := by
  have hid : (id : Nat) < 2 ^ threadBits := id.isLt
  unfold owned unmasked
  rw [← Nat.shiftLeft_add_eq_or_of_lt hid, Nat.shiftLeft_eq, Nat.shiftRight_eq_div_pow]
  rfl

/-- The id is the one that was put in. -/
theorem owned_mod (ts : Nat) (id : Fin step) : owned ts id % step = id := by
  rw [owned_eq, Nat.add_comm, Nat.add_mul_mod_self_right, Nat.mod_eq_of_lt id.isLt]

/-- The round does not change. -/
theorem round_owned (ts : Nat) (id : Fin step) : round (owned ts id) = round ts := by
  have hpos : 0 < step := by decide
  rw [owned_eq, round, Nat.add_comm, Nat.add_mul_div_right _ _ hpos, Nat.div_eq_of_lt id.isLt,
    Nat.zero_add]

/-- `increment_stamp` goes to the next round. -/
theorem round_incremented (ts : Nat) (id : Fin step) : round (incremented ts id) = round ts + 1 := by
  have hpos : 0 < step := by decide
  rw [show incremented ts id = owned (ts + step) id from rfl, round_owned, round,
    Nat.add_div_right _ hpos]
  rfl

/-! ## The invariant -/

/-- The call of `get_write_stamp` that a thread is in, with the stamp that it has loaded. -/
def Control.pending : Control → Option (Nat × Nat)
  | .load ts (some op) | .swap ts (some op) => some (op, ts)
  | _ => none

/-- The law for a written stamp: it is invisible at `ls`, or a reader that meets it aborts. -/
def Visible (ls s : Nat) : Prop :=
  less ls s = true ∨ equal s ls = true

/-- The invariant of the clock: a stamp that a reader has got belongs to an earlier round or is the
current one, a write that is going to the next round started in a round not before those of the readers,
and the law has been kept so far. -/
structure Inv (h : List Event) (st : State ι) : Prop where
  got : ∀ ls, .got ls ∈ h → round ls ≤ round st.stamp ∧ (round ls = round st.stamp → ls = st.stamp)
  called : ∀ op, .call op ∈ h → op < st.ops
  ret : ∀ op s, .ret op s ∈ h → op < st.ops ∧ ∀ t ts, (st.control t).pending ≠ some (op, ts)
  pending : ∀ t op ts, (st.control t).pending = some (op, ts) → op < st.ops ∧
    ∀ ls, Before h (.got ls) (.call op) → round ls ≤ round ts
  single : ∀ t t' op ts ts', (st.control t).pending = some (op, ts) →
    (st.control t').pending = some (op, ts') → t = t'
  law : ∀ ls op s, Before h (.got ls) (.call op) → .ret op s ∈ h → Visible ls s

omit [DecidableEq ι] in
/-- The invariant holds initially. -/
theorem Inv.initial : Inv [] (initial : State ι) := by
  constructor <;> simp [TL2.initial, Control.pending]

section Steps

variable {workerId : ι → Fin step} {h : List Event} {st : State ι} {t : ι}

omit [DecidableEq ι] in
/-- A call of `get_write_stamp` that starts has not been seen before. -/
theorem Inv.not_called (hinv : Inv h st) : .call st.ops ∉ h := by
  intro hmem
  exact Nat.lt_irrefl _ (hinv.called _ hmem)

omit [DecidableEq ι] in
/-- A thread moves on without emitting events; it stays in its call, or it has none. -/
theorem Inv.move {st' : State ι} (hinv : Inv h st) (hstamp : st'.stamp = st.stamp)
    (hops : st'.ops = st.ops)
    (hcontrol : ∀ u, (st'.control u).pending = (st.control u).pending) : Inv h st' := by
  refine ⟨?_, ?_, ?_, ?_, ?_, hinv.law⟩
  · rw [hstamp]
    exact hinv.got
  · rw [hops]
    exact hinv.called
  · rw [hops]
    simp only [hcontrol]
    exact hinv.ret
  · rw [hops]
    simp only [hcontrol]
    exact hinv.pending
  · simp only [hcontrol]
    exact hinv.single

omit [DecidableEq ι] in
/-- `get_stamp` returns the current stamp. -/
theorem Inv.getStamp {stamps : ι → List Nat} (hinv : Inv h st) :
    Inv (h ++ [.got st.stamp]) { st with localStamps := stamps } := by
  have hbefore : ∀ {ls op}, Before (h ++ [.got st.stamp]) (.got ls) (.call op) →
      Before h (.got ls) (.call op) := by
    intro ls op hb
    exact (before_append_of_not_mem (by simp)).mp hb
  refine ⟨?_, ?_, ?_, ?_, hinv.single, ?_⟩
  · intro ls hmem
    rcases List.mem_append.mp hmem with hold | hnew
    · exact hinv.got ls hold
    · obtain rfl : ls = st.stamp := by simpa using hnew
      exact ⟨le_rfl, fun _ => rfl⟩
  · intro op hmem
    exact hinv.called op (by simpa using hmem)
  · intro op s hmem
    exact hinv.ret op s (by simpa using hmem)
  · intro u op ts hp
    exact ⟨(hinv.pending u op ts hp).1, fun ls hb => (hinv.pending u op ts hp).2 ls (hbefore hb)⟩
  · intro ls op s hb hmem
    exact hinv.law ls op s (hbefore hb) (by simpa using hmem)

/-- `get_write_stamp` finds the last stamp of its thread, and goes on to increment it. -/
theorem Inv.callIncrement (hinv : Inv h st) (hidle : st.control t = .idle) :
    Inv (h ++ [.call st.ops])
      { st with
        control := Function.update st.control t (.load st.stamp (some st.ops))
        ops := st.ops + 1 } := by
  have hbefore : ∀ {ls op}, op < st.ops → Before (h ++ [.call st.ops]) (.got ls) (.call op) →
      Before h (.got ls) (.call op) := by
    intro ls op hop hb
    refine (before_append_of_not_mem ?_).mp hb
    simp only [List.mem_singleton, Event.call.injEq]
    omega
  -- The thread's own call is the new one, and the other threads are in earlier calls.
  have hcases : ∀ {u op ts}, ((Function.update st.control t (.load st.stamp (some st.ops))) u).pending =
      some (op, ts) → u = t ∧ op = st.ops ∧ ts = st.stamp ∨
        u ≠ t ∧ op < st.ops ∧ (st.control u).pending = some (op, ts) := by
    intro u op ts hp
    rcases eq_or_ne u t with rfl | hne
    · rw [Function.update_self] at hp
      cases hp
      exact .inl ⟨rfl, rfl, rfl⟩
    · rw [Function.update_of_ne hne] at hp
      exact .inr ⟨hne, (hinv.pending u op ts hp).1, hp⟩
  refine ⟨?_, ?_, ?_, ?_, ?_, ?_⟩
  · intro ls hmem
    exact hinv.got ls (by simpa using hmem)
  · intro op hmem
    rcases List.mem_append.mp hmem with hold | hnew
    · exact Nat.lt_succ_of_lt (hinv.called op hold)
    · obtain rfl : op = st.ops := by simpa using hnew
      exact Nat.lt_succ_self _
  · intro op s hmem
    obtain ⟨hlt, hno⟩ := hinv.ret op s (by simpa using hmem)
    refine ⟨Nat.lt_succ_of_lt hlt, fun u ts hp => ?_⟩
    rcases hcases hp with ⟨_, heq, _⟩ | ⟨_, _, hold⟩
    · omega
    · exact hno u ts hold
  · intro u op ts hp
    rcases hcases hp with ⟨_, rfl, rfl⟩ | ⟨_, hlt, hold⟩
    · refine ⟨Nat.lt_succ_self _, fun ls hb => ?_⟩
      exact (hinv.got ls ((before_append_singleton hinv.not_called).mp hb)).1
    · exact ⟨Nat.lt_succ_of_lt hlt, fun ls hb => (hinv.pending u op ts hold).2 ls (hbefore hlt hb)⟩
  · intro u u' op ts ts' hp hp'
    rcases hcases hp with ⟨rfl, heq, _⟩ | ⟨_, hlt, hold⟩
    · rcases hcases hp' with ⟨rfl, _⟩ | ⟨_, hlt, _⟩
      · rfl
      · omega
    · rcases hcases hp' with ⟨_, heq, _⟩ | ⟨_, _, hold'⟩
      · omega
      · exact hinv.single u u' op ts ts' hold hold'
  · intro ls op s hb hmem
    have hold : .ret op s ∈ h := by simpa using hmem
    exact hinv.law ls op s (hbefore (hinv.ret op s hold).1 hb) hold

omit [DecidableEq ι] in
/-- `get_write_stamp` returns a stamp of the current round at once. -/
theorem Inv.callOwned {lastTs : ι → Nat} {s : Nat} (hinv : Inv h st)
    (hs : ∀ ls, .got ls ∈ h → Visible ls s) :
    Inv (h ++ [.call st.ops, .ret st.ops s]) { st with lastTs := lastTs, ops := st.ops + 1 } := by
  have hbefore : ∀ {ls op}, op < st.ops →
      Before (h ++ [.call st.ops, .ret st.ops s]) (.got ls) (.call op) →
      Before h (.got ls) (.call op) := by
    intro ls op hop hb
    refine (before_append_of_not_mem ?_).mp hb
    simp only [List.mem_cons, Event.call.injEq, reduceCtorEq, List.not_mem_nil, or_false]
    omega
  refine ⟨?_, ?_, ?_, ?_, hinv.single, ?_⟩
  · intro ls hmem
    exact hinv.got ls (by simpa using hmem)
  · intro op hmem
    rcases List.mem_append.mp hmem with hold | hnew
    · exact Nat.lt_succ_of_lt (hinv.called op hold)
    · obtain rfl : op = st.ops := by simpa using hnew
      exact Nat.lt_succ_self _
  · intro op s' hmem
    rcases List.mem_append.mp hmem with hold | hnew
    · obtain ⟨hlt, hno⟩ := hinv.ret op s' hold
      exact ⟨Nat.lt_succ_of_lt hlt, hno⟩
    · obtain ⟨rfl, rfl⟩ : op = st.ops ∧ s' = s := by simpa using hnew
      refine ⟨Nat.lt_succ_self _, fun u ts hp => ?_⟩
      exact Nat.lt_irrefl _ (hinv.pending u _ ts hp).1
  · intro u op ts hp
    obtain ⟨hlt, hold⟩ := hinv.pending u op ts hp
    exact ⟨Nat.lt_succ_of_lt hlt, fun ls hb => hold ls (hbefore hlt hb)⟩
  · intro ls op s' hb hmem
    rcases List.mem_append.mp hmem with hold | hnew
    · exact hinv.law ls op s' (hbefore (hinv.ret op s' hold).1 hb) hold
    · obtain ⟨rfl, rfl⟩ : op = st.ops ∧ s' = s := by simpa using hnew
      refine hs ls ?_
      rcases before_append_iff.mp hb with hold | ⟨hmem, _⟩ | hpair
      · exact absurd hold.right_mem hinv.not_called
      · exact hmem
      · simp at hpair

/-- `increment_stamp` returns, having moved the clock or not. -/
theorem Inv.finish {ts stamp' : Nat} {op : Option Nat} (hinv : Inv h st)
    (hcontrol : st.control t = .load ts op ∨ st.control t = .swap ts op)
    (hstamp : stamp' = st.stamp ∨ st.stamp = ts ∧ stamp' = incremented ts (workerId t)) :
    Inv (h ++ (st.finish workerId t ts stamp' op).1) (st.finish workerId t ts stamp' op).2 := by
  have hpending : ∀ o, op = some o → (st.control t).pending = some (o, ts) := by
    rintro o rfl
    rcases hcontrol with hc | hc <;> rw [hc] <;> rfl
  have hnew : ∀ {e}, e ∈ (st.finish workerId t ts stamp' op).1 →
      ∃ o, op = some o ∧ e = .ret o (incremented ts (workerId t)) := by
    intro e he
    cases op with
    | none => simp [State.finish] at he
    | some o => exact ⟨o, rfl, by simpa [State.finish] using he⟩
  have hbefore : ∀ {ls o}, Before (h ++ (st.finish workerId t ts stamp' op).1) (.got ls) (.call o) →
      Before h (.got ls) (.call o) := by
    intro ls o hb
    refine (before_append_of_not_mem fun hmem => ?_).mp hb
    obtain ⟨_, _, heq⟩ := hnew hmem
    cases heq
  -- The thread has no call any more.
  have hother : ∀ {u o ts'}, ((st.finish workerId t ts stamp' op).2.control u).pending = some (o, ts') →
      u ≠ t ∧ (st.control u).pending = some (o, ts') := by
    intro u o ts' hp
    rcases eq_or_ne u t with rfl | hne
    · simp [State.finish, Control.pending] at hp
    · simp only [State.finish, Function.update_of_ne hne] at hp
      exact ⟨hne, hp⟩
  refine ⟨?_, ?_, ?_, ?_, ?_, ?_⟩
  · intro ls hmem
    have hold : .got ls ∈ h := by
      rcases List.mem_append.mp hmem with hold | hn
      · exact hold
      · obtain ⟨_, _, heq⟩ := hnew hn
        cases heq
    obtain ⟨hle, heq⟩ := hinv.got ls hold
    show round ls ≤ round stamp' ∧ (round ls = round stamp' → ls = stamp')
    rcases hstamp with rfl | ⟨rfl, rfl⟩
    · exact ⟨hle, heq⟩
    · rw [round_incremented]
      omega
  · intro o hmem
    rcases List.mem_append.mp hmem with hold | hn
    · exact hinv.called o hold
    · obtain ⟨_, _, heq⟩ := hnew hn
      cases heq
  · intro o s hmem
    rcases List.mem_append.mp hmem with hold | hn
    · obtain ⟨hlt, hno⟩ := hinv.ret o s hold
      exact ⟨hlt, fun u ts' hp => hno u ts' (hother hp).2⟩
    · obtain ⟨o', ho', heq⟩ := hnew hn
      cases heq
      refine ⟨(hinv.pending t o ts (hpending o ho')).1, fun u ts' hp => ?_⟩
      exact (hother hp).1 (hinv.single u t o ts' ts (hother hp).2 (hpending o ho'))
  · intro u o ts' hp
    obtain ⟨hlt, hold⟩ := hinv.pending u o ts' (hother hp).2
    exact ⟨hlt, fun ls hb => hold ls (hbefore hb)⟩
  · intro u u' o ts₁ ts₂ hp hp'
    exact hinv.single u u' o ts₁ ts₂ (hother hp).2 (hother hp').2
  · intro ls o s hb hmem
    rcases List.mem_append.mp hmem with hold | hn
    · exact hinv.law ls o s (hbefore hb) hold
    · obtain ⟨o', ho', heq⟩ := hnew hn
      cases heq
      have hle := (hinv.pending t o ts (hpending o ho')).2 ls (hbefore hb)
      refine .inl (less_iff.mpr ?_)
      rw [round_incremented]
      omega

/-- Every step in which no write finds a stamp of its own thread keeps the invariant. -/
theorem Inv.step {act : Action ι} {es : List Event} {st' : State ι} (hinv : Inv h st)
    (hfinds : ¬ findsOwn workerId st act) (hstep : next workerId act st = some (es, st')) :
    Inv (h ++ es) st' := by
  cases act with
  | getStamp t =>
      simp only [next] at hstep
      split at hstep
      · cases hstep
        exact hinv.getStamp
      · cases hstep
  | getWriteStamp t =>
      simp only [next] at hstep
      split at hstep
      · rename_i hidle
        split at hstep
        · cases hstep
          exact hinv.callIncrement hidle
        · rename_i hne
          cases hstep
          refine hinv.callOwned fun ls hmem => ?_
          obtain ⟨hle, heq⟩ := hinv.got ls hmem
          rcases Nat.lt_or_eq_of_le hle with hlt | hsame
          · exact .inl (less_iff.mpr (by rwa [round_owned]))
          · -- In its own round the reader's stamp is the current one, which has another id.
            refine .inr (equal_iff.mpr ⟨by rw [round_owned, hsame], fun habs => hfinds ⟨?_, hne⟩⟩)
            rw [← heq hsame, ← habs, owned_mod]
      · cases hstep
  | incrementStamp t ts =>
      simp only [next] at hstep
      split at hstep
      · rename_i hidle
        split at hstep
        · cases hstep
          rw [List.append_nil]
          refine hinv.move rfl rfl fun u => ?_
          dsimp only
          rcases eq_or_ne u t with rfl | hne
          · rw [Function.update_self, hidle]
            rfl
          · rw [Function.update_of_ne hne]
        · cases hstep
      · cases hstep
  | step t =>
      simp only [next] at hstep
      split at hstep
      · cases hstep
      · rename_i ts op hload
        split at hstep
        · cases hstep
          rw [List.append_nil]
          refine hinv.move rfl rfl fun u => ?_
          dsimp only
          rcases eq_or_ne u t with rfl | hne
          · rw [Function.update_self, hload]
            cases op <;> rfl
          · rw [Function.update_of_ne hne]
        · cases hstep
          exact hinv.finish (.inl hload) (.inl rfl)
      · rename_i ts op hswap
        cases hstep
        refine hinv.finish (.inr hswap) ?_
        split
        · exact .inr ⟨‹_›, rfl⟩
        · exact .inl rfl

end Steps

/-- The abort law: in every run in which no `get_write_stamp` finds a stamp with the id of its own thread
that is not its `last_ts`, a stamp written after a reader got `ls` is invisible at `ls` or makes the
reader abort. -/
theorem write_stamp_visible {workerId : ι → Fin step} {h : List Event} {st : State ι}
    (hexec : Exec ((system workerId).restrict fun st act => ¬ findsOwn workerId st act) h st) :
    ∀ ls op s, Before h (.got ls) (.call op) → .ret op s ∈ h → less ls s ∨ equal s ls := by
  have hinv : Inv h st := by
    refine Exec.invariant (P := Inv) ?_ ?_ hexec
    · rintro _ rfl
      exact Inv.initial
    · rintro h st act es st' _ hinv ⟨hfinds, hstep⟩
      exact hinv.step hfinds hstep
  exact hinv.law

/-- Two threads with the ids `k` and `k + 1`. -/
def twoThreads (k : Nat) (t : Fin 2) : Fin step :=
  ⟨(k + t) % step, Nat.mod_lt _ (by decide)⟩

/-- A run: thread 2 writes in the reader's round, which aborts the reader; the reader moves the clock, and
the next stamp of thread 2 is of the new round. -/
theorem write_stamp_visible_run :
    ∃ h st, Exec ((system (twoThreads 1)).restrict fun st act => ¬ findsOwn (twoThreads 1) st act) h st ∧
      Before h (.got 1024) (.call 0) ∧ .ret 0 1026 ∈ h ∧ (less 1024 1026 ∨ equal 1026 1024) := by
  obtain ⟨st, hexec⟩ : ∃ st, Exec
      ((system (twoThreads 1)).restrict fun st act => ¬ findsOwn (twoThreads 1) st act)
      [.got 1024, .call 0, .ret 0 1026, .call 1, .ret 1 2050] st :=
    ⟨_, exec_restrict_of_run [.getStamp 0, .getWriteStamp 1, .incrementStamp 0 1024, .step 0, .step 0,
      .getWriteStamp 1] rfl rfl⟩
  exact ⟨_, st, hexec, by decide, by decide,
    write_stamp_visible hexec 1024 0 1026 (by decide) (by decide)⟩

/-- The law fails in general: the first write of thread 0 gets the initial stamp, which a reader may
already hold. -/
theorem own_stamp_handed_out :
    ∃ h st, Exec (system (twoThreads 0)) h st ∧ Before h (.got 1024) (.call 0) ∧ .ret 0 1024 ∈ h ∧
      ¬ (less 1024 1024 ∨ equal 1024 1024) := by
  obtain ⟨st, hexec⟩ : ∃ st, Exec (system (twoThreads 0)) [.got 1024, .call 0, .ret 0 1024] st :=
    ⟨_, exec_of_run [.getStamp 1, .getWriteStamp 0] rfl rfl⟩
  exact ⟨_, st, hexec, by decide, by decide, by decide⟩

end Verlib.Timestamps.TL2
