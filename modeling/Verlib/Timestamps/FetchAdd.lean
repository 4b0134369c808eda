import Verlib.Timestamps.Contract

/-!
# The clocks `timestamp_read` and `timestamp_write`

One of the two stamp functions of these clocks just loads the stamp, and the other one moves it: it loads
the stamp, backs off, loads it again and, if it has not changed, adds one to it. A thread keeps its own
back-off (`read_delay`, `write_delay`) from call to call. The `fetch_add` is unconditional, so several
callers may move the clock for the same observed value; `fetchAdd_stamps_ordered` says that both clocks
satisfy the contract nevertheless.
-/

namespace Verlib.Timestamps.FetchAdd

open Interleaving

/-- The two clocks. -/
inductive Clock where
  | timestampRead
  | timestampWrite
  deriving DecidableEq, Repr

/-- Where a thread stands in its call: outside of one, in turn `i` of the back-off after it has loaded
`ts`, or about to add. -/
inductive Control where
  | idle
  | backoff (ts i : Nat)
  | add (ts : Nat)
  deriving DecidableEq, Repr

/-- What a step leaves: the stamp, the thread's back-off, and where the call goes on or its result. -/
structure Outcome where
  stamp : Nat
  backoff : Nat
  next : Control ⊕ Nat

/-- The new back-off: it is halved after a `fetch_add` that found the loaded value, and doubled
otherwise. -/
def adapt (found : Bool) (backoff : Nat) : Nat :=
  if found then if 2 ≤ backoff then backoff / 2 else backoff
  else if backoff < 256 then backoff * 2 else backoff

/-- A step of the function that moves the clock. A `delay` of -1 is `none`: then the thread's own back-off
counts and is adapted. -/
def moveClock (delay : Option Nat) (offset stamp backoff : Nat) : Control → Outcome
  | .idle => ⟨stamp, backoff, .inl (.backoff stamp 1)⟩
  | .backoff ts i =>
      if i < delay.getD backoff then ⟨stamp, backoff, .inl (.backoff ts (i + 1))⟩
      else if stamp = ts then ⟨stamp, backoff, .inl (.add ts)⟩
      else ⟨stamp, backoff, .inr (ts + offset)⟩
  | .add ts =>
      ⟨stamp + 1, if delay.isNone then adapt (stamp = ts) backoff else backoff, .inr (ts + offset)⟩

/-- `stamp.load()`. -/
def load (stamp backoff : Nat) (_ : Control) : Outcome :=
  ⟨stamp, backoff, .inr stamp⟩

/-- `get_read_stamp` of the two clocks. -/
def getReadStamp (delay : Option Nat) : Clock → Nat → Nat → Control → Outcome
  | .timestampRead => moveClock delay 0
  | .timestampWrite => load

/-- `get_write_stamp` of the two clocks. -/
def getWriteStamp (delay : Option Nat) : Clock → Nat → Nat → Control → Outcome
  | .timestampRead => load
  | .timestampWrite => moveClock delay 1

/-- The step program of a call. -/
def program (clock : Clock) (delay : Option Nat) : Kind → Nat → Nat → Control → Outcome
  | .read => getReadStamp delay clock
  | .write => getWriteStamp delay clock

variable {ι : Type}

/-- The shared stamp, and of each thread its back-off, the number of its calls so far, and its position. -/
structure State (ι : Type) where
  stamp : Nat
  backoff : ι → Nat
  calls : ι → Nat
  control : ι → Control

/-- The constructors. -/
def initialStamp : Clock → Nat
  | .timestampRead => 1
  | .timestampWrite => 2

/-- No thread has called anything; the back-offs are arbitrary. -/
def initial (clock : Clock) (backoff : ι → Nat) : State ι :=
  ⟨initialStamp clock, backoff, fun _ => 0, fun _ => .idle⟩

/-- The events of a step of call `c`. -/
def events (c : ι × Nat) (control : Control) (next : Control ⊕ Nat) : List (Event (ι × Nat)) :=
  (if control = .idle then [.call c] else []) ++
    match next with
    | .inl _ => []
    | .inr v => [.ret c v]

variable [DecidableEq ι]

/-- Thread `t` takes the next step of its call; call `i` of the thread is named `(t, i)`. -/
def next (clock : Clock) (delay : Option Nat) (kind : ι × Nat → Kind) (t : ι) (st : State ι) :
    Option (List (Event (ι × Nat)) × State ι) :=
  let c := (t, st.calls t)
  let r := program clock delay (kind c) st.stamp (st.backoff t) (st.control t)
  let st' := { st with stamp := r.stamp, backoff := Function.update st.backoff t r.backoff }
  match r.next with
  | .inl control =>
      some (events c (st.control t) r.next,
        { st' with control := Function.update st.control t control })
  | .inr _ =>
      some (events c (st.control t) r.next,
        { st' with
          control := Function.update st.control t .idle
          calls := Function.update st.calls t (st.calls t + 1) })

/-- Any number of threads, each making any calls in any order. -/
def system (clock : Clock) (delay : Option Nat) (kind : ι × Nat → Kind) :
    System (State ι) ι (Event (ι × Nat)) :=
  System.ofNext (fun st => ∃ backoff, st = initial clock backoff) (next clock delay kind)

/-! ## What a step does -/

/-- The kind of call that moves the clock. -/
def mover : Clock → Kind
  | .timestampRead => .read
  | .timestampWrite => .write

/-- What the moving function adds to the stamp that it has loaded. -/
def offset : Clock → Nat
  | .timestampRead => 0
  | .timestampWrite => 1

/-- The stamp that a call has loaded. -/
def Control.loaded : Control → Option Nat
  | .idle => none
  | .backoff ts _ | .add ts => some ts

/-- Everything a step can do: load the stamp and return it; load it and start to back off; go on with the
stamp that was loaded; or return, when the clock has passed the loaded stamp. -/
inductive Move (clock : Clock) (k : Kind) (stamp : Nat) (control : Control) : Outcome → Prop where
  | load {backoff} : k ≠ mover clock → Move clock k stamp control ⟨stamp, backoff, .inr stamp⟩
  | start {backoff i} : k = mover clock → control = .idle →
      Move clock k stamp control ⟨stamp, backoff, .inl (.backoff stamp i)⟩
  | wait {backoff control' ts} : k = mover clock → control.loaded = some ts →
      control'.loaded = some ts → Move clock k stamp control ⟨stamp, backoff, .inl control'⟩
  | finish {stamp' backoff ts} : k = mover clock → control.loaded = some ts → stamp ≤ stamp' →
      (ts ≤ stamp → ts < stamp') →
      Move clock k stamp control ⟨stamp', backoff, .inr (ts + offset clock)⟩

/-- A step of the moving function is one of the moves. -/
theorem moveClock_move (clock : Clock) (delay : Option Nat) (stamp backoff : Nat)
    (control : Control) :
    Move clock (mover clock) stamp control (moveClock delay (offset clock) stamp backoff control) := by
  cases control with
  | idle => exact .start rfl rfl
  | backoff ts i =>
      simp only [moveClock]
      split
      · exact .wait rfl rfl rfl
      · split
        · exact .wait rfl rfl rfl
        · exact .finish rfl rfl le_rfl (by omega)
  | add ts => exact .finish rfl rfl (Nat.le_succ _) (by omega)

/-- A step of a call is one of the moves. -/
theorem program_move (clock : Clock) (delay : Option Nat) (k : Kind) (stamp backoff : Nat)
    (control : Control) :
    Move clock k stamp control (program clock delay k stamp backoff control) := by
  cases clock with
  | timestampRead =>
      cases k with
      | read => exact moveClock_move .timestampRead delay stamp backoff control
      | write => exact .load (by decide)
  | timestampWrite =>
      cases k with
      | read => exact .load (by decide)
      | write => exact moveClock_move .timestampWrite delay stamp backoff control

/-! ## The invariant -/

/-- The invariant of a clock. A returned stamp is not above the clock, and the stamp that a moving call
had loaded is below it; a call that has loaded `ts` started when no larger stamp had been returned. -/
structure Inv (clock : Clock) (kind : ι × Nat → Kind) (h : List (Event (ι × Nat))) (st : State ι) :
    Prop where
  called : ∀ t i, .call (t, i) ∈ h → i < st.calls t ∨ i = st.calls t ∧ st.control t ≠ .idle
  ended : ∀ t i v, .ret (t, i) v ∈ h → i < st.calls t
  moving : ∀ t, st.control t ≠ .idle → kind (t, st.calls t) = mover clock
  ret_le : ∀ c v, .ret c v ∈ h → v ≤ st.stamp
  ret_lt : ∀ c v, .ret c v ∈ h → kind c = mover clock → v < st.stamp + offset clock
  loaded : ∀ t ts, (st.control t).loaded = some ts → ts ≤ st.stamp ∧
    ∀ c r, Before h (.ret c r) (.call (t, st.calls t)) → r ≤ ts

omit [DecidableEq ι] in
/-- The invariant holds before the first call. -/
theorem Inv.initial (clock : Clock) (kind : ι × Nat → Kind) (backoff : ι → Nat) :
    Inv clock kind [] (initial clock backoff) := by
  constructor <;> simp [FetchAdd.initial, Control.loaded]

omit [DecidableEq ι] in
/-- A call that is about to start has not been called before. -/
theorem Inv.not_called {clock : Clock} {kind : ι × Nat → Kind} {h : List (Event (ι × Nat))}
    {st : State ι} {t : ι} (hinv : Inv clock kind h st) (hidle : st.control t = .idle) :
    .call (t, st.calls t) ∉ h := by
  intro hmem
  rcases hinv.called t _ hmem with hlt | ⟨_, hne⟩
  · exact Nat.lt_irrefl _ hlt
  · exact hne hidle

/-- What a step of thread `t` has to satisfy besides the invariant: a stamp that it returns is not below
the stamps returned before its call, and above the read stamps if it is a write stamp. -/
def Ordered (kind : ι × Nat → Kind) (h es : List (Event (ι × Nat))) : Prop :=
  ∀ c v c' r, .ret c v ∈ es → Before (h ++ es) (.ret c' r) (.call c) →
    r ≤ v ∧ (kind c = .write → kind c' = .read → r < v)

section Steps

variable {clock : Clock} {kind : ι × Nat → Kind} {h es : List (Event (ι × Nat))} {st : State ι} {t : ι}
  {stamp : Nat} {backoff : ι → Nat}

/-- The first event of a call. -/
def callEvent (st : State ι) (t : ι) : List (Event (ι × Nat)) :=
  if st.control t = .idle then [.call (t, st.calls t)] else []

omit [DecidableEq ι] in
/-- The first event of a call belongs to a call that has not started. -/
theorem mem_callEvent {e : Event (ι × Nat)} (he : e ∈ callEvent st t) :
    e = .call (t, st.calls t) ∧ st.control t = .idle := by
  unfold callEvent at he
  split at he
  · exact ⟨List.mem_singleton.mp he, ‹_›⟩
  · simp at he

omit [DecidableEq ι] in
/-- What was returned before the first event of a call has been returned. -/
theorem Inv.before_call (hinv : Inv clock kind h st) (hidle : st.control t = .idle) {c : ι × Nat}
    {r : Nat} (hb : Before (h ++ callEvent st t) (.ret c r) (.call (t, st.calls t))) : .ret c r ∈ h := by
  have hes : callEvent st t = [.call (t, st.calls t)] := if_pos hidle
  rw [hes] at hb
  exact (before_append_singleton (hinv.not_called hidle)).mp hb

/-- The thread has loaded a stamp and goes on with its call. -/
theorem Inv.goOn {control : Control} {ts : Nat} (hinv : Inv clock kind h st)
    (hk : kind (t, st.calls t) = mover clock) (hts : control.loaded = some ts) (hle : ts ≤ st.stamp)
    (hfloor : ∀ c r, Before (h ++ callEvent st t) (.ret c r) (.call (t, st.calls t)) → r ≤ ts) :
    Inv clock kind (h ++ callEvent st t)
      ⟨st.stamp, backoff, st.calls, Function.update st.control t control⟩ := by
  have hne : control ≠ .idle := by
    rintro rfl
    cases hts
  have hret : ∀ {c v}, .ret c v ∈ h ++ callEvent st t → .ret c v ∈ h := by
    intro c v hmem
    rcases List.mem_append.mp hmem with hold | hnew
    · exact hold
    · cases (mem_callEvent hnew).1
  refine ⟨?_, fun u i v hmem => hinv.ended u i v (hret hmem), ?_,
    fun c v hmem => hinv.ret_le c v (hret hmem), fun c v hmem => hinv.ret_lt c v (hret hmem), ?_⟩
  · intro u i hmem
    dsimp only
    rcases eq_or_ne u t with rfl | hu
    · rw [Function.update_self]
      rcases List.mem_append.mp hmem with hold | hnew
      · exact (hinv.called u i hold).imp_right fun hi => ⟨hi.1, hne⟩
      · have heq := (mem_callEvent hnew).1
        cases heq
        exact .inr ⟨rfl, hne⟩
    · rw [Function.update_of_ne hu]
      rcases List.mem_append.mp hmem with hold | hnew
      · exact hinv.called u i hold
      · have heq := (mem_callEvent hnew).1
        cases heq
        exact absurd rfl hu
  · intro u hu'
    dsimp only at hu' ⊢
    rcases eq_or_ne u t with rfl | hu
    · exact hk
    · rw [Function.update_of_ne hu] at hu'
      exact hinv.moving u hu'
  · intro u ts' hts'
    dsimp only at hts' ⊢
    rcases eq_or_ne u t with rfl | hu
    · rw [Function.update_self, hts] at hts'
      cases hts'
      exact ⟨hle, hfloor⟩
    · rw [Function.update_of_ne hu] at hts'
      obtain ⟨hle', hold⟩ := hinv.loaded u ts' hts'
      refine ⟨hle', fun c r hb => hold c r ?_⟩
      refine (before_append_of_not_mem fun hmem => ?_).mp hb
      have heq := (mem_callEvent hmem).1
      cases heq
      exact hu rfl

/-- The thread returns a stamp. -/
theorem Inv.return {v : Nat} (hinv : Inv clock kind h st) (hstamp : st.stamp ≤ stamp) (hle : v ≤ stamp)
    (hlt : kind (t, st.calls t) = mover clock → v < stamp + offset clock) :
    Inv clock kind (h ++ (callEvent st t ++ [.ret (t, st.calls t) v]))
      ⟨stamp, backoff, Function.update st.calls t (st.calls t + 1),
        Function.update st.control t .idle⟩ := by
  have hret : ∀ {c v'}, .ret c v' ∈ h ++ (callEvent st t ++ [.ret (t, st.calls t) v]) →
      .ret c v' ∈ h ∨ c = (t, st.calls t) ∧ v' = v := by
    intro c v' hmem
    rcases List.mem_append.mp hmem with hold | hnew
    · exact .inl hold
    · rcases List.mem_append.mp hnew with hc | hr
      · cases (mem_callEvent hc).1
      · simpa using Or.inr (List.mem_singleton.mp hr)
  have hcall : ∀ {c}, .call c ∈ callEvent st t ++ [.ret (t, st.calls t) v] → c = (t, st.calls t) := by
    intro c hmem
    rcases List.mem_append.mp hmem with hc | hr
    · have heq := (mem_callEvent hc).1
      cases heq
      rfl
    · simp at hr
  refine ⟨?_, ?_, ?_, ?_, ?_, ?_⟩
  · intro u i hmem
    dsimp only
    rcases eq_or_ne u t with rfl | hu
    · rw [Function.update_self]
      rcases List.mem_append.mp hmem with hold | hnew
      · rcases hinv.called u i hold with hi | ⟨rfl, _⟩
        · exact .inl (Nat.lt_succ_of_lt hi)
        · exact .inl (Nat.lt_succ_self _)
      · have heq := hcall hnew
        cases heq
        exact .inl (Nat.lt_succ_self _)
    · rw [Function.update_of_ne hu, Function.update_of_ne hu]
      rcases List.mem_append.mp hmem with hold | hnew
      · exact hinv.called u i hold
      · have heq := hcall hnew
        cases heq
        exact absurd rfl hu
  · intro u i v' hmem
    dsimp only
    rcases hret hmem with hold | ⟨heq, _⟩
    · have hi := hinv.ended u i v' hold
      rcases eq_or_ne u t with rfl | hu
      · rw [Function.update_self]
        exact Nat.lt_succ_of_lt hi
      · rwa [Function.update_of_ne hu]
    · cases heq
      rw [Function.update_self]
      exact Nat.lt_succ_self _
  · intro u hu'
    dsimp only at hu' ⊢
    rcases eq_or_ne u t with rfl | hu
    · rw [Function.update_self] at hu'
      exact absurd rfl hu'
    · rw [Function.update_of_ne hu] at hu'
      rw [Function.update_of_ne hu]
      exact hinv.moving u hu'
  · intro c v' hmem
    rcases hret hmem with hold | ⟨_, rfl⟩
    · exact (hinv.ret_le c v' hold).trans hstamp
    · exact hle
  · intro c v' hmem hk
    rcases hret hmem with hold | ⟨rfl, rfl⟩
    · exact (hinv.ret_lt c v' hold hk).trans_le (Nat.add_le_add_right hstamp _)
    · exact hlt hk
  · intro u ts hts
    dsimp only at hts ⊢
    rcases eq_or_ne u t with rfl | hu
    · rw [Function.update_self] at hts
      cases hts
    · rw [Function.update_of_ne hu] at hts
      rw [Function.update_of_ne hu]
      obtain ⟨hle', hold⟩ := hinv.loaded u ts hts
      refine ⟨hle'.trans hstamp, fun c r hb => hold c r ?_⟩
      refine (before_append_of_not_mem fun hmem => ?_).mp hb
      have heq := hcall hmem
      cases heq
      exact hu rfl

omit [DecidableEq ι] in
/-- The stamp that a step returns is not below the stamps returned before the call. -/
theorem ordered_return {v : Nat} (hv : ∀ c r, Before (h ++ callEvent st t) (.ret c r)
      (.call (t, st.calls t)) →
      r ≤ v ∧ (kind (t, st.calls t) = .write → kind c = .read → r < v)) :
    Ordered kind h (callEvent st t ++ [.ret (t, st.calls t) v]) := by
  intro c v' c' r hmem hb
  rcases List.mem_append.mp hmem with hc | hr
  · cases (mem_callEvent hc).1
  · obtain ⟨rfl, rfl⟩ : c = (t, st.calls t) ∧ v' = v := by simpa using List.mem_singleton.mp hr
    rw [← List.append_assoc] at hb
    exact hv c' r ((before_append_of_not_mem (by simp)).mp hb)

/-- Every step keeps the invariant, and returns its stamp in order. -/
theorem Inv.step {delay : Option Nat} {st' : State ι} (hinv : Inv clock kind h st)
    (hstep : next clock delay kind t st = some (es, st')) :
    Inv clock kind (h ++ es) st' ∧ Ordered kind h es := by
  have hmove := program_move clock delay (kind (t, st.calls t)) st.stamp (st.backoff t) (st.control t)
  simp only [next] at hstep
  generalize program clock delay (kind (t, st.calls t)) st.stamp (st.backoff t) (st.control t) = r
    at hstep hmove
  have hpending : ∀ {ts}, (st.control t).loaded = some ts → callEvent st t = [] := by
    intro ts hts
    refine if_neg fun hidle => ?_
    rw [hidle] at hts
    cases hts
  cases hmove with
  | load hk =>
      cases hstep
      have hidle : st.control t = .idle := by
        by_contra hne
        exact hk (hinv.moving t hne)
      refine ⟨hinv.return le_rfl le_rfl fun habs => absurd habs hk, ordered_return ?_⟩
      intro c r hb
      have hmem := hinv.before_call hidle hb
      refine ⟨hinv.ret_le c r hmem, fun hw hr => ?_⟩
      -- The load is the write stamp of `timestamp_read`, and read stamps are below its clock.
      rw [hw] at hk
      cases clock with
      | timestampRead => exact hinv.ret_lt c r hmem hr
      | timestampWrite => exact absurd rfl hk
  | start hk hidle =>
      cases hstep
      rw [show events (t, st.calls t) (st.control t) _ = callEvent st t from by
        simp [events, callEvent]]
      refine ⟨hinv.goOn hk rfl le_rfl fun c r hb => hinv.ret_le c r (hinv.before_call hidle hb), ?_⟩
      intro c v c' r hmem
      cases (mem_callEvent hmem).1
  | wait hk hts hts' =>
      cases hstep
      rw [show events (t, st.calls t) (st.control t) _ = callEvent st t from by
        simp [events, callEvent]]
      obtain ⟨hle, hfloor⟩ := hinv.loaded t _ hts
      refine ⟨hinv.goOn hk hts' hle fun c r hb => hfloor c r ?_, ?_⟩
      · rwa [hpending hts, List.append_nil] at hb
      · intro c v c' r hmem
        cases (mem_callEvent hmem).1
  | @finish stamp' backoff ts hk hts hstamp hpast =>
      cases hstep
      obtain ⟨hle, hfloor⟩ := hinv.loaded t ts hts
      have hlt := hpast hle
      have hoff : offset clock ≤ 1 := by cases clock <;> decide
      have hup : ts + offset clock ≤ stamp' := by omega
      have hbelow : ts + offset clock < stamp' + offset clock := by omega
      refine ⟨hinv.return hstamp hup fun _ => hbelow, ordered_return ?_⟩
      intro c r hb
      rw [hpending hts, List.append_nil] at hb
      have hr := hfloor c r hb
      refine ⟨by omega, fun hw _ => ?_⟩
      rw [hw] at hk
      cases clock with
      | timestampRead => cases hk
      | timestampWrite =>
          simp only [offset]
          omega

end Steps

/-- A step starts no call that has returned. -/
theorem Inv.not_call_mem {clock : Clock} {delay : Option Nat} {kind : ι × Nat → Kind}
    {h es : List (Event (ι × Nat))} {st st' : State ι} {t : ι} (hinv : Inv clock kind h st)
    (hstep : next clock delay kind t st = some (es, st')) {c : ι × Nat} {v : Nat}
    (hret : .ret c v ∈ h) : .call c ∉ es := by
  intro hmem
  have hc : c = (t, st.calls t) := by
    simp only [next] at hstep
    split at hstep <;>
      cases hstep <;>
      simp only [events] at hmem <;>
      grind
  subst hc
  exact Nat.lt_irrefl _ (hinv.ended t _ v hret)

omit [DecidableEq ι] in
/-- Returned stamps stay in order. -/
theorem ordered_append {kind : ι × Nat → Kind} {h es : List (Event (ι × Nat))}
    (hold : Ordered kind [] h) (hnew : Ordered kind h es)
    (hcall : ∀ c v, .ret c v ∈ h → .call c ∉ es) : Ordered kind [] (h ++ es) := by
  intro c v c' r hmem hb
  rw [List.nil_append] at hb
  rcases List.mem_append.mp hmem with hret | hret
  · refine hold c v c' r hret ?_
    rw [List.nil_append]
    exact (before_append_of_not_mem (hcall c v hret)).mp hb
  · exact hnew c v c' r hret hb

/-- The contract of the two clocks: write stamps are above the read stamps returned before their call, and
read stamps are not below the write stamps returned before theirs. -/
theorem fetchAdd_stamps_ordered {clock : Clock} {delay : Option Nat} {kind : ι × Nat → Kind}
    {h : List (Event (ι × Nat))} {st : State ι} (hexec : Exec (system clock delay kind) h st) :
    WriteAfterRead kind h ∧ ReadAfterWrite kind h := by
  obtain ⟨_, hord⟩ : Inv clock kind h st ∧ Ordered kind [] h := by
    refine Exec.invariant (P := fun h st => Inv clock kind h st ∧ Ordered kind [] h) ?_ ?_ hexec
    · rintro _ ⟨backoff, rfl⟩
      exact ⟨Inv.initial clock kind backoff, fun c v c' r hmem => by simp at hmem⟩
    · rintro h st t es st' _ ⟨hinv, hord⟩ hstep
      obtain ⟨hinv', hnew⟩ := hinv.step hstep
      exact ⟨hinv', ordered_append hord hnew fun c v hret => hinv.not_call_mem hstep hret⟩
  exact ⟨fun c c' r w hc hc' hb hret => (hord c' w c r hret hb).2 hc' hc,
    fun c c' w r _ _ hb hret => (hord c' r c w hret hb).1⟩

/-- A run of `timestamp_read`: both readers load 1, both find it unchanged and both add, so that the next
write stamp is 3. -/
theorem fetchAdd_stamps_ordered_run :
    ∃ h st, Exec (system .timestampRead none fun c : Fin 3 × Nat => if c.1 < 2 then .read else .write)
        h st ∧
      Before h (.ret (1, 0) 1) (.call (2, 0)) ∧ .ret (2, 0) 3 ∈ h ∧
      WriteAfterRead (fun c : Fin 3 × Nat => if c.1 < 2 then .read else .write) h := by
  obtain ⟨st, hexec⟩ : ∃ st, Exec
      (system .timestampRead none fun c : Fin 3 × Nat => if c.1 < 2 then .read else .write)
      [.call (0, 0), .call (1, 0), .ret (0, 0) 1, .ret (1, 0) 1, .call (2, 0), .ret (2, 0) 3] st :=
    ⟨_, exec_of_run [0, 1, 0, 1, 0, 1, 2] ⟨fun _ => 0, rfl⟩ rfl⟩
  exact ⟨_, st, hexec, by decide, by decide, (fetchAdd_stamps_ordered hexec).1⟩

end Verlib.Timestamps.FetchAdd
