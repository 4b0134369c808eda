import Verlib.Flock.Thunk
import Verlib.Interleaving.System

/-!
# Idempotence of logged thunks

Thunks are run one after another on shared cells, each by any number of processes that share its log.
The steps are those of `lf_types.h`, `lf_log.h` and `tagged.h` with a log that is not empty: every
load of a cell, every load and compare-exchange of a log entry, every compare-exchange of a cell, the
store of the mark, and the load and compare-exchange of the link to the next block of the log are
separate steps. A thunk may start once some process has finished the one before it, and processes of
earlier thunks go on.

Tags are natural numbers: fewer increments are made than make the tag wrap, so `tagged::next` never
sees an announced tag and only increments.
-/

namespace Verlib.Flock.Idempotence

open Interleaving

/-- The length of a block of a log. -/
def logLen : Nat := 8

/-- The log of a thunk: a chain of blocks of `logLen` entries. Entry `i` of block `b` is the entry
`b * logLen + i`, and `linked b` says that the `next` of block `b` is set. -/
structure Log where
  entries : Nat → Option Word
  linked : Nat → Bool

/-- The shared memory: cells, the log of every thunk of the sequence, and the allocated addresses. -/
structure Shared (κ : Type) where
  cells : κ → Word
  logs : Nat → Log
  allocated : Nat → Bool

/-- What a process wants from the next log entry: to commit a word, or to find or set the mark of
`skip_if_done_no_log`. -/
inductive Goal where
  | commit (x : Word)
  | mark

/-- Where a process stands in an operation: before it, in `next_entry` (with a full block: loading
the link, compare-exchanging it), loading the entry `l`, at the compare-exchange of the entry or of
the cell, before the store of the mark, or about to destruct an object whose commit was lost. -/
inductive Control where
  | fetch
  | next (g : Goal)
  | nextCas (g : Goal)
  | look (l : Nat) (g : Goal)
  | swap (l : Nat) (g : Goal)
  | set (l : Nat)
  | free (a : Nat)

/-- A process running thunk number `thunk`: its position, and its `Log`, that is the block and the
count of entries taken there. -/
structure Proc (κ : Type) where
  thunk : Nat
  point : Point κ
  vals : Nat
  count : Nat
  control : Control

/-- The shared memory, the processes, how many thunks have been started, and which are finished. -/
structure State (κ π : Type) where
  shared : Shared κ
  procs : π → Option (Proc κ)
  started : Nat
  finished : Nat → Bool

/-- A process finished a thunk with a result. -/
inductive Event (π : Type) where
  | finished (p : π) (thunk r : Nat)
  deriving DecidableEq

/-- What the scheduler chooses: a process starts a thunk, takes a step, allocates the address `a`, or
returns from its thunk. -/
inductive Action (π : Type) where
  | start (p : π) (thunk : Nat)
  | step (p : π)
  | alloc (p : π) (a : Nat)
  | finish (p : π)

/-- The process that acts. -/
def Action.proc {π : Type} : Action π → π
  | .start p _ | .step p | .alloc p _ | .finish p => p

variable {κ π : Type} [DecidableEq κ]

/-- `Log(&lg_array, 0)`: a process at the beginning of a thunk. -/
def Proc.begin (thunk : Nat) (t : Thunk κ) : Proc κ :=
  ⟨thunk, .op t, 0, 0, .fetch⟩

/-- `&(*vals)[count++]`: take the next entry of the current block. -/
def Proc.take (pr : Proc κ) (g : Goal) : Proc κ :=
  { pr with count := pr.count + 1, control := .look (pr.vals * logLen + pr.count) g }

/-- Move to the next block. -/
def Proc.nextBlock (pr : Proc κ) : Proc κ :=
  { pr with vals := pr.vals + 1, count := 0 }

/-- Go on with the word that the log entry holds. -/
def Proc.consume (pr : Proc κ) (e : Word) : Proc κ :=
  { pr with point := pr.point.advance e, control := .fetch }

/-- Go on with the word that another process committed. An allocation first destructs the object that
it does not need. -/
def Proc.lose (pr : Proc κ) (g : Goal) (e : Word) : Proc κ :=
  match pr.point, g with
  | .op (.newObj _), .commit x => { pr.consume e with control := .free x.data }
  | _, _ => pr.consume e

/-- Write entry `l` of the log of thunk `n`. -/
def Shared.setEntry (sh : Shared κ) (n l : Nat) (e : Word) : Shared κ :=
  let log := sh.logs n
  let log' := { log with entries := Function.update log.entries l (some e) }
  { sh with logs := Function.update sh.logs n log' }

/-- Link block `b + 1` to block `b` of the log of thunk `n`. -/
def Shared.link (sh : Shared κ) (n b : Nat) : Shared κ :=
  let log := sh.logs n
  let log' := { log with linked := Function.update log.linked b true }
  { sh with logs := Function.update sh.logs n log' }

/-- The compare-exchange of a cell at a write position. -/
def Shared.cas (sh : Shared κ) : Point κ → Shared κ
  | .write c w v _ =>
      if sh.cells c = w then { sh with cells := Function.update sh.cells c (w.next v) } else sh
  | .op _ => sh

/-- The cell whose word a process at this position commits. -/
def cellOf : Point κ → Option κ
  | .op (.load c _) | .op (.store c _ _) | .op (.cam c _ _ _) => some c
  | _ => none

/-- One step of a process inside its thunk. -/
def stepProc (sh : Shared κ) (pr : Proc κ) : Option (Shared κ × Proc κ) :=
  match pr.control with
  | .fetch =>
      match pr.point with
      | .write _ _ _ _ => some (sh, { pr with control := .next .mark })
      | .op t => (cellOf (.op t)).map fun c =>
          (sh, { pr with control := .next (.commit (sh.cells c)) })
  | .next g =>
      if pr.count = logLen then
        if (sh.logs pr.thunk).linked pr.vals then some (sh, pr.nextBlock.take g)
        else some (sh, { pr with control := .nextCas g })
      else some (sh, pr.take g)
  | .nextCas g => some (sh.link pr.thunk pr.vals, pr.nextBlock.take g)
  | .look l g =>
      match (sh.logs pr.thunk).entries l with
      | some e => some (sh, pr.lose g e)
      | none => some (sh, { pr with control := .swap l g })
  | .swap l (.commit x) =>
      match (sh.logs pr.thunk).entries l with
      | some e => some (sh, pr.lose (.commit x) e)
      | none => some (sh.setEntry pr.thunk l x, pr.consume x)
  | .swap l .mark => some (sh.cas pr.point, { pr with control := .set l })
  | .set l => some (sh.setEntry pr.thunk l .mark, pr.consume .mark)
  | .free a =>
      some ({ sh with allocated := Function.update sh.allocated a false },
        { pr with control := .fetch })

/-- Replace the shared memory and one process. -/
def State.move [DecidableEq π] (st : State κ π) (p : π) (sh : Shared κ) (pr : Option (Proc κ)) : State κ π :=
  { st with shared := sh, procs := Function.update st.procs p pr }

/-- The next state, if the action is possible. An idle process may join any thunk that has started,
or start the next one if some process has finished the last. -/
def next [DecidableEq π] (thunks : Nat → Thunk κ) :
    Action π → State κ π → Option (List (Event π) × State κ π)
  | .start p n, st =>
      match st.procs p with
      | some _ => none
      | none =>
          if n < st.started then some ([], st.move p st.shared (some (.begin n (thunks n))))
          else if n = st.started ∧ (n = 0 ∨ st.finished (n - 1)) then
            some ([], { st.move p st.shared (some (.begin n (thunks n))) with started := n + 1 })
          else none
  | .step p, st => do
      let pr ← st.procs p
      let (sh, pr') ← stepProc st.shared pr
      pure ([], st.move p sh (some pr'))
  | .alloc p a, st =>
      match st.procs p with
      | some ⟨n, .op (.newObj k), vals, count, .fetch⟩ =>
          if a ≠ 0 ∧ st.shared.allocated a = false then
            some ([], st.move p
              { st.shared with allocated := Function.update st.shared.allocated a true }
              (some ⟨n, .op (.newObj k), vals, count, .next (.commit (.address a))⟩))
          else none
      | _ => none
  | .finish p, st =>
      match st.procs p with
      | some ⟨n, .op (.ret r), _, _, .fetch⟩ =>
          some ([.finished p n r],
            { st.move p st.shared none with finished := Function.update st.finished n true })
      | _ => none

/-- Every cell holds its initial value, no log entry is committed, and nothing has started. -/
def initial (m : κ → Nat) : State κ π where
  shared := ⟨fun c => .init (m c), fun _ => ⟨fun _ => none, fun _ => false⟩, fun _ => false⟩
  procs _ := none
  started := 0
  finished _ := false

/-- Any number of processes running the thunks of a sequence on shared cells. -/
def system (π : Type) [DecidableEq π] (thunks : Nat → Thunk κ) (m : κ → Nat) :
    System (State κ π) (Action π) (Event π) :=
  System.ofNext (fun st => st = initial m) (next thunks)

/-- The number of log entries that a process has gone past. -/
def Proc.pos (pr : Proc κ) : Nat :=
  match pr.control with
  | .look l _ | .swap l _ | .set l => l
  | _ => pr.vals * logLen + pr.count

/-- A process that works on an entry has taken it from its block, and one that links a block has
filled the last one. -/
def Proc.Cursor (pr : Proc κ) : Prop :=
  match pr.control with
  | .look l _ | .swap l _ | .set l => l + 1 = pr.vals * logLen + pr.count
  | .nextCas _ => pr.count = logLen
  | _ => True

/-- The goal of a process fits its position, and at the end of the log the word to commit is the one
in the cell. -/
def GoalOk (cells : κ → Word) (last : Prop) : Point κ → Goal → Prop
  | .op (.newObj _), .commit x => ∃ a, x = .address a
  | .op (.load c _), .commit x | .op (.store c _ _), .commit x | .op (.cam c _ _ _), .commit x =>
      last → x = cells c
  | .write _ _ _ _, .mark => True
  | _, _ => False

/-- What a process at position `pt` knows; `last` says that it stands at the end of the log. A process
about to compare-exchange a cell whose store is marked already has an old tag in hand, and one that
has done it has seen to it that the new word is in the cell. -/
def ControlOk (cells : κ → Word) (last : Prop) (pt : Point κ) : Control → Prop
  | .fetch | .free _ => True
  | .next g | .nextCas g | .look _ g => GoalOk cells last pt g
  | .swap _ g => GoalOk cells last pt g ∧
      (¬ last → ∀ c w v k, pt = .write c w v k → w.tag < (cells c).tag)
  | .set _ => ∃ c w v k, pt = .write c w v k ∧ (last → cells c = w.next v)

/-- What holds of a process that runs thunk `t`, whose log is `l`. -/
structure ProcOk (t : Thunk κ) (l : List Word) (cells : κ → Word) (pr : Proc κ) : Prop where
  le : pr.pos ≤ l.length
  cursor : pr.Cursor
  point : pr.point = (Point.op t).after (l.take pr.pos)
  control : ControlOk cells (pr.pos = l.length) pr.point pr.control

section Process

variable {t : Thunk κ} {l : List Word} {cells : κ → Word} {pr : Proc κ}

omit [DecidableEq κ] in
/-- A process at the beginning of a thunk. -/
theorem ProcOk.begin (n : Nat) : ProcOk t l cells (.begin n t) where
  le := by simp [Proc.begin, Proc.pos]
  cursor := trivial
  point := by simp [Proc.begin, Proc.pos, Point.after]
  control := trivial

omit [DecidableEq κ] in
/-- A process at the end of the log stands where the log ends. -/
theorem ProcOk.point_of_last (hpr : ProcOk t l cells pr) (hlast : pr.pos = l.length) :
    pr.point = (Point.op t).after l := by
  rw [hpr.point, hlast, List.take_length]

omit [DecidableEq κ] in
/-- A process that stays at the same entry. -/
theorem ProcOk.set_control (hpr : ProcOk t l cells pr) {x : Control}
    (hpos : { pr with control := x }.pos = pr.pos) (hcursor : { pr with control := x }.Cursor)
    (hx : ControlOk cells (pr.pos = l.length) pr.point x) :
    ProcOk t l cells { pr with control := x } where
  le := hpos ▸ hpr.le
  cursor := hcursor
  point := hpos ▸ hpr.point
  control := by
    rw [hpos]
    exact hx

omit [DecidableEq κ] in
/-- A process that takes its next entry, from whichever block holds it. -/
theorem ProcOk.take (hpr : ProcOk t l cells pr) {g : Goal} {vals count : Nat}
    (hpos : vals * logLen + count = pr.pos)
    (hg : GoalOk cells (pr.pos = l.length) pr.point g) :
    ProcOk t l cells ({ pr with vals := vals, count := count }.take g) := by
  have hnew : ({ pr with vals := vals, count := count }.take g).pos = pr.pos := hpos
  refine ⟨hnew ▸ hpr.le, rfl, hnew ▸ hpr.point, ?_⟩
  rw [hnew]
  exact hg

omit [DecidableEq κ] in
/-- A process that has filled its block takes its next entry from the next one. -/
theorem ProcOk.nextBlock (hpr : ProcOk t l cells pr) {g : Goal}
    (hpos : pr.vals * logLen + pr.count = pr.pos) (hcount : pr.count = logLen)
    (hg : GoalOk cells (pr.pos = l.length) pr.point g) :
    ProcOk t l cells (pr.nextBlock.take g) := by
  refine hpr.take ?_ hg
  rw [← hpos, hcount, Nat.succ_mul]
  rfl

omit [DecidableEq κ] in
/-- A process that goes on with the entry it worked on. -/
theorem ProcOk.consume (hpr : ProcOk t l cells pr) {e : Word} {x : Control}
    (hpos : pr.pos + 1 = pr.vals * logLen + pr.count) (he : l[pr.pos]? = some e)
    (hx : x = .fetch ∨ ∃ a, x = .free a) :
    ProcOk t l cells { pr.consume e with control := x } := by
  have hlt : pr.pos < l.length := (List.getElem?_eq_some_iff.mp he).1
  have hnew : { pr.consume e with control := x }.pos = pr.pos + 1 := by
    rcases hx with rfl | ⟨a, rfl⟩ <;> exact hpos.symm
  refine ⟨hnew ▸ hlt, ?_, ?_, ?_⟩
  · rcases hx with rfl | ⟨a, rfl⟩ <;> trivial
  · rw [hnew, List.take_add_one, he]
    show pr.point.advance e = _
    rw [Option.toList_some, Point.after_concat, ← hpr.point]
  · rcases hx with rfl | ⟨a, rfl⟩ <;> trivial

omit [DecidableEq κ] in
/-- A process that goes on with the entry of another process. -/
theorem ProcOk.lose (hpr : ProcOk t l cells pr) {g : Goal} {e : Word}
    (hpos : pr.pos + 1 = pr.vals * logLen + pr.count) (he : l[pr.pos]? = some e) :
    ProcOk t l cells (pr.lose g e) := by
  unfold Proc.lose
  split
  · exact hpr.consume hpos he (.inr ⟨_, rfl⟩)
  · exact hpr.consume hpos he (.inl rfl)

omit [DecidableEq κ] in
/-- An entry added to the log by another process. If the log ended at a write, its store is done. -/
theorem ProcOk.append (hpr : ProcOk t l cells pr) (e : Word)
    (hend : ∀ c w v k, (Point.op t).after l = .write c w v k → w.tag < (cells c).tag) :
    ProcOk t (l ++ [e]) cells pr := by
  have hle := hpr.le
  have hlast : ¬ pr.pos = (l ++ [e]).length := by
    rw [List.length_append, List.length_singleton]
    omega
  refine ⟨?_, hpr.cursor, ?_, ?_⟩
  · rw [List.length_append]
    omega
  · rw [List.take_append_of_le_length hle]
    exact hpr.point
  · have hold := hpr.control
    have hgoal : ∀ g, GoalOk cells (pr.pos = l.length) pr.point g →
        GoalOk cells (pr.pos = (l ++ [e]).length) pr.point g := by
      intro g hg
      unfold GoalOk at hg ⊢
      split at hg <;> simp_all
    cases hc : pr.control with
    | fetch | free a => trivial
    | next g | nextCas g | look i g =>
        rw [hc] at hold
        exact hgoal g hold
    | swap i g =>
        rw [hc] at hold
        refine ⟨hgoal g hold.1, ?_⟩
        intro _ c w v k hp
        by_cases hpos : pr.pos = l.length
        · exact hend c w v k (by rw [← hpr.point_of_last hpos, hp])
        · exact hold.2 hpos c w v k hp
    | set i =>
        rw [hc] at hold
        obtain ⟨c, w, v, k, hp, _⟩ := hold
        exact ⟨c, w, v, k, hp, fun habs => absurd habs hlast⟩

/-- A store to a cell by another process. The log ends at this store, or the thunk is complete. -/
theorem ProcOk.store (hpr : ProcOk t l cells pr) {c : κ} {w : Word} {v : Nat} {k : Thunk κ}
    (hc : cells c = w)
    (hend : (Point.op t).after l = .write c w v k ∨ ∃ r, (Point.op t).after l = .op (.ret r)) :
    ProcOk t l (Function.update cells c (w.next v)) pr := by
  have htag : ∀ d (x : Word), x.tag < (cells d).tag →
      x.tag < (Function.update cells c (w.next v) d).tag := by
    intro d x hx
    by_cases hd : d = c
    · subst hd
      rw [hc] at hx
      rw [Function.update_self]
      exact Nat.lt_succ_of_lt hx
    · rwa [Function.update_of_ne hd]
  have hgoal : ∀ g, GoalOk cells (pr.pos = l.length) pr.point g →
      GoalOk (Function.update cells c (w.next v)) (pr.pos = l.length) pr.point g := by
    intro g hg
    by_cases hpos : pr.pos = l.length
    · rw [hpr.point_of_last hpos] at hg ⊢
      rcases hend with hend | ⟨r, hend⟩ <;> rw [hend] at hg ⊢ <;> cases g <;> exact hg
    · unfold GoalOk at hg ⊢
      split at hg <;> simp_all
  refine ⟨hpr.le, hpr.cursor, hpr.point, ?_⟩
  have hold := hpr.control
  cases hx : pr.control with
  | fetch | free a => trivial
  | next g | nextCas g | look i g =>
      rw [hx] at hold
      exact hgoal g hold
  | swap i g =>
      rw [hx] at hold
      exact ⟨hgoal g hold.1, fun hpos d x u q hp => htag d x (hold.2 hpos d x u q hp)⟩
  | set i =>
      rw [hx] at hold
      obtain ⟨d, x, u, q, hp, _⟩ := hold
      refine ⟨d, x, u, q, hp, ?_⟩
      intro hpos
      rw [hpr.point_of_last hpos] at hp
      rcases hend with hend | ⟨r, hend⟩
      · rw [hend] at hp
        cases hp
        exact Function.update_self ..
      · rw [hend] at hp
        cases hp

end Process

/-! ## The invariant -/

section Logs

variable (thunks : Nat → Thunk κ) (m : κ → Nat) (logs : Nat → List Word)

/-- The cells before thunk `n`, according to the logs of the thunks before it. -/
def cellsBefore : Nat → κ → Word
  | 0 => fun c => .init (m c)
  | n + 1 => (Point.op (thunks n)).cellsAfter (cellsBefore n) (logs n)

/-- Where the log of thunk `n` ends. -/
def endPoint (n : Nat) : Point κ :=
  (Point.op (thunks n)).after (logs n)

/-- The addresses that the log of thunk `n` gives to its allocations. -/
def addrsOf (n : Nat) : List Nat :=
  (Point.op (thunks n)).addrs (logs n)

/-- Thunk `n` has been run to its end. -/
def Complete (n : Nat) : Prop :=
  ∃ r, endPoint thunks logs n = .op (.ret r)

/-- What the cells hold: what the logs say, or, when the last log ends at a write, that write done. -/
def CellsOk (started : Nat) (cells : κ → Word) : Prop :=
  cells = cellsBefore thunks m logs started ∨
    ∃ n c w v k, started = n + 1 ∧ endPoint thunks logs n = .write c w v k ∧
      cells = Function.update (cellsBefore thunks m logs started) c (w.next v)

/-- The invariant of the cells, the logs and the processes, for the logs as lists. -/
structure Good (h : List (Event π)) (st : State κ π) : Prop where
  entries : ∀ n i, (st.shared.logs n).entries i = (logs n)[i]?
  valid : ∀ n, (Point.op (thunks n)).Valid (cellsBefore thunks m logs n) (logs n)
  unstarted : ∀ n, st.started ≤ n → logs n = []
  complete : ∀ n, n + 1 < st.started → Complete thunks logs n
  finished : ∀ n, st.finished n → n < st.started ∧ Complete thunks logs n
  results : ∀ p n r, .finished p n r ∈ h →
    st.finished n ∧ endPoint thunks logs n = .op (.ret r)
  cells : CellsOk thunks m logs st.started st.shared.cells
  procs : ∀ p pr, st.procs p = some pr →
    pr.thunk < st.started ∧ ProcOk (thunks pr.thunk) (logs pr.thunk) st.shared.cells pr

end Logs

/-- The address that a process wants to commit, if it is at an allocation. -/
def heldBy : Point κ → Goal → Option Nat
  | .op (.newObj _), .commit x => some x.data
  | _, _ => none

/-- The address of an object that a process has allocated and not shared. -/
def Proc.held (pr : Proc κ) : Option Nat :=
  match pr.control with
  | .next g | .nextCas g | .look _ g | .swap _ g => heldBy pr.point g
  | .free a => some a
  | .fetch | .set _ => none

/-- Process `p` holds the address `a`. -/
def Holds (procs : π → Option (Proc κ)) (p : π) (a : Nat) : Prop :=
  ∃ pr, procs p = some pr ∧ pr.held = some a

/-- The invariant of the heap: addresses in the logs are allocated and distinct, and so are the
addresses that processes hold. -/
structure Heap (addrs : Nat → List Nat) (allocated : Nat → Bool)
    (procs : π → Option (Proc κ)) : Prop where
  committed : ∀ n, ∀ a ∈ addrs n, allocated a
  nodup : ∀ n, (addrs n).Nodup
  disjoint : ∀ n n' a, a ∈ addrs n → a ∈ addrs n' → n = n'
  holds : ∀ p a, Holds procs p a → allocated a ∧ ∀ n, a ∉ addrs n
  unique : ∀ p q a, Holds procs p a → Holds procs q a → p = q

/-- The invariant. -/
def Inv (thunks : Nat → Thunk κ) (m : κ → Nat) (h : List (Event π)) (st : State κ π) : Prop :=
  ∃ logs, Good thunks m logs h st ∧
    Heap (addrsOf thunks logs) st.shared.allocated st.procs

/-! ### The heap -/

section HeapSteps

variable [DecidableEq π] {addrs : Nat → List Nat} {allocated : Nat → Bool}
  {procs : π → Option (Proc κ)} {p : π} {pr : Option (Proc κ)}

omit [DecidableEq κ] in
/-- What a process holds after one process has moved. -/
theorem holds_update {q : π} {a : Nat} :
    Holds (Function.update procs p pr) q a ↔
      q ≠ p ∧ Holds procs q a ∨ q = p ∧ ∃ x, pr = some x ∧ x.held = some a := by
  by_cases hq : q = p
  · subst hq
    simp [Holds]
  · simp [Holds, hq]

omit [DecidableEq κ] in
/-- A process moves, holding nothing new. -/
theorem Heap.move (hheap : Heap addrs allocated procs)
    (hheld : ∀ x a, pr = some x → x.held = some a → Holds procs p a) :
    Heap addrs allocated (Function.update procs p pr) := by
  have hold : ∀ q a, Holds (Function.update procs p pr) q a → Holds procs q a := by
    intro q a hq
    rcases holds_update.mp hq with ⟨_, hq⟩ | ⟨rfl, x, hx, ha⟩
    · exact hq
    · exact hheld x a hx ha
  exact ⟨hheap.committed, hheap.nodup, hheap.disjoint, fun q a hq => hheap.holds q a (hold q a hq),
    fun q q' a hq hq' => hheap.unique q q' a (hold q a hq) (hold q' a hq')⟩

omit [DecidableEq κ] in
/-- A process allocates an address. -/
theorem Heap.alloc (hheap : Heap addrs allocated procs) {a : Nat} {x : Proc κ}
    (hfree : allocated a = false) (hx : x.held = some a) :
    Heap addrs (Function.update allocated a true) (Function.update procs p (some x)) := by
  have hmono : ∀ b, allocated b = true → Function.update allocated a true b = true := by
    intro b hb
    by_cases hba : b = a <;> simp [hba, hb]
  have hnew : ∀ n, a ∉ addrs n := by
    intro n ha
    have := hheap.committed n a ha
    simp [hfree] at this
  have hother : ∀ q, ¬ Holds procs q a := by
    intro q hq
    have := (hheap.holds q a hq).1
    simp [hfree] at this
  have hcases : ∀ q b, Holds (Function.update procs p (some x)) q b →
      q ≠ p ∧ b ≠ a ∧ Holds procs q b ∨ q = p ∧ b = a := by
    intro q b hq
    rcases holds_update.mp hq with ⟨hne, hq⟩ | ⟨rfl, y, hy, hb⟩
    · left
      refine ⟨hne, ?_, hq⟩
      rintro rfl
      exact hother q hq
    · cases hy
      rw [hx] at hb
      cases hb
      exact .inr ⟨rfl, rfl⟩
  refine ⟨fun n b hb => hmono b (hheap.committed n b hb), hheap.nodup, hheap.disjoint, ?_, ?_⟩
  · intro q b hq
    rcases hcases q b hq with ⟨_, _, hq⟩ | ⟨_, rfl⟩
    · exact ⟨hmono b (hheap.holds q b hq).1, (hheap.holds q b hq).2⟩
    · exact ⟨Function.update_self .., hnew⟩
  · intro q q' b hq hq'
    rcases hcases q b hq with ⟨_, hb, hq⟩ | ⟨rfl, rfl⟩
    · rcases hcases q' b hq' with ⟨_, _, hq'⟩ | ⟨_, hb'⟩
      · exact hheap.unique q q' b hq hq'
      · exact absurd hb' hb
    · rcases hcases q' b hq' with ⟨_, hb', _⟩ | ⟨rfl, _⟩
      · exact absurd rfl hb'
      · rfl

omit [DecidableEq κ] in
/-- A process destructs the object that it holds. -/
theorem Heap.free (hheap : Heap addrs allocated procs) {a : Nat} {x : Proc κ}
    (ha : Holds procs p a) (hx : x.held = none) :
    Heap addrs (Function.update allocated a false) (Function.update procs p (some x)) := by
  have hold : ∀ q b, Holds (Function.update procs p (some x)) q b → q ≠ p ∧ Holds procs q b := by
    intro q b hq
    rcases holds_update.mp hq with hq | ⟨_, y, hy, hb⟩
    · exact hq
    · cases hy
      simp [hx] at hb
  refine ⟨?_, hheap.nodup, hheap.disjoint, ?_, ?_⟩
  · intro n b hb
    have hne : b ≠ a := by
      rintro rfl
      exact (hheap.holds p b ha).2 n hb
    rw [Function.update_of_ne hne]
    exact hheap.committed n b hb
  · intro q b hq
    obtain ⟨hqp, hq⟩ := hold q b hq
    have hne : b ≠ a := by
      rintro rfl
      exact hqp (hheap.unique q p b hq ha)
    rw [Function.update_of_ne hne]
    exact hheap.holds q b hq
  · intro q q' b hq hq'
    exact hheap.unique q q' b (hold q b hq).2 (hold q' b hq').2

omit [DecidableEq κ] in
/-- A process commits the address that it holds to the log of thunk `n`. -/
theorem Heap.commit (hheap : Heap addrs allocated procs) {a n : Nat} {x : Proc κ}
    (ha : Holds procs p a) (hx : x.held = none) :
    Heap (Function.update addrs n (addrs n ++ [a])) allocated
      (Function.update procs p (some x)) := by
  have hold : ∀ q b, Holds (Function.update procs p (some x)) q b → b ≠ a ∧ Holds procs q b := by
    intro q b hq
    rcases holds_update.mp hq with ⟨hqp, hq⟩ | ⟨_, y, hy, hb⟩
    · refine ⟨?_, hq⟩
      rintro rfl
      exact hqp (hheap.unique q p b hq ha)
    · cases hy
      simp [hx] at hb
  have hmem : ∀ i b, b ∈ Function.update addrs n (addrs n ++ [a]) i ↔
      b ∈ addrs i ∨ i = n ∧ b = a := by
    intro i b
    by_cases hi : i = n
    · subst hi
      simp
    · simp [hi]
  obtain ⟨hal, hnew⟩ := hheap.holds p a ha
  refine ⟨?_, ?_, ?_, ?_, ?_⟩
  · intro i b hb
    rcases (hmem i b).mp hb with hb | ⟨_, rfl⟩
    · exact hheap.committed i b hb
    · exact hal
  · intro i
    by_cases hi : i = n
    · subst hi
      rw [Function.update_self, List.nodup_append]
      refine ⟨hheap.nodup i, List.nodup_cons.mpr ⟨List.not_mem_nil, List.nodup_nil⟩, ?_⟩
      rintro b hb c hc rfl
      rw [List.mem_singleton] at hc
      subst hc
      exact hnew i hb
    · rw [Function.update_of_ne hi]
      exact hheap.nodup i
  · intro i j b hi hj
    rcases (hmem i b).mp hi with hi' | ⟨hin, rfl⟩
    · rcases (hmem j b).mp hj with hj' | ⟨_, rfl⟩
      · exact hheap.disjoint i j b hi' hj'
      · exact absurd hi' (hnew i)
    · rcases (hmem j b).mp hj with hj' | ⟨hjn, _⟩
      · exact absurd hj' (hnew j)
      · exact hin.trans hjn.symm
  · intro q b hq
    obtain ⟨hne, hq⟩ := hold q b hq
    refine ⟨(hheap.holds q b hq).1, ?_⟩
    intro i hb
    rcases (hmem i b).mp hb with hb | ⟨_, rfl⟩
    · exact (hheap.holds q b hq).2 i hb
    · exact hne rfl
  · intro q q' b hq hq'
    exact hheap.unique q q' b (hold q b hq).2 (hold q' b hq').2

end HeapSteps

/-! ### The logs and the cells -/

section GoodSteps

variable {thunks : Nat → Thunk κ} {m : κ → Nat} {logs : Nat → List Word} {h : List (Event π)}
  {st : State κ π}

/-- The cells before a thunk depend only on the logs of earlier thunks. -/
theorem cellsBefore_congr {logs' : Nat → List Word} {n : Nat}
    (heq : ∀ i, i < n → logs' i = logs i) :
    cellsBefore thunks m logs' n = cellsBefore thunks m logs n := by
  induction n with
  | zero => rfl
  | succ n ih =>
      have hn := heq n (Nat.lt_succ_self n)
      have hprev := ih fun i hi => heq i (Nat.lt_succ_of_lt hi)
      simp only [cellsBefore, hn, hprev]

/-- At the end of a log that is at a write, the old word is still what the logs say of the cell. -/
theorem Good.ready (hgood : Good thunks m logs h st) (n : Nat) :
    (endPoint thunks logs n).Ready (cellsBefore thunks m logs (n + 1)) :=
  Point.Ready.after (by rintro c w v k ⟨⟩) (hgood.valid n)

/-- A process at the end of an unfinished log runs the last thunk. -/
theorem Good.last_thunk (hgood : Good thunks m logs h st) {n : Nat} (hlt : n < st.started)
    (hne : ¬ Complete thunks logs n) : st.started = n + 1 := by
  by_contra hcon
  exact hne (hgood.complete n (by omega))

/-- When the last log does not end at a write, the cells hold what the logs say. -/
theorem Good.cells_eq (hgood : Good thunks m logs h st) {n : Nat} (hn : st.started = n + 1)
    {t : Thunk κ} (hend : endPoint thunks logs n = .op t) :
    st.shared.cells = cellsBefore thunks m logs (n + 1) := by
  rw [← hn]
  rcases hgood.cells with heq | ⟨n', c, w, v, k, hn', hend', _⟩
  · exact heq
  · obtain rfl : n' = n := by omega
    rw [hend] at hend'
    cases hend'

/-- When the last log ends at a write, the cell holds the old word or the new one. -/
theorem Good.cell_cases (hgood : Good thunks m logs h st) {n : Nat} (hn : st.started = n + 1)
    {c : κ} {w : Word} {v : Nat} {k : Thunk κ} (hend : endPoint thunks logs n = .write c w v k) :
    st.shared.cells c = w ∧ st.shared.cells = cellsBefore thunks m logs (n + 1) ∨
      st.shared.cells c = w.next v ∧
        st.shared.cells = Function.update (cellsBefore thunks m logs (n + 1)) c (w.next v) := by
  rcases hgood.cells with heq | ⟨n', c', w', v', k', hn', hend', heq⟩
  · rw [hn] at heq
    exact .inl ⟨by rw [heq]; exact hgood.ready n c w v k hend, heq⟩
  · obtain rfl : n' = n := by omega
    rw [hend] at hend'
    cases hend'
    rw [hn] at heq
    exact .inr ⟨by rw [heq, Function.update_self], heq⟩

/-- A step that changes neither cells nor entries, nor what is finished. -/
theorem Good.move [DecidableEq π] (hgood : Good thunks m logs h st) {p : π} {sh : Shared κ} {x : Proc κ}
    (hcells : sh.cells = st.shared.cells)
    (hentries : ∀ n, (sh.logs n).entries = (st.shared.logs n).entries)
    (hlt : x.thunk < st.started)
    (hx : ProcOk (thunks x.thunk) (logs x.thunk) st.shared.cells x) :
    Good thunks m logs h (st.move p sh (some x)) where
  entries n i := by
    show (sh.logs n).entries i = _
    rw [hentries]
    exact hgood.entries n i
  valid := hgood.valid
  unstarted := hgood.unstarted
  complete := hgood.complete
  finished := hgood.finished
  results := hgood.results
  cells := by
    show CellsOk thunks m logs st.started sh.cells
    rw [hcells]
    exact hgood.cells
  procs q y hy := by
    show y.thunk < st.started ∧ ProcOk _ _ sh.cells y
    rw [hcells]
    by_cases hq : q = p
    · subst hq
      have hxy : some x = some y := by simpa [State.move] using hy
      cases hxy
      exact ⟨hlt, hx⟩
    · exact hgood.procs q y (by simpa [State.move, hq] using hy)

/-- An entry is added at the end of the log of the last thunk. If the log ended at a write, the write
has been done. -/
theorem Good.append (hgood : Good thunks m logs h st) {n : Nat} {e : Word}
    (hn : st.started = n + 1)
    (he : (endPoint thunks logs n).Commits e (cellsBefore thunks m logs (n + 1)))
    (hdone : ∀ c w v k, endPoint thunks logs n = .write c w v k → st.shared.cells c = w.next v) :
    Good thunks m (Function.update logs n (logs n ++ [e])) h
      { st with shared := st.shared.setEntry n (logs n).length e } := by
  have hself : Function.update logs n (logs n ++ [e]) n = logs n ++ [e] := Function.update_self ..
  have hother : ∀ i, i ≠ n → Function.update logs n (logs n ++ [e]) i = logs i :=
    fun i hi => Function.update_of_ne hi ..
  have hbefore : ∀ i, i ≤ n → cellsBefore thunks m (Function.update logs n (logs n ++ [e])) i =
      cellsBefore thunks m logs i :=
    fun i hi => cellsBefore_congr fun j hj => hother j (by omega)
  have hend : ∀ i, i ≠ n → endPoint thunks (Function.update logs n (logs n ++ [e])) i =
      endPoint thunks logs i := by
    intro i hi
    rw [endPoint, endPoint, hother i hi]
  have hne : ¬ Complete thunks logs n := by
    rintro ⟨r, hr⟩
    rw [hr] at he
    exact he
  have hcompl : ∀ i, Complete thunks logs i →
      i ≠ n ∧ Complete thunks (Function.update logs n (logs n ++ [e])) i := by
    intro i hi
    have hin : i ≠ n := by
      rintro rfl
      exact hne hi
    refine ⟨hin, ?_⟩
    unfold Complete
    rw [hend i hin]
    exact hi
  refine ⟨?_, ?_, ?_, ?_, ?_, ?_, ?_, ?_⟩
  · intro i j
    by_cases hi : i = n
    · subst hi
      rw [hself]
      have hlog : ((st.shared.setEntry i (logs i).length e).logs i).entries j =
          Function.update (st.shared.logs i).entries (logs i).length (some e) j := by
        simp [Shared.setEntry]
      rw [hlog]
      by_cases hj : j = (logs i).length
      · subst hj
        simp
      · rw [Function.update_of_ne hj, hgood.entries]
        rcases Nat.lt_or_gt_of_ne hj with hlt | hgt
        · rw [List.getElem?_append_left hlt]
        · rw [List.getElem?_eq_none (by omega), List.getElem?_eq_none (by simp; omega)]
    · rw [hother i hi]
      simpa [Shared.setEntry, hi] using hgood.entries i j
  · intro i
    rcases Nat.lt_trichotomy i n with hlt | rfl | hgt
    · rw [hbefore i hlt.le, hother i hlt.ne]
      exact hgood.valid i
    · rw [hbefore i le_rfl, hself]
      exact Point.valid_concat (hgood.valid i) he
    · rw [hother i hgt.ne', hgood.unstarted i (by omega)]
      trivial
  · intro i hi
    have hi : n + 1 ≤ i := hn ▸ hi
    rw [hother i (by omega)]
    exact hgood.unstarted i (by omega)
  · intro i hi
    exact (hcompl i (hgood.complete i hi)).2
  · intro i hi
    obtain ⟨hlt, hc⟩ := hgood.finished i hi
    exact ⟨hlt, (hcompl i hc).2⟩
  · intro p i r hr
    obtain ⟨hf, hc⟩ := hgood.results p i r hr
    exact ⟨hf, by rw [hend i (hcompl i ⟨r, hc⟩).1]; exact hc⟩
  · left
    show st.shared.cells = cellsBefore thunks m _ st.started
    rw [hn]
    show st.shared.cells = (Point.op (thunks n)).cellsAfter (cellsBefore thunks m _ n) _
    rw [hself, hbefore n le_rfl, Point.cellsAfter_concat]
    cases hp : endPoint thunks logs n with
    | op t =>
        have hp' : (Point.op (thunks n)).after (logs n) = .op t := hp
        rw [hp']
        exact hgood.cells_eq hn hp
    | write c w v k =>
        have hp' : (Point.op (thunks n)).after (logs n) = .write c w v k := hp
        rw [hp']
        have hw := hdone c w v k hp
        rcases hgood.cell_cases hn hp with ⟨hold, _⟩ | ⟨_, heq⟩
        · rw [hold] at hw
          exact absurd (congrArg Word.tag hw) (Nat.lt_succ_self _).ne
        · exact heq
  · intro p pr hpr
    obtain ⟨hlt, hok⟩ := hgood.procs p pr hpr
    refine ⟨hlt, ?_⟩
    by_cases hi : pr.thunk = n
    · rw [hi] at hok ⊢
      rw [hself]
      refine hok.append e ?_
      intro c w v k hp
      rw [hdone c w v k hp]
      exact Nat.lt_succ_self _
    · rw [hother _ hi]
      exact hok

/-- The compare-exchange of a process whose write is the end of the last log. -/
theorem Good.store (hgood : Good thunks m logs h st) {n : Nat} {c : κ} {w : Word} {v : Nat}
    {k : Thunk κ} (hn : st.started = n + 1) (hend : endPoint thunks logs n = .write c w v k)
    (hc : st.shared.cells c = w) :
    Good thunks m logs h
      { st with shared.cells := Function.update st.shared.cells c (w.next v) } := by
  have hcells : st.shared.cells = cellsBefore thunks m logs (n + 1) := by
    rcases hgood.cell_cases hn hend with ⟨_, heq⟩ | ⟨hnew, _⟩
    · exact heq
    · rw [hc] at hnew
      exact absurd (congrArg Word.tag hnew) (Nat.lt_succ_self _).ne
  refine ⟨hgood.entries, hgood.valid, hgood.unstarted, hgood.complete, hgood.finished,
    hgood.results, ?_, ?_⟩
  · right
    refine ⟨n, c, w, v, k, hn, hend, ?_⟩
    show Function.update st.shared.cells c (w.next v) = _
    rw [hn, hcells]
  · intro p pr hpr
    obtain ⟨hlt, hok⟩ := hgood.procs p pr hpr
    refine ⟨hlt, hok.store (k := k) hc ?_⟩
    by_cases hi : pr.thunk = n
    · left
      rw [hi]
      exact hend
    · right
      exact hgood.complete pr.thunk (by have := hlt; omega)

/-! ### Every step -/

variable [DecidableEq π]

omit [DecidableEq κ] in
/-- Going on with the entry of another process, a process stays in its thunk. -/
theorem Proc.thunk_lose (pr : Proc κ) (g : Goal) (e : Word) : (pr.lose g e).thunk = pr.thunk := by
  unfold Proc.lose
  split <;> rfl

omit [DecidableEq κ] in
/-- Going on with the entry of another process, a process holds what it held. -/
theorem Proc.held_lose {pr : Proc κ} {l : Nat} {g : Goal} {e : Word} {a : Nat}
    (hcontrol : pr.control = .look l g ∨ pr.control = .swap l g)
    (ha : (pr.lose g e).held = some a) : pr.held = some a := by
  have hheld : pr.held = heldBy pr.point g := by
    rcases hcontrol with hc | hc <;> simp [Proc.held, hc]
  rw [hheld]
  unfold Proc.lose at ha
  split at ha
  · rename_i hp
    rw [hp]
    exact ha
  · simp [Proc.held, Proc.consume] at ha

/-- A step that changes only one process, and possibly links of the logs. -/
theorem Inv.silent (hgood : Good thunks m logs h st)
    (hheap : Heap (addrsOf thunks logs) st.shared.allocated st.procs) {p : π} {sh : Shared κ}
    {pr x : Proc κ} (hpr : st.procs p = some pr) (hcells : sh.cells = st.shared.cells)
    (hentries : ∀ n, (sh.logs n).entries = (st.shared.logs n).entries)
    (halloc : sh.allocated = st.shared.allocated) (hthunk : x.thunk = pr.thunk)
    (hx : ProcOk (thunks pr.thunk) (logs pr.thunk) st.shared.cells x)
    (hheld : ∀ a, x.held = some a → pr.held = some a) :
    Inv thunks m h (st.move p sh (some x)) := by
  refine ⟨logs, hgood.move hcells hentries ?_ ?_, ?_⟩
  · rw [hthunk]
    exact (hgood.procs p pr hpr).1
  · rwa [hthunk]
  · show Heap _ sh.allocated _
    rw [halloc]
    refine hheap.move ?_
    rintro _ a ⟨⟩ ha
    exact ⟨pr, hpr, hheld a ha⟩

omit [DecidableEq κ] in
/-- The addresses of the logs when an entry is added to one of them. -/
theorem addrsOf_append (n : Nat) (e : Word) :
    addrsOf thunks (Function.update logs n (logs n ++ [e])) =
      Function.update (addrsOf thunks logs) n
        (addrsOf thunks logs n ++ (endPoint thunks logs n).allocates e) := by
  funext i
  by_cases hi : i = n
  · subst hi
    simp [addrsOf, Point.addrs_concat, endPoint]
  · simp [addrsOf, hi]

omit [DecidableEq κ] in
/-- A process that commits at the end of the log is at an operation, and may commit its word there. -/
theorem GoalOk.commits {cells : κ → Word} {last : Prop} {pt : Point κ} {x : Word}
    (hg : GoalOk cells last pt (.commit x)) (hlast : last) :
    ∃ t, pt = .op t ∧ pt.Commits x cells := by
  match pt, hg with
  | .op (.load _ _), hg | .op (.store _ _ _), hg | .op (.cam _ _ _ _), hg =>
      exact ⟨_, rfl, hg hlast⟩
  | .op (.newObj _), hg => exact ⟨_, rfl, hg⟩

omit [DecidableEq κ] in
/-- A process that wants the mark is at a write. -/
theorem GoalOk.write {cells : κ → Word} {last : Prop} {pt : Point κ}
    (hg : GoalOk cells last pt .mark) : ∃ c w v k, pt = .write c w v k := by
  match pt, hg with
  | .write c w v k, _ => exact ⟨c, w, v, k, rfl⟩
  | .op (.ret _), hg | .op (.load _ _), hg | .op (.store _ _ _), hg | .op (.cam _ _ _ _), hg
  | .op (.newObj _), hg => exact absurd hg (by simp [GoalOk])

/-- Committing a word at the end of the log. -/
theorem Inv.commit (hgood : Good thunks m logs h st)
    (hheap : Heap (addrsOf thunks logs) st.shared.allocated st.procs) {p : π} {pr : Proc κ}
    {l : Nat} {x : Word} (hpr : st.procs p = some pr) (hcontrol : pr.control = .swap l (.commit x))
    (hnone : (st.shared.logs pr.thunk).entries l = none) :
    Inv thunks m h (st.move p (st.shared.setEntry pr.thunk l x) (some (pr.consume x))) := by
  obtain ⟨hlt, hok⟩ := hgood.procs p pr hpr
  have hpos : pr.pos = l := by simp [Proc.pos, hcontrol]
  have hcursor : pr.pos + 1 = pr.vals * logLen + pr.count := by
    have := hok.cursor
    simpa [Proc.Cursor, hcontrol, hpos] using this
  have hlast : l = (logs pr.thunk).length := by
    have hle := hok.le
    rw [hgood.entries, List.getElem?_eq_none_iff] at hnone
    omega
  have hpoint : pr.point = endPoint thunks logs pr.thunk :=
    hok.point_of_last (hpos.trans hlast)
  have hgoal := hok.control
  rw [hcontrol] at hgoal
  obtain ⟨t, ht, hcommits⟩ := hgoal.1.commits (hpos.trans hlast)
  rw [hpoint] at ht hcommits
  have hne : ¬ Complete thunks logs pr.thunk := by
    rintro ⟨r, hr⟩
    rw [hr] at hcommits
    exact hcommits
  have hn := hgood.last_thunk hlt hne
  rw [hgood.cells_eq hn ht] at hcommits
  have hnew := hgood.append hn hcommits (by rw [ht]; rintro c w v k ⟨⟩)
  rw [← hlast] at hnew
  have hget : (Function.update logs pr.thunk (logs pr.thunk ++ [x]) pr.thunk)[pr.pos]? = some x := by
    rw [Function.update_self, hpos, hlast]
    simp
  refine ⟨_, hnew.move rfl (fun _ => rfl) hlt ?_, ?_⟩
  · exact (hnew.procs p pr hpr).2.consume hcursor hget (.inl rfl)
  · rw [addrsOf_append]
    show Heap _ st.shared.allocated (Function.update st.procs p _)
    have hheld : (pr.consume x).held = none := rfl
    match t, ht with
    | .newObj k, ht =>
        have hheld' : pr.held = some x.data := by simp [Proc.held, heldBy, hcontrol, hpoint, ht]
        rw [ht]
        exact hheap.commit ⟨pr, hpr, hheld'⟩ hheld
    | .ret _, ht | .load _ _, ht | .store _ _ _, ht | .cam _ _ _ _, ht =>
        rw [ht]
        simp only [Point.allocates, List.append_nil, Function.update_eq_self]
        refine hheap.move ?_
        rintro _ a ⟨⟩ ha
        simp [hheld] at ha

omit [DecidableEq κ] in
/-- A thunk whose log ends at a write is not complete. -/
theorem not_complete_of_write {n : Nat} {c : κ} {w : Word} {v : Nat} {k : Thunk κ}
    (hend : endPoint thunks logs n = .write c w v k) : ¬ Complete thunks logs n := by
  rintro ⟨r, hr⟩
  rw [hend] at hr
  cases hr

omit [DecidableEq π] in
/-- The compare-exchange of a cell changes the cell only if the write is the end of the last log, and
the new word is in the cell afterwards if it is. -/
theorem Good.cas (hgood : Good thunks m logs h st) {p : π} {pr : Proc κ} {l : Nat}
    (hpr : st.procs p = some pr) (hcontrol : pr.control = .swap l .mark) :
    Good thunks m logs h { st with shared := st.shared.cas pr.point } ∧
      (Complete thunks logs pr.thunk → (st.shared.cas pr.point).cells = st.shared.cells) ∧
      ∃ c w v k, pr.point = .write c w v k ∧
        (pr.pos = (logs pr.thunk).length → (st.shared.cas pr.point).cells c = w.next v) := by
  obtain ⟨hlt, hok⟩ := hgood.procs p pr hpr
  have hctl := hok.control
  rw [hcontrol] at hctl
  obtain ⟨hgoal, hstale⟩ := hctl
  obtain ⟨c, w, v, k, hpoint⟩ := hgoal.write
  rw [hpoint]
  by_cases hc : st.shared.cells c = w
  · -- The word is still there, so the store is not marked and this is the last thunk.
    have hlast : pr.pos = (logs pr.thunk).length := by
      by_contra hne
      have hlt := hstale hne c w v k hpoint
      rw [hc] at hlt
      exact Nat.lt_irrefl _ hlt
    have hend : endPoint thunks logs pr.thunk = .write c w v k :=
      (hok.point_of_last hlast).symm.trans hpoint
    have hne := not_complete_of_write hend
    have hstore := hgood.store (hgood.last_thunk hlt hne) hend hc
    simp only [Shared.cas, if_pos hc]
    exact ⟨hstore, fun hcompl => absurd hcompl hne, c, w, v, k, rfl,
      fun _ => Function.update_self ..⟩
  · simp only [Shared.cas, if_neg hc]
    refine ⟨hgood, fun _ => trivial, c, w, v, k, rfl, ?_⟩
    intro hlast
    have hend : endPoint thunks logs pr.thunk = .write c w v k :=
      (hok.point_of_last hlast).symm.trans hpoint
    have hn := hgood.last_thunk hlt (not_complete_of_write hend)
    rcases hgood.cell_cases hn hend with ⟨hold, _⟩ | ⟨hnew, _⟩
    · exact absurd hold hc
    · exact hnew

omit [DecidableEq κ] in
/-- Writing the mark over the mark changes no entry. -/
theorem setEntry_entries {sh : Shared κ} {n l : Nat} {e : Word}
    (he : (sh.logs n).entries l = some e) (i : Nat) :
    ((sh.setEntry n l e).logs i).entries = (sh.logs i).entries := by
  by_cases hi : i = n
  · subst hi
    funext j
    by_cases hj : j = l <;> simp [Shared.setEntry, hj, he]
  · simp [Shared.setEntry, hi]

/-- Setting the mark. -/
theorem Inv.set (hgood : Good thunks m logs h st)
    (hheap : Heap (addrsOf thunks logs) st.shared.allocated st.procs) {p : π} {pr : Proc κ}
    {l : Nat} (hpr : st.procs p = some pr) (hcontrol : pr.control = .set l) :
    Inv thunks m h (st.move p (st.shared.setEntry pr.thunk l .mark) (some (pr.consume .mark))) := by
  obtain ⟨hlt, hok⟩ := hgood.procs p pr hpr
  have hpos : pr.pos = l := by simp [Proc.pos, hcontrol]
  have hcursor : pr.pos + 1 = pr.vals * logLen + pr.count := by
    simpa [Proc.Cursor, hcontrol, hpos] using hok.cursor
  have hctl := hok.control
  rw [hcontrol] at hctl
  obtain ⟨c, w, v, k, hpoint, hdone⟩ := hctl
  by_cases hlast : pr.pos = (logs pr.thunk).length
  · have hend : endPoint thunks logs pr.thunk = .write c w v k :=
      (hok.point_of_last hlast).symm.trans hpoint
    have hn := hgood.last_thunk hlt (not_complete_of_write hend)
    have hnew := hgood.append (e := .mark) hn (by rw [hend]; rfl) (by
      rw [hend]
      rintro _ _ _ _ ⟨⟩
      exact hdone hlast)
    rw [← hlast, hpos] at hnew
    have hget : (Function.update logs pr.thunk (logs pr.thunk ++ [.mark]) pr.thunk)[pr.pos]? =
        some .mark := by
      rw [Function.update_self, hlast]
      simp
    refine ⟨_, hnew.move rfl (fun _ => rfl) hlt ?_, ?_⟩
    · exact (hnew.procs p pr hpr).2.consume hcursor hget (.inl rfl)
    · rw [addrsOf_append, hend]
      simp only [Point.allocates, List.append_nil, Function.update_eq_self]
      refine hheap.move ?_
      rintro _ a ⟨⟩ ha
      simp [Proc.held, Proc.consume] at ha
  · -- The mark is there already.
    have hget : (logs pr.thunk)[pr.pos]? = some .mark := by
      have hlt : pr.pos < (logs pr.thunk).length := lt_of_le_of_ne hok.le hlast
      have hcommits := (hgood.valid pr.thunk).commits (List.getElem?_eq_getElem hlt)
      rw [← hok.point, hpoint] at hcommits
      rw [List.getElem?_eq_getElem hlt]
      exact congrArg some hcommits
    refine Inv.silent hgood hheap hpr rfl (setEntry_entries ?_) rfl rfl
      (hok.consume hcursor hget (.inl rfl)) ?_
    · rw [hgood.entries, ← hpos]
      exact hget
    · intro a ha
      simp [Proc.held, Proc.consume] at ha

/-- A step inside a thunk preserves the invariant. -/
theorem Inv.stepProc (hgood : Good thunks m logs h st)
    (hheap : Heap (addrsOf thunks logs) st.shared.allocated st.procs) {p : π} {pr pr' : Proc κ}
    {sh : Shared κ} (hpr : st.procs p = some pr)
    (hstep : stepProc st.shared pr = some (sh, pr')) :
    Inv thunks m h (st.move p sh (some pr')) := by
  obtain ⟨hlt, hok⟩ := hgood.procs p pr hpr
  have hctl := hok.control
  obtain ⟨n, pt, vals, count, x⟩ := pr
  cases x with
  | fetch =>
      match pt, hstep with
      | .write c w v k, hstep =>
          cases hstep
          exact .silent hgood hheap hpr rfl (fun _ => rfl) rfl rfl
            (hok.set_control rfl trivial trivial) (by simp [Proc.held, heldBy])
      | .op (.load c _), hstep | .op (.store c _ _), hstep | .op (.cam c _ _ _), hstep =>
          cases hstep
          exact .silent hgood hheap hpr rfl (fun _ => rfl) rfl rfl
            (hok.set_control rfl trivial fun _ => rfl) (by simp [Proc.held, heldBy])
      | .op (.ret _), hstep | .op (.newObj _), hstep => cases hstep
  | next g =>
      simp only [Idempotence.stepProc] at hstep
      split at hstep
      · rename_i hcount
        split at hstep
        · cases hstep
          exact .silent hgood hheap hpr rfl (fun _ => rfl) rfl rfl
            (hok.nextBlock rfl hcount hctl) fun _ ha => ha
        · cases hstep
          exact .silent hgood hheap hpr rfl (fun _ => rfl) rfl rfl
            (hok.set_control rfl hcount hctl) fun _ ha => ha
      · cases hstep
        exact .silent hgood hheap hpr rfl (fun _ => rfl) rfl rfl (hok.take rfl hctl) fun _ ha => ha
  | nextCas g =>
      cases hstep
      refine .silent hgood hheap hpr rfl (fun i => ?_) rfl rfl
        (hok.nextBlock rfl hok.cursor hctl) fun _ ha => ha
      by_cases hi : i = n <;> simp [Shared.link, hi]
  | look l g =>
      simp only [Idempotence.stepProc] at hstep
      split at hstep
      · rename_i e he
        cases hstep
        rw [hgood.entries] at he
        exact .silent hgood hheap hpr rfl (fun _ => rfl) rfl (Proc.thunk_lose ..)
          (hok.lose hok.cursor he) fun _ ha => Proc.held_lose (.inl rfl) ha
      · rename_i he
        cases hstep
        rw [hgood.entries, List.getElem?_eq_none_iff] at he
        have hlast : l = (logs n).length := Nat.le_antisymm hok.le he
        exact .silent hgood hheap hpr rfl (fun _ => rfl) rfl rfl
          (hok.set_control rfl hok.cursor ⟨hctl, fun hne => absurd hlast hne⟩) fun _ ha => ha
  | swap l g =>
      cases g with
      | commit x =>
          simp only [Idempotence.stepProc] at hstep
          split at hstep
          · rename_i e he
            cases hstep
            rw [hgood.entries] at he
            exact .silent hgood hheap hpr rfl (fun _ => rfl) rfl (Proc.thunk_lose ..)
              (hok.lose hok.cursor he) fun _ ha => Proc.held_lose (.inr rfl) ha
          · rename_i he
            cases hstep
            exact .commit hgood hheap hpr rfl he
      | mark =>
          cases hstep
          obtain ⟨hnew, _, c, w, v, k, hpoint, hdone⟩ := hgood.cas hpr rfl
          have hok' := (hnew.procs p _ hpr).2
          have halloc : (st.shared.cas pt).allocated = st.shared.allocated := by
            unfold Shared.cas
            split
            · split <;> rfl
            · rfl
          refine Inv.silent hnew ?_ hpr rfl (fun _ => rfl) rfl rfl
            (hok'.set_control rfl hok.cursor ⟨c, w, v, k, hpoint, hdone⟩) (by simp [Proc.held])
          show Heap _ (st.shared.cas pt).allocated _
          rwa [halloc]
  | set l =>
      cases hstep
      exact .set hgood hheap hpr rfl
  | free a =>
      cases hstep
      refine ⟨logs, hgood.move rfl (fun _ => rfl) hlt (hok.set_control rfl trivial trivial), ?_⟩
      exact hheap.free ⟨_, hpr, rfl⟩ rfl

omit [DecidableEq π] in
/-- The next thunk may start once the last one is complete. -/
theorem Good.start (hgood : Good thunks m logs h st)
    (hready : st.started = 0 ∨ st.finished (st.started - 1)) :
    Good thunks m logs h { st with started := st.started + 1 } := by
  have hlast : ∀ n, st.started = n + 1 → Complete thunks logs n := by
    intro n hn
    rcases hready with h0 | hfin
    · omega
    · rw [hn, Nat.add_sub_cancel] at hfin
      exact (hgood.finished n hfin).2
  refine ⟨hgood.entries, hgood.valid, ?_, ?_, ?_, hgood.results, ?_, ?_⟩
  · intro n hn
    exact hgood.unstarted n (Nat.le_of_succ_le hn)
  · intro n hn
    rcases Nat.lt_or_eq_of_le (Nat.le_of_lt_succ hn) with hlt | heq
    · exact hgood.complete n hlt
    · exact hlast n heq.symm
  · intro n hn
    obtain ⟨hlt, hc⟩ := hgood.finished n hn
    exact ⟨Nat.lt_succ_of_lt hlt, hc⟩
  · left
    show st.shared.cells = (Point.op (thunks st.started)).cellsAfter _ (logs st.started)
    rw [hgood.unstarted st.started le_rfl]
    rcases hgood.cells with heq | ⟨n, c, w, v, k, hn, hend, _⟩
    · exact heq
    · exact absurd (hlast n hn) (not_complete_of_write hend)
  · intro p pr hpr
    obtain ⟨hlt, hok⟩ := hgood.procs p pr hpr
    exact ⟨Nat.lt_succ_of_lt hlt, hok⟩

/-- A process returns from its thunk. -/
theorem Good.finish (hgood : Good thunks m logs h st) {p : π} {n r vals count : Nat}
    (hpr : st.procs p = some ⟨n, .op (.ret r), vals, count, .fetch⟩) :
    Good thunks m logs (h ++ [.finished p n r])
      { st.move p st.shared none with finished := Function.update st.finished n true } := by
  obtain ⟨hlt, hok⟩ := hgood.procs p _ hpr
  have hend : endPoint thunks logs n = .op (.ret r) := by
    have hlast := (hgood.valid n).take_of_ret hok.le hok.point.symm
    exact (hok.point_of_last hlast).symm
  have hfin : ∀ i, Function.update st.finished n true i = true ↔ i = n ∨ st.finished i = true := by
    intro i
    by_cases hi : i = n <;> simp [hi]
  refine ⟨hgood.entries, hgood.valid, hgood.unstarted, hgood.complete, ?_, ?_, hgood.cells, ?_⟩
  · intro i hi
    rcases (hfin i).mp hi with rfl | hi
    · exact ⟨hlt, r, hend⟩
    · exact hgood.finished i hi
  · intro q i r' hr
    rcases List.mem_append.mp hr with hr | hr
    · obtain ⟨hi, hc⟩ := hgood.results q i r' hr
      exact ⟨(hfin i).mpr (.inr hi), hc⟩
    · cases List.mem_singleton.mp hr
      exact ⟨(hfin n).mpr (.inl rfl), hend⟩
  · intro q pr hq
    by_cases hqp : q = p
    · subst hqp
      simp [State.move] at hq
    · exact hgood.procs q pr (by simpa [State.move, hqp] using hq)

omit [DecidableEq π] in
/-- The invariant holds initially. -/
theorem Inv.initial : Inv thunks m [] (initial m : State κ π) := by
  refine ⟨fun _ => [], ⟨?_, ?_, ?_, ?_, ?_, ?_, ?_, ?_⟩, ⟨?_, ?_, ?_, ?_, ?_⟩⟩
  · simp [Idempotence.initial]
  · intro n
    trivial
  · simp
  · simp [Idempotence.initial]
  · simp [Idempotence.initial]
  · simp
  · exact .inl rfl
  · simp [Idempotence.initial]
  all_goals simp [addrsOf, Point.addrs, Holds, Idempotence.initial]

/-- Every step preserves the invariant. -/
theorem Inv.step {st' : State κ π} {a : Action π} {es : List (Event π)} (hinv : Inv thunks m h st)
    (hstep : next thunks a st = some (es, st')) : Inv thunks m (h ++ es) st' := by
  obtain ⟨logs, hgood, hheap⟩ := hinv
  cases a with
  | start p n =>
      simp only [next] at hstep
      split at hstep
      · cases hstep
      rename_i hnone
      have hnothing : ∀ x a, some (Proc.begin n (thunks n)) = some x → x.held = some a →
          Holds st.procs p a := by
        rintro _ a ⟨⟩ ha
        simp [Proc.held, Proc.begin] at ha
      split at hstep
      · rename_i hlt
        cases hstep
        rw [List.append_nil]
        exact ⟨logs, hgood.move rfl (fun _ => rfl) hlt (.begin n), hheap.move hnothing⟩
      · split at hstep
        · rename_i hready
          cases hstep
          rw [List.append_nil]
          obtain ⟨rfl, hready⟩ := hready
          exact ⟨logs, (hgood.start hready).move rfl (fun _ => rfl) (Nat.lt_succ_self _) (.begin _),
            hheap.move hnothing⟩
        · cases hstep
  | step p =>
      simp only [next, bind, Option.bind_eq_some_iff] at hstep
      obtain ⟨pr, hpr, ⟨sh, pr'⟩, hpstep, heq⟩ := hstep
      cases heq
      rw [List.append_nil]
      exact .stepProc hgood hheap hpr hpstep
  | alloc p a =>
      simp only [next] at hstep
      split at hstep
      · split at hstep
        · rename_i n k vals count hpr hfree
          cases hstep
          rw [List.append_nil]
          obtain ⟨hlt, hok⟩ := hgood.procs p _ hpr
          refine ⟨logs, hgood.move rfl (fun _ => rfl) hlt
            (hok.set_control rfl trivial ⟨a, rfl⟩), ?_⟩
          exact hheap.alloc hfree.2 rfl
        · cases hstep
      · cases hstep
  | finish p =>
      simp only [next] at hstep
      split at hstep
      · rename_i n r vals count hpr
        cases hstep
        exact ⟨logs, hgood.finish hpr, hheap.move (by simp)⟩
      · cases hstep

end GoodSteps

end Verlib.Flock.Idempotence
