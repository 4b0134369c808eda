import Verlib.Interleaving.System
import Mathlib.Data.Nat.Bitwise

/-!
# The log: a chain of `log_array`s

Processes that run the same thunk share a chain of arrays of `Log_Len` entries, and each has a cursor
(`vals`, `count`) into it. `next_entry` moves the cursor and, at the end of an array, adopts the next one
or allocates it in a race; `commit_value` writes an entry once; `skip_if_done` runs a block and stores the
cursor at its end into the entry before it, so that others can skip the block. Code inside a block may
commit and contain blocks itself. A thunk is the tree of its uses of the log: what follows a commit
depends on the committed value, and what is committed is chosen by the scheduler, since processes may
offer different values.
-/

namespace Verlib.Flock.LogArray

open Interleaving

/-- The number of entries of an array. -/
def logLen : Nat :=
  8

/-- Code that uses the log: `commit_value`, `skip_if_done` with the block to run, or no more of it. -/
inductive Code where
  | done
  | commit (k : Nat → Code)
  | skip (body : Code) (k : Code)

/-- The arrays: their entries and `next`, where zero is null, and which of them are allocated. -/
structure Memory where
  entries : Nat → Nat → Nat
  next : Nat → Nat
  allocated : Nat → Bool

/-- What an entry is got for: `commit_value(newv)` or `skip_if_done`. -/
inductive Op where
  | commit (newv : Nat)
  | skip

/-- Positions of a process: before its next use of the log; in `next_entry` at the end of an array, about
to load `next` or to compare-exchange it; with an entry, about to load it or to compare-exchange it. -/
inductive Pc where
  | ready
  | loadNext (o : Op)
  | link (o : Op) (new : Nat)
  | load (o : Op) (l : Nat × Nat)
  | swap (newv : Nat) (l : Nat × Nat)

/-- A block that a process runs: its entry, the number of that entry in the log, and what follows the
block. No step reads the number. -/
structure Block where
  entry : Nat × Nat
  start : Nat
  rest : Code

/-- A process: its cursor, the number of entries before the cursor (for the statements), the code that is
left, the blocks around it, and its position. -/
structure Process where
  vals : Nat
  count : Nat
  pos : Nat
  code : Code
  blocks : List Block
  pc : Pc

/-- What a run shows: the return of a `commit_value(newv)` for entry `i` of the log with the value `r`
and the flag, and that a process has passed the block after entry `i`, which ends before entry `e`. -/
inductive Event (ι : Type) where
  | committed (p : ι) (i newv r : Nat) (flag : Bool)
  | passed (p : ι) (i e : Nat)
  deriving DecidableEq

/-- The arrays, where the blocks that have been run end (for the statements), and the processes. -/
structure State (ι : Type) where
  memory : Memory
  ends : Nat → Nat
  procs : ι → Process

/-- Write an entry. -/
def Memory.setEntry (m : Memory) (l : Nat × Nat) (v : Nat) : Memory :=
  { m with entries := Function.update m.entries l.1 (Function.update (m.entries l.1) l.2 v) }

/-- `new_obj` and `init`. -/
def Memory.newArray (m : Memory) (a : Nat) : Memory where
  entries := Function.update m.entries a fun _ => 0
  next := Function.update m.next a 0
  allocated := Function.update m.allocated a true

/-- `destruct`. -/
def Memory.destruct (m : Memory) (a : Nat) : Memory :=
  { m with allocated := Function.update m.allocated a false }

/-- `vals->next` is set. -/
def Memory.setNext (m : Memory) (a b : Nat) : Memory :=
  { m with next := Function.update m.next a b }

/-- `&(*vals)[count++]`. -/
def Process.takeEntry (p : Process) (o : Op) (vals count : Nat) : Process :=
  { p with vals := vals, count := count + 1, pos := p.pos + 1, pc := .load o (vals, count) }

/-- `next_entry` up to its first access to shared memory. -/
def Process.nextEntry (p : Process) (o : Op) : Process :=
  if p.count = logLen then { p with count := 0, pc := .loadNext o } else p.takeEntry o p.vals p.count

/-- The word that `skip_if_done` stores. -/
def encode (count vals : Nat) : Nat :=
  count <<< 48 ||| vals

/-- What `commit_value` goes on with. -/
def Process.commitDone (p : Process) (r : Nat) : Process :=
  match p.code with
  | .commit k => { p with code := k r, pc := .ready }
  | _ => p

/-- The end of a block, run or skipped. -/
def Process.skipDone (p : Process) (vals count pos : Nat) : Process :=
  match p.code with
  | .skip _ k => { p with vals := vals, count := count, pos := pos, code := k, pc := .ready }
  | _ => p

/-- The start of a block. -/
def Process.enter (p : Process) (l : Nat × Nat) : Process :=
  match p.code with
  | .skip body k => { p with code := body, blocks := ⟨l, p.pos - 1, k⟩ :: p.blocks, pc := .ready }
  | _ => p

variable {ι : Type} [DecidableEq ι]

/-- Move one process. -/
def State.set (st : State ι) (i : ι) (m : Memory) (p : Process) : State ι :=
  { st with memory := m, procs := Function.update st.procs i p }

/-- Process `i` takes a step; `x` is the value that it commits or the array that it is given by the
pool. -/
def step (i : ι) (x : Nat) (st : State ι) : Option (List (Event ι) × State ι) :=
  let m := st.memory
  let p := st.procs i
  match p.pc with
  | .ready =>
      match p.code, p.blocks with
      | .commit _, _ => if x = 0 then none else some ([], st.set i m (p.nextEntry (.commit x)))
      | .skip _ _, _ => some ([], st.set i m (p.nextEntry .skip))
      | .done, b :: bs =>
          some ([.passed i b.start p.pos],
            { st.set i (m.setEntry b.entry (encode p.count p.vals))
                { p with code := b.rest, blocks := bs } with
              ends := Function.update st.ends b.start p.pos })
      | .done, [] => none
  -- `next_entry` at the end of an array
  | .loadNext o =>
      if m.next p.vals ≠ 0 then some ([], st.set i m (p.takeEntry o (m.next p.vals) 0))
      else if 0 < x ∧ x < 2 ^ 48 ∧ m.allocated x = false then
        some ([], st.set i (m.newArray x) { p with pc := .link o x })
      else none
  | .link o new =>
      if m.next p.vals = 0 then
        some ([], st.set i (m.setNext p.vals new) (p.takeEntry o new 0))
      else some ([], st.set i (m.destruct new) (p.takeEntry o (m.next p.vals) 0))
  -- `commit_value`
  | .load (.commit newv) l =>
      let oldv := m.entries l.1 l.2
      if oldv = 0 then some ([], st.set i m { p with pc := .swap newv l })
      else some ([.committed i (p.pos - 1) newv oldv false], st.set i m (p.commitDone oldv))
  | .swap newv l =>
      let oldv := m.entries l.1 l.2
      if oldv = 0 then
        some ([.committed i (p.pos - 1) newv newv true],
          st.set i (m.setEntry l newv) (p.commitDone newv))
      else some ([.committed i (p.pos - 1) newv oldv false], st.set i m (p.commitDone oldv))
  -- `skip_if_done`
  | .load .skip l =>
      let v := m.entries l.1 l.2
      if v = 0 then some ([], st.set i m (p.enter l))
      else
        let e := st.ends (p.pos - 1)
        some ([.passed i (p.pos - 1) e],
          st.set i m (p.skipDone (v % 2 ^ 48) (v >>> 48) e))

/-- Every process starts from `Log(&lg_array, 0)`, and the entries of `lg_array` are null. -/
def initial (head : Nat) (code : Code) (m : Memory) : State ι :=
  ⟨m, fun _ => 0, fun _ => ⟨head, 0, 0, code, [], .ready⟩⟩

/-- Any number of processes that run the same thunk on the same log. -/
def system (head : Nat) (code : Code) : System (State ι) (ι × Nat) (Event ι) :=
  System.ofNext (fun st => ∃ m, 0 < head ∧ head < 2 ^ 48 ∧ m.allocated head = true ∧ m.next head = 0 ∧
    (∀ j, m.entries head j = 0) ∧ st = initial head code m) fun a st => step a.1 a.2 st

end Verlib.Flock.LogArray
