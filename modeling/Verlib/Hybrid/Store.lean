import Verlib.Hybrid.Memory
import Verlib.Epoch.Core

/-!
# `store`, `load` and speculative snapshots

The build with `LazyStamp`: a snapshot does not move the clock but takes `get_stamp` as its
`local_stamp`, and it aborts if it reads a version with this stamp. Workers run stores, loads and
speculative `with_snapshot` bodies inside epoch sections; stores to one pointer are serialised by its
lock. `update_epoch` runs the hooks that move `done_stamp` and `prev_stamp`; a worker may call it at any
time inside a section, since objects are retired all over the code.
-/

namespace Verlib.Hybrid.Store

open Interleaving
open Verlib.Epoch (Core)

/-- A call of `store(ptr)` on pointer `p`. -/
structure Call (P : Type) where
  op : Nat
  p : P
  ptr : Option Nat

/-- A snapshot: its identity and the thread-local `local_stamp`, `speculative` and `aborted`. -/
structure Reader where
  s : Nat
  ls : Nat
  speculative : Bool
  aborted : Bool

/-- What follows `set_stamp`: the end of `store` or of `load`, or the walk of `read_snapshot`. -/
inductive After (P : Type) where
  | store (c : Call P) (new : Versioned)
  | load (p : P) (ptr : Versioned)
  | walk (r : Reader) (p : P) (head : Versioned)

/-- Positions of a worker. `installed` says whether `cam` has succeeded; it is read by no step. `again`
and `add` are `increment_stamp` after an abort. -/
inductive Pc (P : Type) where
  | idle
  | setStamp (ptr : Versioned) (x : SetStamp) (k : After P)
  | shortcut (p : P) (l : Nat) (x : Shortcut) (op : Option Nat)
  | store (c : Call P)
  | useIndirect (c : Call P) (old : Versioned)
  | newLink (c : Call P) (old : Versioned)
  | setNext (c : Call P) (old : Versioned)
  | camRead (c : Call P) (old new : Versioned) (installed : Bool)
  | camSwap (c : Call P) (old new : Versioned) (installed : Bool) (w : Nat × Versioned)
  | recheck (c : Call P) (l : Nat) (new : Versioned) (installed : Bool)
  | load (p : P)
  | getStamp (s : Nat)
  | inside (r : Reader)
  | read (r : Reader) (p : P)
  | walk (r : Reader) (p : P) (head : Versioned)
  | follow (r : Reader) (p : P) (head : Versioned)
  | test (r : Reader) (p : P) (head : Versioned)
  | again (r : Reader)
  | add (r : Reader)

/-- What a run shows: the call of a `store`, the installation of version `i` of a pointer with its value,
the return of a `store`; a read of a speculative execution of a snapshot's body, and the end of one with
`aborted = false`. -/
inductive Event (P : Type) where
  | call (op : Nat)
  | install (op : Nat) (p : P) (i : Nat) (x : Option Nat)
  | ret (op : Nat)
  | read (s : Nat) (p : P) (x : Option Nat)
  | consistent (s : Nat)
  deriving DecidableEq

/-- The memory with `done_stamp`, the epochs, `prev_stamp` and each worker's `current_stamp`, the
positions of the workers, and, for the statements, the next identity and the number of the last version
of each pointer. -/
structure State (P : Type) (n : Nat) where
  memory : Memory P
  core : Core n
  prevStamp : Nat
  currentStamp : Fin n → Nat
  threads : Fin n → Pc P
  ops : Nat
  last : P → Nat

variable {P : Type} {n : Nat} [DecidableEq P]

/-- Where a worker goes on after `set_stamp`. -/
def After.resume : After P → List (Event P) × Pc P
  | .store c (.indirect l) => ([], .shortcut c.p l .load (some c.op))
  | .store c (.direct _) => ([.ret c.op], .idle)
  | .load p (.indirect l) => ([], .shortcut p l .load none)
  | .load _ (.direct _) => ([], .idle)
  | .walk r p head => ([], .walk r p head)

/-- Where `store` goes on after `cam`: if `old_v` was a link, it may have been replaced. -/
def Pc.afterCam (c : Call P) (old new : Versioned) (installed : Bool) : Pc P :=
  match old with
  | .indirect l => .recheck c l new installed
  | .direct _ => .setStamp new .load (.store c new)

/-- What a step does. -/
structure Result (P : Type) where
  events : List (Event P)
  memory : Memory P
  last : P → Nat
  pc : Pc P

/-- One step of a worker; `tag` is the tag that a compare-and-swap gives to a new word. -/
def stepThread (m : Memory P) (last : P → Nat) (tag : Nat) : Pc P → Option (Result P)
  | .idle | .inside _ => none
  | .setStamp ptr x k =>
      match setStamp m ptr x with
      | (m', some x') => some ⟨[], m', last, .setStamp ptr x' k⟩
      | (m', none) => some ⟨k.resume.1, m', last, k.resume.2⟩
  | .shortcut p l x op =>
      match shortcut m p l tag x with
      | (m', some x') => some ⟨[], m', last, .shortcut p l x' op⟩
      | (m', none) => some ⟨op.toList.map .ret, m', last, .idle⟩
  -- `store`
  | .store c => some ⟨[], m, last, .useIndirect c (m.v c.p).2⟩
  | .useIndirect c old =>
      if c.ptr = none ∨ m.timeStamp (.direct c.ptr) ≠ none then some ⟨[], m, last, .newLink c old⟩
      else some ⟨[], m, last, .setNext c old⟩
  | .newLink c old =>
      some ⟨[], m.newLink old c.ptr, last, .camRead c old (.indirect m.fresh) false⟩
  | .setNext c old =>
      some ⟨[], m.setNext (.direct c.ptr) old, last, .camRead c old (.direct c.ptr) false⟩
  | .camRead c old new installed =>
      if (m.v c.p).2 = old then some ⟨[], m, last, .camSwap c old new installed (m.v c.p)⟩
      else some ⟨[], m, last, .afterCam c old new installed⟩
  | .camSwap c old new installed w =>
      if m.v c.p = w then
        let i := last c.p + 1
        if installed then some ⟨[], m.setWord c.p (tag, new), last, .afterCam c old new true⟩
        else some ⟨[.install c.op c.p i c.ptr], m.setWord c.p (tag, new),
          Function.update last c.p i, .afterCam c old new true⟩
      else some ⟨[], m, last, .afterCam c old new installed⟩
  | .recheck c l new installed =>
      if (m.v c.p).2 = .direct (m.value l) then
        some ⟨[], m, last, .camRead c (.direct (m.value l)) new installed⟩
      else some ⟨[], m, last, .setStamp new .load (.store c new)⟩
  -- `load` outside of a snapshot
  | .load p => some ⟨[], m, last, .setStamp (m.v p).2 .load (.load p (m.v p).2)⟩
  -- `with_snapshot` and `read_snapshot`
  | .getStamp s => some ⟨[], m, last, .inside ⟨s, m.stamp, true, false⟩⟩
  | .read r p => some ⟨[], m, last, .setStamp (m.v p).2 .load (.walk r p (m.v p).2)⟩
  | .walk r p head =>
      if head ≠ .null ∧ less r.ls (m.timeStamp head) then some ⟨[], m, last, .follow r p head⟩
      else some ⟨[], m, last, .test r p head⟩
  | .follow r p head => some ⟨[], m, last, .walk r p (m.next head)⟩
  | .test r p head =>
      let aborted := r.speculative && head ≠ .null && m.timeStamp head = some r.ls
      let es := if r.speculative then [.read r.s p (m.getPtr head)] else []
      some ⟨es, m, last, .inside { r with aborted := r.aborted || aborted }⟩
  | .again r =>
      if m.stamp = r.ls then some ⟨[], m, last, .add r⟩ else some ⟨[], m, last, .inside r⟩
  | .add r => some ⟨[], { m with stamp := m.stamp + 1 }, last, .inside r⟩

/-- What the scheduler chooses: a worker takes a step, calls an operation, enters a snapshot, reads in it
or ends its body; or it takes a step of `announce`, `unannounce` or `update_epoch`. -/
inductive Action (P : Type) (n : Nat) where
  | step (t : Fin n) (tag : Nat)
  | store (t : Fin n) (p : P) (ptr : Option Nat)
  | load (t : Fin n) (p : P)
  | withSnapshot (t : Fin n)
  | read (t : Fin n) (p : P)
  | finish (t : Fin n)
  | announce (t : Fin n)
  | unannounce (t : Fin n)
  | updateEpoch (t : Fin n)

/-- The pointer that a worker is storing into, whose lock it holds. -/
def Pc.storing : Pc P → Option P
  | .store c | .useIndirect c _ | .newLink c _ | .setNext c _ | .camRead c _ _ _
  | .camSwap c _ _ _ _ | .recheck c _ _ _ | .setStamp _ _ (.store c _) => some c.p
  | .shortcut p _ _ (some _) => some p
  | _ => none

/-- Move one worker. -/
def State.goto (st : State P n) (t : Fin n) (pc : Pc P) : State P n :=
  { st with threads := Function.update st.threads t pc }

/-- One step of `update_epoch` with the hooks of `add_epoch_hooks`. -/
def updateEpoch (st : State P n) (t : Fin n) : State P n :=
  let core := st.core.updateEpoch t
  match st.core.update t with
  | .ready _ =>
      { st with
        core := core
        currentStamp := Function.update st.currentStamp t st.memory.stamp }
  | .won _ => { st with core := core, memory := { st.memory with done := st.prevStamp } }
  | .shifting _ => { st with core := core, prevStamp := st.currentStamp t }
  | _ => { st with core := core }

/-- The worker may start an operation: it is in a section and not in another operation. -/
def State.free (st : State P n) (t : Fin n) : Bool :=
  match st.threads t, st.core.phase t with
  | .idle, .inside _ => true
  | _, _ => false

/-- The next state, if the action is possible. -/
def next : Action P n → State P n → Option (List (Event P) × State P n)
  | .step t tag, st =>
      (stepThread st.memory st.last tag (st.threads t)).map fun r =>
        (r.events,
          { st with memory := r.memory, threads := Function.update st.threads t r.pc, last := r.last })
  | .store t p ptr, st =>
      if st.free t ∧ ∀ u, (st.threads u).storing ≠ some p then
        some ([.call st.ops], { st.goto t (.store ⟨st.ops, p, ptr⟩) with ops := st.ops + 1 })
      else none
  | .load t p, st => if st.free t then some ([], st.goto t (.load p)) else none
  | .withSnapshot t, st =>
      if st.free t then some ([], { st.goto t (.getStamp st.ops) with ops := st.ops + 1 }) else none
  | .read t p, st =>
      match st.threads t with
      | .inside r => some ([], st.goto t (.read r p))
      | _ => none
  | .finish t, st =>
      match st.threads t with
      | .inside ⟨s, ls, true, true⟩ => some ([], st.goto t (.again ⟨s, ls, false, false⟩))
      | .inside ⟨s, _, true, false⟩ => some ([.consistent s], st.goto t .idle)
      | .inside ⟨_, _, false, _⟩ => some ([], st.goto t .idle)
      | _ => none
  | .announce t, st => (st.core.announce t).map fun core => ([], { st with core := core })
  | .unannounce t, st =>
      match st.threads t, st.core.update t with
      | .idle, .idle => (st.core.unannounce t).map fun core => ([], { st with core := core })
      | _, _ => none
  | .updateEpoch t, st =>
      match st.core.phase t with
      | .inside _ => some ([], updateEpoch st t)
      | _ => none

/-- The `local_stamp` of a worker in a speculative execution. -/
def Pc.speculating : Pc P → Option Nat
  | .inside r | .read r _ | .walk r _ _ | .follow r _ _ | .test r _ _
  | .setStamp _ _ (.walk r _ _) => if r.speculative then some r.ls else none
  | _ => none

/-- The action is a `shortcut` that replaces a link whose stamp is not below the `local_stamp` of some
speculative execution. -/
def hidesVersion (st : State P n) : Action P n → Prop
  | .step t _ =>
      match st.threads t with
      | .shortcut p l (.swap w) _ => st.memory.v p = w ∧
          ∃ u, ∃ ls ∈ (st.threads u).speculating, ∃ s ∈ st.memory.timeStamp (.indirect l), ls ≤ s
      | _ => False
  | _ => False

/-- An object without a stamp is stored by one worker only, its owner. -/
def Allowed (owner : Nat → Fin n) (st : State P n) : Action P n → Prop
  | .store t _ (some o) => st.memory.timeStamp (.direct (some o)) = none → owner o = t
  | _ => True

/-- No worker has started, and both stamps of the hooks have the clock's initial value. -/
def initial (m : Memory P) : State P n :=
  ⟨m, .initial, m.stamp, fun _ => 0, fun _ => .idle, 0, fun _ => 0⟩

/-- Any number of workers working on any number of pointers. -/
def system (owner : Nat → Fin n) (init : P → Option Nat) :
    System (State P n) (Action P n) (Event P) :=
  (System.ofNext (fun st => ∃ stamped tag older, (∀ p o, init p = some o → stamped o = true) ∧
    st = initial (.initial init stamped tag older)) next).restrict (Allowed owner)

end Verlib.Hybrid.Store
