import Verlib.Hybrid.Memory
import Verlib.Interleaving.System

/-!
# `load`, `validate`, `cas` and `with_snapshot`

Threads run the operations of `versioned_ptr` outside of locks, where the log is empty, and
`with_snapshot` bodies made of `read_snapshot` calls. Every load, store and compare-and-swap of shared
memory is a step. A `cas` that installs a version shows it with its number at the pointer; the numbers,
the identities of the calls and the events are read by no step.
-/

namespace Verlib.Hybrid.Cas

open Interleaving

/-- A call of `cas(exp, ptr)` on pointer `p`. -/
structure Call (P : Type) where
  op : Nat
  p : P
  exp : Option Nat
  ptr : Option Nat

/-- What follows `set_stamp`: the tests of `cas`, its successful and its failing end, the end of `load`
and of `validate`, and the walk of `read_snapshot`. -/
inductive After (P : Type) where
  | test (c : Call P) (old : Versioned)
  | finish (c : Call P) (new : Versioned)
  | fail (c : Call P)
  | load (p : P) (ptr : Versioned)
  | validate
  | walk (s ls : Nat) (p : P) (head : Versioned)

/-- Positions of a thread. `camRead` to `verifyStamp` are `cas_from_cam(old, new)`; a snapshot carries
its identity `s` and, once it has it, its `local_stamp`. -/
inductive Pc (P : Type) where
  | idle
  | setStamp (ptr : Versioned) (x : SetStamp) (k : After P)
  | shortcut (p : P) (l : Nat) (x : Shortcut) (op : Option Nat)
  | cas (c : Call P)
  | useIndirect (c : Call P) (old : Versioned)
  | newLink (c : Call P) (old : Versioned)
  | setNext (c : Call P) (old : Versioned)
  | camRead (c : Call P) (old new : Versioned)
  | camSwap (c : Call P) (old new : Versioned) (w : Nat × Versioned)
  | verify (c : Call P) (old new : Versioned)
  | verifyStamp (c : Call P) (old new : Versioned)
  | retry (c : Call P) (l : Nat) (new : Versioned)
  | failed (c : Call P)
  | load (p : P)
  | validate (p : P)
  | getReadStamp (s : Nat) (x : ReadStamp)
  | enter (s ts : Nat)
  | inside (s ls : Nat)
  | read (s ls : Nat) (p : P)
  | walk (s ls : Nat) (p : P) (head : Versioned)
  | follow (s ls : Nat) (p : P) (head : Versioned)

/-- What a run shows: the call of a `cas`, the installation of version `i` of a pointer with its value,
a `cas` with `exp = ptr` that finds its value at version `i`, the return of a `cas`; the start of a
snapshot, the return of its `get_read_stamp` with `local_stamp`, and the return of a `read_snapshot`. -/
inductive Event (P : Type) where
  | call (op : Nat)
  | install (op : Nat) (p : P) (i : Nat) (x : Option Nat)
  | keep (op : Nat) (p : P) (i : Nat)
  | ret (op : Nat) (b : Bool)
  | began (s : Nat)
  | stamped (s ls : Nat)
  | read (s : Nat) (p : P) (x : Option Nat)
  deriving DecidableEq

/-- The memory, the threads, and, for the statements, the next identity of a call and the number of the
last version of each pointer. -/
structure State (P ι : Type) where
  memory : Memory P
  threads : ι → Pc P
  ops : Nat
  last : P → Nat

variable {P ι : Type} [DecidableEq P] [DecidableEq ι]

/-- Where a thread goes on after `set_stamp`. Retiring a link has no effect here. -/
def After.resume (m : Memory P) : After P → List (Event P) × Pc P
  | .test c old =>
      if m.getPtr old ≠ c.exp then ([.ret c.op false], .idle)
      else if c.exp = c.ptr then ([.ret c.op true], .idle)
      else ([], .useIndirect c old)
  | .finish c (.indirect l) => ([], .shortcut c.p l .load (some c.op))
  | .finish c (.direct _) => ([.ret c.op true], .idle)
  | .fail c => ([.ret c.op false], .idle)
  | .load p (.indirect l) => ([], .shortcut p l .load none)
  | .load _ (.direct _) => ([], .idle)
  | .validate => ([], .idle)
  | .walk s ls p head => ([], .walk s ls p head)

/-- What a step does: it emits events, changes the memory and the number of versions, and leads to a new
position. -/
structure Result (P : Type) where
  events : List (Event P)
  memory : Memory P
  last : P → Nat
  pc : Pc P

/-- One step of a thread; `tag` is the tag that a compare-and-swap gives to a new word. -/
def stepThread (m : Memory P) (last : P → Nat) (tag : Nat) : Pc P → Option (Result P)
  | .idle | .inside _ _ => none
  | .setStamp ptr x k =>
      match setStamp m ptr x with
      | (m', some x') => some ⟨[], m', last, .setStamp ptr x' k⟩
      | (m', none) => some ⟨(k.resume m').1, m', last, (k.resume m').2⟩
  | .shortcut p l x op =>
      match shortcut m p l tag x with
      | (m', some x') => some ⟨[], m', last, .shortcut p l x' op⟩
      | (m', none) => some ⟨op.toList.map fun w => .ret w true, m', last, .idle⟩
  -- `cas`
  | .cas c =>
      let old := (m.v c.p).2
      let es := if m.getPtr old = c.exp ∧ c.exp = c.ptr then [.keep c.op c.p (last c.p)] else []
      some ⟨es, m, last, .setStamp old .load (.test c old)⟩
  | .useIndirect c old =>
      if c.ptr = none ∨ m.timeStamp (.direct c.ptr) ≠ none then some ⟨[], m, last, .newLink c old⟩
      else some ⟨[], m, last, .setNext c old⟩
  | .newLink c old => some ⟨[], m.newLink old c.ptr, last, .camRead c old (.indirect m.fresh)⟩
  | .setNext c old =>
      some ⟨[], m.setNext (.direct c.ptr) old, last, .camRead c old (.direct c.ptr)⟩
  | .camRead c old new =>
      if (m.v c.p).2 = old then some ⟨[], m, last, .camSwap c old new (m.v c.p)⟩
      else some ⟨[], m, last, .verify c old new⟩
  | .camSwap c old new w =>
      if m.v c.p = w then
        let i := last c.p + 1
        some ⟨[.install c.op c.p i c.ptr], m.setWord c.p (tag, new), Function.update last c.p i,
          .verify c old new⟩
      else some ⟨[], m, last, .verify c old new⟩
  | .verify c old new =>
      if (m.v c.p).2 = new then some ⟨[], m, last, .setStamp new .load (.finish c new)⟩
      else some ⟨[], m, last, .verifyStamp c old new⟩
  | .verifyStamp c old new =>
      if m.timeStamp new ≠ none then some ⟨[], m, last, .setStamp new .load (.finish c new)⟩
      else match old with
        | .indirect l => some ⟨[], m, last, .retry c l new⟩
        | .direct _ => some ⟨[], m, last, .failed c⟩
  | .retry c l new =>
      if (m.v c.p).2 = .direct (m.value l) then
        some ⟨[], m, last, .camRead c (.direct (m.value l)) new⟩
      else some ⟨[], m, last, .failed c⟩
  | .failed c => some ⟨[], m, last, .setStamp (m.v c.p).2 .load (.fail c)⟩
  -- `load` outside of a snapshot, and `validate`
  | .load p => some ⟨[], m, last, .setStamp (m.v p).2 .load (.load p (m.v p).2)⟩
  | .validate p => some ⟨[], m, last, .setStamp (m.v p).2 .load .validate⟩
  -- `with_snapshot` and `read_snapshot`
  | .getReadStamp s x =>
      match getReadStamp m x with
      | (m', .inl x') => some ⟨[], m', last, .getReadStamp s x'⟩
      | (m', .inr ts) => some ⟨[.stamped s ts], m', last, .enter s ts⟩
  | .enter s ts => some ⟨[], m, last, .inside s ts⟩
  | .read s ls p => some ⟨[], m, last, .setStamp (m.v p).2 .load (.walk s ls p (m.v p).2)⟩
  | .walk s ls p head =>
      if head ≠ .null ∧ less ls (m.timeStamp head) then some ⟨[], m, last, .follow s ls p head⟩
      else some ⟨[.read s p (m.getPtr head)], m, last, .inside s ls⟩
  | .follow s ls p head => some ⟨[], m, last, .walk s ls p (m.next head)⟩

/-- What the scheduler chooses: a thread takes a step, calls an operation, enters a snapshot, reads in
it or leaves it; or `done_stamp` is raised. -/
inductive Action (P ι : Type) where
  | step (c : ι) (tag : Nat)
  | cas (c : ι) (p : P) (exp ptr : Option Nat)
  | load (c : ι) (p : P)
  | validate (c : ι) (p : P)
  | withSnapshot (c : ι)
  | read (c : ι) (p : P)
  | leave (c : ι)
  | raise (d : Nat)

/-- Move one thread. -/
def State.goto (st : State P ι) (c : ι) (pc : Pc P) : State P ι :=
  { st with threads := Function.update st.threads c pc }

/-- The next state, if the action is possible. -/
def next : Action P ι → State P ι → Option (List (Event P) × State P ι)
  | .step c tag, st =>
      (stepThread st.memory st.last tag (st.threads c)).map fun r =>
        (r.events, ⟨r.memory, Function.update st.threads c r.pc, st.ops, r.last⟩)
  | .cas c p exp ptr, st =>
      match st.threads c with
      | .idle => some ([.call st.ops],
          { st.goto c (.cas ⟨st.ops, p, exp, ptr⟩) with ops := st.ops + 1 })
      | _ => none
  | .load c p, st =>
      match st.threads c with
      | .idle => some ([], st.goto c (.load p))
      | _ => none
  | .validate c p, st =>
      match st.threads c with
      | .idle => some ([], st.goto c (.validate p))
      | _ => none
  | .withSnapshot c, st =>
      match st.threads c with
      | .idle => some ([.began st.ops],
          { st.goto c (.getReadStamp st.ops .load) with ops := st.ops + 1 })
      | _ => none
  | .read c p, st =>
      match st.threads c with
      | .inside s ls => some ([], st.goto c (.read s ls p))
      | _ => none
  | .leave c, st =>
      match st.threads c with
      | .inside _ _ => some ([], st.goto c .idle)
      | _ => none
  | .raise d, st =>
      if st.memory.done ≤ d then some ([], { st with memory := { st.memory with done := d } })
      else none

/-- The `local_stamp` of a thread inside `with_snapshot`. -/
def Pc.localStamp : Pc P → Option Nat
  | .inside _ ls | .read _ ls _ | .walk _ ls _ _ | .follow _ ls _ _
  | .setStamp _ _ (.walk _ ls _ _) => some ls
  | _ => none

/-- The stamp with which a thread is about to enter `with_snapshot`. -/
def Pc.enters : Pc P → Option Nat
  | .enter _ ts => some ts
  | _ => none

/-- The assumptions on the surroundings: `done_stamp` stays at or below the `local_stamp` of every thread
inside `with_snapshot`, and an object without a stamp is passed to `cas` by one thread only, its
owner. -/
def Allowed (owner : Nat → ι) (st : State P ι) : Action P ι → Prop
  | .raise d => ∀ c, ∀ ls ∈ (st.threads c).localStamp, d ≤ ls
  | .step c _ => ∀ ts ∈ (st.threads c).enters, st.memory.done ≤ ts
  | .cas c _ _ (some o) => st.memory.timeStamp (.direct (some o)) = none → owner o = c
  | _ => True

/-- No thread has started. -/
def initial (m : Memory P) : State P ι :=
  ⟨m, fun _ => .idle, 0, fun _ => 0⟩

/-- Any number of threads working on any number of pointers. -/
def system (owner : Nat → ι) (init : P → Option Nat) : System (State P ι) (Action P ι) (Event P) :=
  (System.ofNext (fun st => ∃ stamped tag older, (∀ p o, init p = some o → stamped o = true) ∧
    st = initial (.initial init stamped tag older)) next).restrict (Allowed owner)

end Verlib.Hybrid.Cas
