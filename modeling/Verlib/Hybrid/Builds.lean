import Verlib.Hybrid.Memory
import Verlib.Interleaving.System

/-!
# `cas`, `load`, `read` and `validate` on one pointer

The two builds of `versioned_ptr` differ in `cas_from_cam`: with helping a compare-and-modify gives no
result, and `cas` infers from the pointer and the stamp of the new version whether it has been installed;
without helping it is a compare-and-swap. Words of the helping build carry tags. Links that have been
retired or destructed are not used again, so an address stands for one link. The clock may show any value
at any time.

Every step shows the value behind the pointer before and after it.
-/

namespace Verlib.Hybrid.Builds

open Interleaving

/-- A call of `cas(exp, ptr)`. -/
structure Call where
  op : Nat
  exp : Option Nat
  ptr : Option Nat

/-- What follows `set_stamp`: the tests of `cas`, its successful and its failing end, and the end of
`load` and of `validate`. -/
inductive After where
  | test (c : Call) (old : Versioned)
  | finish (c : Call) (new : Versioned)
  | fail (c : Call)
  | load (ptr : Versioned)
  | validate

/-- Positions of a thread. `camRead` to `verifyStamp` are `cas_from_cam(old, new)`, where the build
without helping has only the first two. -/
inductive Pc where
  | idle
  | setStamp (ptr : Versioned) (x : SetStamp) (k : After)
  | shortcut (l : Nat) (x : Shortcut) (op : Option Nat)
  | cas (c : Call)
  | useIndirect (c : Call) (old : Versioned)
  | newLink (c : Call) (old : Versioned)
  | setNext (c : Call) (old : Versioned)
  | camRead (c : Call) (old new : Versioned)
  | camSwap (c : Call) (old new : Versioned) (w : Nat × Versioned)
  | verify (c : Call) (old new : Versioned)
  | verifyStamp (c : Call) (old new : Versioned)
  | retry (c : Call) (l : Nat) (new : Versioned)
  | failed (c : Call)
  | load
  | read
  | validate

/-- What a run shows: the call of a `cas`, the link that it allocates, every step with the `cas` that
takes it if there is one, whether it belongs to `shortcut`, the value behind the pointer before and after
it and what the pointer then holds, and the return of a `cas`. -/
inductive Event where
  | call (op : Nat) (exp ptr : Option Nat)
  | alloc (op l : Nat)
  | step (op : Option Nat) (short : Bool) (x y : Option Nat) (word : Versioned)
  | ret (op : Nat) (b : Bool)
  deriving DecidableEq

/-- The memory, the threads, and the next identity of a call. -/
structure State (ι : Type) where
  memory : Memory Unit
  threads : ι → Pc
  ops : Nat

/-- The value behind the pointer. -/
def value (m : Memory Unit) : Option Nat :=
  m.getPtr (m.v ()).2

/-- Where a thread goes on after `set_stamp`, and the result of a `cas` that returns. -/
def After.resume (m : Memory Unit) : After → List Event × Pc
  | .test c old =>
      if m.getPtr old ≠ c.exp then ([.ret c.op false], .idle)
      else if c.exp = c.ptr then ([.ret c.op true], .idle)
      else ([], .useIndirect c old)
  | .finish c (.indirect l) => ([], .shortcut l .load (some c.op))
  | .finish c (.direct _) => ([.ret c.op true], .idle)
  | .fail c => ([.ret c.op false], .idle)
  | .load (.indirect l) => ([], .shortcut l .load none)
  | .load (.direct _) => ([], .idle)
  | .validate => ([], .idle)

/-- Where `cas` goes on when `cas_from_cam(old, new)` was not successful. -/
def Call.failed (c : Call) (old new : Versioned) : Pc :=
  match old with
  | .indirect l => .retry c l new
  | .direct _ => .failed c

/-- Where `cas` goes on when `cas_from_cam(old, new)` was successful. -/
def Call.succeeded (c : Call) (new : Versioned) : Pc :=
  .setStamp new .load (.finish c new)

/-- One step of a thread: the new memory, an allocated link, a result, and the new position. `help` says
which build it is, and `tag` is the tag that a compare-and-swap gives to a new word. -/
def stepThread (help : Bool) (m : Memory Unit) (tag : Nat) :
    Pc → Option (Memory Unit × List Event × List Event × Pc)
  | .idle => none
  | .setStamp ptr x k =>
      match setStamp m ptr x with
      | (m', some x') => some (m', [], [], .setStamp ptr x' k)
      | (m', none) => some (m', [], (k.resume m').1, (k.resume m').2)
  | .shortcut l x op =>
      match shortcut m () l tag x with
      | (m', some x') => some (m', [], [], .shortcut l x' op)
      | (m', none) => some (m', [], op.toList.map fun w => .ret w true, .idle)
  -- `cas`
  | .cas c => some (m, [], [], .setStamp (m.v ()).2 .load (.test c (m.v ()).2))
  | .useIndirect c old =>
      if c.ptr = none ∨ m.timeStamp (.direct c.ptr) ≠ none then some (m, [], [], .newLink c old)
      else some (m, [], [], .setNext c old)
  | .newLink c old =>
      some (m.newLink old c.ptr, [.alloc c.op m.fresh], [], .camRead c old (.indirect m.fresh))
  | .setNext c old =>
      some (m.setNext (.direct c.ptr) old, [], [], .camRead c old (.direct c.ptr))
  | .camRead c old new =>
      if (m.v ()).2 = old then some (m, [], [], .camSwap c old new (m.v ()))
      else some (m, [], [], if help then .verify c old new else c.failed old new)
  | .camSwap c old new w =>
      if m.v () = w then
        some (m.setWord () (tag, new), [], [], if help then .verify c old new else c.succeeded new)
      else some (m, [], [], if help then .verify c old new else c.failed old new)
  | .verify c old new =>
      if (m.v ()).2 = new then some (m, [], [], c.succeeded new)
      else some (m, [], [], .verifyStamp c old new)
  | .verifyStamp c old new =>
      if m.timeStamp new ≠ none then some (m, [], [], c.succeeded new)
      else some (m, [], [], c.failed old new)
  | .retry c l new =>
      if (m.v ()).2 = .direct (m.value l) then some (m, [], [], .camRead c (.direct (m.value l)) new)
      else some (m, [], [], .failed c)
  | .failed c => some (m, [], [], .setStamp (m.v ()).2 .load (.fail c))
  -- `load`, `read` and `validate`
  | .load => some (m, [], [], .setStamp (m.v ()).2 .load (.load (m.v ()).2))
  | .read =>
      match (m.v ()).2 with
      | .indirect l => some (m, [], [], .shortcut l .load none)
      | .direct _ => some (m, [], [], .idle)
  | .validate => some (m, [], [], .setStamp (m.v ()).2 .load .validate)

/-- The `cas` that follows `set_stamp`. -/
def After.op : After → Option Nat
  | .test c _ | .finish c _ | .fail c => some c.op
  | .load _ | .validate => none

/-- The `cas` that a thread executes. -/
def Pc.op : Pc → Option Nat
  | .idle | .load | .read | .validate => none
  | .setStamp _ _ k => k.op
  | .shortcut _ _ op => op
  | .cas c | .useIndirect c _ | .newLink c _ | .setNext c _ | .camRead c _ _ | .camSwap c _ _ _
  | .verify c _ _ | .verifyStamp c _ _ | .retry c _ _ | .failed c => some c.op

/-- The thread is in `shortcut`. -/
def Pc.short : Pc → Bool
  | .shortcut _ _ _ => true
  | _ => false

/-- What the scheduler chooses: a thread takes a step or calls an operation, `done_stamp` is raised, or
the clock changes. -/
inductive Action (ι : Type) where
  | step (c : ι) (tag : Nat)
  | cas (c : ι) (exp ptr : Option Nat)
  | load (c : ι)
  | read (c : ι)
  | validate (c : ι)
  | raise (d : Nat)
  | clock (t : Nat)

variable {ι : Type} [DecidableEq ι]

/-- Start an operation. -/
def State.start (st : State ι) (c : ι) (pc : Pc) : Option (State ι) :=
  match st.threads c with
  | .idle => some { st with threads := Function.update st.threads c pc }
  | _ => none

/-- The next state, if the action is possible. Without helping words have no tags. -/
def next (help : Bool) : Action ι → State ι → Option (List Event × State ι)
  | .step c tag, st =>
      (stepThread help st.memory (if help then tag else 0) (st.threads c)).map
        fun (m, alloc, ret, pc) =>
          (alloc ++ .step (st.threads c).op (st.threads c).short (value st.memory) (value m) (m.v ()).2 ::
            ret, ⟨m, Function.update st.threads c pc, st.ops⟩)
  | .cas c exp ptr, st =>
      (st.start c (.cas ⟨st.ops, exp, ptr⟩)).map fun st' =>
        ([.call st.ops exp ptr], { st' with ops := st.ops + 1 })
  | .load c, st => (st.start c .load).map fun st' => ([], st')
  | .read c, st => (st.start c .read).map fun st' => ([], st')
  | .validate c, st => (st.start c .validate).map fun st' => ([], st')
  | .raise d, st =>
      if st.memory.done ≤ d then some ([], { st with memory := { st.memory with done := d } })
      else none
  | .clock t, st => some ([], { st with memory := { st.memory with stamp := t } })

/-- An object without a stamp is passed to `cas` by one thread only, its owner. -/
def Allowed (owner : Nat → ι) (st : State ι) : Action ι → Prop
  | .cas c _ (some o) => st.memory.timeStamp (.direct (some o)) = none → owner o = c
  | _ => True

/-- No thread has started. -/
def initial (m : Memory Unit) : State ι :=
  ⟨m, fun _ => .idle, 0⟩

/-- Any number of threads working on one pointer, in the build with helping or in the one without. -/
def system (help : Bool) (owner : Nat → ι) (init : Option Nat) :
    System (State ι) (Action ι) Event :=
  (System.ofNext (fun st => ∃ stamped tag older, (∀ o, init = some o → stamped o = true) ∧
    (help = false → tag = fun _ => 0) ∧
    st = initial (.initial (fun _ => init) stamped tag older)) (next help)).restrict (Allowed owner)

end Verlib.Hybrid.Builds
