import Verlib.Indirect.Memory
import Verlib.Interleaving.System

/-!
# Speculative snapshots of fully indirect pointers

The build with `LazyStamp` and the clock `timestamp_read`. A snapshot takes `get_stamp` as its
`local_stamp`, without moving the clock. If a read of its body meets a version with this stamp the body is
run once more, not speculatively, with the same `local_stamp`, after `increment_stamp` has moved the clock.
A pointer is updated by stores that its lock serialises, or by `cas` calls. Every load, store and
compare-and-swap of shared memory is a step. Links that have been retired are not used again.
-/

namespace Verlib.Indirect.Lazy

open Interleaving

/-- A call of `store(ptr)` or of `cas(exp, ptr)` on pointer `p`. -/
structure Call (P : Type) where
  op : Nat
  p : P
  exp : Option Nat
  ptr : Option Nat

/-- A snapshot: its identity and the thread-local `local_stamp`, `speculative` and `aborted`. -/
structure Reader where
  s : Nat
  ls : Nat
  speculative : Bool
  aborted : Bool

/-- What follows `set_stamp`: the end of `store`, the tests of `cas`, its successful and its failing end,
the end of `load`, and the walk of `read_snapshot`. -/
inductive After (P : Type) where
  | store (c : Call P)
  | test (c : Call P) (old : Nat)
  | finish (c : Call P)
  | fail (c : Call P)
  | load
  | walk (r : Reader) (p : P) (head : Nat)

/-- Positions of a thread. `storeLoad` and `storeSwap` are `v = new_link`; `camRead` to `verifyStamp` are
`idempotent_cas(old, new)`, where the build without helping has only the first two. `again` and `add` are
`increment_stamp` after an abort. -/
inductive Pc (P : Type) where
  | idle
  | setStamp (l : Nat) (x : SetStamp) (k : After P)
  | store (c : Call P)
  | storeNew (c : Call P) (old : Nat)
  | storeLoad (c : Call P) (new : Nat)
  | storeSwap (c : Call P) (new : Nat) (w : Nat × Nat)
  | cas (c : Call P)
  | casNew (c : Call P) (old : Nat)
  | camRead (c : Call P) (old new : Nat)
  | camSwap (c : Call P) (new : Nat) (w : Nat × Nat)
  | verify (c : Call P) (new : Nat)
  | verifyStamp (c : Call P) (new : Nat)
  | failed (c : Call P)
  | load (p : P)
  | getStamp (s : Nat)
  | inside (r : Reader)
  | read (r : Reader) (p : P)
  | walk (r : Reader) (p : P) (head : Nat)
  | follow (r : Reader) (p : P) (head : Nat)
  | test (r : Reader) (p : P) (head : Nat)
  | again (r : Reader)
  | add (r : Reader)

/-- What a run shows: the call of a `store` or `cas`, the installation of version `i` of a pointer with its
value, a `cas` with `exp = ptr` that finds its value at version `i`, and the return; the start of a
snapshot, a read in the first or in the second run of its body, and the end of the run whose result
`with_snapshot` returns. -/
inductive Event (P : Type) where
  | call (op : Nat)
  | install (op : Nat) (p : P) (i : Nat) (x : Option Nat)
  | keep (op : Nat) (p : P) (i : Nat)
  | ret (op : Nat) (b : Bool)
  | began (s : Nat)
  | read (s : Nat) (second : Bool) (p : P) (x : Option Nat)
  | result (s : Nat) (second : Bool)
  deriving DecidableEq

/-- The memory, the threads, and, for the statements, the next identity of a call and the number of the
last version of each pointer. -/
structure State (P ι : Type) where
  memory : Memory P
  threads : ι → Pc P
  ops : Nat
  last : P → Nat

variable {P ι : Type} [DecidableEq P] [DecidableEq ι]

/-- Where a thread goes on after `set_stamp`. -/
def After.resume (m : Memory P) : After P → List (Event P) × Pc P
  | .store c => ([.ret c.op true], .idle)
  | .test c old =>
      if c.exp ≠ (m.links old).value then ([.ret c.op false], .idle)
      else if c.exp = c.ptr then ([.ret c.op true], .idle)
      else ([], .casNew c old)
  | .finish c => ([.ret c.op true], .idle)
  | .fail c => ([.ret c.op false], .idle)
  | .load => ([], .idle)
  | .walk r p head => ([], .walk r p head)

/-- What a step does: it emits events, changes the memory and the number of versions, and leads to a new
position. -/
structure Result (P : Type) where
  events : List (Event P)
  memory : Memory P
  last : P → Nat
  pc : Pc P

/-- The word of a pointer is replaced by a new link, which is its next version. -/
def install (m : Memory P) (last : P → Nat) (c : Call P) (tag new : Nat) (pc : Pc P) : Result P :=
  ⟨[.install c.op c.p (last c.p + 1) c.ptr], m.setWord c.p (tag, new),
    Function.update last c.p (last c.p + 1), pc⟩

/-- One step of a thread. `help` says which build it is, and `tag` is the tag that a compare-and-swap gives
to a new word. -/
def stepThread (help : Bool) (m : Memory P) (last : P → Nat) (tag : Nat) : Pc P → Option (Result P)
  | .idle | .inside _ => none
  | .setStamp l x k =>
      match setStamp m l x with
      | (m', some x') => some ⟨[], m', last, .setStamp l x' k⟩
      | (m', none) => some ⟨(k.resume m').1, m', last, (k.resume m').2⟩
  -- `store`
  | .store c => some ⟨[], m, last, .storeNew c (m.v c.p).2⟩
  | .storeNew c old => some ⟨[], m.newLink ⟨none, some old, c.ptr⟩, last, .storeLoad c m.fresh⟩
  | .storeLoad c new => some ⟨[], m, last, .storeSwap c new (m.v c.p)⟩
  | .storeSwap c new w =>
      if m.v c.p = w then some (install m last c tag new (.setStamp new .load (.store c)))
      else some ⟨[], m, last, .setStamp new .load (.store c)⟩
  -- `cas`
  | .cas c =>
      let old := (m.v c.p).2
      let es := if c.exp = (m.links old).value ∧ c.exp = c.ptr then [.keep c.op c.p (last c.p)] else []
      some ⟨es, m, last, .setStamp old .load (.test c old)⟩
  | .casNew c old => some ⟨[], m.newLink ⟨none, some old, c.ptr⟩, last, .camRead c old m.fresh⟩
  | .camRead c old new =>
      if (m.v c.p).2 = old then some ⟨[], m, last, .camSwap c new (m.v c.p)⟩
      else some ⟨[], m, last, if help then .verify c new else .failed c⟩
  | .camSwap c new w =>
      if m.v c.p = w then
        some (install m last c tag new (if help then .verify c new else .setStamp new .load (.finish c)))
      else some ⟨[], m, last, if help then .verify c new else .failed c⟩
  | .verify c new =>
      if (m.v c.p).2 = new then some ⟨[], m, last, .setStamp new .load (.finish c)⟩
      else some ⟨[], m, last, .verifyStamp c new⟩
  | .verifyStamp c new =>
      if (m.links new).timeStamp ≠ none then some ⟨[], m, last, .setStamp new .load (.finish c)⟩
      else some ⟨[], m, last, .failed c⟩
  | .failed c => some ⟨[], m, last, .setStamp (m.v c.p).2 .load (.fail c)⟩
  -- `load` outside of a snapshot
  | .load p => some ⟨[], m, last, .setStamp (m.v p).2 .load .load⟩
  -- `with_snapshot` and `read_snapshot`
  | .getStamp s => some ⟨[], m, last, .inside ⟨s, m.stamp, true, false⟩⟩
  | .read r p => some ⟨[], m, last, .setStamp (m.v p).2 .load (.walk r p (m.v p).2)⟩
  | .walk r p head =>
      if less r.ls (m.links head).timeStamp then some ⟨[], m, last, .follow r p head⟩
      else some ⟨[], m, last, .test r p head⟩
  | .follow r p head => (m.links head).next.map fun l => ⟨[], m, last, .walk r p l⟩
  | .test r p head =>
      let aborted := (m.links head).timeStamp = some r.ls && r.speculative
      some ⟨[.read r.s (!r.speculative) p (m.links head).value], m, last,
        .inside { r with aborted := r.aborted || aborted }⟩
  | .again r =>
      if m.stamp = r.ls then some ⟨[], m, last, .add r⟩ else some ⟨[], m, last, .inside r⟩
  | .add r => some ⟨[], { m with stamp := m.stamp + 1 }, last, .inside r⟩

/-- The pointer that a thread is storing into, whose lock it holds. -/
def Pc.storing : Pc P → Option P
  | .store c | .storeNew c _ | .storeLoad c _ | .storeSwap c _ _ | .setStamp _ _ (.store c) => some c.p
  | _ => none

/-- What the scheduler chooses: a thread takes a step, calls an operation, enters a snapshot, reads in it
or ends its body. -/
inductive Action (P ι : Type) where
  | step (t : ι) (tag : Nat)
  | store (t : ι) (p : P) (ptr : Option Nat)
  | cas (t : ι) (p : P) (exp ptr : Option Nat)
  | load (t : ι) (p : P)
  | withSnapshot (t : ι)
  | read (t : ι) (p : P)
  | finish (t : ι)

/-- Move one thread. -/
def State.goto (st : State P ι) (t : ι) (pc : Pc P) : State P ι :=
  { st with threads := Function.update st.threads t pc }

/-- Start a call with a new identity. -/
def State.start (st : State P ι) (t : ι) (pc : Pc P) : State P ι :=
  { st.goto t pc with ops := st.ops + 1 }

/-- The next state, if the action is possible. -/
def next (help : Bool) (locked : P → Bool) : Action P ι → State P ι → Option (List (Event P) × State P ι)
  | .step t tag, st =>
      (stepThread help st.memory st.last tag (st.threads t)).map fun r =>
        (r.events, ⟨r.memory, Function.update st.threads t r.pc, st.ops, r.last⟩)
  | .store t p ptr, st =>
      match st.threads t, locked p with
      | .idle, true => some ([.call st.ops], st.start t (.store ⟨st.ops, p, none, ptr⟩))
      | _, _ => none
  | .cas t p exp ptr, st =>
      match st.threads t, locked p with
      | .idle, false => some ([.call st.ops], st.start t (.cas ⟨st.ops, p, exp, ptr⟩))
      | _, _ => none
  | .load t p, st =>
      match st.threads t with
      | .idle => some ([], st.goto t (.load p))
      | _ => none
  | .withSnapshot t, st =>
      match st.threads t with
      | .idle => some ([.began st.ops], st.start t (.getStamp st.ops))
      | _ => none
  | .read t p, st =>
      match st.threads t with
      | .inside r => some ([], st.goto t (.read r p))
      | _ => none
  | .finish t, st =>
      match st.threads t with
      | .inside ⟨s, ls, true, true⟩ => some ([], st.goto t (.again ⟨s, ls, false, false⟩))
      | .inside ⟨s, _, true, false⟩ => some ([.result s false], st.goto t .idle)
      | .inside ⟨s, _, false, _⟩ => some ([.result s true], st.goto t .idle)
      | _ => none

/-- The lock of a pointer: no other thread is storing into it. -/
def Serialised (st : State P ι) : Action P ι → Prop
  | .store _ p _ => ∀ u, (st.threads u).storing ≠ some p
  | _ => True

/-- Every pointer has been initialised, and no thread has started. -/
structure Initial (init : P → Option Nat) (st : State P ι) : Prop where
  stamp : zeroStamp ≤ st.memory.stamp
  word : ∀ p, (st.memory.v p).2 < st.memory.fresh
  link : ∀ p, st.memory.links (st.memory.v p).2 = ⟨some zeroStamp, none, init p⟩
  distinct : ∀ p q, (st.memory.v p).2 = (st.memory.v q).2 → p = q
  threads : ∀ t, st.threads t = .idle
  ops : st.ops = 0
  last : ∀ p, st.last p = 0

/-- Any number of threads working on any number of pointers, in the build with helping or in the one
without. -/
def system (help : Bool) (locked : P → Bool) (init : P → Option Nat) :
    System (State P ι) (Action P ι) (Event P) :=
  (System.ofNext (Initial init) (next help locked)).restrict Serialised

end Verlib.Indirect.Lazy
