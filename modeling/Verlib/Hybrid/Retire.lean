import Verlib.Hybrid.Memory
import Verlib.Interleaving.System
import Mathlib.Data.Fintype.Basic

/-!
# `store` without helping

The build with `NoHelp` and shortcuts: a word of `flck::atomic` is compared and swapped as it is, without a
tag, and the thread whose `cas` in `shortcut` succeeds retires the link. One pointer is stored into by one
thread at a time, and any number of threads load and read it, inside of a snapshot or outside. The clock and
`done_stamp` rise at any time. A link is not used again while a thread may hold a pointer to it, so an
allocation gets a new link.
-/

namespace Verlib.Hybrid.Retire

open Interleaving

/-- The memory of one pointer; the tags of the words are not used. -/
abbrev Memory := Hybrid.Memory Unit

/-- The content of the pointer. -/
def ptr (m : Memory) : Versioned :=
  (m.v ()).2

/-- Write the pointer. -/
def write (m : Memory) (y : Versioned) : Memory :=
  m.setWord () (0, y)

/-- What follows `set_stamp`: the end of `store`, `get_ptr_shortcut`, or the walk of `read_snapshot`. -/
inductive After where
  | store (p : Option Nat) (new : Versioned)
  | load (head : Versioned)
  | walk (ls : Nat) (head : Versioned)

/-- Positions in `shortcut`: the load of the link's stamp, the comparison with `done_stamp`, the two steps of
`cas`, and `retire`. -/
inductive Cut where
  | load
  | test (t : Option Nat)
  | read
  | swap
  | retire

/-- Positions of a thread; `p` is the pointer that it stores. `installed` says whether the first `cam` has
succeeded; it is read by no step. -/
inductive Pc where
  | idle
  | setStamp (y : Versioned) (x : SetStamp) (k : After)
  | shortcut (l : Nat) (x : Cut) (ret : Option (Option Nat))
  | store (p : Option Nat)
  | useIndirect (p : Option Nat) (old : Versioned)
  | newLink (p : Option Nat) (old : Versioned)
  | setNext (p : Option Nat) (old : Versioned)
  | camRead (p : Option Nat) (old new : Versioned)
  | camSwap (p : Option Nat) (old new : Versioned)
  | recheck (p : Option Nat) (l : Nat) (new : Versioned) (installed : Bool)
  | retireOld (p : Option Nat) (l : Nat) (new : Versioned)
  | againRead (p : Option Nat) (l : Nat) (new : Versioned)
  | againSwap (p : Option Nat) (l : Nat) (new : Versioned)
  | load
  | read
  | readSnapshot (ls : Nat)
  | walk (ls : Nat) (head : Versioned)
  | follow (ls : Nat) (head : Versioned)

/-- What a run shows: the installation of a link, its retirement, and the return of `store(p)`. -/
inductive Event where
  | install (l : Nat)
  | retire (l : Nat)
  | ret (p : Option Nat)
  deriving DecidableEq

/-- The memory, and where the threads are. -/
structure State (ι : Type) where
  memory : Memory
  threads : ι → Pc

/-- What a step does. -/
structure Result where
  events : List Event
  memory : Memory
  pc : Pc

/-- Where a thread goes on after `set_stamp`. -/
def After.resume : After → List Event × Pc
  | .store p (.indirect l) => ([], .shortcut l .load (some p))
  | .store p (.direct _) => ([.ret p], .idle)
  | .load (.indirect l) => ([], .shortcut l .load none)
  | .load (.direct _) => ([], .idle)
  | .walk ls head => ([], .walk ls head)

/-- The event of the installation, if the new version is a link. -/
def installs : Versioned → List Event
  | .indirect l => [.install l]
  | .direct _ => []

/-- Where `store` goes on after the first `cam`. -/
def afterCam (p : Option Nat) (old new : Versioned) (installed : Bool) : Pc :=
  match old with
  | .indirect l => .recheck p l new installed
  | .direct _ => .setStamp new .load (.store p new)

/-- The end of `shortcut`, which is the end of the call. -/
def returns (ret : Option (Option Nat)) : List Event :=
  ret.toList.map .ret

/-- One step of `shortcut` of link `l`. -/
def stepShortcut (m : Memory) (l : Nat) (ret : Option (Option Nat)) : Cut → Result
  | .load => ⟨[], m, .shortcut l (.test (m.timeStamp (.indirect l))) ret⟩
  | .test none => ⟨returns ret, m, .idle⟩
  | .test (some t) => if t ≤ m.done then ⟨[], m, .shortcut l .read ret⟩ else ⟨returns ret, m, .idle⟩
  | .read => if ptr m = .indirect l then ⟨[], m, .shortcut l .swap ret⟩ else ⟨returns ret, m, .idle⟩
  | .swap =>
      if ptr m = .indirect l then ⟨[], write m (.direct (m.value l)), .shortcut l .retire ret⟩
      else ⟨returns ret, m, .idle⟩
  | .retire => ⟨.retire l :: returns ret, m, .idle⟩

/-- One step of a thread. -/
def stepThread (m : Memory) : Pc → Option Result
  | .idle => none
  | .setStamp y x k =>
      match Hybrid.setStamp m y x with
      | (m', some x') => some ⟨[], m', .setStamp y x' k⟩
      | (m', none) => some ⟨k.resume.1, m', k.resume.2⟩
  | .shortcut l x ret => some (stepShortcut m l ret x)
  -- `store`
  | .store p => some ⟨[], m, .useIndirect p (ptr m)⟩
  | .useIndirect p old =>
      if p = none ∨ m.timeStamp (.direct p) ≠ none then some ⟨[], m, .newLink p old⟩
      else some ⟨[], m, .setNext p old⟩
  | .newLink p old => some ⟨[], m.newLink old p, .camRead p old (.indirect m.fresh)⟩
  | .setNext p old => some ⟨[], m.setNext (.direct p) old, .camRead p old (.direct p)⟩
  | .camRead p old new =>
      if ptr m = old then some ⟨[], m, .camSwap p old new⟩ else some ⟨[], m, afterCam p old new false⟩
  | .camSwap p old new =>
      if ptr m = old then some ⟨installs new, write m new, afterCam p old new true⟩
      else some ⟨[], m, afterCam p old new false⟩
  | .recheck p l new _ =>
      if ptr m ≠ .direct (m.value l) then some ⟨[], m, .retireOld p l new⟩
      else some ⟨[], m, .againRead p l new⟩
  | .retireOld p l new => some ⟨[.retire l], m, .setStamp new .load (.store p new)⟩
  | .againRead p l new =>
      if ptr m = .direct (m.value l) then some ⟨[], m, .againSwap p l new⟩
      else some ⟨[], m, .setStamp new .load (.store p new)⟩
  | .againSwap p l new =>
      if ptr m = .direct (m.value l) then
        some ⟨installs new, write m new, .setStamp new .load (.store p new)⟩
      else some ⟨[], m, .setStamp new .load (.store p new)⟩
  -- `load` and `read` outside of a snapshot
  | .load => some ⟨[], m, .setStamp (ptr m) .load (.load (ptr m))⟩
  | .read => some ⟨[], m, (After.load (ptr m)).resume.2⟩
  -- `read_snapshot`
  | .readSnapshot ls => some ⟨[], m, .setStamp (ptr m) .load (.walk ls (ptr m))⟩
  | .walk ls head =>
      if head ≠ .null ∧ less ls (m.timeStamp head) then some ⟨[], m, .follow ls head⟩
      else some ⟨[], m, .idle⟩
  | .follow ls head => some ⟨[], m, .walk ls (m.next head)⟩

/-- The thread is in a `store`. -/
def Pc.storing : Pc → Bool
  | .store _ | .useIndirect _ _ | .newLink _ _ | .setNext _ _ | .camRead _ _ _ | .camSwap _ _ _
  | .recheck _ _ _ _ | .retireOld _ _ _ | .againRead _ _ _ | .againSwap _ _ _
  | .setStamp _ _ (.store _ _) | .shortcut _ _ (some _) => true
  | _ => false

/-- What the scheduler chooses: a thread takes a step or calls an operation, or the clock or `done_stamp`
rises. -/
inductive Action (ι : Type) where
  | step (t : ι)
  | store (t : ι) (p : Option Nat)
  | load (t : ι)
  | read (t : ι)
  | readSnapshot (t : ι) (ls : Nat)
  | tick (n : Nat)
  | raise (n : Nat)

/-- Move one thread. -/
def State.goto {ι : Type} [DecidableEq ι] (st : State ι) (t : ι) (pc : Pc) : State ι :=
  { st with threads := Function.update st.threads t pc }

/-- The thread is in no call. -/
def Pc.isIdle : Pc → Bool
  | .idle => true
  | _ => false

/-- The next state, if the action is possible. -/
def next {ι : Type} [DecidableEq ι] : Action ι → State ι → Option (List Event × State ι)
  | .step t, st =>
      (stepThread st.memory (st.threads t)).map fun r =>
        (r.events, ⟨r.memory, Function.update st.threads t r.pc⟩)
  | .store t p, st => if (st.threads t).isIdle then some ([], st.goto t (.store p)) else none
  | .load t, st => if (st.threads t).isIdle then some ([], st.goto t .load) else none
  | .read t, st => if (st.threads t).isIdle then some ([], st.goto t .read) else none
  | .readSnapshot t ls, st => if (st.threads t).isIdle then some ([], st.goto t (.readSnapshot ls)) else none
  | .tick n, st => some ([], { st with memory := { st.memory with stamp := st.memory.stamp + n } })
  | .raise n, st => some ([], { st with memory := { st.memory with done := st.memory.done + n } })

/-- Stores are executed one at a time, and the stored pointer differs from the current value. -/
def Serialised {ι : Type} (st : State ι) : Action ι → Prop
  | .store _ p => (∀ u, (st.threads u).storing = false) ∧ st.memory.getPtr (ptr st.memory) ≠ p
  | _ => True

/-- At the start the pointer holds an object or null, links have no stamps, and no thread is in a call. -/
structure Initial {ι : Type} (init : Option Nat) (st : State ι) : Prop where
  ptr : Retire.ptr st.memory = .direct init
  links : ∀ l, st.memory.timeStamp (.indirect l) = none
  threads : ∀ t, st.threads t = .idle

/-- Whether a store may begin is decidable for finitely many threads. -/
instance {ι : Type} [Fintype ι] (st : State ι) (act : Action ι) : Decidable (Serialised st act) :=
  match act with
  | .store _ p => inferInstanceAs
      (Decidable ((∀ u, (st.threads u).storing = false) ∧ st.memory.getPtr (ptr st.memory) ≠ p))
  | .step _ | .load _ | .read _ | .readSnapshot _ _ | .tick _ | .raise _ => isTrue trivial

/-- Any number of threads that work on one pointer. -/
def system {ι : Type} [DecidableEq ι] (init : Option Nat) : System (State ι) (Action ι) Event :=
  (System.ofNext (Initial init) next).restrict Serialised

/-- The pointer that the last completed `store` has stored. -/
def lastStored (init : Option Nat) : List Event → Option Nat
  | [] => init
  | .ret p :: h => lastStored p h
  | _ :: h => lastStored init h

end Verlib.Hybrid.Retire
