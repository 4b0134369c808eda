import Verlib.Interleaving.System

/-!
# The lock of the lock-free locks

`lf_lock.h` keeps in `lck` either a pointer to the descriptor that holds the lock or, with the top
bit set, a counter. The model runs any number of processes over `with_lock`, `try_lock_result` and
`help_descriptor` on one lock. Several processes may execute one call: they then share the log of
the enclosing thunk, that is the committed load of `try_lock_result` and the entry that
`new_obj_acquired` fills with the descriptor and `retire_acquired_result` replaces by the result.

Descriptors are not reused while the lock is in use, and the counter does not wrap. The body of a
thunk is one step that only records that it ran, since nothing in it touches this lock word.
-/

namespace Verlib.Flock.LockWord

open Interleaving

/-- A word of `lck` or of a descriptor's `counter`: an address, which reads as locked, or a count
with the top bit set. The null word is the address 0. -/
inductive Entry where
  | locked (d : Nat)
  | unlocked (count : Nat)
  deriving DecidableEq, Repr

/-- The unsigned comparison of two words: every address is below every count. -/
def Entry.lt : Entry → Entry → Bool
  | .locked d, .locked e => d < e
  | .locked _, .unlocked _ => true
  | .unlocked _, .locked _ => false
  | .unlocked c, .unlocked k => c < k

/-- The successor of a word. -/
def Entry.succ : Entry → Entry
  | .locked d => .locked (d + 1)
  | .unlocked c => .unlocked (c + 1)

/-- The count of a word that is one, and zero for an address. -/
def Entry.count : Entry → Nat
  | .locked _ => 0
  | .unlocked c => c

/-- The fields of a descriptor that the lock protocol reads and writes. -/
structure Descriptor where
  counter : Entry
  done : Bool

/-- Which of the two functions a call is a call of. -/
inductive Kind where
  | withLock
  | tryLock
  deriving DecidableEq

/-- The log entry of `new_obj_acquired`: not committed yet, the descriptor, or the result that
`retire_acquired_result` put in its place. -/
inductive LogEntry where
  | empty
  | desc (d : Nat)
  | result (ok : Bool)

/-- What the processes that execute one call share: the load that `try_lock_result` commits, and the
entry of the descriptor. -/
structure Call where
  current : Option Entry
  entry : LogEntry

/-- The shared memory: the lock word, the descriptors, the next descriptor to allocate, and the logs
of the calls. -/
structure Shared (ι : Type) where
  lck : Entry
  descs : Nat → Descriptor
  fresh : Nat
  calls : ι → Call

/-- Positions in running a descriptor's thunk, marking it done, and `clear`. -/
inductive Body where
  | run
  | finish
  | clear
  | clearCount
  | clearSwap (n : Entry)
  deriving DecidableEq

/-- Positions in `help_descriptor`: the two tests that the lock is still held, and the body. -/
inductive Help where
  | look
  | check
  | body (b : Body)

/-- Positions of a call that has its descriptor, with the values of the local variables. -/
inductive Pos where
  | tryRead (x : Nat)
  | tryCas (x : Nat)
  | tryAfter
  | tryDone (seen : Entry)
  | withCount (w : Entry)
  | withBump (old : Entry) (x : Nat)
  | withTest (w : Entry)
  | withRead (x : Nat)
  | withCas (x : Nat)
  | withAgain
  | wantHelp (e : Nat)
  | help (e : Nat) (s : Help)
  | body (b : Body)
  | retire (ok : Bool)

/-- The call a process executes, the descriptor it got from `new_obj_acquired`, and `i_own`. -/
structure Frame (ι : Type) where
  call : ι
  desc : Nat
  own : Bool

/-- Where a process stands: between calls, before or in `new_obj_acquired` with the lock word it has
loaded, or in the rest of a call. -/
inductive Control (ι : Type) where
  | idle
  | commit (c : ι) (w : Entry)
  | alloc (c : ι) (w : Entry)
  | reload (c : ι) (w : Entry)
  | inside (f : Frame ι) (p : Pos)

/-- What a run shows: the words that compare-exchanges put into `lck`, the descriptor that a call's
log entry was filled with, the thunks run, and what calls reported. -/
inductive Event (ι : Type) where
  | wrote (w : Entry)
  | commit (c : ι) (d : Nat)
  | runs (d : Nat)
  | report (c : ι) (ok : Bool)
  deriving DecidableEq

variable {ι π : Type} [DecidableEq ι] [DecidableEq π]

/-- Set `counter` of a descriptor. -/
def Shared.setCounter (sh : Shared ι) (d : Nat) (w : Entry) : Shared ι :=
  { sh with descs := Function.update sh.descs d { sh.descs d with counter := w } }

/-- Set `done` of a descriptor. -/
def Shared.setDone (sh : Shared ι) (d : Nat) : Shared ι :=
  { sh with descs := Function.update sh.descs d { sh.descs d with done := true } }

/-- Commit the load of a call. -/
def Shared.setCurrent (sh : Shared ι) (c : ι) (w : Entry) : Shared ι :=
  { sh with calls := Function.update sh.calls c { sh.calls c with current := some w } }

/-- Overwrite the log entry of a call. -/
def Shared.setEntry (sh : Shared ι) (c : ι) (x : LogEntry) : Shared ι :=
  { sh with calls := Function.update sh.calls c { sh.calls c with entry := x } }

/-- The count a new descriptor starts with: the lock word if it was read unlocked, else zero. -/
def firstCounter : Entry → Entry
  | .locked _ => .locked 0
  | .unlocked x => .unlocked x

/-- Allocate the descriptor of a call and commit it to the call's log entry. -/
def Shared.allocate (sh : Shared ι) (c : ι) (w : Entry) : Shared ι :=
  { sh with
    descs := Function.update sh.descs sh.fresh ⟨firstCounter w, false⟩
    fresh := sh.fresh + 1 }.setEntry c (.desc sh.fresh)

/-- One step of running descriptor `d`: the thunk, `done = true`, and `clear`, which loads `lck`,
loads `counter` and compare-exchanges. There is no next position when `clear` is over. -/
def Shared.stepBody (sh : Shared ι) (d : Nat) :
    Body → List (Event ι) × Shared ι × Option Body
  | .run => ([.runs d], sh, some .finish)
  | .finish => ([], sh.setDone d, some .clear)
  | .clear => ([], sh, if sh.lck = .locked d then some .clearCount else none)
  | .clearCount => ([], sh, some (.clearSwap (sh.descs d).counter.succ))
  | .clearSwap n =>
      if sh.lck = .locked d then ([.wrote n], { sh with lck := n }, none) else ([], sh, none)

/-- The position after `new_obj_acquired`, given the lock word loaded before it. -/
def firstPos : Kind → Entry → Pos
  | .tryLock, .unlocked x => .tryRead x
  | .tryLock, .locked e => .wantHelp e
  | .withLock, w => .withCount w

/-- The position after `help_descriptor`. -/
def afterHelp : Kind → Pos
  | .tryLock => .retire false
  | .withLock => .withAgain

/-- One step of a call of the given kind that has its descriptor. -/
def Shared.stepPos (sh : Shared ι) (k : Kind) (f : Frame ι) :
    Pos → List (Event ι) × Shared ι × Control ι
  | .tryRead x => ([], sh, .inside f (if sh.lck = .unlocked x then .tryCas x else .tryAfter))
  | .tryCas x =>
      if sh.lck = .unlocked x then
        ([.wrote (.locked f.desc)], { sh with lck := .locked f.desc }, .inside f .tryAfter)
      else ([], sh, .inside f .tryAfter)
  | .tryAfter => ([], sh, .inside f (.tryDone sh.lck))
  | .tryDone seen =>
      ([], sh, .inside f
        (if (sh.descs f.desc).done || seen = .locked f.desc then .body .run else .retire false))
  | .withCount (.unlocked x) =>
      ([], sh, .inside f
        (if (sh.descs f.desc).counter.lt (.unlocked x) then .withBump (sh.descs f.desc).counter x
          else .withTest (.unlocked x)))
  | .withCount (.locked e) => ([], sh, .inside f (.withTest (.locked e)))
  | .withBump old x =>
      if (sh.descs f.desc).counter = old then
        ([], sh.setCounter f.desc (.unlocked x), .inside f (.withTest (.unlocked x)))
      else ([], sh, .inside f (.withTest (sh.descs f.desc).counter))
  | .withTest w =>
      ([], sh, .inside f
        (if (sh.descs f.desc).done || w = .locked f.desc then .body .run
          else match w with
            | .unlocked x => .withRead x
            | .locked e => .wantHelp e))
  | .withRead x => ([], sh, .inside f (if sh.lck = .unlocked x then .withCas x else .withAgain))
  | .withCas x =>
      if sh.lck = .unlocked x then
        ([.wrote (.locked f.desc)], { sh with lck := .locked f.desc }, .inside f (.body .run))
      else ([], sh, .inside f .withAgain)
  | .withAgain => ([], sh, .inside f (.withCount sh.lck))
  | .wantHelp e => ([], sh, .inside f (.help e .look))
  | .help e .look =>
      ([], sh, .inside f (if sh.lck = .locked e then .help e .check else afterHelp k))
  | .help e .check =>
      ([], sh, .inside f (if sh.lck = .locked e then .help e (.body .run) else afterHelp k))
  | .help e (.body b) =>
      let (es, sh', b') := sh.stepBody e b
      (es, sh', .inside f (match b' with
        | some b' => .help e (.body b')
        | none => afterHelp k))
  | .body b =>
      let (es, sh', b') := sh.stepBody f.desc b
      (es, sh', .inside f (match b' with
        | some b' => .body b'
        | none => .retire true))
  | .retire ok =>
      ([.report f.call ok], if f.own then sh.setEntry f.call (.result ok) else sh, .idle)

/-- One step of a process. `new_obj_acquired` of a process that loses the commit loads the entry once
more, and a result found there is the result of the call. -/
def Shared.stepControl (sh : Shared ι) (kind : ι → Kind) :
    Control ι → Option (List (Event ι) × Shared ι × Control ι)
  | .idle => none
  | .commit c w =>
      match (sh.calls c).current with
      | none => some ([], sh.setCurrent c w, .alloc c w)
      | some w' => some ([], sh, .alloc c w')
  | .alloc c w =>
      match (sh.calls c).entry with
      | .empty =>
          some ([.commit c sh.fresh], sh.allocate c w,
            .inside ⟨c, sh.fresh, true⟩ (firstPos (kind c) w))
      | .desc _ => some ([], sh, .reload c w)
      | .result ok => some ([.report c ok], sh, .idle)
  | .reload c w =>
      match (sh.calls c).entry with
      | .empty => none
      | .desc d => some ([], sh, .inside ⟨c, d, false⟩ (firstPos (kind c) w))
      | .result ok => some ([.report c ok], sh, .idle)
  | .inside f p => some (sh.stepPos (kind f.call) f p)

/-- The shared memory and the position of every process. -/
structure State (ι π : Type) where
  shared : Shared ι
  control : π → Control ι

/-- What the scheduler chooses: a process enters a call, takes its next step, finds in
`try_lock_result` that the lock is its own and runs the thunk without acquiring, or does not help
(because it is helping already, or was told not to). -/
inductive Action (ι π : Type) where
  | start (p : π) (c : ι)
  | step (p : π)
  | reenter (p : π)
  | skipHelp (p : π)

/-- The lock is free with count zero, and nothing has been allocated or committed. -/
def initial : State ι π where
  shared := ⟨.unlocked 0, fun _ => ⟨.locked 0, false⟩, 1, fun _ => ⟨none, .empty⟩⟩
  control _ := .idle

/-- Process `p` moves to another position. -/
def State.move (st : State ι π) (p : π) (sh : Shared ι) (x : Control ι) : State ι π :=
  ⟨sh, Function.update st.control p x⟩

/-- The next state, if the action is possible. `with_lock` starts with a plain read of `lck`, and
`try_lock_result` with a load that is committed to the log. -/
def next (kind : ι → Kind) : Action ι π → State ι π → Option (List (Event ι) × State ι π)
  | .start p c, st =>
      match st.control p, kind c with
      | .idle, .withLock => some ([], st.move p st.shared (.alloc c st.shared.lck))
      | .idle, .tryLock => some ([], st.move p st.shared (.commit c st.shared.lck))
      | _, _ => none
  | .step p, st =>
      (st.shared.stepControl kind (st.control p)).map fun (es, sh, x) => (es, st.move p sh x)
  | .reenter p, st =>
      match st.control p with
      | .alloc c (.locked _) =>
          if kind c = .tryLock then some ([], st.move p st.shared .idle) else none
      | _ => none
  | .skipHelp p, st =>
      match st.control p with
      | .inside f (.wantHelp _) =>
          some ([], st.move p st.shared (.inside f (afterHelp (kind f.call))))
      | _ => none

/-- Any number of processes executing any number of calls on one lock. -/
def system (π : Type) [DecidableEq π] (kind : ι → Kind) :
    System (State ι π) (Action ι π) (Event ι) :=
  System.ofNext (fun st => st = initial) (next kind)

end Verlib.Flock.LockWord
