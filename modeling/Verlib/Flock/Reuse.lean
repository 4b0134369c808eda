import Verlib.Flock.Nested

/-!
# Descriptors in reused memory

The descriptors of the lock-free locks live in slots of an `acquired_pool`. `retire` frees a slot at once
if nobody has set its `acquired` flag, and the next `new_obj` of any thread may take it; otherwise it
resets the flag and leaves the slot to the epoch-based pool, which frees it when every process that was
running at that time has finished. The flag is a field of the memory and survives a reuse.

Processes execute calls of `try_lock_result` and `with_lock`; several processes may execute one call, and
then share its log. Helpers follow `help_descriptor`, starting from any lock word that they have read. A
process that helps, or runs a thunk, while it holds a descriptor appears as several processes, each with
the `current_id` and the epoch that it has at that point. Calls are made inside of `with_epoch`.
-/

namespace Verlib.Flock.Reuse

open Interleaving
open LockWord (Entry Kind LogEntry Call Body firstCounter)

/-- What a call is: its lock, and which function it calls. -/
structure Setting (L κ : Type) where
  lockOf : κ → L
  kind : κ → Kind

/-- The memory of a descriptor. -/
structure Slot where
  acquired : Bool
  done : Bool
  counter : Entry
  threadId : Nat
  epochNum : Nat

/-- Where a descriptor can be: not at the null pointer, and aligned. -/
def Address (s : Nat) : Prop :=
  0 < s ∧ s % 8 = 0

instance (s : Nat) : Decidable (Address s) :=
  inferInstanceAs (Decidable (0 < s ∧ s % 8 = 0))

/-- What the allocator knows of a slot: it is free, it holds a descriptor that a process has made, or it
waits in the epoch-based pool. -/
inductive Status (n : Nat) where
  | free
  | live (owner : Fin n)
  | limbo
  deriving DecidableEq

/-- Positions of a call that has its descriptor: the attempts to take the lock, the body with `clear`,
`retire_acquired_result` up to the write of the log entry, and `retire`. -/
inductive Pos where
  | tryRead (x : Nat)
  | tryCas (x : Nat)
  | tryAfter
  | tryDone (seen : Entry)
  | withCount (w : Entry)
  | withBump (old : Entry) (x : Nat)
  | withTest (w : Entry)
  | withRead (x : Nat)
  | withCas (x : Nat)
  | withAgain
  | body (b : Body)
  | replace (ok : Bool)
  | retireRead
  | retireReset
  | retirePool
  | destruct
  deriving DecidableEq

/-- Positions in `help_descriptor`. -/
inductive HelpPos where
  | look
  | readEpoch
  | readId
  | acqRead
  | acqWrite
  | check
  | body (b : Body)
  deriving DecidableEq

/-- Positions of a process. In a call `w` is the lock word that it has loaded; `e` is its epoch, `id` its
`current_id` and `s` a slot. `own` says that the process has committed the descriptor to the log. -/
inductive Process (L κ : Type) where
  | idle
  | commit (k : κ) (w : Entry) (e id : Nat)
  | test (k : κ) (w : Entry) (e id : Nat)
  | alloc (k : κ) (w : Entry) (e id : Nat)
  | setEpoch (k : κ) (w : Entry) (e id s : Nat)
  | setId (k : κ) (w : Entry) (id s : Nat)
  | publish (k : κ) (w : Entry) (s : Nat)
  | lost (k : κ) (w : Entry) (s : Nat) (r : Option Nat)
  | acqRead (k : κ) (w : Entry) (s : Nat)
  | acqWrite (k : κ) (w : Entry) (s : Nat)
  | reload (k : κ) (w : Entry) (s : Nat)
  | inside (k : κ) (s : Nat) (own : Bool) (p : Pos)
  | help (ℓ : L) (s e id : Nat) (p : HelpPos)
  deriving DecidableEq

/-- The locks, the slots, which of them are in use, the processes that a slot in the epoch-based pool
waits for, the logs of the calls, the calls that no process can execute any more, and the processes. -/
structure State (L κ : Type) (n : Nat) where
  locks : L → Entry
  slots : Nat → Slot
  status : Nat → Status n
  waits : Nat → Fin n → Bool
  calls : κ → Call
  closed : κ → Bool
  procs : Fin n → Process L κ

/-- What a run shows: the outcome of a test of `lock_is_self` in a call. -/
inductive Event (κ : Type) where
  | tested (k : κ) (self : Bool)
  deriving DecidableEq

section Updates

variable {L κ : Type} {n : Nat} [DecidableEq L] [DecidableEq κ]

/-- Write a lock word. -/
def State.setLock (st : State L κ n) (ℓ : L) (w : Entry) : State L κ n :=
  { st with locks := Function.update st.locks ℓ w }

/-- Write fields of a slot. -/
def State.setSlot (st : State L κ n) (s : Nat) (d : Slot) : State L κ n :=
  { st with slots := Function.update st.slots s d }

/-- Change what the allocator knows of a slot. -/
def State.setStatus (st : State L κ n) (s : Nat) (x : Status n) : State L κ n :=
  { st with status := Function.update st.status s x }

/-- Write to the log of a call. -/
def State.setCall (st : State L κ n) (k : κ) (c : Call) : State L κ n :=
  { st with calls := Function.update st.calls k c }

/-- A process moves. -/
def State.move (st : State L κ n) (i : Fin n) (p : Process L κ) : State L κ n :=
  { st with procs := Function.update st.procs i p }

/-- A process finishes: no slot waits for it any more. -/
def State.finish (st : State L κ n) (i : Fin n) : State L κ n :=
  { st.move i .idle with waits := fun s => Function.update (st.waits s) i false }

/-- `pool.retire(s)`: the slot waits for all processes that are running. -/
def State.retire (st : State L κ n) (s : Nat) : State L κ n :=
  { st.setStatus s .limbo with
    waits := Function.update st.waits s fun j =>
      match st.procs j with
      | .idle => false
      | _ => true }

/-- One step of the body of descriptor `s` in lock `ℓ`; there is no next position when `clear` is over. -/
def State.stepBody (st : State L κ n) (ℓ : L) (s : Nat) : Body → State L κ n × Option Body
  | .run => (st, some .finish)
  | .finish => (st.setSlot s { st.slots s with done := true }, some .clear)
  | .clear => (st, if st.locks ℓ = .locked s then some .clearCount else none)
  | .clearCount => (st, some (.clearSwap (st.slots s).counter.succ))
  | .clearSwap w => (if st.locks ℓ = .locked s then st.setLock ℓ w else st, none)

/-- The position after `new_obj_acquired`. -/
def firstPos : Kind → Entry → Pos
  | .tryLock, .unlocked x => .tryRead x
  | .tryLock, .locked _ => .replace false
  | .withLock, w => .withCount w

/-- One step of process `i`, which executes call `k` with descriptor `s`. -/
def State.stepPos (st : State L κ n) (set : Setting L κ) (i : Fin n) (k : κ) (s : Nat) (own : Bool) :
    Pos → State L κ n
  | .tryRead x =>
      st.move i (.inside k s own
        (if st.locks (set.lockOf k) = .unlocked x then .tryCas x else .tryAfter))
  | .tryCas x =>
      if st.locks (set.lockOf k) = .unlocked x then
        (st.setLock (set.lockOf k) (.locked s)).move i (.inside k s own .tryAfter)
      else st.move i (.inside k s own .tryAfter)
  | .tryAfter => st.move i (.inside k s own (.tryDone (st.locks (set.lockOf k))))
  | .tryDone seen =>
      if (st.slots s).done || seen = .locked s then st.move i (.inside k s own (.body .run))
      else if own then st.move i (.inside k s own (.replace false))
      else st.finish i
  | .withCount (.unlocked x) =>
      st.move i (.inside k s own
        (if (st.slots s).counter.lt (.unlocked x) then .withBump (st.slots s).counter x
          else .withTest (.unlocked x)))
  | .withCount (.locked e) => st.move i (.inside k s own (.withTest (.locked e)))
  | .withBump old x =>
      if (st.slots s).counter = old then
        (st.setSlot s { st.slots s with counter := .unlocked x }).move i
          (.inside k s own (.withTest (.unlocked x)))
      else st.move i (.inside k s own (.withTest (st.slots s).counter))
  | .withTest w =>
      st.move i (.inside k s own
        (if (st.slots s).done || w = .locked s then .body .run
          else match w with
            | .unlocked x => .withRead x
            | .locked _ => .withAgain))
  | .withRead x =>
      st.move i (.inside k s own
        (if st.locks (set.lockOf k) = .unlocked x then .withCas x else .withAgain))
  | .withCas x =>
      if st.locks (set.lockOf k) = .unlocked x then
        (st.setLock (set.lockOf k) (.locked s)).move i (.inside k s own (.body .run))
      else st.move i (.inside k s own .withAgain)
  | .withAgain => st.move i (.inside k s own (.withCount (st.locks (set.lockOf k))))
  | .body b =>
      match st.stepBody (set.lockOf k) s b with
      | (st', some b') => st'.move i (.inside k s own (.body b'))
      | (st', none) =>
          if own then st'.move i (.inside k s own (.replace true)) else st'.finish i
  | .replace ok =>
      (st.setCall k { st.calls k with entry := .result ok }).move i (.inside k s own .retireRead)
  -- `acquired_pool::retire`
  | .retireRead =>
      st.move i (.inside k s own (if (st.slots s).acquired then .retireReset else .destruct))
  | .retireReset =>
      (st.setSlot s { st.slots s with acquired := false }).move i (.inside k s own .retirePool)
  | .retirePool => (st.retire s).finish i
  | .destruct => (st.setStatus s .free).finish i

/-- One step of helper `i`. -/
def State.stepHelp (st : State L κ n) (i : Fin n) (ℓ : L) (s e id : Nat) : HelpPos → State L κ n
  | .look =>
      if st.locks ℓ = .locked s then st.move i (.help ℓ s e id .readEpoch) else st.finish i
  | .readEpoch => st.move i (.help ℓ s (min e (st.slots s).epochNum) id .readId)
  | .readId => st.move i (.help ℓ s e (st.slots s).threadId .acqRead)
  | .acqRead =>
      st.move i (.help ℓ s e id (if (st.slots s).acquired then .check else .acqWrite))
  | .acqWrite =>
      (st.setSlot s { st.slots s with acquired := true }).move i (.help ℓ s e id .check)
  | .check =>
      if st.locks ℓ = .locked s then st.move i (.help ℓ s e id (.body .run)) else st.finish i
  | .body b =>
      match st.stepBody ℓ s b with
      | (st', some b') => st'.move i (.help ℓ s e id (.body b'))
      | (st', none) => st'.finish i

/-- The slot `x` becomes a new descriptor, up to its last two fields. -/
def State.newObj (st : State L κ n) (i : Fin n) (x : Nat) (w : Entry) : State L κ n :=
  (st.setStatus x (.live i)).setSlot x { st.slots x with done := false, counter := firstCounter w }

/-- One step of process `i`; `x` is the slot that `new_obj` gets from the allocator. -/
def State.step (st : State L κ n) (set : Setting L κ) (i : Fin n) (x : Nat) :
    Option (List (Event κ) × State L κ n) :=
  match st.procs i with
  | .idle => none
  | .commit k w e id =>
      match (st.calls k).current with
      | none =>
          some ([], (st.setCall k { st.calls k with current := some w }).move i (.test k w e id))
      | some w' => some ([], st.move i (.test k w' e id))
  | .test k (.locked s) e id =>
      -- `is_locked_(current) && lock_is_self(current)`
      if (st.slots s).threadId = id then some ([.tested k true], st.finish i)
      else some ([.tested k false], st.move i (.alloc k (.locked s) e id))
  | .test k (.unlocked x) e id =>
      some ([.tested k false], st.move i (.alloc k (.unlocked x) e id))
  -- `new_obj_acquired`
  | .alloc k w e id =>
      if Address x ∧ st.status x = .free then
        some ([], (st.newObj i x w).move i (.setEpoch k w e id x))
      else none
  | .setEpoch k w e id s =>
      some ([], (st.setSlot s { st.slots s with epochNum := e }).move i (.setId k w id s))
  | .setId k w id s =>
      some ([], (st.setSlot s { st.slots s with threadId := id }).move i (.publish k w s))
  | .publish k w s =>
      match (st.calls k).entry with
      | .empty =>
          some ([], (st.setCall k { st.calls k with entry := .desc s }).move i
            (.inside k s true (firstPos (set.kind k) w)))
      | .desc s' => some ([], st.move i (.lost k w s (some s')))
      | .result _ => some ([], st.move i (.lost k w s none))
  | .lost k w s r =>
      match r with
      | some s' => some ([], (st.setStatus s .free).move i (.acqRead k w s'))
      | none => some ([], (st.setStatus s .free).finish i)
  | .acqRead k w s =>
      some ([], st.move i (if (st.slots s).acquired then .reload k w s else .acqWrite k w s))
  | .acqWrite k w s =>
      some ([], (st.setSlot s { st.slots s with acquired := true }).move i (.reload k w s))
  | .reload k w _ =>
      match (st.calls k).entry with
      | .desc s =>
          match set.kind k, w with
          | .tryLock, .locked _ => some ([], st.finish i)
          | _, _ => some ([], st.move i (.inside k s false (firstPos (set.kind k) w)))
      | _ => some ([], st.finish i)
  | .inside k s own p => some ([], st.stepPos set i k s own p)
  | .help ℓ s e id p => some ([], st.stepHelp i ℓ s e id p)

/-- The call that a process executes. -/
def Process.call : Process L κ → Option κ
  | .idle | .help _ _ _ _ _ => none
  | .commit k _ _ _ | .test k _ _ _ | .alloc k _ _ _ | .setEpoch k _ _ _ _ | .setId k _ _ _
  | .publish k _ _ | .lost k _ _ _ | .acqRead k _ _ | .acqWrite k _ _ | .reload k _ _
  | .inside k _ _ _ => some k

/-- What the scheduler chooses: a process takes a step, starts to execute a call, or starts to help with a
lock word that it has read; the epoch-based pool frees a slot; no process will execute a call any more. -/
inductive Action (L κ : Type) (n : Nat) where
  | step (i : Fin n) (x : Nat)
  | call (i : Fin n) (k : κ) (e id : Nat)
  | help (i : Fin n) (ℓ : L) (s e id : Nat)
  | reclaim (s : Nat)
  | close (k : κ)

/-- The next state, if the action is possible. -/
def next (set : Setting L κ) :
    Action L κ n → State L κ n → Option (List (Event κ) × State L κ n)
  | .step i x, st => st.step set i x
  | .call i k e id, st =>
      match st.procs i, st.closed k with
      | .idle, false =>
          match set.kind k with
          | .tryLock => some ([], st.move i (.commit k (st.locks (set.lockOf k)) e id))
          | .withLock => some ([], st.move i (.alloc k (st.locks (set.lockOf k)) e id))
      | _, _ => none
  | .help i ℓ s e id, st =>
      match st.procs i with
      | .idle => some ([], st.move i (.help ℓ s e id .look))
      | _ => none
  | .reclaim s, st =>
      if st.status s = .limbo ∧ ∀ j, st.waits s j = false then some ([], st.setStatus s .free)
      else none
  | .close k, st =>
      if ∀ i, (st.procs i).call ≠ some k then
        some ([], { st with closed := Function.update st.closed k true })
      else none

/-- All locks and slots are free, with arbitrary flags, and nothing has been logged. -/
structure State.Initial (st : State L κ n) : Prop where
  locks : ∀ ℓ, ∃ x, st.locks ℓ = .unlocked x
  status : ∀ s, st.status s = .free
  counters : ∀ s d, (st.slots s).counter = .locked d → d = 0
  calls : ∀ k, st.calls k = ⟨none, .empty⟩
  procs : ∀ i, st.procs i = .idle

/-- Any number of processes that execute any number of calls on any number of locks. -/
def system (n : Nat) (set : Setting L κ) : System (State L κ n) (Action L κ n) (Event κ) :=
  System.ofNext State.Initial (next set)

end Updates

end Verlib.Flock.Reuse
