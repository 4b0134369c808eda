import Verlib.Flock.Lock

/-!
# Nested try-locks and `retire` under helping

Thunks passed to `try_lock` may retire objects and call `try_lock` on further locks. A run is a set of
contexts. An owner context executes one outermost call, with `helping` false; a helper context
executes a descriptor that it found in a lock word, with `helping` true. Both keep a stack of calls,
and all executions of one descriptor's thunk share its log. `memory_pool::retire` hands the object to
the pool only where `helping` is false.

A log is indexed by the operation that commits to it: the committed value of an operation, and for a
`try_lock` the committed load of the lock word and the entry of `new_obj_acquired`, which shows the
result once `retire_acquired_result` has replaced the descriptor. Everything a thunk does besides
`retire` and `try_lock` is a commit of an arbitrary value.
-/

namespace Verlib.Flock.Nested

open Interleaving
open LockWord (Entry firstCounter)

/-- A thunk over locks `Λ`: its result, `retire(p)`, a logged operation that yields a committed value,
and `try_lock` with the thunk to run under the lock. -/
inductive Thunk (Λ : Type) where
  | ret (r : Nat)
  | retire (p : Nat) (k : Thunk Λ)
  | commit (k : Nat → Thunk Λ)
  | tryLock (l : Λ) (body : Thunk Λ) (k : Option Nat → Thunk Λ)

/-- Run a thunk and go on with its result. -/
def Thunk.bind {Λ : Type} : Thunk Λ → (Nat → Thunk Λ) → Thunk Λ
  | .ret r, g => g r
  | .retire p k, g => .retire p (k.bind g)
  | .commit k, g => .commit fun v => (k v).bind g
  | .tryLock l body k, g => .tryLock l body fun res => (k res).bind g

/-- A descriptor. The lock it was made for and the outermost call it belongs to are kept for the
statements; no step reads them. -/
structure Descriptor (Λ : Type) where
  lock : Λ
  root : Nat
  thunk : Thunk Λ
  counter : Entry
  done : Bool
  threadId : Nat

/-- What the log of a descriptor holds for one operation of its thunk. -/
structure Slot where
  value : Option Nat
  current : Option Entry
  desc : Option Nat
  result : Option (Option Nat)

/-- The shared memory: the lock words, the descriptors, their logs, and the next descriptor. -/
structure Shared (Λ : Type) where
  lck : Λ → Entry
  descs : Nat → Descriptor Λ
  slots : Nat → Nat → Slot
  fresh : Nat

/-- Positions in a call of `try_lock_result`, or in `help_descriptor` (`look`, `check`, and then from
`run` on). -/
inductive Phase where
  | load
  | commit (w : Entry)
  | alloc (w : Entry)
  | reload (w : Entry)
  | casRead (x : Nat)
  | cas (x : Nat)
  | after
  | test (seen : Entry)
  | look
  | check
  | run
  | finish (r : Nat)
  | clear (r : Nat)
  | clearCount (r : Nat)
  | clearSwap (r : Nat) (n : Entry)
  | retire (res : Option Nat)

/-- A call of `try_lock_result` on a lock: its phase, its descriptor and `i_own` once it has them, and
the rest of the thunk it runs with the number of operations done. -/
structure Frame (Λ : Type) where
  lock : Λ
  body : Thunk Λ
  phase : Phase
  desc : Nat
  own : Bool
  rest : Thunk Λ
  pos : Nat

/-- A thread of control: the thread id it has or has inherited, whether it is helping, and its calls,
innermost first. -/
structure Context (Λ : Type) where
  threadId : Nat
  helping : Bool
  frames : List (Frame Λ)

/-- The shared memory and the contexts. -/
structure State (Λ κ : Type) where
  shared : Shared Λ
  contexts : κ → Option (Context Λ)

/-- What a run shows: a descriptor stored into its lock, a `retire(p)` statement executed as operation
`i` of a descriptor's thunk, the same statement handing `p` to the pool, and the return of an
outermost call. -/
inductive Event where
  | stored (d : Nat)
  | reach (d i p : Nat)
  | hand (d i p : Nat)
  | returned (d : Nat) (res : Option Nat)
  deriving DecidableEq

variable {Λ κ : Type} [DecidableEq Λ] [DecidableEq κ]

/-- A new call. -/
def Frame.call (l : Λ) (body : Thunk Λ) : Frame Λ :=
  ⟨l, body, .load, 0, false, body, 0⟩

/-- Change one entry of a log. -/
def Shared.setSlot (sh : Shared Λ) (d i : Nat) (s : Slot) : Shared Λ :=
  { sh with slots := Function.update sh.slots d (Function.update (sh.slots d) i s) }

/-- Allocate a descriptor. -/
def Shared.allocate (sh : Shared Λ) (d : Descriptor Λ) : Shared Λ :=
  { sh with descs := Function.update sh.descs sh.fresh d, fresh := sh.fresh + 1 }

/-- Mark a descriptor as done. -/
def Shared.setDone (sh : Shared Λ) (d : Nat) : Shared Λ :=
  { sh with descs := Function.update sh.descs d { sh.descs d with done := true } }

/-- Write a lock word. -/
def Shared.setLck (sh : Shared Λ) (l : Λ) (w : Entry) : Shared Λ :=
  { sh with lck := Function.update sh.lck l w }

/-- The phase after `new_obj_acquired`: try to acquire, or fail because the lock was taken. (The helping
of the holder is done by a helper context.) -/
def Phase.start : Entry → Phase
  | .unlocked x => .casRead x
  | .locked _ => .retire none

/-- The inner call returns `res` to the thunk that made it. -/
def Frame.resume (g : Frame Λ) (res : Option Nat) : Frame Λ :=
  match g.rest with
  | .tryLock _ _ k => { g with rest := k res, pos := g.pos + 1 }
  | _ => g

/-- The inner call found that the lock is its own, and the thunk runs without acquiring. -/
def Frame.inline (g : Frame Λ) : Frame Λ :=
  match g.rest with
  | .tryLock _ body k => { g with rest := body.bind fun r => k (some r), pos := g.pos + 1 }
  | _ => g

/-- The lock word shows a descriptor of the same thread. -/
def Shared.lockIsSelf (sh : Shared Λ) (threadId : Nat) : Entry → Bool
  | .locked e => (sh.descs e).threadId = threadId
  | .unlocked _ => false

/-- The descriptor that a call makes. -/
def Frame.descriptor (f : Frame Λ) (root : Nat) (w : Entry) (threadId : Nat) : Descriptor Λ :=
  ⟨f.lock, root, f.body, firstCounter w, false, threadId⟩

/-- One step of the innermost call `f` of a context; `outer` are the calls around it, and `v` is the
value that a logged operation commits if it is the first to do so. -/
def stepFrame (sh : Shared Λ) (threadId : Nat) (helping : Bool) (v : Nat) (f : Frame Λ)
    (outer : List (Frame Λ)) : Option (List Event × Shared Λ × List (Frame Λ)) :=
  match f.phase, outer with
  -- `lock::load`: the load is committed to the log of the enclosing thunk, if there is one.
  | .load, [] => some ([], sh, [{ f with phase := .alloc (sh.lck f.lock) }])
  | .load, g :: gs => some ([], sh, { f with phase := .commit (sh.lck f.lock) } :: g :: gs)
  | .commit w, g :: gs =>
      match (sh.slots g.desc g.pos).current with
      | some w' => some ([], sh, { f with phase := .alloc w' } :: g :: gs)
      | none =>
          let s := { sh.slots g.desc g.pos with current := some w }
          some ([], sh.setSlot g.desc g.pos s, { f with phase := .alloc w } :: g :: gs)
  -- A thread has one outermost call at a time, so the lock of that call is not its own.
  | .alloc w, [] =>
      if sh.lockIsSelf threadId w then some ([], sh, [])
      else
        let d := f.descriptor sh.fresh w threadId
        some ([], sh.allocate d, [{ f with phase := .start w, desc := sh.fresh, own := true }])
  | .alloc w, g :: gs =>
      if sh.lockIsSelf threadId w then some ([], sh, g.inline :: gs)
      else match (sh.slots g.desc g.pos).result, (sh.slots g.desc g.pos).desc with
        | some res, _ => some ([], sh, g.resume res :: gs)
        | none, some _ => some ([], sh, { f with phase := .reload w } :: g :: gs)
        | none, none =>
            let d := f.descriptor (sh.descs g.desc).root w threadId
            let s := { sh.slots g.desc g.pos with desc := some sh.fresh }
            some ([], (sh.allocate d).setSlot g.desc g.pos s,
              { f with phase := .start w, desc := sh.fresh, own := true } :: g :: gs)
  | .reload w, g :: gs =>
      match (sh.slots g.desc g.pos).result, (sh.slots g.desc g.pos).desc with
      | some res, _ => some ([], sh, g.resume res :: gs)
      | none, some e => some ([], sh, { f with phase := .start w, desc := e } :: g :: gs)
      | none, none => none
  -- `lock::cas` and the test whether the descriptor is or was installed
  | .casRead x, _ =>
      let phase := if sh.lck f.lock = .unlocked x then .cas x else .after
      some ([], sh, { f with phase := phase } :: outer)
  | .cas x, _ =>
      if sh.lck f.lock = .unlocked x then
        some ([.stored f.desc], sh.setLck f.lock (.locked f.desc), { f with phase := .after } :: outer)
      else some ([], sh, { f with phase := .after } :: outer)
  | .after, _ => some ([], sh, { f with phase := .test (sh.lck f.lock) } :: outer)
  | .test seen, _ =>
      let phase := if (sh.descs f.desc).done || seen = .locked f.desc then .run else .retire none
      some ([], sh, { f with phase := phase } :: outer)
  -- `help_descriptor`
  | .look, [] =>
      some ([], sh, if sh.lck f.lock = .locked f.desc then [{ f with phase := .check }] else [])
  | .check, [] =>
      some ([], sh, if sh.lck f.lock = .locked f.desc then [{ f with phase := .run }] else [])
  -- the thunk
  | .run, _ =>
      match f.rest with
      | .ret r => some ([], sh, { f with phase := .finish r } :: outer)
      | .retire p k =>
          let es := if helping then [.reach f.desc f.pos p]
            else [.reach f.desc f.pos p, .hand f.desc f.pos p]
          some (es, sh, { f with rest := k, pos := f.pos + 1 } :: outer)
      | .commit k =>
          match (sh.slots f.desc f.pos).value with
          | some v' => some ([], sh, { f with rest := k v', pos := f.pos + 1 } :: outer)
          | none =>
              let s := { sh.slots f.desc f.pos with value := some v }
              some ([], sh.setSlot f.desc f.pos s, { f with rest := k v, pos := f.pos + 1 } :: outer)
      | .tryLock l body _ => some ([], sh, .call l body :: f :: outer)
  -- `done = true`, and `clear`
  | .finish r, _ => some ([], sh.setDone f.desc, { f with phase := .clear r } :: outer)
  | .clear r, _ =>
      let phase := if sh.lck f.lock = .locked f.desc then .clearCount r else .retire (some r)
      some ([], sh, { f with phase := phase } :: outer)
  | .clearCount r, _ =>
      some ([], sh, { f with phase := .clearSwap r (sh.descs f.desc).counter.succ } :: outer)
  | .clearSwap r n, _ =>
      if sh.lck f.lock = .locked f.desc then
        some ([], sh.setLck f.lock n, { f with phase := .retire (some r) } :: outer)
      else some ([], sh, { f with phase := .retire (some r) } :: outer)
  -- `retire_acquired_result` and the return; a helper just ends
  | .retire res, [] => some (if helping then [] else [.returned f.desc res], sh, [])
  | .retire res, g :: gs =>
      let s := { sh.slots g.desc g.pos with result := some res }
      some ([], if f.own then sh.setSlot g.desc g.pos s else sh, g.resume res :: gs)
  | .commit _, [] | .reload _, [] | .look, _ :: _ | .check, _ :: _ => none

/-- The end of the thunk is recorded in the descriptor, whatever surrounds the call. -/
theorem stepFrame_finish {sh : Shared Λ} {threadId : Nat} {helping : Bool} {v r : Nat} {f : Frame Λ}
    {outer : List (Frame Λ)} (hp : f.phase = .finish r) :
    stepFrame sh threadId helping v f outer =
      some ([], sh.setDone f.desc, { f with phase := .clear r } :: outer) := by
  simp only [stepFrame, hp]

/-- What the scheduler chooses: an owner starts an outermost `try_lock`, a context starts helping a
descriptor that it has seen in a lock, or a context takes a step. -/
inductive Action (Λ κ : Type) where
  | start (c : κ) (threadId : Nat) (l : Λ) (body : Thunk Λ)
  | help (c : κ) (l : Λ) (d : Nat)
  | step (c : κ) (v : Nat)

/-- Replace a context and the shared memory. -/
def State.move (st : State Λ κ) (c : κ) (sh : Shared Λ) (x : Context Λ) : State Λ κ :=
  ⟨sh, Function.update st.contexts c (some x)⟩

/-- The next state, if the action is possible. -/
def next : Action Λ κ → State Λ κ → Option (List Event × State Λ κ)
  | .start c threadId l body, st =>
      match st.contexts c with
      | none => some ([], st.move c st.shared ⟨threadId, false, [.call l body]⟩)
      | some _ => none
  | .help c l d, st =>
      match st.contexts c with
      | none =>
          if d < st.shared.fresh then
            let f := { Frame.call l (st.shared.descs d).thunk with phase := .look, desc := d }
            some ([], st.move c st.shared ⟨(st.shared.descs d).threadId, true, [f]⟩)
          else none
      | some _ => none
  | .step c v, st =>
      match st.contexts c with
      | some ⟨threadId, helping, f :: outer⟩ =>
          (stepFrame st.shared threadId helping v f outer).map fun (es, sh, frames) =>
            (es, st.move c sh ⟨threadId, helping, frames⟩)
      | _ => none

/-- All locks are free, and nothing has been allocated. -/
def initial (l : Λ) : State Λ κ where
  shared := ⟨fun _ => .unlocked 0, fun _ => ⟨l, 0, .ret 0, .locked 0, false, 0⟩,
    fun _ _ => ⟨none, none, none, none⟩, 1⟩
  contexts _ := none

/-- Any number of owners and helpers. -/
def system (Λ κ : Type) [DecidableEq Λ] [DecidableEq κ] : System (State Λ κ) (Action Λ κ) Event :=
  System.ofNext (fun st => ∃ l, st = initial l) next

/-- The call `f`, made by operation `g.pos` of the thunk that `g` runs, is about to find a result (with
a value) in place of its descriptor. -/
def Frame.findsResult (f g : Frame Λ) (sh : Shared Λ) (threadId : Nat) : Bool :=
  match f.phase, (sh.slots g.desc g.pos).result with
  | .alloc w, some (some _) => !sh.lockIsSelf threadId w
  | .reload _, some (some _) => true
  | _, _ => false

/-- The acting context is an owner, and it is about to find, in place of the descriptor of a nested
call, the result that another execution of the enclosing thunk has left there. -/
def findsResult (st : State Λ κ) : Action Λ κ → Bool
  | .step c _ =>
      match st.contexts c with
      | some ⟨threadId, false, f :: g :: _⟩ => f.findsResult g st.shared threadId
      | _ => false
  | _ => false

end Verlib.Flock.Nested
