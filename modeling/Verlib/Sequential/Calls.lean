import Verlib.Hybrid.Memory
import Verlib.Indirect.Memory

/-!
# Sequential histories of versioned pointers

The calls of `versioned_ptr` one after the other, in `versioned_hybrid.h` and in `versioned_indirect.h`.
The clock does not move during a call, so `set_stamp` writes what the clock shows, and no other thread
interferes with a compare-and-swap. Links are not reclaimed. The loop of `read_snapshot` runs on fuel; the
result of a call is `none` if the fuel is used up or, in the fully indirect version, if the loop follows a
null pointer.
-/

namespace Verlib.Sequential

/-- A call on a pointer, the clock moving on, or `done_stamp` being raised. The `local_stamp` of `load` is
`none` outside of a snapshot. -/
inductive Call (P : Type) where
  | init (p : P) (ptr : Option Nat)
  | store (p : P) (ptr : Option Nat)
  | cas (p : P) (exp ptr : Option Nat)
  | load (p : P) (ls : Option Nat)
  | validate (p : P)
  | readSnapshot (p : P) (ls : Nat)
  | clock (t : Nat)
  | raise (d : Nat)

/-- What a call returns. -/
inductive Result where
  | unit
  | ptr (x : Option Nat)
  | bool (b : Bool)
  deriving DecidableEq

/-- The results of calls made one after the other. -/
def run {S P : Type} (call : S → Call P → Option (S × Result)) : List (Call P) → S → Option (List Result)
  | [], _ => some []
  | c :: rest, s => do
      let (s', r) ← call s c
      let rs ← run call rest s'
      pure (r :: rs)

/-- The options of the build: `NoShortcut` is not defined, and `NoHelp` is not defined. -/
structure Build where
  shortcut : Bool
  help : Bool

/-! ## `versioned_hybrid.h` -/

namespace Hybrid

open Verlib.Hybrid (Memory Versioned less)
open Verlib.Indirect (zeroStamp)

variable {P : Type} [DecidableEq P]

/-- `set_stamp`. -/
def setStamp (m : Memory P) (ptr : Versioned) : Memory P :=
  if ptr ≠ .null ∧ m.timeStamp ptr = none then m.setTimeStamp ptr m.stamp else m

/-- `set_zero_stamp`. -/
def setZeroStamp (m : Memory P) (ptr : Option Nat) : Memory P :=
  if ptr ≠ none ∧ m.timeStamp (.direct ptr) = none then
    m.setTimeStamp (.direct ptr) zeroStamp
  else m

/-- `v.cam(old, new)`. -/
def cam (m : Memory P) (p : P) (old new : Versioned) : Memory P :=
  if (m.v p).2 = old then m.setWord p (0, new) else m

/-- `shortcut(ptr)` for the link `l`. -/
def shortcut (b : Build) (m : Memory P) (p : P) (l : Nat) : Memory P :=
  if b.shortcut then
    match m.timeStamp (.indirect l) with
    | some t => if t ≤ m.done then cam m p (.indirect l) (.direct (m.value l)) else m
    | none => m
  else m

/-- `shortcut(ptr)` if `ptr` is marked as indirect. -/
def shortcutPtr (b : Build) (m : Memory P) (p : P) : Versioned → Memory P
  | .indirect l => shortcut b m p l
  | .direct _ => m

/-- The loop of `read_snapshot`. -/
def chase (m : Memory P) (ls : Nat) : Nat → Versioned → Option Versioned
  | 0, _ => none
  | fuel + 1, head =>
      if head ≠ .null ∧ less ls (m.timeStamp head) then chase m ls fuel (m.next head) else some head

/-- `read_snapshot`. -/
def readSnapshot (fuel : Nat) (m : Memory P) (p : P) (ls : Nat) : Option (Memory P × Result) :=
  let m := setStamp m (m.v p).2
  (chase m ls fuel (m.v p).2).map fun head => (m, .ptr (m.getPtr head))

/-- `use_indirect`. -/
def useIndirect (m : Memory P) (ptr : Option Nat) : Prop :=
  ptr = none ∨ m.timeStamp (.direct ptr) ≠ none

instance (m : Memory P) (ptr : Option Nat) : Decidable (useIndirect m ptr) :=
  inferInstanceAs (Decidable (_ ∨ _))

/-- The new version of `store` and `cas`: a link, or the object itself. -/
def newVersion (m : Memory P) (old : Versioned) (ptr : Option Nat) : Memory P × Versioned :=
  if useIndirect m ptr then (m.newLink old ptr, .indirect m.fresh)
  else (m.setNext (.direct ptr) old, .direct ptr)

/-- `store`. -/
def store (b : Build) (m : Memory P) (p : P) (ptr : Option Nat) : Memory P :=
  let old := (m.v p).2
  let (m, new) := newVersion m old ptr
  let m :=
    if b.shortcut then
      let m := cam m p old new
      match old with
      | .indirect l =>
          let val := (m.v p).2
          if val ≠ .direct (m.value l) then m else cam m p val new
      | .direct _ => m
    else m.setWord p (0, new)
  shortcutPtr b (setStamp m new) p new

/-- `cas_from_cam`. -/
def casFromCam (b : Build) (m : Memory P) (p : P) (old new : Versioned) : Memory P × Bool :=
  if b.help then
    let m := cam m p old new
    (m, (m.v p).2 = new || (m.timeStamp new).isSome)
  else (cam m p old new, (m.v p).2 = old)

/-- The second attempt of `cas`, after `shortcut` may have replaced the link `old`. -/
def casAgain (b : Build) (m : Memory P) (p : P) (old new : Versioned) : Memory P × Bool :=
  match old with
  | .indirect l =>
      if b.shortcut ∧ (m.v p).2 = .direct (m.value l) then casFromCam b m p (.direct (m.value l)) new
      else (m, false)
  | .direct _ => (m, false)

/-- `cas`. -/
def cas (b : Build) (m : Memory P) (p : P) (exp ptr : Option Nat) : Memory P × Bool :=
  let old := (m.v p).2
  let m := setStamp m old
  if m.getPtr old ≠ exp then (m, false)
  else if exp = ptr then (m, true)
  else
    let (m, new) := newVersion m old ptr
    let (m, succeeded) := casFromCam b m p old new
    let (m, succeeded) := if succeeded then (m, true) else casAgain b m p old new
    if succeeded then (shortcutPtr b (setStamp m new) p new, true)
    else (setStamp m (m.v p).2, false)

/-- A call in `versioned_hybrid.h`. -/
def call (b : Build) (fuel : Nat) (m : Memory P) : Call P → Option (Memory P × Result)
  | .init p ptr => some ((setZeroStamp m ptr).setWord p (0, .direct ptr), .unit)
  | .store p ptr => some (store b m p ptr, .unit)
  | .cas p exp ptr => some ((cas b m p exp ptr).1, .bool (cas b m p exp ptr).2)
  | .load p (some ls) => readSnapshot fuel m p ls
  | .load p none =>
      let ptr := (m.v p).2
      let m := setStamp m ptr
      some (shortcutPtr b m p ptr, .ptr (m.getPtr ptr))
  | .validate p => some (setStamp m (m.v p).2, .unit)
  | .readSnapshot p ls => readSnapshot fuel m p ls
  | .clock t => some ({ m with stamp := t }, .unit)
  | .raise d => some ({ m with done := d }, .unit)

end Hybrid

/-! ## `versioned_indirect.h` -/

namespace Indirect

open Verlib.Indirect (Memory Link less zeroStamp)

variable {P : Type} [DecidableEq P]

/-- `set_stamp`. -/
def setStamp (m : Memory P) (l : Nat) : Memory P :=
  if (m.links l).timeStamp = none then m.setTimeStamp l m.stamp else m

/-- `v.cam(old, new)`. -/
def cam (m : Memory P) (p : P) (old new : Nat) : Memory P :=
  if (m.v p).2 = old then m.setWord p (0, new) else m

/-- The loop of `read_snapshot`. -/
def chase (m : Memory P) (ls : Nat) : Nat → Nat → Option Nat
  | 0, _ => none
  | fuel + 1, head =>
      if less ls (m.links head).timeStamp then
        match (m.links head).next with
        | some l => chase m ls fuel l
        | none => none
      else some head

/-- `read_snapshot`. -/
def readSnapshot (fuel : Nat) (m : Memory P) (p : P) (ls : Nat) : Option (Memory P × Result) :=
  let m := setStamp m (m.v p).2
  (chase m ls fuel (m.v p).2).map fun head => (m, .ptr (m.links head).value)

/-- `store`. -/
def store (m : Memory P) (p : P) (ptr : Option Nat) : Memory P :=
  let m' := m.newLink ⟨none, some (m.v p).2, ptr⟩
  setStamp (m'.setWord p (0, m.fresh)) m.fresh

/-- `idempotent_cas`. -/
def idempotentCas (help : Bool) (m : Memory P) (p : P) (old new : Nat) : Memory P × Bool :=
  if help then
    let m := cam m p old new
    (m, (m.v p).2 = new || (m.links new).timeStamp.isSome)
  else (cam m p old new, (m.v p).2 = old)

/-- `cas`. -/
def cas (help : Bool) (m : Memory P) (p : P) (exp ptr : Option Nat) : Memory P × Bool :=
  let old := (m.v p).2
  let m := setStamp m old
  if exp ≠ (m.links old).value then (m, false)
  else if exp = ptr then (m, true)
  else
    let new := m.fresh
    let m := m.newLink ⟨none, some old, ptr⟩
    match idempotentCas help m p old new with
    | (m, true) => (setStamp m new, true)
    | (m, false) => (setStamp m (m.v p).2, false)

/-- A call in `versioned_indirect.h`, which has no `done_stamp`. -/
def call (help : Bool) (fuel : Nat) (m : Memory P) : Call P → Option (Memory P × Result)
  | .init p ptr =>
      let m' := m.newLink ⟨some zeroStamp, none, ptr⟩
      some (m'.setWord p (0, m.fresh), .unit)
  | .store p ptr => some (store m p ptr, .unit)
  | .cas p exp ptr => some ((cas help m p exp ptr).1, .bool (cas help m p exp ptr).2)
  | .load p (some ls) => readSnapshot fuel m p ls
  | .load p none =>
      let m := setStamp m (m.v p).2
      some (m, .ptr (m.links (m.v p).2).value)
  | .validate p => some (setStamp m (m.v p).2, .unit)
  | .readSnapshot p ls => readSnapshot fuel m p ls
  | .clock t => some ({ m with stamp := t }, .unit)
  | .raise _ => some (m, .unit)

end Indirect

/-! ## Histories -/

/-- What the conditions on a history depend on: the clock, `done_stamp`, what the clock showed when a
pointer was initialised, and whether a pointer has been used. -/
structure Session (P : Type) where
  clock : Nat
  done : Nat
  born : P → Nat
  used : P → Bool

variable {P : Type} [DecidableEq P]

/-- A read at `ls` of a pointer: `done_stamp` has not passed `ls`, and the pointer is not younger. -/
def Session.Reads (s : Session P) (p : P) (ls : Nat) : Prop :=
  s.done ≤ ls ∧ s.born p ≤ ls

/-- A call that the conditions allow: `init` comes first, and the clock and `done_stamp` do not go back. -/
def Session.Admits (s : Session P) : Call P → Prop
  | .init p _ => s.used p = false
  | .load p (some ls) | .readSnapshot p ls => s.Reads p ls
  | .clock t => s.clock ≤ t
  | .raise d => s.done ≤ d
  | _ => True

/-- The session after a call. -/
def Session.after (s : Session P) : Call P → Session P
  | .init p _ =>
      { s with born := Function.update s.born p s.clock, used := Function.update s.used p true }
  | .store p _ | .cas p _ _ | .load p _ | .validate p | .readSnapshot p _ =>
      { s with used := Function.update s.used p true }
  | .clock t => { s with clock := t }
  | .raise d => { s with done := d }

/-- All calls of a history meet the conditions. -/
def Session.Valid (s : Session P) : List (Call P) → Prop
  | [] => True
  | c :: rest => s.Admits c ∧ (s.after c).Valid rest

/-- Pointers that have just been constructed, and objects that have not been stored. -/
structure Start (s : Session P) (m : Verlib.Hybrid.Memory P) (i : Verlib.Indirect.Memory P) : Prop where
  clock : Verlib.Indirect.zeroStamp ≤ s.clock
  born : ∀ p, s.born p = Verlib.Indirect.zeroStamp
  stamp : m.stamp = s.clock
  done : m.done = s.done
  word : ∀ p, (m.v p).2 = .null
  objects : ∀ y, y ≠ .null → m.timeStamp y = none
  stamp' : i.stamp = s.clock
  word' : ∀ p, (i.v p).2 < i.fresh ∧ i.links (i.v p).2 = ⟨some Verlib.Indirect.zeroStamp, none, none⟩

end Verlib.Sequential
