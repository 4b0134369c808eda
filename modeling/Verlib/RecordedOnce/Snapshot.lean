import Mathlib.Logic.Function.Basic
import Mathlib.Data.List.Basic

/-!
# Pointers to objects that are recorded once

In `versioned_recorded_once.h` the version chain of a pointer goes through the objects themselves, so an object is
stored once, to one pointer. The chain ends at the object that the pointer was constructed with, which has
`zero_stamp`, or at a null version if it was constructed null.

The loop of `read_snapshot` stops on a stamp only. `read_snapshot_exact` says for which pointers and stamps that
is right: a pointer that was constructed null and stored to is read at a stamp older than all of its stores by
following the null version.
-/

namespace Verlib.RecordedOnce

/-- The fields of `versioned`. The stamp `none` is `tbd`. A `next_version` that is `none` is `bad_ptr`, and `some none`
is the null pointer. -/
structure Versioned where
  timeStamp : Option Nat
  nextVersion : Option (Option Nat)

/-- The word of every pointer, where `none` is null, and the objects. -/
structure Memory (P : Type) where
  v : P → Option Nat
  objects : Nat → Versioned

/-- What goes wrong in a read: the loop follows a null version or `bad_ptr`, or it is given too little fuel. -/
inductive Fault where
  | nullVersion
  | badVersion
  | fuel
  deriving DecidableEq

/-- `zero_stamp`. -/
def zeroStamp : Nat :=
  1

/-- `global_stamp.less`, for a stamp that may be `tbd`, which is above every stamp. -/
def less (ls : Nat) : Option Nat → Bool
  | none => true
  | some t => ls < t

variable {P : Type} [DecidableEq P]

namespace Memory

/-- Write the word of a pointer. -/
def setWord (m : Memory P) (p : P) (ptr : Option Nat) : Memory P :=
  { m with v := Function.update m.v p ptr }

/-- Write a time stamp. -/
def setTimeStamp (m : Memory P) (x t : Nat) : Memory P :=
  { m with objects := Function.update m.objects x { m.objects x with timeStamp := some t } }

/-- Write a `next_version`. -/
def setNext (m : Memory P) (x : Nat) (next : Option Nat) : Memory P :=
  { m with objects := Function.update m.objects x { m.objects x with nextVersion := some next } }

/-- `set_stamp`, where the clock shows `ts`. -/
def setStamp (m : Memory P) (x ts : Nat) : Memory P :=
  if (m.objects x).timeStamp = none then m.setTimeStamp x ts else m

/-- `set_zero`. -/
def setZero (m : Memory P) : Option Nat → Memory P
  | none => m
  | some x => if (m.objects x).timeStamp = none then m.setTimeStamp x zeroStamp else m

/-- The constructors and `init`. -/
def init (m : Memory P) (p : P) (ptr : Option Nat) : Memory P :=
  (m.setZero ptr).setWord p ptr

/-- `compare_exchange_strong(oldv, newv)` on the word of a pointer. -/
def compareExchange (m : Memory P) (p : P) (oldv newv : Option Nat) : Memory P :=
  if m.v p = oldv then m.setWord p newv else m

/-- `store(newv)`, where the clock shows `ts`; `none` is the `abort()` of an object recorded a second time. -/
def store (m : Memory P) (p : P) (newv ts : Nat) : Option (Memory P) :=
  let oldv := m.v p
  if (m.objects newv).timeStamp ≠ none then none
  else some (((m.setNext newv oldv).compareExchange p oldv (some newv)).setStamp newv ts)

/-- The loop of `read_snapshot`. -/
def walk (m : Memory P) (ls : Nat) : Nat → Nat → Except Fault Nat
  | 0, _ => .error .fuel
  | fuel + 1, head =>
      if less ls (m.objects head).timeStamp then
        match (m.objects head).nextVersion with
        | none => .error .badVersion
        | some none => .error .nullVersion
        | some (some next) => m.walk ls fuel next
      else .ok head

/-- `read_snapshot` at `ls`, where the clock shows `ts`. -/
def readSnapshot (fuel : Nat) (m : Memory P) (p : P) (ls ts : Nat) : Except Fault (Option Nat) :=
  match m.v p with
  | none => .ok none
  | some head => ((m.setStamp head ts).walk ls fuel head).map some

end Memory

/-! ## Histories -/

/-- A pointer is constructed, null or with a fresh object, or a fresh object is stored to it, with the write stamp
that the clock shows. -/
inductive Op (P : Type) where
  | init (p : P) (ptr : Option Nat)
  | store (p : P) (newv ts : Nat)

/-- An operation; it is not possible when its object is not fresh. -/
def perform (m : Memory P) : Op P → Option (Memory P)
  | .init p none => some (m.init p none)
  | .init p (some x) => if (m.objects x).timeStamp = none then some (m.init p (some x)) else none
  | .store p newv ts => m.store p newv ts

/-- The operations one after the other. -/
def run : List (Op P) → Memory P → Option (Memory P)
  | [], m => some m
  | op :: rest, m => do
      let m' ← perform m op
      run rest m'

/-- Default-constructed pointers and fresh objects. -/
def initial : Memory P :=
  ⟨fun _ => none, fun _ => ⟨none, none⟩⟩

/-- What a pointer has gone through: its initial content, and the stores with their stamps, the last one first. -/
structure Past where
  start : Option Nat
  stores : List (Nat × Nat)

/-- The content of the pointer at `ls`: the last object stored with a stamp of at most `ls`, and the initial content
if there is none. -/
def Past.at_ (past : Past) (ls : Nat) : Option Nat :=
  match past.stores.find? fun e => e.2 ≤ ls with
  | some e => some e.1
  | none => past.start

/-- What an operation adds to what the pointers have gone through. -/
def Op.record (pasts : P → Past) : Op P → P → Past
  | .init p ptr => Function.update pasts p ⟨ptr, []⟩
  | .store p newv ts => Function.update pasts p { pasts p with stores := (newv, ts) :: (pasts p).stores }

/-- What the pointers have gone through after the operations. -/
def recorded (ops : List (Op P)) : P → Past :=
  ops.foldl Op.record fun _ => ⟨none, []⟩

/-! ## Chains -/

/-- From `x` the chain goes through the stores to the initial content. -/
def Chain (objects : Nat → Versioned) (start : Option Nat) : List (Nat × Nat) → Option Nat → Prop
  | [], x => x = start ∧ ∀ o, start = some o → (objects o).timeStamp = some zeroStamp
  | (o, ts) :: older, x =>
      x = some o ∧ (objects o).timeStamp = some ts ∧
        ∃ y, (objects o).nextVersion = some y ∧ Chain objects start older y

/-- A chain goes through stamped objects, so it is not changed by what happens to the others. -/
theorem Chain.congr {objects objects' : Nat → Versioned} {start : Option Nat} {stores : List (Nat × Nat)}
    {x : Option Nat} (h : Chain objects start stores x)
    (hsame : ∀ o, (objects o).timeStamp ≠ none → objects' o = objects o) : Chain objects' start stores x := by
  induction stores generalizing x with
  | nil =>
      refine ⟨h.1, fun o ho => ?_⟩
      have hstamp := h.2 o ho
      rw [hsame o (by rw [hstamp]; simp)]
      exact hstamp
  | cons e older ih =>
      obtain ⟨hx, hstamp, y, hnext, holder⟩ := h
      have hobject := hsame e.1 (by rw [hstamp]; simp)
      exact ⟨hx, by rw [hobject]; exact hstamp, y, by rw [hobject]; exact hnext, ih holder⟩

/-- Every pointer has a chain through all that it has gone through. -/
def Inv (m : Memory P) (pasts : P → Past) : Prop :=
  ∀ p, Chain m.objects (pasts p).start (pasts p).stores (m.v p)

/-- A fresh object becomes the initial content of a pointer. -/
theorem Inv.init {m : Memory P} {pasts : P → Past} (hinv : Inv m pasts) {p : P} {x : Nat}
    (hfresh : (m.objects x).timeStamp = none) :
    Inv (m.init p (some x)) (Function.update pasts p ⟨some x, []⟩) := by
  have hobjects : (m.init p (some x)).objects =
      Function.update m.objects x ⟨some zeroStamp, (m.objects x).nextVersion⟩ := by
    rw [Memory.init, Memory.setZero, if_pos hfresh]
    rfl
  have hword : (m.init p (some x)).v = Function.update m.v p (some x) := by
    rw [Memory.init, Memory.setZero, if_pos hfresh]
    rfl
  intro q
  rw [hobjects, hword]
  by_cases hq : q = p
  · subst hq
    rw [Function.update_self, Function.update_self]
    refine ⟨rfl, fun o ho => ?_⟩
    cases ho
    rw [Function.update_self]
  · rw [Function.update_of_ne hq, Function.update_of_ne hq]
    refine (hinv q).congr fun o ho => ?_
    rw [Function.update_of_ne]
    intro hox
    rw [hox] at ho
    exact ho hfresh

/-- A fresh object becomes the newest version of a pointer. -/
theorem Inv.store {m m' : Memory P} {pasts : P → Past} (hinv : Inv m pasts) {p : P} {newv ts : Nat}
    (h : m.store p newv ts = some m') :
    Inv m' (Function.update pasts p { pasts p with stores := (newv, ts) :: (pasts p).stores }) := by
  rw [Memory.store] at h
  split at h
  · cases h
  next hfresh =>
      have hfresh : (m.objects newv).timeStamp = none := not_not.mp hfresh
      have hm : m' = ⟨Function.update m.v p (some newv), Function.update m.objects newv ⟨some ts, some (m.v p)⟩⟩ := by
        rw [Memory.compareExchange, if_pos (by rfl), Memory.setStamp, if_pos] at h
        · cases h
          simp [Memory.setTimeStamp, Memory.setWord, Memory.setNext]
        · show (Function.update m.objects newv _ newv).timeStamp = none
          rw [Function.update_self]
          exact hfresh
      have hsame : ∀ o, (m.objects o).timeStamp ≠ none →
          Function.update m.objects newv ⟨some ts, some (m.v p)⟩ o = m.objects o := by
        intro o ho
        rw [Function.update_of_ne]
        intro heq
        rw [heq] at ho
        exact ho hfresh
      intro q
      rw [hm]
      by_cases hq : q = p
      · subst hq
        rw [Function.update_self]
        show Chain (Function.update m.objects newv _) _ _ (Function.update m.v q (some newv) q)
        rw [Function.update_self]
        refine ⟨rfl, ?_, m.v q, ?_, (hinv q).congr hsame⟩
        · rw [Function.update_self]
        · rw [Function.update_self]
      · rw [Function.update_of_ne hq]
        show Chain (Function.update m.objects newv _) _ _ (Function.update m.v p (some newv) q)
        rw [Function.update_of_ne hq]
        exact (hinv q).congr hsame

/-- An operation extends what the pointers have gone through. -/
theorem Inv.perform {m m' : Memory P} {pasts : P → Past} (hinv : Inv m pasts) {op : Op P}
    (h : perform m op = some m') : Inv m' (op.record pasts) := by
  cases op with
  | init p ptr =>
      cases ptr with
      | none =>
          cases h
          intro q
          show Chain m.objects _ _ (Function.update m.v p none q)
          show Chain m.objects (Function.update pasts p ⟨none, []⟩ q).start
            (Function.update pasts p ⟨none, []⟩ q).stores _
          by_cases hq : q = p
          · subst hq
            rw [Function.update_self, Function.update_self]
            exact ⟨rfl, fun o ho => by cases ho⟩
          · rw [Function.update_of_ne hq, Function.update_of_ne hq]
            exact hinv q
      | some x =>
          rw [RecordedOnce.perform] at h
          split at h
          next hfresh =>
              cases h
              exact hinv.init hfresh
          · cases h
  | store p newv ts => exact hinv.store h

/-- After the operations every pointer has its chain. -/
theorem Inv.run {ops : List (Op P)} {m m' : Memory P} {pasts : P → Past} (hinv : Inv m pasts)
    (h : run ops m = some m') : Inv m' (ops.foldl Op.record pasts) := by
  induction ops generalizing m pasts with
  | nil =>
      cases h
      exact hinv
  | cons op rest ih =>
      obtain ⟨m₁, hperform, hrest⟩ := Option.bind_eq_some_iff.mp h
      exact ih (hinv.perform hperform) hrest

/-- The operations lead to the chains that they record. -/
theorem inv_of_run {ops : List (Op P)} {m : Memory P} (h : run ops initial = some m) : Inv m (recorded ops) :=
  Inv.run (fun p => ⟨rfl, fun o ho => by cases ho⟩) h

/-! ## Reading -/

omit [DecidableEq P] in
/-- The walk down a chain that is not empty: it ends at the newest version that is not younger than `ls`, and follows
the null version if the pointer was constructed null and all of its stores are younger. -/
theorem walk_chain {m : Memory P} {start : Option Nat} {stores : List (Nat × Nat)} {head ls fuel : Nat}
    (h : Chain m.objects start stores (some head)) (hls : zeroStamp ≤ ls) (hfuel : stores.length < fuel) :
    m.walk ls fuel head =
      match stores.find? fun e => e.2 ≤ ls with
      | some e => .ok e.1
      | none => start.elim (.error .nullVersion) .ok := by
  induction stores generalizing head fuel with
  | nil =>
      obtain ⟨fuel, rfl⟩ : ∃ n, fuel = n + 1 := ⟨fuel - 1, by simp only [List.length_nil] at hfuel; omega⟩
      obtain ⟨hhead, hstamp⟩ := h
      rw [Memory.walk, hstamp head hhead.symm, if_neg (by simp [less, hls]), ← hhead]
      rfl
  | cons e older ih =>
      obtain ⟨fuel, rfl⟩ : ∃ n, fuel = n + 1 := ⟨fuel - 1, by simp only [List.length_cons] at hfuel; omega⟩
      obtain ⟨hhead, hstamp, y, hnext, holder⟩ := h
      cases hhead
      rw [Memory.walk, hstamp]
      by_cases hle : e.2 ≤ ls
      · rw [if_neg (by simp [less, hle]), List.find?_cons_of_pos (by simpa using hle)]
      · rw [if_pos (by simpa [less] using hle), hnext, List.find?_cons_of_neg (by simpa using hle)]
        cases y with
        | some next =>
            simp only [List.length_cons] at hfuel
            exact ih holder (by omega)
        | none =>
            -- Only a pointer that was constructed null has a chain from null, and it is empty.
            cases older with
            | nil =>
                obtain rfl : none = start := holder.1
                rfl
            | cons e' rest => cases holder.1

/-- The head of a chain that is not empty has its stamp. -/
theorem Chain.stamped {objects : Nat → Versioned} {start : Option Nat} {stores : List (Nat × Nat)} {head : Nat}
    (h : Chain objects start stores (some head)) : (objects head).timeStamp ≠ none := by
  cases stores with
  | nil =>
      rw [h.2 head h.1.symm]
      simp
  | cons e older =>
      obtain ⟨hhead, hstamp, -⟩ := h
      cases hhead
      rw [hstamp]
      simp

/-- After any stores, a read at `ls` returns the last object stored with a stamp of at most `ls`, or else the initial
content, if and only if the pointer was not constructed null, or it is still null, or one of its stores is not
younger than `ls`. -/
theorem read_snapshot_exact {ops : List (Op P)} {m : Memory P} (hrun : run ops initial = some m) (p : P) {ls : Nat}
    (hls : zeroStamp ≤ ls) (ts : Nat) {fuel : Nat} (hfuel : (recorded ops p).stores.length < fuel) :
    m.readSnapshot fuel p ls ts = .ok ((recorded ops p).at_ ls) ↔
      (recorded ops p).start ≠ none ∨ (recorded ops p).stores = [] ∨ ∃ e ∈ (recorded ops p).stores, e.2 ≤ ls := by
  have hchain := inv_of_run hrun p
  cases hpast : recorded ops p with
  | mk start stores =>
      rw [hpast] at hchain hfuel
      cases hword : m.v p with
      | none =>
          rw [hword] at hchain
          cases stores with
          | nil =>
              have hread : m.readSnapshot fuel p ls ts = .ok none := by rw [Memory.readSnapshot, hword]
              obtain rfl : none = start := hchain.1
              exact iff_of_true hread (.inr (.inl rfl))
          | cons e older => cases hchain.1
      | some head =>
          rw [hword] at hchain
          have hread : m.readSnapshot fuel p ls ts = (m.walk ls fuel head).map some := by
            rw [Memory.readSnapshot, hword]
            show ((m.setStamp head ts).walk ls fuel head).map some = _
            rw [Memory.setStamp, if_neg hchain.stamped]
          rw [hread, walk_chain hchain hls hfuel, Past.at_]
          cases hfind : stores.find? fun e => e.2 ≤ ls with
          | some e =>
              have hle : e.2 ≤ ls := by simpa using List.find?_some hfind
              exact iff_of_true rfl (.inr (.inr ⟨e, List.mem_of_find?_eq_some hfind, hle⟩))
          | none =>
              cases start with
              | some o => exact iff_of_true rfl (.inl (by simp))
              | none =>
                  refine iff_of_false (fun h => by cases h) fun h => ?_
                  cases h with
                  | inl h => exact h rfl
                  | inr h =>
                      cases h with
                      | inl h =>
                          rw [show stores = [] from h] at hchain
                          cases hchain.1
                      | inr h =>
                          obtain ⟨e, he, hle⟩ := h
                          exact List.find?_eq_none.mp hfind e he (by simpa using hle)

/-- A pointer that was constructed null, stored to at 5 and at 8, and read at 6. -/
theorem read_snapshot_exact_run :
    ∃ m : Memory Unit, run [.init () none, .store () 0 5, .store () 1 8] initial = some m ∧
      m.readSnapshot 3 () 6 9 = .ok (some 0) := by
  obtain ⟨m, hrun⟩ : ∃ m, run [.init () none, .store () 0 5, .store () 1 8] initial = some m := ⟨_, rfl⟩
  exact ⟨m, hrun,
    (read_snapshot_exact hrun () (by decide) 9 (by decide)).mpr (.inr (.inr ⟨(0, 5), by decide, by decide⟩))⟩

/-- The same pointer read at 3: the read follows the null version, where the content was null. -/
theorem null_version_followed :
    ∃ m : Memory Unit, run [.init () none, .store () 0 5] initial = some m ∧
      (recorded [.init () none, .store () 0 5] ()).at_ 3 = none ∧
      ∀ fuel ts, m.readSnapshot (fuel + 2) () 3 ts = .error .nullVersion := by
  refine ⟨_, rfl, by decide, fun fuel ts => rfl⟩

end Verlib.RecordedOnce
