import Verlib.Flock.Scalar
import Verlib.Interleaving.System

/-!
# The spin lock

The lock of `spin_lock.h`, which is used when the lock-free locks are switched off. Its word has a counter in the low
32 bits, which is odd while the lock is taken, and one more than the id of the owner in the bits from 32 on. Threads
run any calls of `try_lock_result`, `with_lock`, `try_lock_no_unlock` and `unlock`, also inside the thunks they pass
to the lock, and every load, store and compare-exchange of the word is one step.

A release adds one to the counter. From the last odd count that carries into the owner field, so that after `2 ^ 31`
acquisitions the free lock is taken to be held by thread 0. `lock_word_ok` is the contract for all runs without
such a release.
-/

namespace Verlib.Flock.SpinLock

open Interleaving Packed

/-! ## `lock_entry` -/

/-- The threads, by their ids. -/
abbrev ThreadId := Fin (2 ^ 16 - 1)

instance neZero_threadId : NeZero (2 ^ 16 - 1) := ⟨by decide⟩

/-- `get_current_id()` in a thread. -/
def getCurrentId (t : ThreadId) : IT := BitVec.ofNat 64 t.val

/-- `is_locked`. -/
def isLocked (le : IT) : Bool := decide (le % 2#64 = 1#64)

/-- `get_count`. -/
def getCount (le : IT) : IT := le &&& ((1#64 <<< 32) - 1#64)

/-- `take_lock` in a thread. -/
def takeLock (t : ThreadId) (le : IT) : IT := ((getCurrentId t + 1#64) <<< 32) ||| (getCount le + 1#64)

/-- `release_lock`. -/
def releaseLock (le : IT) : IT := getCount le + 1#64

/-- `get_procid`. -/
def getProcid (le : IT) : IT := (le >>> 32) &&& ((1#64 <<< 16) - 1#64)

/-- `is_self_locked` in a thread. -/
def isSelfLocked (t : ThreadId) (le : IT) : Bool := decide (getCurrentId t + 1#64 = getProcid le)

/-! ## Threads -/

/-- A call that takes the lock: `try_lock_result`, where `noRelease` says whether the caller passes a `no_release`
flag; `with_lock`, which tries again when it fails; or `try_lock_no_unlock`. -/
inductive Call where
  | tryLockResult (noRelease : Bool)
  | withLock
  | tryLockNoUnlock
  deriving DecidableEq

/-- A thunk that is running: under the lock taken with the word `newl`, or in a call that found the lock held by its
own thread. -/
inductive Frame where
  | taken (newl : IT) (noRelease : Bool)
  | reentry
  deriving DecidableEq

/-- Where a thread stands: in its innermost thunk or outside of all; in a call, about to load the word or to
compare-exchange it; after a thunk, about to test whether the lock is still its own or to release it; or in `unlock`,
about to test, to load, or to store. -/
inductive Pos where
  | running
  | load (c : Call)
  | swap (c : Call) (current newl : IT)
  | test (newl : IT)
  | release (newl : IT)
  | unlockTest
  | unlockLoad
  | unlockStore (current : IT)
  deriving DecidableEq

/-- A thread: the thunks that are running, innermost first, its position, and whether it holds the lock. No step reads
the last one; it is set by a successful compare-exchange and cleared by a release. -/
structure Thread where
  frames : List Frame
  pos : Pos
  holds : Bool
  deriving DecidableEq

/-- The lock word and the threads. -/
structure State where
  lck : IT
  threads : ThreadId → Thread

/-- What a thread does: it calls a function, or returns from its innermost thunk, or goes on with its call. -/
inductive Move where
  | call (c : Call)
  | unlock
  | finish
  | step

/-- The lock is free and no thread has called it. -/
def initial : State :=
  ⟨0#64, fun _ => ⟨[], .running, false⟩⟩

/-- After a call that did not get the lock; `with_lock` tries again. -/
def Call.failed : Call → Pos
  | .withLock => .load .withLock
  | _ => .running

/-- After a call that has taken the lock with the word `newl`. -/
def Call.succeeded (th : Thread) (newl : IT) : Call → Thread
  | .tryLockResult noRelease => ⟨.taken newl noRelease :: th.frames, .running, true⟩
  | .withLock => ⟨.taken newl false :: th.frames, .running, true⟩
  | .tryLockNoUnlock => ⟨th.frames, .running, true⟩

/-- After a call that found the lock held by its own thread. -/
def Call.reentered (th : Thread) : Call → Thread
  | .tryLockNoUnlock => { th with pos := .running }
  | _ => { th with frames := .reentry :: th.frames, pos := .running }

/-- One atomic step of thread `t` inside a call. -/
def stepCall (t : ThreadId) (lck : IT) (th : Thread) : Option (IT × Thread) :=
  match th.pos with
  | .running => none
  | .load c =>
      if isLocked lck = false then some (lck, { th with pos := .swap c lck (takeLock t lck) })
      else if isSelfLocked t lck then some (lck, c.reentered th)
      else some (lck, { th with pos := c.failed })
  | .swap c current newl =>
      if lck = current then some (newl, c.succeeded th newl)
      else some (lck, { th with pos := c.failed })
  | .test newl => some (lck, { th with pos := if isSelfLocked t lck then .release newl else .running })
  | .release newl => some (releaseLock newl, { th with pos := .running, holds := false })
  | .unlockTest => some (lck, { th with pos := if isSelfLocked t lck then .unlockLoad else .running })
  | .unlockLoad => some (lck, { th with pos := .unlockStore lck })
  | .unlockStore current => some (releaseLock current, { th with pos := .running, holds := false })

/-- What a thread does next, with the word and the thread afterwards. -/
def move (t : ThreadId) (lck : IT) (th : Thread) : Move → Option (IT × Thread)
  | .call c => if th.pos = .running then some (lck, { th with pos := .load c }) else none
  | .unlock => if th.pos = .running then some (lck, { th with pos := .unlockTest }) else none
  | .finish =>
      match th.pos, th.frames with
      | .running, .taken newl false :: rest => some (lck, { th with frames := rest, pos := .test newl })
      | .running, .taken _ true :: rest => some (lck, { th with frames := rest })
      | .running, .reentry :: rest => some (lck, { th with frames := rest })
      | _, _ => none
  | .step => stepCall t lck th

/-- The next state, if the move is possible. -/
def next (a : ThreadId × Move) (st : State) : Option (List Empty × State) :=
  (move a.1 st.lck (st.threads a.1) a.2).map fun r => ([], ⟨r.1, Function.update st.threads a.1 r.2⟩)

/-- Any calls by any threads, interleaved in any order. -/
def system : System State (ThreadId × Move) Empty :=
  System.ofNext (fun st => st = initial) next

/-- The step is not a release of a word whose counter is at its last value. -/
def NoOverflow (st : State) (a : ThreadId × Move) : Prop :=
  match a.2, (st.threads a.1).pos with
  | .step, .release newl => getCount newl ≠ (1#64 <<< 32) - 1#64
  | .step, .unlockStore current => getCount current ≠ (1#64 <<< 32) - 1#64
  | _, _ => True

instance (st : State) (a : ThreadId × Move) : Decidable (NoOverflow st a) := by
  unfold NoOverflow
  split <;> infer_instance

/-! ## Lock words -/

/-- A word of a lock that thread `t` holds. -/
structure Owned (t : ThreadId) (le : IT) : Prop where
  owner : high 32 le = t.val + 1
  odd : low 32 le % 2 = 1

/-- A word of a free lock. -/
structure Free (le : IT) : Prop where
  owner : high 32 le = 0
  even : low 32 le % 2 = 0

theorem isLocked_iff (le : IT) : isLocked le = true ↔ low 32 le % 2 = 1 := by
  have hmod : (le % 2#64).toNat = low 32 le % 2 := by
    rw [BitVec.toNat_umod, low]
    show le.toNat % 2 = _
    omega
  rw [isLocked, decide_eq_true_eq, ← hmod]
  constructor
  · intro h
    rw [h]
    rfl
  · intro h
    exact BitVec.eq_of_toNat_eq h

theorem toNat_getCount (le : IT) : (getCount le).toNat = low 32 le := by
  have hhigh : high 32 (getCount le) = 0 := by
    rw [getCount, high_and, show high 32 ((1#64 <<< 32) - 1#64) = 0 by decide, Nat.and_zero]
  rw [toNat_eq 32, hhigh, getCount, low_and_full (by decide), Nat.zero_mul, Nat.zero_add]

theorem toNat_getProcid (le : IT) : (getProcid le).toNat = high 32 le % 2 ^ 16 := by
  rw [getProcid, BitVec.toNat_and, BitVec.toNat_ushiftRight, Nat.shiftRight_eq_div_pow,
    show ((1#64 <<< 16) - 1#64).toNat = 2 ^ 16 - 1 by decide, Nat.and_two_pow_sub_one_eq_mod]
  rfl

theorem toNat_ownId (t : ThreadId) : (getCurrentId t + 1#64).toNat = t.val + 1 := by
  have ht := t.isLt
  rw [getCurrentId, BitVec.toNat_add, BitVec.toNat_ofNat]
  show (t.val % 2 ^ 64 + 1) % 2 ^ 64 = t.val + 1
  omega

theorem isSelfLocked_iff (t : ThreadId) (le : IT) : isSelfLocked t le = true ↔ t.val + 1 = high 32 le % 2 ^ 16 := by
  rw [isSelfLocked, decide_eq_true_eq, ← toNat_ownId, ← toNat_getProcid]
  exact ⟨fun h => by rw [h], fun h => BitVec.eq_of_toNat_eq h⟩

/-- A free lock is not taken to be held by any thread. -/
theorem Free.isSelfLocked {le : IT} (h : Free le) (t : ThreadId) : isSelfLocked t le = false := by
  rw [Bool.eq_false_iff, ne_eq, isSelfLocked_iff, h.owner]
  omega

/-- A lock that is held is taken to be held by its owner only. -/
theorem Owned.isSelfLocked_iff {t u : ThreadId} {le : IT} (h : Owned t le) : isSelfLocked u le = true ↔ u = t := by
  have ht := t.isLt
  rw [SpinLock.isSelfLocked_iff, h.owner, Fin.ext_iff]
  omega

theorem toNat_getCount_add_one (le : IT) : (getCount le + 1#64).toNat = low 32 le + 1 := by
  have hlow := low_lt 32 le
  rw [BitVec.toNat_add, toNat_getCount]
  show (low 32 le + 1) % 2 ^ 64 = _
  omega

/-- The fields of the word with which a thread takes the free lock. -/
theorem fields_takeLock (t : ThreadId) {le : IT} (heven : low 32 le % 2 = 0) :
    high 32 (takeLock t le) = t.val + 1 ∧ low 32 (takeLock t le) = low 32 le + 1 := by
  have ht := t.isLt
  have hlow := low_lt 32 le
  have hcount := toNat_getCount_add_one le
  have hshift : ((getCurrentId t + 1#64) <<< 32).toNat = (t.val + 1) * 2 ^ 32 := by
    rw [BitVec.toNat_shiftLeft, toNat_ownId, Nat.shiftLeft_eq]
    omega
  have hzero : low 32 ((getCurrentId t + 1#64) <<< 32) = 0 := by
    rw [low, hshift]
    omega
  obtain ⟨hhigh, hlow'⟩ := fields_or_shift (x := getCount le + 1#64) (by rw [hcount]; omega) hzero
  refine ⟨?_, ?_⟩
  · rw [takeLock, hhigh, high, hshift]
    omega
  · rw [takeLock, hlow', hcount]

/-- Taking a free lock. -/
theorem owned_takeLock (t : ThreadId) {le : IT} (heven : low 32 le % 2 = 0) : Owned t (takeLock t le) := by
  obtain ⟨hhigh, hlow⟩ := fields_takeLock t heven
  exact ⟨hhigh, by omega⟩

/-- Releasing the lock, unless the counter is at its last value. -/
theorem free_releaseLock {le : IT} (hodd : low 32 le % 2 = 1) (hcount : getCount le ≠ (1#64 <<< 32) - 1#64) :
    Free (releaseLock le) := by
  have hlow := low_lt 32 le
  have hne : low 32 le ≠ 2 ^ 32 - 1 := by
    intro h
    apply hcount
    apply BitVec.eq_of_toNat_eq
    rw [toNat_getCount, h]
    decide
  have hrelease : (releaseLock le).toNat = low 32 le + 1 := toNat_getCount_add_one le
  refine ⟨?_, ?_⟩
  · rw [high, hrelease]
    omega
  · rw [low, hrelease]
    omega

/-! ## The invariant -/

/-- A thunk that runs under the lock remembers a word of its own thread. -/
def FrameOk (t : ThreadId) : Frame → Prop
  | .taken newl _ => Owned t newl
  | .reentry => True

/-- What a position says: a compare-exchange is from an even word to one of the thread's own, and a thread that is about
to release the lock holds it. -/
def PosOk (t : ThreadId) (holds : Bool) : Pos → Prop
  | .running | .load _ | .unlockTest => True
  | .swap _ current newl => low 32 current % 2 = 0 ∧ Owned t newl
  | .test newl => Owned t newl
  | .release newl => Owned t newl ∧ holds = true
  | .unlockLoad => holds = true
  | .unlockStore current => Owned t current ∧ holds = true

/-- What holds of one thread. -/
structure ThreadOk (t : ThreadId) (th : Thread) : Prop where
  frames : ∀ f ∈ th.frames, FrameOk t f
  pos : PosOk t th.holds th.pos

/-- The word is free and no thread holds the lock, or it is owned by the one thread that does. -/
def WordOk (st : State) : Prop :=
  (Free st.lck ∧ ∀ t, (st.threads t).holds = false) ∨
    ∃ t, Owned t st.lck ∧ ∀ u, (st.threads u).holds = true ↔ u = t

/-- The invariant of the lock. -/
structure Inv (st : State) : Prop where
  word : WordOk st
  threads : ∀ t, ThreadOk t (st.threads t)

/-- The invariant holds initially. -/
theorem inv_initial : Inv initial := by
  refine ⟨.inl ⟨⟨by decide, by decide⟩, fun _ => rfl⟩, fun t => ⟨fun f hf => ?_, trivial⟩⟩
  cases hf

/-- What the word says to a thread. -/
structure View (t : ThreadId) (lck : IT) (th : Thread) : Prop where
  owned : th.holds = true → Owned t lck
  self : isSelfLocked t lck = true → th.holds = true

/-- A thread finds its own id in the word if and only if it holds the lock. -/
theorem WordOk.view {st : State} (h : WordOk st) (t : ThreadId) : View t st.lck (st.threads t) := by
  cases h with
  | inl hfree =>
      obtain ⟨hword, hnone⟩ := hfree
      refine ⟨fun hholds => ?_, fun hself => ?_⟩
      · rw [hnone t] at hholds
        cases hholds
      · rw [hword.isSelfLocked t] at hself
        cases hself
  | inr hheld =>
      obtain ⟨u, hword, hholds⟩ := hheld
      refine ⟨fun hown => ?_, fun hself => ?_⟩
      · rw [(hholds t).mp hown]
        exact hword
      · exact (hholds t).mpr (hword.isSelfLocked_iff.mp hself)

/-- What a move changes: nothing of the lock; it takes the free lock; or it releases the lock that the thread holds. -/
inductive Effect (t : ThreadId) (lck : IT) (th : Thread) : IT → Thread → Prop where
  | silent {th' : Thread} : th'.holds = th.holds → Effect t lck th lck th'
  | take {lck' : IT} {th' : Thread} : low 32 lck % 2 = 0 → Owned t lck' → th'.holds = true → Effect t lck th lck' th'
  | release {lck' : IT} {th' : Thread} : th.holds = true → Free lck' → th'.holds = false → Effect t lck th lck' th'

/-- A step inside a call. -/
theorem stepCall_ok {t : ThreadId} {lck lck' : IT} {th th' : Thread} (hok : ThreadOk t th) (hview : View t lck th)
    (hrelease : ∀ newl, th.pos = .release newl → getCount newl ≠ (1#64 <<< 32) - 1#64)
    (hunlock : ∀ current, th.pos = .unlockStore current → getCount current ≠ (1#64 <<< 32) - 1#64)
    (h : stepCall t lck th = some (lck', th')) : ThreadOk t th' ∧ Effect t lck th lck' th' := by
  obtain ⟨hframes, hpos⟩ := hok
  rw [stepCall] at h
  cases hp : th.pos with
  | running =>
      rw [hp] at h
      cases h
  | load c =>
      rw [hp] at h
      simp only at h
      split at h
      next hlocked =>
          cases h
          have heven : low 32 lck % 2 = 0 := by
            rw [Bool.eq_false_iff, ne_eq, isLocked_iff] at hlocked
            omega
          exact ⟨⟨hframes, heven, owned_takeLock t heven⟩, .silent rfl⟩
      · split at h
        · cases h
          cases c with
          | tryLockNoUnlock => exact ⟨⟨hframes, trivial⟩, .silent rfl⟩
          | tryLockResult | withLock =>
              refine ⟨⟨fun f hf => ?_, trivial⟩, .silent rfl⟩
              cases List.mem_cons.mp hf with
              | inl hf =>
                  rw [hf]
                  trivial
              | inr hf => exact hframes f hf
        · cases h
          cases c <;> exact ⟨⟨hframes, trivial⟩, .silent rfl⟩
  | swap c current newl =>
      rw [hp] at h hpos
      obtain ⟨heven, hnewl⟩ := hpos
      simp only at h
      split at h
      next heq =>
          cases h
          have hpush : ∀ noRelease, ∀ f ∈ Frame.taken lck' noRelease :: th.frames, FrameOk t f := by
            intro noRelease f hf
            cases List.mem_cons.mp hf with
            | inl hf =>
                rw [hf]
                exact hnewl
            | inr hf => exact hframes f hf
          rw [← heq] at heven
          cases c with
          | tryLockResult noRelease => exact ⟨⟨hpush noRelease, trivial⟩, .take heven hnewl rfl⟩
          | withLock => exact ⟨⟨hpush false, trivial⟩, .take heven hnewl rfl⟩
          | tryLockNoUnlock => exact ⟨⟨hframes, trivial⟩, .take heven hnewl rfl⟩
      · cases h
        cases c <;> exact ⟨⟨hframes, trivial⟩, .silent rfl⟩
  | test newl =>
      rw [hp] at h hpos
      cases h
      refine ⟨⟨hframes, ?_⟩, .silent rfl⟩
      cases hself : isSelfLocked t lck with
      | true => exact ⟨hpos, hview.self hself⟩
      | false => exact trivial
  | release newl =>
      rw [hp] at h hpos
      cases h
      exact ⟨⟨hframes, trivial⟩, .release hpos.2 (free_releaseLock hpos.1.odd (hrelease newl hp)) rfl⟩
  | unlockTest =>
      rw [hp] at h
      cases h
      refine ⟨⟨hframes, ?_⟩, .silent rfl⟩
      cases hself : isSelfLocked t lck with
      | true => exact hview.self hself
      | false => exact trivial
  | unlockLoad =>
      rw [hp] at h hpos
      cases h
      exact ⟨⟨hframes, hview.owned hpos, hpos⟩, .silent rfl⟩
  | unlockStore current =>
      rw [hp] at h hpos
      cases h
      exact ⟨⟨hframes, trivial⟩, .release hpos.2 (free_releaseLock hpos.1.odd (hunlock current hp)) rfl⟩

/-- A move of a thread. -/
theorem move_ok {st : State} {t : ThreadId} {m : Move} {lck' : IT} {th' : Thread} (hinv : Inv st)
    (hguard : NoOverflow st (t, m)) (h : move t st.lck (st.threads t) m = some (lck', th')) :
    ThreadOk t th' ∧ Effect t st.lck (st.threads t) lck' th' := by
  have hok := hinv.threads t
  cases m with
  | call c =>
      rw [move] at h
      split at h
      · cases h
        exact ⟨⟨hok.frames, trivial⟩, .silent rfl⟩
      · cases h
  | unlock =>
      rw [move] at h
      split at h
      · cases h
        exact ⟨⟨hok.frames, trivial⟩, .silent rfl⟩
      · cases h
  | finish =>
      rw [move] at h
      split at h
      next newl rest hpos hframes =>
          cases h
          have hall := hok.frames
          rw [hframes] at hall
          exact ⟨⟨fun f hf => hall f (List.mem_cons_of_mem _ hf), hall _ List.mem_cons_self⟩, .silent rfl⟩
      next rest hpos hframes =>
          cases h
          have hall := hok.frames
          rw [hframes] at hall
          exact ⟨⟨fun f hf => hall f (List.mem_cons_of_mem _ hf), hok.pos⟩, .silent rfl⟩
      next rest hpos hframes =>
          cases h
          have hall := hok.frames
          rw [hframes] at hall
          exact ⟨⟨fun f hf => hall f (List.mem_cons_of_mem _ hf), hok.pos⟩, .silent rfl⟩
      · cases h
  | step =>
      refine stepCall_ok hok (hinv.word.view t) (fun newl hp => ?_) (fun current hp => ?_) h
      · rw [NoOverflow] at hguard
        simp only [hp] at hguard
        exact hguard
      · rw [NoOverflow] at hguard
        simp only [hp] at hguard
        exact hguard

/-- What a move does to the word and to the threads that hold the lock. -/
theorem WordOk.effect {st : State} (hword : WordOk st) {t : ThreadId} {lck' : IT} {th' : Thread}
    (h : Effect t st.lck (st.threads t) lck' th') : WordOk ⟨lck', Function.update st.threads t th'⟩ := by
  have hother : ∀ u, u ≠ t → (Function.update st.threads t th' u).holds = (st.threads u).holds := by
    intro u hu
    rw [Function.update_of_ne hu]
  have hself : (Function.update st.threads t th' t).holds = th'.holds := by rw [Function.update_self]
  cases h with
  | silent hsame =>
      have hholds : ∀ u, (Function.update st.threads t th' u).holds = (st.threads u).holds := by
        intro u
        by_cases hu : u = t
        · rw [hu, hself, hsame]
        · exact hother u hu
      cases hword with
      | inl hfree => exact .inl ⟨hfree.1, fun u => (hholds u).trans (hfree.2 u)⟩
      | inr hheld =>
          obtain ⟨u, hown, hiff⟩ := hheld
          refine .inr ⟨u, hown, fun v => ?_⟩
          show (Function.update st.threads t th' v).holds = true ↔ _
          rw [hholds v]
          exact hiff v
  | take heven hown hholds =>
      cases hword with
      | inl hfree =>
          refine .inr ⟨t, hown, fun u => ?_⟩
          show (Function.update st.threads t th' u).holds = true ↔ _
          by_cases hu : u = t
          · rw [hu, hself, hholds]
            exact iff_of_true rfl rfl
          · rw [hother u hu, hfree.2 u]
            exact iff_of_false (by simp) hu
      | inr hheld =>
          obtain ⟨u, hown', -⟩ := hheld
          have hodd := hown'.odd
          omega
  | release hholds hfree hnone =>
      cases hword with
      | inl hfree' =>
          rw [hfree'.2 t] at hholds
          cases hholds
      | inr hheld =>
          obtain ⟨u, -, hiff⟩ := hheld
          refine .inl ⟨hfree, fun v => ?_⟩
          show (Function.update st.threads t th' v).holds = false
          by_cases hv : v = t
          · rw [hv, hself, hnone]
          · rw [hother v hv, Bool.eq_false_iff]
            intro hholds'
            exact hv (((hiff v).mp hholds').trans ((hiff t).mp hholds).symm)

/-- A step without overflow keeps the invariant. -/
theorem Inv.next {a : ThreadId × Move} {st st' : State} {es : List Empty} (hinv : Inv st) (hguard : NoOverflow st a)
    (h : next a st = some (es, st')) : Inv st' := by
  obtain ⟨⟨lck', th'⟩, hmove, h⟩ := Option.map_eq_some_iff.mp h
  cases h
  obtain ⟨hthread, heffect⟩ := move_ok hinv hguard hmove
  refine ⟨hinv.word.effect heffect, fun u => ?_⟩
  show ThreadOk u (Function.update st.threads a.1 th' u)
  by_cases hu : u = a.1
  · subst hu
    rw [Function.update_self]
    exact hthread
  · rw [Function.update_of_ne hu]
    exact hinv.threads u

/-- In every run in which no release starts from the last value of the counter: the word is odd if and only if some
thread holds the lock, and then the owner field is that thread's id plus one; otherwise the owner field is 0, and no
thread takes the lock for its own; and at most one thread holds the lock. -/
theorem lock_word_ok {h : List Empty} {st : State} (hexec : Exec (system.restrict NoOverflow) h st) :
    (isLocked st.lck = true ↔ ∃ t, (st.threads t).holds = true) ∧
    (∀ t, (st.threads t).holds = true → getProcid st.lck = getCurrentId t + 1#64) ∧
    (isLocked st.lck = false → getProcid st.lck = 0#64 ∧ ∀ t, isSelfLocked t st.lck = false) ∧
    ∀ t u, (st.threads t).holds = true → (st.threads u).holds = true → t = u := by
  have hinv : Inv st := by
    refine Exec.invariant (P := fun _ st => Inv st) ?_ ?_ hexec
    · intro st hst
      rw [show st = initial from hst]
      exact inv_initial
    · intro _ st a es st' _ hinv hstep
      exact hinv.next hstep.1 hstep.2
  cases hinv.word with
  | inl hfree =>
      obtain ⟨hword, hnone⟩ := hfree
      have hunlocked : ¬ isLocked st.lck = true := by
        rw [isLocked_iff, hword.even]
        decide
      have hnot : ∀ t, ¬ (st.threads t).holds = true := fun t => by simp [hnone t]
      refine ⟨iff_of_false hunlocked fun hheld => ?_, fun t ht => absurd ht (hnot t), fun _ => ⟨?_, fun t => ?_⟩,
        fun t u ht => absurd ht (hnot t)⟩
      · obtain ⟨t, ht⟩ := hheld
        exact hnot t ht
      · exact BitVec.eq_of_toNat_eq (by rw [toNat_getProcid, hword.owner]; rfl)
      · exact hword.isSelfLocked t
  | inr hheld =>
      obtain ⟨t, hword, hiff⟩ := hheld
      have hlocked : isLocked st.lck = true := by rw [isLocked_iff, hword.odd]
      refine ⟨iff_of_true hlocked ⟨t, (hiff t).mpr rfl⟩, fun u hu => ?_, fun hfree => ?_, fun u v hu hv => ?_⟩
      · rw [(hiff u).mp hu]
        have ht := t.isLt
        apply BitVec.eq_of_toNat_eq
        rw [toNat_getProcid, toNat_ownId, hword.owner]
        omega
      · rw [hlocked] at hfree
        cases hfree
      · rw [(hiff u).mp hu, (hiff v).mp hv]

/-- Thread 0 takes the lock and takes it again inside its thunk, and runs both thunks: the word is odd, and thread 0 is
its owner. -/
theorem lock_word_ok_run :
    ∃ h st, Exec (system.restrict NoOverflow) h st ∧ (st.threads 0).holds = true ∧ isLocked st.lck = true ∧
      getProcid st.lck = 1#64 := by
  have hrun : ∃ h st, Exec (system.restrict NoOverflow) h st ∧ (st.threads 0).holds = true :=
    exists_exec_restrict_of_run (fun _ (st : State) => (st.threads 0).holds = true)
      [(0, Move.call .withLock), (0, .step), (0, .step), (0, .call (.tryLockResult false)), (0, .step), (0, .finish)]
      rfl (by decide)
  obtain ⟨h, st, hexec, hholds⟩ := hrun
  obtain ⟨hodd, howner, -⟩ := lock_word_ok hexec
  exact ⟨h, st, hexec, hholds, hodd.mpr ⟨0, hholds⟩, howner 0 hholds⟩

/-! ## The overflow -/

/-- The state in which no thread has called the free lock. -/
def idle (lck : IT) : State :=
  ⟨lck, fun _ => ⟨[], .running, false⟩⟩

/-- Thread 0 runs an empty thunk under the lock. -/
def cycle : List (ThreadId × Move) :=
  [(0, .call .withLock), (0, .step), (0, .step), (0, .finish), (0, .step), (0, .step)]

/-- A cycle leaves its mark on the counter only. -/
theorem run_cycle {le : IT} (hfree : isLocked le = false) :
    run next cycle (idle le) = some ([], idle (releaseLock (takeLock 0 le))) := by
  have heven : low 32 le % 2 = 0 := by
    rw [Bool.eq_false_iff, ne_eq, isLocked_iff] at hfree
    omega
  have hself : isSelfLocked 0 (takeLock 0 le) = true := (owned_takeLock 0 heven).isSelfLocked_iff.mpr rfl
  simp [run, cycle, next, move, stepCall, idle, Call.succeeded, hfree, hself]

/-- What a cycle does to the word of a free lock. -/
theorem toNat_cycle {le : IT} (heven : low 32 le % 2 = 0) :
    (releaseLock (takeLock 0 le)).toNat = low 32 le + 2 := by
  rw [releaseLock, toNat_getCount_add_one, (fields_takeLock 0 heven).2]

/-- After `k` cycles the counter is at `2 * k`, and after `2 ^ 31` the carry is in the owner field. -/
theorem exec_cycles (k : ℕ) (hk : k ≤ 2 ^ 31) : Exec system [] (idle (BitVec.ofNat 64 (2 * k))) := by
  induction k with
  | zero => exact .init rfl
  | succ k ih =>
      have hnat : (BitVec.ofNat 64 (2 * k)).toNat = 2 * k := by
        rw [BitVec.toNat_ofNat]
        omega
      have hlow : low 32 (BitVec.ofNat 64 (2 * k)) = 2 * k := by
        rw [low, hnat]
        omega
      have hfree : isLocked (BitVec.ofNat 64 (2 * k)) = false := by
        rw [Bool.eq_false_iff, ne_eq, isLocked_iff, hlow]
        omega
      have hword : releaseLock (takeLock 0 (BitVec.ofNat 64 (2 * k))) = BitVec.ofNat 64 (2 * (k + 1)) := by
        apply BitVec.eq_of_toNat_eq
        rw [toNat_cycle (by omega), hlow, BitVec.toNat_ofNat]
        omega
      have hcycle := run_cycle hfree
      rw [hword] at hcycle
      exact (ih (by omega)).append_run hcycle

/-- After `2 ^ 31` cycles no thread holds the lock, but the word says that thread 0 does; its next call of `unlock`
leaves a word that is odd. -/
theorem free_lock_owned :
    ∃ h st, Exec system h st ∧ (∀ t, (st.threads t).holds = false) ∧ isLocked st.lck = false ∧
      getProcid st.lck = 1#64 ∧ isSelfLocked 0 st.lck = true :=
  ⟨[], _, exec_cycles (2 ^ 31) le_rfl, fun _ => rfl, by decide, by decide, by decide⟩

end Verlib.Flock.SpinLock
