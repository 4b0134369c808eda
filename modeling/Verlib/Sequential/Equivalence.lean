import Verlib.Sequential.Calls
import Mathlib.Order.Nat

/-!
# The two versioned pointers return the same results

A read of a pointer at `ls` follows the versions that are younger than `ls`. `Walk` and `IWalk` say what
it ends with. The simulation relates the words of each pointer by their values and by what these walks
return, for all stamps at which the pointer may still be read; it says nothing about the links themselves,
so objects may be shared and links replaced by their values.
-/

namespace Verlib.Sequential

open Verlib.Hybrid (Versioned)
open Verlib.Indirect (zeroStamp)

variable {P : Type}

/-! ## Walks -/

/-- The loop of `read_snapshot` at `ls`, started at this version, takes at most `n` steps and ends at a
version with this value, and every version that it visits has its stamp. -/
inductive Walk (m : Hybrid.Memory P) (ls : Nat) : Nat → Versioned → Option Nat → Prop where
  | null (n : Nat) : Walk m ls n .null none
  | stop (n : Nat) {y : Versioned} {t : Nat} (hy : y ≠ .null) (ht : m.timeStamp y = some t)
      (hle : t ≤ ls) : Walk m ls n y (m.getPtr y)
  | step {n : Nat} {y : Versioned} {t : Nat} {x : Option Nat} (hy : y ≠ .null)
      (ht : m.timeStamp y = some t) (hlt : ls < t) (hnext : Walk m ls n (m.next y) x) :
      Walk m ls (n + 1) y x

/-- The same in the fully indirect version, where every link that is visited has been allocated. -/
inductive IWalk (i : Indirect.Memory P) (ls : Nat) : Nat → Nat → Option Nat → Prop where
  | stop (n : Nat) {l t : Nat} (hl : l < i.fresh) (ht : (i.links l).timeStamp = some t) (hle : t ≤ ls) :
      IWalk i ls n l (i.links l).value
  | step {n l t l' : Nat} {x : Option Nat} (hl : l < i.fresh) (ht : (i.links l).timeStamp = some t)
      (hlt : ls < t) (hl' : (i.links l).next = some l') (hnext : IWalk i ls n l' x) :
      IWalk i ls (n + 1) l x

/-- A bound on the steps can be raised. -/
theorem Walk.mono {m : Hybrid.Memory P} {ls n n' : Nat} {y : Versioned} {x : Option Nat}
    (h : Walk m ls n y x) (hn : n ≤ n') : Walk m ls n' y x := by
  induction h generalizing n' with
  | null n => exact .null n'
  | stop n hy ht hle => exact .stop n' hy ht hle
  | @step n y t x hy ht hlt _ ih =>
      obtain ⟨k, rfl⟩ : ∃ k, n' = k + 1 := ⟨n' - 1, by omega⟩
      exact .step hy ht hlt (ih (by omega))

/-- A bound on the steps can be raised. -/
theorem IWalk.mono {i : Indirect.Memory P} {ls n n' l : Nat} {x : Option Nat}
    (h : IWalk i ls n l x) (hn : n ≤ n') : IWalk i ls n' l x := by
  induction h generalizing n' with
  | stop n hl ht hle => exact .stop n' hl ht hle
  | @step n l t l' x hl ht hlt hl' _ ih =>
      obtain ⟨k, rfl⟩ : ∃ k, n' = k + 1 := ⟨n' - 1, by omega⟩
      exact .step hl ht hlt hl' (ih (by omega))

/-- With enough fuel the loop ends where the walk does. -/
theorem Walk.chase {m : Hybrid.Memory P} {ls n fuel : Nat} {y : Versioned} {x : Option Nat}
    (h : Walk m ls n y x) (hfuel : n < fuel) :
    ∃ z, Hybrid.chase m ls fuel y = some z ∧ m.getPtr z = x := by
  induction h generalizing fuel with
  | null n =>
      obtain ⟨k, rfl⟩ : ∃ k, fuel = k + 1 := ⟨fuel - 1, by omega⟩
      exact ⟨.null, by simp [Hybrid.chase], rfl⟩
  | @stop n y t hy ht hle =>
      obtain ⟨k, rfl⟩ : ∃ k, fuel = k + 1 := ⟨fuel - 1, by omega⟩
      exact ⟨y, by simp [Hybrid.chase, Verlib.Hybrid.less, ht, Nat.not_lt.mpr hle], rfl⟩
  | @step n y t x hy ht hlt _ ih =>
      obtain ⟨k, rfl⟩ : ∃ k, fuel = k + 1 := ⟨fuel - 1, by omega⟩
      obtain ⟨z, hz, hx⟩ := ih (show n < k by omega)
      exact ⟨z, by simp [Hybrid.chase, Verlib.Hybrid.less, ht, hlt, hy, hz], hx⟩

/-- With enough fuel the loop ends where the walk does. -/
theorem IWalk.chase {i : Indirect.Memory P} {ls n fuel l : Nat} {x : Option Nat}
    (h : IWalk i ls n l x) (hfuel : n < fuel) :
    ∃ z, Indirect.chase i ls fuel l = some z ∧ (i.links z).value = x := by
  induction h generalizing fuel with
  | @stop n l t hl ht hle =>
      obtain ⟨k, rfl⟩ : ∃ k, fuel = k + 1 := ⟨fuel - 1, by omega⟩
      exact ⟨l, by simp [Indirect.chase, Verlib.Indirect.less, ht, Nat.not_lt.mpr hle], rfl⟩
  | @step n l t l' x hl ht hlt hl' _ ih =>
      obtain ⟨k, rfl⟩ : ∃ k, fuel = k + 1 := ⟨fuel - 1, by omega⟩
      obtain ⟨z, hz, hx⟩ := ih (show n < k by omega)
      exact ⟨z, by simp [Indirect.chase, Verlib.Indirect.less, ht, hlt, hl', hz], hx⟩

/-- The versions that have their stamp are not changed. -/
def Keeps (m m' : Hybrid.Memory P) : Prop :=
  ∀ y t, y ≠ .null → m.timeStamp y = some t →
    m'.timeStamp y = some t ∧ m'.next y = m.next y ∧ m'.getPtr y = m.getPtr y

/-- The links that have been allocated are not changed. -/
def IKeeps (i i' : Indirect.Memory P) : Prop :=
  i.fresh ≤ i'.fresh ∧ ∀ l < i.fresh, i'.links l = i.links l

/-- Walks are not affected by versions without a stamp. -/
theorem Walk.keeps {m m' : Hybrid.Memory P} {ls n : Nat} {y : Versioned} {x : Option Nat}
    (h : Walk m ls n y x) (hm : Keeps m m') : Walk m' ls n y x := by
  induction h with
  | null n => exact .null n
  | @stop n y t hy ht hle =>
      obtain ⟨ht', _, hptr⟩ := hm y t hy ht
      rw [← hptr]
      exact .stop n hy ht' hle
  | @step n y t x hy ht hlt _ ih =>
      obtain ⟨ht', hnext, _⟩ := hm y t hy ht
      rw [← hnext] at ih
      exact .step hy ht' hlt ih

/-- Walks are not affected by new links. -/
theorem IWalk.keeps {i i' : Indirect.Memory P} {ls n l : Nat} {x : Option Nat}
    (h : IWalk i ls n l x) (hi : IKeeps i i') : IWalk i' ls n l x := by
  induction h with
  | @stop n l t hl ht hle =>
      have hsame := hi.2 l hl
      rw [← hsame]
      exact .stop n (hl.trans_le hi.1) (hsame ▸ ht) hle
  | @step n l t l' x hl ht hlt hl' _ ih =>
      have hsame := hi.2 l hl
      exact .step (hl.trans_le hi.1) (hsame ▸ ht) hlt (hsame ▸ hl') ih

/-! ## The simulation -/

/-- The two memories after the same calls. `n` bounds the number of versions. -/
structure Sim (s : Session P) (n : Nat) (m : Hybrid.Memory P) (i : Indirect.Memory P) : Prop where
  clock : zeroStamp ≤ s.clock
  stamp : m.stamp = s.clock
  done : m.done = s.done
  stamp' : i.stamp = s.clock
  word : ∀ p, (m.v p).2 = .null ∨ m.timeStamp (m.v p).2 ≠ none
  le_clock : ∀ y t, y ≠ .null → m.timeStamp y = some t → t ≤ s.clock
  fresh : ∀ l, m.fresh ≤ l → m.timeStamp (.indirect l) = none
  link : ∀ l t, m.timeStamp (.indirect l) = some t →
    m.value l = none ∨ ∃ t', m.timeStamp (.direct (m.value l)) = some t' ∧ t' ≤ t
  word' : ∀ p, (i.v p).2 < i.fresh ∧ (i.links (i.v p).2).timeStamp ≠ none
  value : ∀ p, m.getPtr (m.v p).2 = (i.links (i.v p).2).value
  reads : ∀ p ls, s.Reads p ls → ∃ x, Walk m ls n (m.v p).2 x ∧ IWalk i ls n (i.v p).2 x

/-- Pointers that have just been constructed hold null. -/
theorem Start.sim {s : Session P} {m : Hybrid.Memory P} {i : Indirect.Memory P} (h : Start s m i) :
    Sim s 0 m i := by
  refine ⟨h.clock, h.stamp, h.done, h.stamp', fun p => .inl (h.word p), fun y t hy ht => ?_,
    fun l _ => h.objects _ nofun, fun l t ht => ?_, fun p => ⟨(h.word' p).1, ?_⟩, fun p => ?_,
    fun p ls hls => ⟨none, ?_, ?_⟩⟩
  · rw [h.objects y hy] at ht
    cases ht
  · rw [h.objects (.indirect l) nofun] at ht
    cases ht
  · rw [(h.word' p).2]
    exact nofun
  · rw [h.word p, (h.word' p).2]
    rfl
  · rw [h.word p]
    exact .null 0
  · have hlink := (h.word' p).2
    have hwalk := IWalk.stop (i := i) 0 (h.word' p).1 (t := zeroStamp) (by rw [hlink])
      (h.born p ▸ hls.2)
    rwa [hlink] at hwalk

section

variable [DecidableEq P] {s : Session P} {n : Nat} {m : Hybrid.Memory P} {i : Indirect.Memory P}

omit [DecidableEq P] in
/-- `set_stamp` of a version that has its stamp. -/
theorem setStamp_of_stamped {y : Versioned} (h : y = .null ∨ m.timeStamp y ≠ none) :
    Hybrid.setStamp m y = m := by
  rcases h with rfl | hts
  · simp [Hybrid.setStamp]
  · simp [Hybrid.setStamp, hts]

/-- The memory after `store` or a successful `cas`, before `shortcut`, and the new version. -/
def push (m : Hybrid.Memory P) (p : P) (ptr : Option Nat) : Hybrid.Memory P × Versioned :=
  let (m', new) := Hybrid.newVersion m (m.v p).2 ptr
  (Hybrid.setStamp (m'.setWord p (0, new)) new, new)

omit [DecidableEq P] in
/-- `newVersion` does not touch the words of pointers. -/
theorem newVersion_v (m : Hybrid.Memory P) (old : Versioned) (ptr : Option Nat) :
    (Hybrid.newVersion m old ptr).1.v = m.v := by
  unfold Hybrid.newVersion
  split <;> rfl

/-- `cam` with the word of the pointer. -/
theorem cam_self {p : P} {old new : Versioned} (h : (m.v p).2 = old) :
    Hybrid.cam m p old new = m.setWord p (0, new) := by
  simp [Hybrid.cam, h]

/-- `store` installs a new version. -/
theorem store_eq (b : Build) (m : Hybrid.Memory P) (p : P) (ptr : Option Nat) :
    Hybrid.store b m p ptr = Hybrid.shortcutPtr b (push m p ptr).1 p (push m p ptr).2 := by
  have hv := newVersion_v m (m.v p).2 ptr
  rcases hn : Hybrid.newVersion m (m.v p).2 ptr with ⟨m', new⟩
  rw [hn] at hv
  have hcam : Hybrid.cam m' p (m.v p).2 new = m'.setWord p (0, new) :=
    cam_self (congrArg (fun v => (v p).2) hv)
  -- the second `cam` of `store` writes the same word again
  have hagain : Hybrid.cam (m'.setWord p (0, new)) p new new = m'.setWord p (0, new) := by
    rw [cam_self (by simp [Verlib.Hybrid.Memory.setWord])]
    simp [Verlib.Hybrid.Memory.setWord]
  have hword : ((m'.setWord p (0, new)).v p).2 = new := by simp [Verlib.Hybrid.Memory.setWord]
  simp only [Hybrid.store, push, hn, hcam, hword, hagain, ite_self]
  congr 2
  split
  · split
    · rfl
    · rfl
  · rfl

/-- A `cas` that finds its expected value and stores another one installs a new version. -/
theorem cas_eq (b : Build) {p : P} {exp ptr : Option Nat}
    (hword : (m.v p).2 = .null ∨ m.timeStamp (m.v p).2 ≠ none) (hexp : m.getPtr (m.v p).2 = exp)
    (hne : exp ≠ ptr) :
    Hybrid.cas b m p exp ptr = (Hybrid.shortcutPtr b (push m p ptr).1 p (push m p ptr).2, true) := by
  have hv := newVersion_v m (m.v p).2 ptr
  rcases hn : Hybrid.newVersion m (m.v p).2 ptr with ⟨m', new⟩
  rw [hn] at hv
  have hold : (m'.v p).2 = (m.v p).2 := congrArg (fun v => (v p).2) hv
  have hcas : Hybrid.casFromCam b m' p (m.v p).2 new = (m'.setWord p (0, new), true) := by
    unfold Hybrid.casFromCam
    rw [cam_self hold]
    split
    · simp [Verlib.Hybrid.Memory.setWord]
    · simp [hold]
  simp only [Hybrid.cas, push, setStamp_of_stamped hword, hexp, ne_eq, not_true_eq_false, if_false, hne,
    hn, hcas, if_true]

/-- The new version is a link. -/
theorem push_link {p : P} {ptr : Option Nat} (hind : Hybrid.useIndirect m ptr)
    (hnone : m.timeStamp (.indirect m.fresh) = none) :
    push m p ptr = (((m.newLink (m.v p).2 ptr).setWord p (0, .indirect m.fresh)).setTimeStamp
      (.indirect m.fresh) m.stamp, .indirect m.fresh) := by
  simp [push, Hybrid.newVersion, hind, Hybrid.setStamp, Versioned.null, Verlib.Hybrid.Memory.newLink,
    Verlib.Hybrid.Memory.setWord, hnone]

/-- The new version is the object itself. -/
theorem push_object {p : P} {ptr : Option Nat} (hind : ¬ Hybrid.useIndirect m ptr) :
    push m p ptr = (((m.setNext (.direct ptr) (m.v p).2).setWord p (0, .direct ptr)).setTimeStamp
      (.direct ptr) m.stamp, .direct ptr) := by
  obtain ⟨hptr, hnone⟩ : ptr ≠ none ∧ m.timeStamp (.direct ptr) = none := by
    simpa [Hybrid.useIndirect, not_or] using hind
  simp [push, Hybrid.newVersion, hind, Hybrid.setStamp, Versioned.null, Verlib.Hybrid.Memory.setNext,
    Verlib.Hybrid.Memory.setWord, hnone, hptr]

/-- What a new version is: its word, its stamp, what it leads to and its value; everything that had a
stamp is kept. -/
structure Pushed (m : Hybrid.Memory P) (p : P) (ptr : Option Nat) (m' : Hybrid.Memory P)
    (new : Versioned) : Prop where
  stamp : m'.stamp = m.stamp
  done : m'.done = m.done
  word : (m'.v p).2 = new
  other : ∀ q, q ≠ p → m'.v q = m.v q
  ne_null : new ≠ .null
  old : m.timeStamp new = none
  timeStamp : ∀ y, m'.timeStamp y = if y = new then some m.stamp else m.timeStamp y
  next : m'.next new = (m.v p).2
  value : m'.getPtr new = ptr
  keeps : Keeps m m'
  fresh : m.fresh ≤ m'.fresh ∧ ∀ l, new = .indirect l → l < m'.fresh
  link : ∀ l, new = .indirect l → ptr = none ∨ m.timeStamp (.direct ptr) ≠ none

/-- `store` and `cas` make a new version. -/
theorem push_spec (hfresh : ∀ l, m.fresh ≤ l → m.timeStamp (.indirect l) = none) (p : P)
    (ptr : Option Nat) : Pushed m p ptr (push m p ptr).1 (push m p ptr).2 := by
  by_cases hind : Hybrid.useIndirect m ptr
  · have hnone := hfresh m.fresh le_rfl
    rw [push_link hind hnone]
    refine ⟨rfl, rfl, ?_, fun q hq => ?_, nofun, hnone, fun y => ?_, ?_, ?_, fun y t _ ht => ?_,
      ⟨Nat.le_succ _, ?_⟩, fun _ _ => hind⟩
    · simp [Verlib.Hybrid.Memory.setWord, Verlib.Hybrid.Memory.setTimeStamp]
    · simp [Verlib.Hybrid.Memory.setWord, Verlib.Hybrid.Memory.setTimeStamp,
        Verlib.Hybrid.Memory.newLink, hq]
    · exact Function.update_apply ..
    · simp [Verlib.Hybrid.Memory.setWord, Verlib.Hybrid.Memory.setTimeStamp,
        Verlib.Hybrid.Memory.newLink]
    · simp [Verlib.Hybrid.Memory.setWord, Verlib.Hybrid.Memory.setTimeStamp,
        Verlib.Hybrid.Memory.newLink, Verlib.Hybrid.Memory.getPtr]
    · have hne : y ≠ .indirect m.fresh := by
        rintro rfl
        rw [hnone] at ht
        cases ht
      refine ⟨by simpa [Verlib.Hybrid.Memory.setWord, Verlib.Hybrid.Memory.setTimeStamp,
        Verlib.Hybrid.Memory.newLink, hne] using ht, by simp [Verlib.Hybrid.Memory.setWord,
        Verlib.Hybrid.Memory.setTimeStamp, Verlib.Hybrid.Memory.newLink, hne], ?_⟩
      cases y with
      | direct x => rfl
      | indirect l =>
          have hl : l ≠ m.fresh := fun h => hne (h ▸ rfl)
          simp [Verlib.Hybrid.Memory.setWord, Verlib.Hybrid.Memory.setTimeStamp,
            Verlib.Hybrid.Memory.newLink, Verlib.Hybrid.Memory.getPtr, hl]
    · rintro l ⟨⟩
      exact Nat.lt_succ_self _
  · obtain ⟨hptr, hnone⟩ : ptr ≠ none ∧ m.timeStamp (.direct ptr) = none := by
      simpa [Hybrid.useIndirect, not_or] using hind
    rw [push_object hind]
    refine ⟨rfl, rfl, ?_, fun q hq => ?_, ?_, hnone, fun y => ?_, ?_, rfl, fun y t _ ht => ?_,
      ⟨le_rfl, nofun⟩, nofun⟩
    · simp [Verlib.Hybrid.Memory.setWord, Verlib.Hybrid.Memory.setTimeStamp]
    · simp [Verlib.Hybrid.Memory.setWord, Verlib.Hybrid.Memory.setTimeStamp,
        Verlib.Hybrid.Memory.setNext, hq]
    · intro h
      cases h
      exact hptr rfl
    · exact Function.update_apply ..
    · simp [Verlib.Hybrid.Memory.setWord, Verlib.Hybrid.Memory.setTimeStamp,
        Verlib.Hybrid.Memory.setNext]
    · have hne : y ≠ .direct ptr := by
        rintro rfl
        rw [hnone] at ht
        cases ht
      refine ⟨by simpa [Verlib.Hybrid.Memory.setWord, Verlib.Hybrid.Memory.setTimeStamp,
        Verlib.Hybrid.Memory.setNext, hne] using ht, by simp [Verlib.Hybrid.Memory.setWord,
        Verlib.Hybrid.Memory.setTimeStamp, Verlib.Hybrid.Memory.setNext, hne], ?_⟩
      cases y with
      | direct x => rfl
      | indirect l => rfl

/-- `store` in the fully indirect version. -/
theorem istore_eq (i : Indirect.Memory P) (p : P) (ptr : Option Nat) :
    Indirect.store i p ptr = (i.newLink ⟨some i.stamp, some (i.v p).2, ptr⟩).setWord p (0, i.fresh) := by
  simp [Indirect.store, Indirect.setStamp, Verlib.Indirect.Memory.newLink, Verlib.Indirect.Memory.setWord,
    Verlib.Indirect.Memory.setTimeStamp]

omit [DecidableEq P] in
/-- `set_stamp` of a link that has its stamp. -/
theorem isetStamp_of_stamped {l : Nat} (h : (i.links l).timeStamp ≠ none) : Indirect.setStamp i l = i := by
  simp [Indirect.setStamp, h]

/-- A `cas` that finds its expected value and stores another one, in the fully indirect version. -/
theorem icas_eq (help : Bool) {p : P} {exp ptr : Option Nat}
    (hword : (i.links (i.v p).2).timeStamp ≠ none) (hexp : (i.links (i.v p).2).value = exp)
    (hne : exp ≠ ptr) : Indirect.cas help i p exp ptr = (Indirect.store i p ptr, true) := by
  have hcas : Indirect.idempotentCas help (i.newLink ⟨none, some (i.v p).2, ptr⟩) p (i.v p).2 i.fresh =
      ((i.newLink ⟨none, some (i.v p).2, ptr⟩).setWord p (0, i.fresh), true) := by
    have hold : ((i.newLink ⟨none, some (i.v p).2, ptr⟩).v p).2 = (i.v p).2 := rfl
    unfold Indirect.idempotentCas Indirect.cam
    simp only [hold, if_true, decide_true]
    split
    · simp [Verlib.Indirect.Memory.setWord]
    · rfl
  simp only [Indirect.cas, isetStamp_of_stamped hword, hexp, ne_eq, not_true_eq_false, if_false, hne,
    hcas, Indirect.store]

/-- A pointer gets a new link, and the links that have been allocated stay as they are. -/
structure INew (i : Indirect.Memory P) (p : P) (d : Verlib.Indirect.Link) (i' : Indirect.Memory P) :
    Prop where
  stamp : i'.stamp = i.stamp
  word : (i'.v p).2 = i.fresh
  other : ∀ q, q ≠ p → i'.v q = i.v q
  link : i'.links i.fresh = d
  keeps : IKeeps i i'
  fresh : i.fresh < i'.fresh

/-- The new link of a pointer. -/
theorem inew (i : Indirect.Memory P) (p : P) (d : Verlib.Indirect.Link) :
    INew i p d ((i.newLink d).setWord p (0, i.fresh)) := by
  refine ⟨rfl, ?_, fun q hq => ?_, ?_, ⟨Nat.le_succ _, fun l hl => ?_⟩, Nat.lt_succ_self _⟩
  · simp [Verlib.Indirect.Memory.setWord]
  · simp [Verlib.Indirect.Memory.newLink, Verlib.Indirect.Memory.setWord, hq]
  · simp [Verlib.Indirect.Memory.newLink, Verlib.Indirect.Memory.setWord]
  · simp [Verlib.Indirect.Memory.newLink, Verlib.Indirect.Memory.setWord, Nat.ne_of_lt hl]

/-! ## The calls keep the simulation -/

omit [DecidableEq P] in
/-- What the simulation says of a pointer that a call does not touch. -/
theorem Sim.untouched (hsim : Sim s n m i) {m' : Hybrid.Memory P} {i' : Indirect.Memory P} {q : P}
    (hq : m'.v q = m.v q) (hq' : i'.v q = i.v q) (hm : Keeps m m') (hi : IKeeps i i') :
    ((m'.v q).2 = .null ∨ m'.timeStamp (m'.v q).2 ≠ none) ∧
      ((i'.v q).2 < i'.fresh ∧ (i'.links (i'.v q).2).timeStamp ≠ none) ∧
      m'.getPtr (m'.v q).2 = (i'.links (i'.v q).2).value ∧
      ∀ n' ls, n ≤ n' → s.Reads q ls →
        ∃ x, Walk m' ls n' (m'.v q).2 x ∧ IWalk i' ls n' (i'.v q).2 x := by
  obtain ⟨hlt, hts'⟩ := hsim.word' q
  have hlink := hi.2 _ hlt
  rw [hq, hq', hlink]
  refine ⟨?_, ⟨hlt.trans_le hi.1, hts'⟩, ?_, fun n' ls hn hls => ?_⟩
  · rcases hsim.word q with h | h
    · exact .inl h
    · by_cases hnull : (m.v q).2 = .null
      · exact .inl hnull
      · obtain ⟨t, ht⟩ := Option.ne_none_iff_exists'.mp h
        rw [(hm _ t hnull ht).1]
        exact .inr nofun
  · rw [← hsim.value q]
    rcases hsim.word q with h | h
    · rw [h]
      rfl
    · by_cases hnull : (m.v q).2 = .null
      · rw [hnull]
        rfl
      · obtain ⟨t, ht⟩ := Option.ne_none_iff_exists'.mp h
        exact (hm _ t hnull ht).2.2
  · obtain ⟨x, hw, hiw⟩ := hsim.reads q ls hls
    exact ⟨x, (hw.keeps hm).mono hn, (hiw.keeps hi).mono hn⟩

omit [DecidableEq P] in
/-- A new version in both memories. -/
theorem Sim.push {p : P} {ptr : Option Nat} {m' : Hybrid.Memory P} {new : Versioned}
    {i' : Indirect.Memory P} (hsim : Sim s n m i) (hpush : Pushed m p ptr m' new)
    (hnew : INew i p ⟨some i.stamp, some (i.v p).2, ptr⟩ i') : Sim s (n + 1) m' i' := by
  have hlink : i'.links i.fresh = ⟨some s.clock, some (i.v p).2, ptr⟩ := by
    rw [hnew.link, hsim.stamp']
  have hts : m'.timeStamp new = some s.clock := by
    rw [hpush.timeStamp, if_pos rfl, hsim.stamp]
  have hother := fun q hq =>
    hsim.untouched (hpush.other q hq) (hnew.other q hq) hpush.keeps hnew.keeps
  refine ⟨hsim.clock, hpush.stamp.trans hsim.stamp, hpush.done.trans hsim.done,
    hnew.stamp.trans hsim.stamp', fun q => ?_, fun y t hy ht => ?_, fun l hl => ?_, fun l t ht => ?_,
    fun q => ?_, fun q => ?_, fun q ls hls => ?_⟩
  · rcases eq_or_ne q p with rfl | hq
    · rw [hpush.word, hts]
      exact .inr nofun
    · exact (hother q hq).1
  · rw [hpush.timeStamp] at ht
    split at ht
    · cases ht
      exact hsim.stamp.le
    · exact hsim.le_clock y t hy ht
  · rw [hpush.timeStamp, if_neg]
    · exact hsim.fresh l (hpush.fresh.1.trans hl)
    · intro h
      exact absurd (hpush.fresh.2 l h.symm) (Nat.not_lt.mpr hl)
  · by_cases hl : Versioned.indirect l = new
    · -- the value of the new link had its stamp before
      have hval : m'.value l = ptr := by
        rw [← hpush.value, ← hl]
        rfl
      rw [hl, hts] at ht
      cases ht
      rw [hval]
      cases ptr with
      | none => exact .inl rfl
      | some o =>
          rcases hpush.link l hl.symm with h | h
          · cases h
          · obtain ⟨t, ht⟩ := Option.ne_none_iff_exists'.mp h
            exact .inr ⟨t, (hpush.keeps (.direct (some o)) t nofun ht).1,
              hsim.le_clock (.direct (some o)) t nofun ht⟩
    · rw [hpush.timeStamp, if_neg hl] at ht
      have hval : m'.value l = m.value l := (hpush.keeps (.indirect l) t nofun ht).2.2
      rw [hval]
      rcases hsim.link l t ht with h | ⟨t', ht', hle⟩
      · exact .inl h
      · cases hv : m.value l with
        | none => exact .inl rfl
        | some o =>
            rw [hv] at ht'
            exact .inr ⟨t', (hpush.keeps (.direct (some o)) t' nofun ht').1, hle⟩
  · rcases eq_or_ne q p with rfl | hq
    · rw [hnew.word, hlink]
      exact ⟨hnew.fresh, nofun⟩
    · exact (hother q hq).2.1
  · rcases eq_or_ne q p with rfl | hq
    · rw [hpush.word, hpush.value, hnew.word, hlink]
    · exact (hother q hq).2.2.1
  · rcases eq_or_ne q p with rfl | hq
    · rw [hpush.word, hnew.word]
      rcases Nat.lt_or_ge ls s.clock with hlt | hge
      · obtain ⟨x, hw, hiw⟩ := hsim.reads q ls hls
        refine ⟨x, .step hpush.ne_null hts hlt ?_, .step hnew.fresh (by rw [hlink]) hlt (by rw [hlink]) ?_⟩
        · rw [hpush.next]
          exact hw.keeps hpush.keeps
        · exact hiw.keeps hnew.keeps
      · refine ⟨ptr, ?_, ?_⟩
        · have hw := Walk.stop (n + 1) hpush.ne_null hts hge
          rwa [hpush.value] at hw
        · have hiw := IWalk.stop (i := i') (n + 1) hnew.fresh (by rw [hlink]) hge
          rwa [hlink] at hiw
    · exact (hother q hq).2.2.2 (n + 1) ls (Nat.le_succ n) hls

/-- A link whose stamp `done_stamp` has reached is replaced by its value. -/
theorem Sim.replaced (hsim : Sim s n m i) {p : P} {l t : Nat} (hword : (m.v p).2 = .indirect l)
    (ht : m.timeStamp (.indirect l) = some t) (hle : t ≤ m.done) :
    Sim s n (m.setWord p (0, .direct (m.value l))) i := by
  have hself : ((m.setWord p (0, .direct (m.value l))).v p).2 = .direct (m.value l) := by
    simp [Verlib.Hybrid.Memory.setWord]
  have hother : ∀ q, q ≠ p → (m.setWord p (0, .direct (m.value l))).v q = m.v q := by
    intro q hq
    simp [Verlib.Hybrid.Memory.setWord, hq]
  have hkeeps : Keeps m (m.setWord p (0, .direct (m.value l))) := fun _ _ _ h => ⟨h, rfl, rfl⟩
  have huntouched := fun q hq =>
    hsim.untouched (hother q hq) rfl hkeeps ⟨le_rfl, fun _ _ => rfl⟩
  refine ⟨hsim.clock, hsim.stamp, hsim.done, hsim.stamp', fun q => ?_, hsim.le_clock, hsim.fresh,
    hsim.link, hsim.word', fun q => ?_, fun q ls hls => ?_⟩
  · rcases eq_or_ne q p with rfl | hq
    · rw [hself]
      rcases hsim.link l t ht with h | ⟨t', ht', _⟩
      · exact .inl (by rw [h]; rfl)
      · refine .inr ?_
        rw [show (m.setWord q _).timeStamp = m.timeStamp from rfl, ht']
        exact nofun
    · exact (huntouched q hq).1
  · rcases eq_or_ne q p with rfl | hq
    · rw [hself, ← hsim.value q, hword]
      rfl
    · exact (huntouched q hq).2.2.1
  · rcases eq_or_ne q p with rfl | hq
    · have hls' : t ≤ ls := hle.trans (hsim.done.trans_le hls.1)
      obtain ⟨x, hw, hiw⟩ := hsim.reads q ls hls
      refine ⟨x, ?_, hiw⟩
      -- the walk ended at the link
      have hx : m.value l = x := by
        rw [hword] at hw
        cases hw with
        | stop _ _ _ => rfl
        | step _ ht' hlt _ =>
            rw [ht] at ht'
            cases ht'
            omega
      rw [hself, ← hx]
      rcases hsim.link l t ht with h | ⟨t', ht', hle'⟩
      · rw [h]
        exact .null n
      · by_cases hnull : Versioned.direct (m.value l) = .null
        · rw [hnull, show m.value l = none by simpa [Versioned.null] using hnull]
          exact .null n
        · exact .stop (m := m.setWord q (0, .direct (m.value l))) n hnull ht' (hle'.trans hls')
    · exact (huntouched q hq).2.2.2 n ls le_rfl hls

/-- `shortcut` replaces a link by its value. -/
theorem Sim.shortcutPtr (hsim : Sim s n m i) (b : Build) (p : P) (y : Versioned) :
    Sim s n (Hybrid.shortcutPtr b m p y) i := by
  cases y with
  | direct ptr => exact hsim
  | indirect l =>
      simp only [Hybrid.shortcutPtr, Hybrid.shortcut, Hybrid.cam]
      split
      · split
        · next t ht =>
          split
          · next hle =>
            split
            · next hword => exact hsim.replaced hword ht hle
            · exact hsim
          · exact hsim
        · exact hsim
      · exact hsim

omit [DecidableEq P] in
/-- `set_zero_stamp` gives a stamp to an object that has none. -/
theorem setZeroStamp_spec (hsim : Sim s n m i) (ptr : Option Nat) :
    Keeps m (Hybrid.setZeroStamp m ptr) ∧
      (ptr = none ∨ ∃ t, (Hybrid.setZeroStamp m ptr).timeStamp (.direct ptr) = some t ∧ t ≤ s.clock) ∧
      ∀ y, (Hybrid.setZeroStamp m ptr).timeStamp y = m.timeStamp y ∨
        y = .direct ptr ∧ (Hybrid.setZeroStamp m ptr).timeStamp y = some zeroStamp := by
  unfold Hybrid.setZeroStamp
  split
  · next h =>
    refine ⟨fun y t _ ht => ⟨?_, rfl, rfl⟩, .inr ⟨zeroStamp, ?_, hsim.clock⟩, fun y => ?_⟩
    · have hne : y ≠ .direct ptr := by
        rintro rfl
        rw [h.2] at ht
        cases ht
      simpa [Verlib.Hybrid.Memory.setTimeStamp, hne] using ht
    · simp [Verlib.Hybrid.Memory.setTimeStamp]
    · rcases eq_or_ne y (.direct ptr) with rfl | hne
      · exact .inr ⟨rfl, by simp [Verlib.Hybrid.Memory.setTimeStamp]⟩
      · exact .inl (by simp [Verlib.Hybrid.Memory.setTimeStamp, hne])
  · next h =>
    refine ⟨fun y t _ ht => ⟨ht, rfl, rfl⟩, ?_, fun y => .inl rfl⟩
    cases ptr with
    | none => exact .inl rfl
    | some o =>
        have hts : m.timeStamp (.direct (some o)) ≠ none := fun hnone => h ⟨nofun, hnone⟩
        obtain ⟨t, ht⟩ := Option.ne_none_iff_exists'.mp hts
        exact .inr ⟨t, ht, hsim.le_clock (.direct (some o)) t nofun ht⟩

/-- A pointer is initialised. -/
theorem Sim.init {p : P} {ptr : Option Nat} {m' : Hybrid.Memory P} {i' : Indirect.Memory P}
    (hsim : Sim s n m i) (hm' : m' = (Hybrid.setZeroStamp m ptr).setWord p (0, .direct ptr))
    (hnew : INew i p ⟨some zeroStamp, none, ptr⟩ i') :
    Sim (s.after (.init p ptr)) n m' i' := by
  obtain ⟨hkeeps, hstamp, htimes⟩ := setZeroStamp_spec hsim ptr
  have hself : (m'.v p).2 = .direct ptr := by simp [hm', Verlib.Hybrid.Memory.setWord]
  have hfields : m'.stamp = m.stamp ∧ m'.done = m.done ∧ m'.value = m.value ∧ m'.fresh = m.fresh ∧
      m'.timeStamp = (Hybrid.setZeroStamp m ptr).timeStamp ∧
      ∀ q, q ≠ p → m'.v q = m.v q := by
    subst hm'
    unfold Hybrid.setZeroStamp
    split
    all_goals
      refine ⟨rfl, rfl, rfl, rfl, rfl, fun q hq => ?_⟩
      simp [Verlib.Hybrid.Memory.setWord, Verlib.Hybrid.Memory.setTimeStamp, hq]
  obtain ⟨hst, hdone, hvalue, hfresh, hts, hv⟩ := hfields
  have hkeeps' : Keeps m m' := by
    intro y t hy ht
    rw [hts]
    subst hm'
    exact hkeeps y t hy ht
  have hother := fun q hq => hsim.untouched (hv q hq) (hnew.other q hq) hkeeps' hnew.keeps
  have hborn : ∀ q, q ≠ p → ∀ ls, (s.after (.init p ptr)).Reads q ls → s.Reads q ls := by
    intro q hq ls h
    have hb := h.2
    simp only [Session.after, Function.update_of_ne hq] at hb
    exact ⟨h.1, hb⟩
  refine ⟨hsim.clock, hst.trans hsim.stamp, hdone.trans hsim.done, hnew.stamp.trans hsim.stamp',
    fun q => ?_, fun y t hy ht => ?_, fun l hl => ?_, fun l t ht => ?_, fun q => ?_, fun q => ?_,
    fun q ls hls => ?_⟩
  · rcases eq_or_ne q p with rfl | hq
    · rw [hself, hts]
      rcases hstamp with rfl | ⟨t, ht, _⟩
      · exact .inl rfl
      · rw [ht]
        exact .inr nofun
    · exact (hother q hq).1
  · rw [hts] at ht
    rcases htimes y with h | ⟨_, h⟩
    · rw [h] at ht
      exact hsim.le_clock y t hy ht
    · rw [h] at ht
      cases ht
      exact hsim.clock
  · rw [hts]
    rw [hfresh] at hl
    rcases htimes (.indirect l) with h | ⟨h, _⟩
    · rw [h]
      exact hsim.fresh l hl
    · cases h
  · rw [hts] at ht
    rcases htimes (.indirect l) with h | ⟨h, _⟩
    · rw [h] at ht
      rw [hvalue]
      rcases hsim.link l t ht with hnone | ⟨t', ht', hle⟩
      · exact .inl hnone
      · cases hval : m.value l with
        | none => exact .inl rfl
        | some o =>
            rw [hval] at ht'
            exact .inr ⟨t', (hkeeps' (.direct (some o)) t' nofun ht').1, hle⟩
    · cases h
  · rcases eq_or_ne q p with rfl | hq
    · rw [hnew.word, hnew.link]
      exact ⟨hnew.fresh, nofun⟩
    · exact (hother q hq).2.1
  · rcases eq_or_ne q p with rfl | hq
    · rw [hself, hnew.word, hnew.link]
      rfl
    · exact (hother q hq).2.2.1
  · rcases eq_or_ne q p with rfl | hq
    · have hls' : s.clock ≤ ls := by
        have hb := hls.2
        simpa [Session.after] using hb
      rw [hself, hnew.word]
      refine ⟨ptr, ?_, ?_⟩
      · rcases hstamp with rfl | ⟨t, ht, hle⟩
        · exact .null n
        · by_cases hnull : Versioned.direct ptr = .null
          · cases hnull
            exact .null n
          · rw [← hts] at ht
            exact .stop (m := m') n hnull ht (hle.trans hls')
      · have hiw := IWalk.stop (i := i') n hnew.fresh (t := zeroStamp) (by rw [hnew.link])
          (hsim.clock.trans hls')
        rwa [hnew.link] at hiw
    · exact (hother q hq).2.2.2 n ls le_rfl (hborn q hq ls hls)

omit [DecidableEq P] in
/-- The simulation does not depend on which pointers have been used. -/
theorem Sim.used (hsim : Sim s n m i) (u : P → Bool) {n' : Nat} (hn : n ≤ n') :
    Sim { s with used := u } n' m i := by
  refine ⟨hsim.clock, hsim.stamp, hsim.done, hsim.stamp', hsim.word, hsim.le_clock, hsim.fresh, hsim.link,
    hsim.word', hsim.value, fun p ls hls => ?_⟩
  obtain ⟨x, hw, hiw⟩ := hsim.reads p ls hls
  exact ⟨x, hw.mono hn, hiw.mono hn⟩

omit [DecidableEq P] in
/-- A read in a snapshot returns the same in both. -/
theorem Sim.readSnapshot (hsim : Sim s n m i) {p : P} {ls fuel : Nat} (hls : s.Reads p ls)
    (hfuel : n < fuel) : ∃ x, Hybrid.readSnapshot fuel m p ls = some (m, .ptr x) ∧
      Indirect.readSnapshot fuel i p ls = some (i, .ptr x) := by
  obtain ⟨x, hw, hiw⟩ := hsim.reads p ls hls
  obtain ⟨z, hz, hx⟩ := hw.chase hfuel
  obtain ⟨z', hz', hx'⟩ := hiw.chase hfuel
  refine ⟨x, ?_, ?_⟩
  · simp [Hybrid.readSnapshot, setStamp_of_stamped (hsim.word p), hz, hx]
  · simp [Indirect.readSnapshot, isetStamp_of_stamped (hsim.word' p).2, hz', hx']

/-- A call returns the same in both. -/
theorem Sim.call (hsim : Sim s n m i) (b : Build) {c : Call P} {fuel : Nat} (hc : s.Admits c)
    (hfuel : n < fuel) : ∃ m' i' r, Hybrid.call b fuel m c = some (m', r) ∧
      Indirect.call b.help fuel i c = some (i', r) ∧ Sim (s.after c) (n + 1) m' i' := by
  cases c with
  | init p ptr =>
      exact ⟨_, _, _, rfl, rfl, (hsim.init rfl (inew i p _)).used _ (Nat.le_succ n)⟩
  | store p ptr =>
      refine ⟨_, _, _, rfl, rfl, ?_⟩
      rw [store_eq, istore_eq]
      exact ((hsim.push (push_spec hsim.fresh p ptr) (inew i p _)).shortcutPtr b p _).used _ le_rfl
  | cas p exp ptr =>
      have hword := hsim.word p
      have hword' := (hsim.word' p).2
      by_cases hexp : m.getPtr (m.v p).2 = exp
      · have hexp' := (hsim.value p).symm.trans hexp
        by_cases hne : exp = ptr
        · refine ⟨m, i, .bool true, ?_, ?_, hsim.used _ (Nat.le_succ n)⟩
          · simp [Hybrid.call, Hybrid.cas, setStamp_of_stamped hword, hexp, hne]
          · simp [Indirect.call, Indirect.cas, isetStamp_of_stamped hword', hexp', hne]
        · refine ⟨_, _, .bool true, by rw [Hybrid.call, cas_eq b hword hexp hne],
            by rw [Indirect.call, icas_eq b.help hword' hexp' hne], ?_⟩
          rw [istore_eq]
          exact ((hsim.push (push_spec hsim.fresh p ptr) (inew i p _)).shortcutPtr b p _).used _ le_rfl
      · have hexp' : ¬ exp = (i.links (i.v p).2).value := by
          rw [← hsim.value p]
          exact fun h => hexp h.symm
        refine ⟨m, i, .bool false, ?_, ?_, hsim.used _ (Nat.le_succ n)⟩
        · simp [Hybrid.call, Hybrid.cas, setStamp_of_stamped hword, hexp]
        · simp [Indirect.call, Indirect.cas, isetStamp_of_stamped hword', hexp']
  | load p ls =>
      cases ls with
      | some ls =>
          obtain ⟨x, hx, hx'⟩ := hsim.readSnapshot hc hfuel
          exact ⟨m, i, _, hx, hx', hsim.used _ (Nat.le_succ n)⟩
      | none =>
          refine ⟨Hybrid.shortcutPtr b m p (m.v p).2, i, .ptr (m.getPtr (m.v p).2), ?_, ?_,
            (hsim.shortcutPtr b p _).used _ (Nat.le_succ n)⟩
          · simp only [Hybrid.call, setStamp_of_stamped (hsim.word p)]
          · simp only [Indirect.call, isetStamp_of_stamped (hsim.word' p).2, hsim.value p]
  | validate p =>
      refine ⟨m, i, .unit, ?_, ?_, hsim.used _ (Nat.le_succ n)⟩
      · simp only [Hybrid.call, setStamp_of_stamped (hsim.word p)]
      · simp only [Indirect.call, isetStamp_of_stamped (hsim.word' p).2]
  | readSnapshot p ls =>
      obtain ⟨x, hx, hx'⟩ := hsim.readSnapshot hc hfuel
      exact ⟨m, i, _, hx, hx', hsim.used _ (Nat.le_succ n)⟩
  | clock t =>
      refine ⟨_, _, _, rfl, rfl, ?_⟩
      refine ⟨hsim.clock.trans hc, rfl, hsim.done, rfl, hsim.word, fun y t' hy ht' => ?_, hsim.fresh,
        hsim.link, hsim.word', hsim.value, fun p ls hls => ?_⟩
      · exact (hsim.le_clock y t' hy ht').trans hc
      · obtain ⟨x, hw, hiw⟩ := hsim.reads p ls hls
        have hkeeps : Keeps m { m with stamp := t } := fun _ _ _ h => ⟨h, rfl, rfl⟩
        have hikeeps : IKeeps i { i with stamp := t } := ⟨le_rfl, fun _ _ => rfl⟩
        exact ⟨x, (hw.keeps hkeeps).mono (Nat.le_succ n), (hiw.keeps hikeeps).mono (Nat.le_succ n)⟩
  | raise d =>
      refine ⟨_, _, _, rfl, rfl, ?_⟩
      refine ⟨hsim.clock, hsim.stamp, rfl, hsim.stamp', hsim.word, hsim.le_clock, hsim.fresh, hsim.link,
        hsim.word', hsim.value, fun p ls hls => ?_⟩
      obtain ⟨x, hw, hiw⟩ := hsim.reads p ls ⟨hc.trans hls.1, hls.2⟩
      have hkeeps : Keeps m { m with done := d } := fun _ _ _ h => ⟨h, rfl, rfl⟩
      exact ⟨x, (hw.keeps hkeeps).mono (Nat.le_succ n), hiw.mono (Nat.le_succ n)⟩

/-- With more fuel than there are calls, all calls return the same in both. -/
theorem Sim.run (b : Build) {calls : List (Call P)} {fuel : Nat} (hsim : Sim s n m i)
    (hvalid : s.Valid calls) (hfuel : n + calls.length < fuel) :
    ∃ rs, run (Hybrid.call b fuel) calls m = some rs ∧
      run (Indirect.call b.help fuel) calls i = some rs := by
  induction calls generalizing s n m i with
  | nil => exact ⟨[], rfl, rfl⟩
  | cons c rest ih =>
      rw [List.length_cons] at hfuel
      obtain ⟨m', i', r, hm, hi, hsim'⟩ := hsim.call b hvalid.1 (show n < fuel by omega)
      obtain ⟨rs, hrs, hrs'⟩ := ih hsim' hvalid.2 (by omega)
      exact ⟨r :: rs, by simp [Sequential.run, hm, hrs], by simp [Sequential.run, hi, hrs']⟩

/-- For every sequential history, the hybrid pointers, with and without `shortcut`, and the fully indirect
ones return the same results. -/
theorem hybrid_equiv_indirect (b : Build) {calls : List (Call P)} {fuel : Nat} (hstart : Start s m i)
    (hvalid : s.Valid calls) (hfuel : calls.length < fuel) :
    ∃ rs, Sequential.run (Hybrid.call b fuel) calls m = some rs ∧
      Sequential.run (Indirect.call b.help fuel) calls i = some rs :=
  hstart.sim.run b hvalid (by omega)

/-- A history with an object that two pointers share, one of them through a link that `shortcut` replaces,
and a read of an older version. -/
theorem hybrid_equiv_indirect_run :
    ∃ rs, Sequential.run (Hybrid.call ⟨true, true⟩ 10)
        [.init false (some 0), .store true (some 0), .clock 2, .cas false (some 0) (some 1), .raise 1,
          .load true none, .store true none, .readSnapshot false 1, .readSnapshot true 1]
        (⟨1, 0, fun _ => (0, .null), fun _ => none, fun _ => .null, fun _ => none, 0⟩ :
          Hybrid.Memory Bool) = some rs ∧
      Sequential.run (Indirect.call true 10)
        [.init false (some 0), .store true (some 0), .clock 2, .cas false (some 0) (some 1), .raise 1,
          .load true none, .store true none, .readSnapshot false 1, .readSnapshot true 1]
        (⟨1, fun _ => (0, 0), fun _ => ⟨some 1, none, none⟩, 1⟩ : Indirect.Memory Bool) = some rs ∧
      rs = [.unit, .unit, .unit, .bool true, .unit, .ptr (some 0), .unit, .ptr (some 0),
        .ptr (some 0)] := by
  have hstart : Start (⟨1, 0, fun _ => 1, fun _ => false⟩ : Session Bool)
      ⟨1, 0, fun _ => (0, .null), fun _ => none, fun _ => .null, fun _ => none, 0⟩
      ⟨1, fun _ => (0, 0), fun _ => ⟨some 1, none, none⟩, 1⟩ :=
    ⟨le_rfl, fun _ => rfl, rfl, rfl, fun _ => rfl, fun _ _ => rfl, rfl, fun _ => ⟨Nat.zero_lt_one, rfl⟩⟩
  have hvalid : Session.Valid (⟨1, 0, fun _ => 1, fun _ => false⟩ : Session Bool)
      [.init false (some 0), .store true (some 0), .clock 2, .cas false (some 0) (some 1), .raise 1,
        .load true none, .store true none, .readSnapshot false 1, .readSnapshot true 1] := by
    simp [Session.Valid, Session.Admits, Session.after, Session.Reads]
  obtain ⟨rs, hrs, hrs'⟩ := hybrid_equiv_indirect ⟨true, true⟩ hstart hvalid (show 9 < 10 by decide)
  refine ⟨rs, hrs, hrs', ?_⟩
  have hval : some rs = some [.unit, .unit, .unit, .bool true, .unit, .ptr (some 0), .unit,
      .ptr (some 0), .ptr (some 0)] := by
    rw [← hrs]
    decide +kernel
  exact Option.some.inj hval

end

end Verlib.Sequential
