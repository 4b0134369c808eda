import Verlib.Flock.Reuse

/-!
# Who may still touch a descriptor

A process that has set the flag of a slot, or found it set, is protected for as long as it runs: the flag
stays, or the owner has reset it and hands the slot to the epoch-based pool, or the slot is in that pool
and waits for the process (`State.Marked`). So when `retire` finds the flag unset nobody is past its
second test. Nobody can pass it later either, since the log entry has been replaced, and a lock word can
hold a descriptor only while some process stands in its call and is going to clear the lock.
-/

namespace Verlib.Flock.Reuse

open Interleaving
open LockWord (Entry Kind LogEntry Call Body firstCounter)

variable {L κ : Type} {n : Nat}

/-! ## What positions mean -/

/-- The process has made the descriptor in this slot and has not given it up. -/
def Process.holds : Process L κ → Nat → Prop
  | .setEpoch _ _ _ _ x, s | .setId _ _ _ x, s | .publish _ _ x, s | .lost _ _ x _, s => x = s
  | .inside _ x own _, s => own = true ∧ x = s
  | _, _ => False

/-- The log entry has not been replaced yet. -/
def Pos.isOpen : Pos → Prop
  | .retireRead | .retireReset | .retirePool | .destruct => False
  | _ => True

/-- A process that has not committed the descriptor can be at this position. -/
def Pos.replayed : Pos → Prop
  | .replace _ | .retireRead | .retireReset | .retirePool | .destruct => False
  | _ => True

/-- A process at this position clears the lock if it finds descriptor `s` in it. -/
def Pos.clears (s : Nat) : Pos → Prop
  | .tryAfter | .body _ => True
  | .tryDone seen => seen = .locked s
  | _ => False

/-- The process has read this descriptor in the log entry of the call, and reads it once more. -/
def Process.reads : Process L κ → κ → Nat → Prop
  | .lost k _ _ (some x), k', s | .acqRead k _ x, k', s | .acqWrite k _ x, k', s | .reload k _ x, k', s =>
      k = k' ∧ x = s
  | _, _, _ => False

/-- The process uses the descriptor of another one: it is a replayer whose second read of the log returned
this slot, or a helper whose second test found it in the lock. -/
def Process.uses : Process L κ → Nat → Prop
  | .inside _ x own _, s => own = false ∧ x = s
  | .help _ x _ _ (.body _), s => x = s
  | _, _ => False

/-- The process has called `acquire` on this slot. -/
def Process.marks : Process L κ → Nat → Prop
  | .reload _ _ x, s => x = s
  | .help _ x _ _ .check, s => x = s
  | p, s => p.uses s

/-- The process has no slot, and has not called `acquire`. -/
def Process.quiet : Process L κ → Prop
  | .idle | .commit _ _ _ _ | .test _ _ _ _ | .alloc _ _ _ _ => True
  | .help _ _ _ _ .look | .help _ _ _ _ .readEpoch | .help _ _ _ _ .readId => True
  | .help _ _ _ _ .acqRead | .help _ _ _ _ .acqWrite => True
  | _ => False

/-- The word that the process is going to write into the lock in `clear`. -/
def Process.swaps : Process L κ → Entry → Prop
  | .inside _ _ _ (.body (.clearSwap w)), w' => w = w'
  | .help _ _ _ _ (.body (.clearSwap w)), w' => w = w'
  | _, _ => False

/-- Process `j` is protected in slot `s`, whatever is in it. -/
def State.Marked (st : State L κ n) (j : Fin n) (s : Nat) : Prop :=
  (st.slots s).acquired = true ∨ (∃ i k, st.procs i = .inside k s true .retirePool) ∨
    (st.status s = .limbo ∧ st.waits s j = true)

/-- The descriptor that process `j` uses is still in slot `s`. -/
def State.Kept (st : State L κ n) (j : Fin n) (s : Nat) : Prop :=
  (∃ i k p, st.procs i = .inside k s true p) ∨ (st.status s = .limbo ∧ st.waits s j = true)

/-- The invariant of all runs. -/
structure Inv (set : Setting L κ) (st : State L κ n) : Prop where
  own : ∀ i s, (st.procs i).holds s → st.status s = .live i
  address : ∀ s, st.status s ≠ .free → Address s
  counter : ∀ s d, (st.slots s).counter = .locked d → d = 0
  swaps : ∀ i s, (st.procs i).swaps (.locked s) → ¬ Address s
  lock : ∀ ℓ s, st.locks ℓ = .locked s → Address s →
    ∃ i k own p, st.procs i = .inside k s own p ∧ set.lockOf k = ℓ ∧ p.clears s
  entry : ∀ k s, (st.calls k).entry = .desc s → ∃ i p, st.procs i = .inside k s true p ∧ p.isOpen
  reads : ∀ i k s, (st.procs i).reads k s →
    (st.calls k).entry = .desc s ∨ ∃ ok, (st.calls k).entry = .result ok
  marked : ∀ i s, (st.procs i).marks s → st.Marked i s
  kept : ∀ i k s p, st.procs i = .inside k s false p → st.Kept i s
  replayed : ∀ i k s p, st.procs i = .inside k s false p → p.replayed
  freed : ∀ i k s, st.procs i = .inside k s true .destruct →
    (∀ j, ¬ (st.procs j).uses s) ∧ ∀ ℓ, st.locks ℓ ≠ .locked s

/-- A process that uses a slot has called `acquire`. -/
theorem Process.uses.marks {p : Process L κ} {s : Nat} (h : p.uses s) : p.marks s := by
  cases p with
  | inside k x own pos => exact h
  | help ℓ x e id pos =>
      cases pos with
      | body b => exact h
      | _ => exact h.elim
  | _ => exact h.elim

/-- At most one process holds a slot. -/
theorem Inv.holder_unique {set : Setting L κ} {st : State L κ n} (hinv : Inv set st) {i j : Fin n}
    {s : Nat} (hi : (st.procs i).holds s) (hj : (st.procs j).holds s) : i = j := by
  have h := (hinv.own i s hi).symm.trans (hinv.own j s hj)
  cases h
  rfl

/-- The process that has committed a descriptor holds it. -/
theorem holds_of_inside {st : State L κ n} {i : Fin n} {k : κ} {s : Nat} {p : Pos}
    (h : st.procs i = .inside k s true p) : (st.procs i).holds s := by
  rw [h]
  exact ⟨rfl, rfl⟩

/-- A slot that a process holds is at an address. -/
theorem Inv.address_of_holds {set : Setting L κ} {st : State L κ n} (hinv : Inv set st) {i : Fin n}
    {s : Nat} (h : (st.procs i).holds s) : Address s := by
  refine hinv.address s ?_
  rw [hinv.own i s h]
  simp

section Steps

variable {set : Setting L κ} {st : State L κ n} {i : Fin n}

/-! ## Steps that only move a process -/

/-- What a process may do without writing anything. -/
structure Moves (set : Setting L κ) (st : State L κ n) (i : Fin n) (q : Process L κ) : Prop where
  holds : ∀ s, q.holds s → st.status s = .live i
  swaps : ∀ s, q.swaps (.locked s) → ¬ Address s
  lock : ∀ k s own p, st.procs i = .inside k s own p → p.clears s →
    st.locks (set.lockOf k) = .locked s → ∃ p', q = .inside k s own p' ∧ p'.clears s
  entry : ∀ k s p, st.procs i = .inside k s true p → p.isOpen → (st.calls k).entry = .desc s →
    ∃ p', q = .inside k s true p' ∧ p'.isOpen
  reads : ∀ k s, q.reads k s → (st.calls k).entry = .desc s ∨ ∃ ok, (st.calls k).entry = .result ok
  marked : ∀ s, q.marks s → st.Marked i s
  owner : ∀ k s p, st.procs i = .inside k s true p →
    (∃ p', q = .inside k s true p') ∨ ∀ j, ¬ (st.procs j).uses s
  pool : ∀ k s, st.procs i ≠ .inside k s true .retirePool
  kept : ∀ k s p, q = .inside k s false p →
    st.Kept i s ∧ ∀ k' p', st.procs i ≠ .inside k' s true p'
  replayed : ∀ k s p, q = .inside k s false p → p.replayed
  freed : ∀ k s, q = .inside k s true .destruct →
    (∀ j, ¬ (st.procs j).uses s) ∧ ∀ ℓ, st.locks ℓ ≠ .locked s
  uses : ∀ s, q.uses s → ∀ j k, st.procs j ≠ .inside k s true .destruct

/-- The process that has moved. -/
@[simp] theorem move_self (q : Process L κ) : (st.move i q).procs i = q := by
  simp [State.move]

/-- The other processes stay where they are. -/
theorem move_other {q : Process L κ} {j : Fin n} (h : j ≠ i) : (st.move i q).procs j = st.procs j := by
  simp [State.move, h]

/-- A process that stays protected when process `i` leaves a position other than the one before the
epoch-based pool. -/
theorem State.Marked.move {q : Process L κ} {j : Fin n} {s : Nat} (h : st.Marked j s)
    (hpool : ∀ k s, st.procs i ≠ .inside k s true .retirePool) : (st.move i q).Marked j s := by
  rcases h with hacq | ⟨o, k, ho⟩ | hlimbo
  · exact .inl hacq
  · have hne : o ≠ i := fun h => hpool k s (h ▸ ho)
    exact .inr (.inl ⟨o, k, (move_other hne).trans ho⟩)
  · exact .inr (.inr hlimbo)

/-- A descriptor stays in its slot when its owner stays in its call. -/
theorem State.Kept.move {q : Process L κ} {j : Fin n} {s : Nat} (h : st.Kept j s)
    (howner : ∀ k p, st.procs i = .inside k s true p → ∃ p', q = .inside k s true p') :
    (st.move i q).Kept j s := by
  rcases h with ⟨o, k, p, ho⟩ | hlimbo
  · rcases eq_or_ne o i with rfl | hne
    · obtain ⟨p', rfl⟩ := howner k p ho
      exact .inl ⟨o, k, p', move_self _⟩
    · exact .inl ⟨o, k, p, (move_other hne).trans ho⟩
  · exact .inr hlimbo

/-- A move keeps the invariant. -/
theorem Inv.move {q : Process L κ} (hinv : Inv set st) (hm : Moves set st i q) :
    Inv set (st.move i q) := by
  refine ⟨fun j s => ?_, hinv.address, hinv.counter, fun j s => ?_, fun ℓ s hl ha => ?_,
    fun k s he => ?_, fun j k s => ?_, fun j s => ?_, fun j k s p => ?_, fun j k s p => ?_, fun j k s => ?_⟩
  · rcases eq_or_ne j i with rfl | hne
    · rw [move_self]
      exact hm.holds s
    · rw [move_other hne]
      exact hinv.own j s
  · rcases eq_or_ne j i with rfl | hne
    · rw [move_self]
      exact hm.swaps s
    · rw [move_other hne]
      exact hinv.swaps j s
  · obtain ⟨j, k, own, p, hj, hk, hp⟩ := hinv.lock ℓ s hl ha
    rcases eq_or_ne j i with rfl | hne
    · obtain ⟨p', rfl, hp'⟩ := hm.lock k s own p hj hp (hk ▸ hl)
      exact ⟨j, k, own, p', move_self _, hk, hp'⟩
    · exact ⟨j, k, own, p, (move_other hne).trans hj, hk, hp⟩
  · obtain ⟨j, p, hj, hp⟩ := hinv.entry k s he
    rcases eq_or_ne j i with rfl | hne
    · obtain ⟨p', rfl, hp'⟩ := hm.entry k s p hj hp he
      exact ⟨j, p', move_self _, hp'⟩
    · exact ⟨j, p, (move_other hne).trans hj, hp⟩
  · rcases eq_or_ne j i with rfl | hne
    · rw [move_self]
      exact hm.reads k s
    · rw [move_other hne]
      exact hinv.reads j k s
  · rcases eq_or_ne j i with rfl | hne
    · rw [move_self]
      intro hq
      exact (hm.marked s hq).move hm.pool
    · rw [move_other hne]
      intro hq
      exact (hinv.marked j s hq).move hm.pool
  · rcases eq_or_ne j i with rfl | hne
    · rw [move_self]
      intro hq
      obtain ⟨hkept, hnot⟩ := hm.kept k s p hq
      exact hkept.move fun k' p' hp' => absurd hp' (hnot k' p')
    · rw [move_other hne]
      intro hq
      refine (hinv.kept j k s p hq).move fun k' p' hp' => (hm.owner k' s p' hp').resolve_right ?_
      intro h
      refine h j ?_
      rw [hq]
      exact ⟨rfl, rfl⟩
  · rcases eq_or_ne j i with rfl | hne
    · rw [move_self]
      exact hm.replayed k s p
    · rw [move_other hne]
      exact hinv.replayed j k s p
  · intro hj
    have hfree : (∀ j', j' ≠ i → ¬ (st.procs j').uses s) ∧ ∀ ℓ, st.locks ℓ ≠ .locked s := by
      rcases eq_or_ne j i with rfl | hne
      · rw [move_self] at hj
        obtain ⟨hu, hl⟩ := hm.freed k s hj
        exact ⟨fun j' _ => hu j', hl⟩
      · rw [move_other hne] at hj
        obtain ⟨hu, hl⟩ := hinv.freed j k s hj
        exact ⟨fun j' _ => hu j', hl⟩
    refine ⟨fun j' hu => ?_, hfree.2⟩
    rcases eq_or_ne j' i with rfl | hne'
    · rw [move_self] at hu
      rcases eq_or_ne j j' with rfl | hne
      · rw [move_self] at hj
        subst hj
        cases hu.1
      · rw [move_other hne] at hj
        exact hm.uses s hu j k hj
    · rw [move_other hne'] at hu
      exact hfree.1 j' hne' hu

/-- A process stops without holding anything. -/
theorem Inv.finish (hinv : Inv set st) (hm : Moves set st i .idle) : Inv set (st.finish i) := by
  have h := hinv.move hm
  have hne : ∀ j s, ((st.move i .idle).procs j).marks s → j ≠ i := by
    rintro j s hj rfl
    rw [move_self] at hj
    exact hj
  have hwaits : ∀ j s, j ≠ i → (st.finish i).waits s j = st.waits s j := by
    intro j s hj
    simp [State.finish, hj]
  refine ⟨h.own, h.address, h.counter, h.swaps, h.lock, h.entry, h.reads, fun j s hj => ?_,
    fun j k s p hj => ?_, h.replayed, h.freed⟩
  · rcases h.marked j s hj with hacq | hpool | ⟨hlimbo, hw⟩
    · exact .inl hacq
    · exact .inr (.inl hpool)
    · exact .inr (.inr ⟨hlimbo, (hwaits j s (hne j s hj)).trans hw⟩)
  · have hmark : ((st.move i .idle).procs j).marks s := by
      rw [show (st.move i .idle).procs j = _ from hj]
      exact ⟨rfl, rfl⟩
    rcases h.kept j k s p hj with howner | ⟨hlimbo, hw⟩
    · exact .inl howner
    · exact .inr ⟨hlimbo, (hwaits j s (hne j s hmark)).trans hw⟩

/-- A process moves inside of its call. -/
theorem Inv.moves_inside (hinv : Inv set st) {k : κ} {s : Nat} {own : Bool} {p p' : Pos}
    (hpc : st.procs i = .inside k s own p)
    (hswap : ∀ x, p' = .body (.clearSwap (.locked x)) → ¬ Address x)
    (hclear : p.clears s → st.locks (set.lockOf k) = .locked s → p'.clears s)
    (hopen : own = true → p.isOpen → (st.calls k).entry = .desc s → p'.isOpen)
    (hpool : own = true → p ≠ .retirePool) (hreplay : own = false → p'.replayed)
    (hfree : own = true → p' = .destruct →
      (∀ j, ¬ (st.procs j).uses s) ∧ ∀ ℓ, st.locks ℓ ≠ .locked s) :
    Moves set st i (.inside k s own p') := by
  refine ⟨fun x => ?_, fun x hx => ?_, fun k' s' own' p'' h hc hl => ?_, fun k' s' p'' h ho he => ?_,
    fun _ _ => False.elim, fun x hx => ?_, fun k' s' p'' h => ?_, fun k' s' h => ?_,
    fun k' s' p'' h => ?_, fun k' s' p'' h => ?_, fun k' s' h => ?_, fun x hx j k' hj => ?_⟩
  · intro hx
    refine hinv.own i x ?_
    rw [hpc]
    exact hx
  · refine hswap x ?_
    cases p' with
    | body b =>
        cases b with
        | clearSwap w => exact congrArg (fun w => Pos.body (.clearSwap w)) hx
        | _ => exact hx.elim
    | _ => exact hx.elim
  · rw [hpc] at h
    cases h
    exact ⟨p', rfl, hclear hc hl⟩
  · rw [hpc] at h
    cases h
    exact ⟨p', rfl, hopen rfl ho he⟩
  · refine hinv.marked i x ?_
    rw [hpc]
    exact hx
  · rw [hpc] at h
    cases h
    exact .inl ⟨p', rfl⟩
  · rw [hpc] at h
    cases h
    exact hpool rfl rfl
  · cases h
    refine ⟨hinv.kept i k s p hpc, fun k'' p'' h => ?_⟩
    rw [hpc] at h
    cases h
  · cases h
    exact hreplay rfl
  · cases h
    exact hfree rfl rfl
  · refine (hinv.freed j k' x hj).1 i ?_
    rw [hpc]
    exact hx

/-- A process that is not in the rest of a call moves. -/
theorem Inv.moves_outside {q : Process L κ} (hpc : ∀ k s own p, st.procs i ≠ .inside k s own p)
    (hq : ∀ k s own p, q ≠ .inside k s own p) (hholds : ∀ s, q.holds s → st.status s = .live i)
    (hswaps : ∀ s, q.swaps (.locked s) → ¬ Address s)
    (hreads : ∀ k s, q.reads k s →
      (st.calls k).entry = .desc s ∨ ∃ ok, (st.calls k).entry = .result ok)
    (hmarks : ∀ s, q.marks s → st.Marked i s)
    (huses : ∀ s, q.uses s → ∀ j k, st.procs j ≠ .inside k s true .destruct) :
    Moves set st i q :=
  ⟨hholds, hswaps, fun k s own p h => absurd h (hpc k s own p),
    fun k s p h => absurd h (hpc k s true p), hreads, hmarks,
    fun k s p h => absurd h (hpc k s true p), fun k s => hpc k s true _,
    fun k s p h => absurd h (hq k s false p), fun k s p h => absurd h (hq k s false p),
    fun k s h => absurd h (hq k s true _), huses⟩

/-- A process that is not in the rest of a call moves to where it has no slot. -/
theorem Inv.moves_quiet {q : Process L κ} (hpc : ∀ k s own p, st.procs i ≠ .inside k s own p)
    (hq : q.quiet) : Moves set st i q := by
  have hfacts : (∀ s, ¬ q.holds s ∧ ¬ q.swaps (.locked s) ∧ ¬ q.marks s) ∧
      (∀ k s, ¬ q.reads k s) ∧ ∀ k s own p, q ≠ .inside k s own p := by
    cases q with
    | help ℓ s e id' p =>
        cases p with
        | check => exact hq.elim
        | body b => exact hq.elim
        | _ => exact ⟨fun _ => ⟨id, id, id⟩, fun _ _ => id, by simp⟩
    | idle => exact ⟨fun _ => ⟨id, id, id⟩, fun _ _ => id, by simp⟩
    | commit => exact ⟨fun _ => ⟨id, id, id⟩, fun _ _ => id, by simp⟩
    | test => exact ⟨fun _ => ⟨id, id, id⟩, fun _ _ => id, by simp⟩
    | alloc => exact ⟨fun _ => ⟨id, id, id⟩, fun _ _ => id, by simp⟩
    | _ => exact hq.elim
  obtain ⟨hs, hreads, hinside⟩ := hfacts
  exact Inv.moves_outside hpc hinside (fun s h => absurd h (hs s).1) (fun s h => absurd h (hs s).2.1)
    (fun k s h => absurd h (hreads k s)) (fun s h => absurd h (hs s).2.2)
    (fun s h => absurd h.marks (hs s).2.2)

/-- A process keeps the slot that it has not committed. -/
theorem Inv.moves_holding (hinv : Inv set st) {q : Process L κ} {x : Nat}
    (hpc : ∀ k s own p, st.procs i ≠ .inside k s own p) (hx : (st.procs i).holds x)
    (hq : ∀ k s own p, q ≠ .inside k s own p) (hholds : ∀ s, q.holds s → x = s)
    (hreads : ∀ k s, q.reads k s →
      (st.calls k).entry = .desc s ∨ ∃ ok, (st.calls k).entry = .result ok)
    (hrest : ∀ s, ¬ q.swaps (.locked s) ∧ ¬ q.marks s) : Moves set st i q :=
  Inv.moves_outside hpc hq (fun s hs => hholds s hs ▸ hinv.own i x hx)
    (fun s h => absurd h (hrest s).1) hreads (fun s h => absurd h (hrest s).2)
    (fun s h => absurd h.marks (hrest s).2)

/-- A process stops and does not leave the lock to its descriptor; an owner leaves it to nobody. -/
theorem Inv.moves_idle {k : κ} {s : Nat} {own : Bool} {p : Pos}
    (hpc : st.procs i = .inside k s own p)
    (hlock : p.clears s → st.locks (set.lockOf k) ≠ .locked s)
    (hown : own = true → p = .destruct ∧ ∀ j, ¬ (st.procs j).uses s) : Moves set st i .idle := by
  refine ⟨fun x h => h.elim, fun x h => h.elim, fun k' s' own' p' h hc hl => ?_,
    fun k' s' p' h ho => ?_, fun _ _ h => h.elim, fun _ h => h.elim, fun k' s' p' h => ?_,
    fun k' s' h => ?_, by simp, (by simp), by simp, fun x h => h.elim⟩
  · rw [hpc] at h
    cases h
    exact absurd hl (hlock hc)
  · rw [hpc] at h
    cases h
    rw [(hown rfl).1] at ho
    exact ho.elim
  · rw [hpc] at h
    cases h
    exact .inr (hown rfl).2
  · rw [hpc] at h
    cases h
    cases (hown rfl).1

/-! ## Writes -/

/-- A write to a slot that does not put an address into `counter`, and resets the flag only when the slot
is about to go to the epoch-based pool. -/
theorem Inv.setSlot (hinv : Inv set st) {s : Nat} {d : Slot}
    (hacq : (st.slots s).acquired = true →
      d.acquired = true ∨ ∃ i k, st.procs i = .inside k s true .retirePool)
    (hcounter : ∀ x, d.counter = .locked x → x = 0) : Inv set (st.setSlot s d) := by
  have hmono : ∀ j x, (st.slots x).acquired = true → (st.setSlot s d).Marked j x := by
    intro j x hx
    rcases eq_or_ne x s with rfl | hne
    · rcases hacq hx with hd | hpool
      · exact .inl (by simpa [State.setSlot] using hd)
      · exact .inr (.inl hpool)
    · exact .inl (by simpa [State.setSlot, hne] using hx)
  refine ⟨hinv.own, hinv.address, fun x c hx => ?_, hinv.swaps, hinv.lock, hinv.entry, hinv.reads,
    fun j x hj => ?_, hinv.kept, hinv.replayed, hinv.freed⟩
  · rcases eq_or_ne x s with rfl | hne
    · exact hcounter c (by simpa [State.setSlot] using hx)
    · exact hinv.counter x c (by simpa [State.setSlot, hne] using hx)
  · rcases hinv.marked j x hj with h | h
    · exact hmono j x h
    · exact .inr h

/-- The allocator gives or takes a slot that nobody waits for. -/
theorem Inv.setStatus (hinv : Inv set st) {s : Nat} {y : Status n}
    (hholds : ∀ j, (st.procs j).holds s → y = .live j) (haddr : y ≠ .free → Address s)
    (hwaits : st.status s = .limbo → ∀ j, st.waits s j = false) : Inv set (st.setStatus s y) := by
  have hlimbo : ∀ j x, st.status x = .limbo → st.waits x j = true →
      (st.setStatus s y).status x = .limbo := by
    intro j x hx hw
    rcases eq_or_ne x s with rfl | hne
    · rw [hwaits hx j] at hw
      cases hw
    · simpa [State.setStatus, hne] using hx
  refine ⟨fun j x hx => ?_, fun x hx => ?_, hinv.counter, hinv.swaps, hinv.lock, hinv.entry,
    hinv.reads, fun j x hj => ?_, fun j k x p hj => ?_, hinv.replayed, hinv.freed⟩
  · rcases eq_or_ne x s with rfl | hne
    · simpa [State.setStatus] using hholds j hx
    · simpa [State.setStatus, hne] using hinv.own j x hx
  · rcases eq_or_ne x s with rfl | hne
    · exact haddr (by simpa [State.setStatus] using hx)
    · exact hinv.address x (by simpa [State.setStatus, hne] using hx)
  · rcases hinv.marked j x hj with h | h | ⟨h, hw⟩
    · exact .inl h
    · exact .inr (.inl h)
    · exact .inr (.inr ⟨hlimbo j x h hw, hw⟩)
  · rcases hinv.kept j k x p hj with h | ⟨h, hw⟩
    · exact .inl h
    · exact .inr ⟨hlimbo j x h hw, hw⟩

/-- The owner gives its slot to the epoch-based pool. -/
theorem Inv.retire (hinv : Inv set st) {k : κ} {s : Nat}
    (hpc : st.procs i = .inside k s true .retirePool) : Inv set ((st.retire s).finish i) := by
  have hstatus : ∀ x, x ≠ s → ((st.retire s).finish i).status x = st.status x := by
    intro x hx
    simp [State.finish, State.move, State.retire, State.setStatus, hx]
  have hself : ((st.retire s).finish i).procs i = .idle := by simp [State.finish, State.move]
  have hother : ∀ j, j ≠ i → ((st.retire s).finish i).procs j = st.procs j := by
    intro j hji
    simp [State.finish, State.move, State.retire, State.setStatus, hji]
  -- what a process that is not idle was before, and that the slot waits for it
  have hback : ∀ j, ((st.retire s).finish i).procs j ≠ .idle →
      j ≠ i ∧ st.procs j = ((st.retire s).finish i).procs j := by
    intro j hj
    have hji : j ≠ i := fun h => hj (h ▸ hself)
    exact ⟨hji, (hother j hji).symm⟩
  have hwait : ∀ j, ((st.retire s).finish i).procs j ≠ .idle →
      ((st.retire s).finish i).status s = .limbo ∧ ((st.retire s).finish i).waits s j = true := by
    intro j hj
    obtain ⟨hji, hproc⟩ := hback j hj
    rw [← hproc] at hj
    refine ⟨by simp [State.finish, State.move, State.retire, State.setStatus], ?_⟩
    simp only [State.finish, State.retire, Function.update_self, Function.update_of_ne hji]
  have hlimbo : ∀ j x, ((st.retire s).finish i).procs j ≠ .idle → x ≠ s →
      st.status x = .limbo ∧ st.waits x j = true →
      ((st.retire s).finish i).status x = .limbo ∧ ((st.retire s).finish i).waits x j = true := by
    intro j x hj hx hw
    refine ⟨(hstatus x hx).trans hw.1, ?_⟩
    simpa [State.finish, State.retire, hx, (hback j hj).1] using hw.2
  have howner : ∀ o k' x p, st.procs o = .inside k' x true p → x ≠ s →
      ((st.retire s).finish i).procs o = .inside k' x true p := by
    intro o k' x p ho hx
    refine (hother o ?_).trans ho
    rintro rfl
    rw [hpc] at ho
    cases ho
    exact hx rfl
  refine ⟨fun j x hx => ?_, fun x hx => ?_, hinv.counter, fun j x hx => ?_, fun ℓ x hl ha => ?_,
    fun k' x he => ?_, fun j k' x hx => ?_, fun j x hx => ?_, fun j k' x p hx => ?_,
    fun j k' x p hx => ?_, fun j k' x hx => ?_⟩
  · obtain ⟨hji, hproc⟩ := hback j (fun h => by rw [h] at hx; exact hx)
    rw [← hproc] at hx
    rcases eq_or_ne x s with rfl | hne
    · exact absurd (hinv.holder_unique hx (holds_of_inside hpc)) hji
    · exact (hstatus x hne).trans (hinv.own j x hx)
  · rcases eq_or_ne x s with rfl | hne
    · exact hinv.address_of_holds (holds_of_inside hpc)
    · rw [hstatus x hne] at hx
      exact hinv.address x hx
  · rw [← (hback j (fun h => by rw [h] at hx; exact hx)).2] at hx
    exact hinv.swaps j x hx
  · obtain ⟨j, k', own, p, hj, hk, hp⟩ := hinv.lock ℓ x hl ha
    refine ⟨j, k', own, p, (hother j ?_).trans hj, hk, hp⟩
    rintro rfl
    rw [hpc] at hj
    cases hj
    exact hp
  · obtain ⟨j, p, hj, hp⟩ := hinv.entry k' x he
    refine ⟨j, p, (hother j ?_).trans hj, hp⟩
    rintro rfl
    rw [hpc] at hj
    cases hj
    exact hp
  · rw [← (hback j (fun h => by rw [h] at hx; exact hx)).2] at hx
    exact hinv.reads j k' x hx
  · have hj : ((st.retire s).finish i).procs j ≠ .idle := fun h => by rw [h] at hx; exact hx
    rw [← (hback j hj).2] at hx
    rcases eq_or_ne x s with rfl | hne
    · exact .inr (.inr (hwait j hj))
    · rcases hinv.marked j x hx with h | ⟨o, k', ho⟩ | h
      · exact .inl h
      · exact .inr (.inl ⟨o, k', howner o k' x _ ho hne⟩)
      · exact .inr (.inr (hlimbo j x hj hne h))
  · have hj : ((st.retire s).finish i).procs j ≠ .idle := by rw [hx]; simp
    rcases eq_or_ne x s with rfl | hne
    · exact .inr (hwait j hj)
    · rcases hinv.kept j k' x p ((hback j hj).2.trans hx) with ⟨o, k'', p', ho⟩ | h
      · exact .inl ⟨o, k'', p', howner o k'' x p' ho hne⟩
      · exact .inr (hlimbo j x hj hne h)
  · have hj : ((st.retire s).finish i).procs j ≠ .idle := by rw [hx]; simp
    exact hinv.replayed j k' x p ((hback j hj).2.trans hx)
  · have hj : ((st.retire s).finish i).procs j ≠ .idle := by rw [hx]; simp
    obtain ⟨huses, hlocks⟩ := hinv.freed j k' x ((hback j hj).2.trans hx)
    refine ⟨fun j' hu => ?_, hlocks⟩
    rw [← (hback j' (fun h => by rw [h] at hu; exact hu)).2] at hu
    exact huses j' hu

section Locks

variable [DecidableEq L]

/-- A write to a lock word of something that is not a descriptor. -/
theorem Inv.setLock (hinv : Inv set st) {ℓ : L} {w : Entry} (hw : ∀ s, w = .locked s → ¬ Address s) :
    Inv set (st.setLock ℓ w) := by
  have hold : ∀ ℓ' s, (st.setLock ℓ w).locks ℓ' = .locked s → Address s →
      st.locks ℓ' = .locked s := by
    intro ℓ' s hl ha
    rcases eq_or_ne ℓ' ℓ with rfl | hne
    · exact absurd ha (hw s (by simpa [State.setLock] using hl))
    · simpa [State.setLock, hne] using hl
  refine ⟨hinv.own, hinv.address, hinv.counter, hinv.swaps,
    fun ℓ' s hl ha => hinv.lock ℓ' s (hold ℓ' s hl ha) ha, hinv.entry, hinv.reads, hinv.marked,
    hinv.kept, hinv.replayed, fun j k s hj => ⟨(hinv.freed j k s hj).1, fun ℓ' hl => ?_⟩⟩
  have ha : Address s := hinv.address_of_holds (holds_of_inside hj)
  exact (hinv.freed j k s hj).2 ℓ' (hold ℓ' s hl ha)

/-- A descriptor is put into the lock by a process that is going to clear it. -/
theorem Inv.install (hinv : Inv set st) {k : κ} {s : Nat} {own : Bool} {p : Pos}
    (hpc : st.procs i = .inside k s own p) (hp : p.clears s) :
    Inv set (st.setLock (set.lockOf k) (.locked s)) := by
  refine ⟨hinv.own, hinv.address, hinv.counter, hinv.swaps, fun ℓ' x hl ha => ?_, hinv.entry,
    hinv.reads, hinv.marked, hinv.kept, hinv.replayed, fun j k' x hj => ?_⟩
  · rcases eq_or_ne ℓ' (set.lockOf k) with rfl | hne
    · have hx : Entry.locked s = .locked x := by simpa [State.setLock] using hl
      cases hx
      exact ⟨i, k, own, p, hpc, rfl, hp⟩
    · exact hinv.lock ℓ' x (by simpa [State.setLock, hne] using hl) ha
  · obtain ⟨huses, hlocks⟩ := hinv.freed j k' x hj
    refine ⟨huses, fun ℓ' hl => ?_⟩
    rcases eq_or_ne ℓ' (set.lockOf k) with rfl | hne
    · have hx : Entry.locked s = .locked x := by simpa [State.setLock] using hl
      cases hx
      cases own with
      | false =>
          refine huses i ?_
          rw [hpc]
          exact ⟨rfl, rfl⟩
      | true =>
          have hij : i = j := hinv.holder_unique (holds_of_inside hpc) (holds_of_inside hj)
          subst hij
          have hp' : Process.inside k s true p = .inside k' s true .destruct := hpc.symm.trans hj
          cases hp'
          exact hp
    · exact hlocks ℓ' (by simpa [State.setLock, hne] using hl)

end Locks

/-- A write to the log of a call. -/
theorem Inv.setCall [DecidableEq κ] (hinv : Inv set st) {k : κ} {c : Call}
    (hentry : ∀ s, c.entry = .desc s → ∃ i p, st.procs i = .inside k s true p ∧ p.isOpen)
    (hreads : ∀ i s, (st.procs i).reads k s → c.entry = .desc s ∨ ∃ ok, c.entry = .result ok) :
    Inv set (st.setCall k c) := by
  refine ⟨hinv.own, hinv.address, hinv.counter, hinv.swaps, hinv.lock, fun k' s he => ?_,
    fun j k' s hj => ?_, hinv.marked, hinv.kept, hinv.replayed, hinv.freed⟩
  · rcases eq_or_ne k' k with rfl | hne
    · exact hentry s (by simpa [State.setCall] using he)
    · exact hinv.entry k' s (by simpa [State.setCall, hne] using he)
  · rcases eq_or_ne k' k with rfl | hne
    · simpa [State.setCall] using hreads j s hj
    · simpa [State.setCall, hne] using hinv.reads j k' s hj

end Steps

end Verlib.Flock.Reuse
