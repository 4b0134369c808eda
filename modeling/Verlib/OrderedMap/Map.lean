import Mathlib.Logic.Function.Basic

/-!
# What an ordered map is for

A map from keys to values, with the operations of a structure and their results. An operation of a structure is right
if it acts on the content of the structure as it does on the map, and then so is every sequence of operations.
-/

namespace OrderedMap

/-! ## Fuel -/

/-- A computation ends with `x`, if it has enough fuel. -/
def Ends {α : Type} (f : Nat → Option α) (x : α) : Prop := ∃ enough, ∀ fuel ≥ enough, f fuel = some x

theorem Ends.unique {α : Type} {f : Nat → Option α} {x y : α} (hx : Ends f x) (hy : Ends f y) : x = y := by
  obtain ⟨enough, hx⟩ := hx
  obtain ⟨enough', hy⟩ := hy
  have heq := (hx _ (Nat.le_max_left enough enough')).symm.trans (hy _ (Nat.le_max_right enough enough'))
  exact Option.some.inj heq

/-! ## Sequences of operations -/

section

variable {σ M O R : Type}

/-- Operations on the abstract state, one after the other. -/
def acts (act : M → O → M × R) : List O → M → M × List R
  | [], m => (m, [])
  | op :: rest, m => ((acts act rest (act m op).1).1, (act m op).2 :: (acts act rest (act m op).1).2)

/-- The operations of an implementation, one after the other; an operation that does not end well yields nothing. -/
def run (perform : σ → O → Option (σ × R)) : List O → σ → Option (σ × List R)
  | [], s => some (s, [])
  | op :: rest, s => do
      let (s', r) ← perform s op
      let (last, rs) ← run perform rest s'
      pure (last, r :: rs)

/-- If every operation of an implementation acts as on the abstract state that a state represents, so do all
operations. -/
theorem run_acts {perform : σ → O → Option (σ × R)} {act : M → O → M × R} (Represents : σ → M → Prop)
    (hstep : ∀ s m op, Represents s m → ∃ s', perform s op = some (s', (act m op).2) ∧ Represents s' (act m op).1)
    {ops : List O} {s : σ} {m : M} (h : Represents s m) :
    ∃ s', run perform ops s = some (s', (acts act ops m).2) ∧ Represents s' (acts act ops m).1 := by
  induction ops generalizing s m with
  | nil => exact ⟨s, rfl, h⟩
  | cons op rest ih =>
      obtain ⟨s', hperform, hs'⟩ := hstep s m op h
      obtain ⟨last, hrest, hlast⟩ := ih hs'
      refine ⟨last, ?_, hlast⟩
      rw [run, hperform]
      simp only [bind, Option.bind_some, hrest, pure, acts]

/-- If every operation ends with enough fuel, so does every sequence of operations. -/
theorem run_enough {perform : Nat → σ → O → Option (σ × R)} {act : M → O → M × R} (Represents : σ → M → Prop)
    (hstep : ∀ s m op, Represents s m → ∃ s', Represents s' (act m op).1 ∧
      ∃ enough, ∀ fuel ≥ enough, perform fuel s op = some (s', (act m op).2))
    (ops : List O) {s : σ} {m : M} (h : Represents s m) :
    ∃ s', Represents s' (acts act ops m).1 ∧
      ∃ enough, ∀ fuel ≥ enough, run (perform fuel) ops s = some (s', (acts act ops m).2) := by
  induction ops generalizing s m with
  | nil => exact ⟨s, h, 0, fun _ _ => rfl⟩
  | cons op rest ih =>
      obtain ⟨s', hs', enough, hperform⟩ := hstep s m op h
      obtain ⟨last, hlast, enough', hrest⟩ := ih hs'
      refine ⟨last, hlast, max enough enough', fun fuel hfuel => ?_⟩
      rw [run, hperform fuel (Nat.le_trans (Nat.le_max_left _ _) hfuel)]
      simp only [bind, Option.bind_some, hrest fuel (Nat.le_trans (Nat.le_max_right _ _) hfuel), pure, acts]

end

/-! ## Maps -/

variable {K V : Type}

/-- The operations that every structure offers. -/
inductive Op (K V : Type) where
  | insert (k : K) (v : V)
  | remove (k : K)
  | find (k : K)

/-- The operations of a structure that offers `upsert` too. -/
inductive UpsertOp (K V : Type) where
  | plain (op : Op K V)
  | upsert (k : K) (v : V)

/-- The results: whether the map has changed, or the value that is found. -/
inductive Result (V : Type) where
  | changed (b : Bool)
  | found (v : Option V)
  deriving DecidableEq

variable [DecidableEq K]

/-- An operation on a map. -/
def Op.act (m : K → Option V) : Op K V → (K → Option V) × Result V
  | .insert k v => if (m k).isSome then (m, .changed false) else (Function.update m k (some v), .changed true)
  | .remove k => if (m k).isSome then (Function.update m k none, .changed true) else (m, .changed false)
  | .find k => (m, .found (m k))

theorem Op.act_insert (m : K → Option V) (k : K) (v : V) :
    (Op.insert k v).act m =
      (if (m k).isSome then m else Function.update m k (some v), .changed (m k).isNone) := by
  rw [Op.act]
  cases m k with
  | none => rfl
  | some old => rfl

theorem Op.act_remove (m : K → Option V) (k : K) :
    (Op.remove k : Op K V).act m =
      (if (m k).isSome then Function.update m k none else m, .changed (m k).isSome) := by
  rw [Op.act]
  cases m k with
  | none => rfl
  | some old => rfl

/-- An operation on a map, or a value that is stored whether or not its key is in the map. -/
def UpsertOp.act (m : K → Option V) : UpsertOp K V → (K → Option V) × Result V
  | .plain op => op.act m
  | .upsert k v => (Function.update m k (some v), .changed true)

end OrderedMap
