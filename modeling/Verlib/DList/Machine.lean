import Verlib.DList.Operations
import Verlib.Interleaving.System

/-!
# The doubly linked list of many threads

`insert` and `remove` of `dlist/ordered_map.h` with `std::less`, where every load and every store of a pointer, of
`removed` and of a lock is a step, also inside the critical sections. The keys and `is_end` are not written after the
construction of a node, which nobody else can reach before it is linked, so its construction is one step. A `try_lock`
acquires a lock that is free, or fails, and a `read_lock` runs its body. Nodes are not freed while a thread may stand on
them, so an address stands for one node.
-/

namespace Verlib.DList.Concurrent

open Interleaving

/-- The operations. -/
inductive Op (K V : Type) where
  | insert (k : K) (v : V)
  | remove (k : K)
  deriving DecidableEq

/-- The key of an operation. -/
def Op.key {K V : Type} : Op K V → K
  | .insert k _ => k
  | .remove k => k

/-- Where a thread is: the next load or store, with the values it has. -/
inductive Pc (K V : Type) where
  | idle
  | first (o : Op K V)
  | search (o : Op K V) (next : Nat)
  | back (o : Op K V) (next : Nat)
  | readNext (o : Op K V) (prev next : Nat)
  | readRemoved (o : Op K V) (prev next : Nat)
  | acquire (o : Op K V) (prev next : Nat)
  | testRemoved (o : Op K V) (prev next : Nat)
  | testNext (o : Op K V) (prev next : Nat)
  | newNode (k : K) (v : V) (prev next : Nat)
  | linkNext (k : K) (v : V) (prev next new : Nat)
  | linkPrev (k : K) (v : V) (prev next new : Nat)
  | acquireLoc (k : K) (prev loc : Nat)
  | loadNext (k : K) (prev loc : Nat)
  | mark (k : K) (prev loc next : Nat)
  | unlinkNext (k : K) (prev loc next : Nat)
  | unlinkPrev (k : K) (prev loc next : Nat)
  | release (o : Op K V) (held : List Nat) (done : Bool)

/-- What a run shows: a lock is acquired, with the memory at that moment, or released, and the `prev` of a node in the
list is written. -/
inductive Event (K V ι : Type) where
  | acquire (c : ι) (a : Nat) (m : Memory K V)
  | release (c : ι) (a : Nat)
  | setPrev (c : ι) (x : Nat)

/-- The memory, the holders of the locks, and the threads. -/
structure State (K V ι : Type) where
  memory : Memory K V
  locks : Nat → Option ι
  threads : ι → Pc K V

/-- The result of a step: the memory, the locks, the event and the next position. -/
structure Outcome (K V ι : Type) where
  memory : Memory K V
  locks : Nat → Option ι
  event : Option (Event K V ι)
  pc : Pc K V

section

variable {K V ι : Type} [LinearOrder K]

/-- What follows the load of `prev`: the validation if there is nothing to do, otherwise the `try_lock`. `insert` first
compares the key of `prev`. -/
def Op.located (o : Op K V) (m : Memory K V) (prev next : Nat) : Pc K V :=
  match o with
  | .insert k _ =>
      if m.isEnd next = false ∧ ¬ k < m.key next then .readNext o prev next
      else if m.isEnd prev = true ∨ m.key prev < k then .acquire o prev next
      else .first o
  | .remove k =>
      if m.isEnd next = true ∨ k < m.key next then .readNext o prev next else .acquire o prev next

/-- What follows the tests under the lock of `prev`. -/
def Op.locked (o : Op K V) (prev next : Nat) : Pc K V :=
  match o with
  | .insert k v => .newNode k v prev next
  | .remove k => .acquireLoc k prev next

/-- A thread goes on with the memory and the locks as they are. -/
def goOn (m : Memory K V) (locks : Nat → Option ι) (pc : Pc K V) : Outcome K V ι := ⟨m, locks, none, pc⟩

/-- A step of thread `c`; `ok` says whether a `try_lock` of a free lock acquires it. -/
def step (c : ι) (ok : Bool) (m : Memory K V) (locks : Nat → Option ι) : Pc K V → Option (Outcome K V ι)
  | .idle => none
  | .first o => some (goOn m locks (.search o (m.next root)))
  | .search o next =>
      let next_next := m.next next
      some (goOn m locks (if m.isEnd next = true ∨ ¬ m.key next < o.key then .back o next else .search o next_next))
  | .back o next => some (goOn m locks (o.located m (m.prev next) next))
  | .readNext o prev next => some (goOn m locks (if m.next prev = next then .readRemoved o prev next else .first o))
  | .readRemoved o prev _ => some (goOn m locks (if m.removed prev = false then .idle else .first o))
  | .acquire o prev next =>
      if ok ∧ (locks prev).isNone then
        some ⟨m, Function.update locks prev (some c), some (.acquire c prev m), .testRemoved o prev next⟩
      else some (goOn m locks (.first o))
  | .testRemoved o prev next =>
      some (goOn m locks (if m.removed prev = false then .testNext o prev next else .release o [prev] false))
  | .testNext o prev next =>
      some (goOn m locks (if m.next prev = next then o.locked prev next else .release o [prev] false))
  | .newNode k v prev next => some (goOn (m.newNode k v next prev) locks (.linkNext k v prev next m.fresh))
  | .linkNext k v prev next new => some (goOn (m.setNext prev new) locks (.linkPrev k v prev next new))
  | .linkPrev k v prev next new =>
      some ⟨m.setPrev next new, locks, some (.setPrev c next), .release (.insert k v) [prev] true⟩
  | .acquireLoc k prev loc =>
      if ok ∧ (locks loc).isNone then
        some ⟨m, Function.update locks loc (some c), some (.acquire c loc m), .loadNext k prev loc⟩
      else some (goOn m locks (.release (.remove k) [prev] false))
  | .loadNext k prev loc => some (goOn m locks (.mark k prev loc (m.next loc)))
  | .mark k prev loc next => some (goOn (m.setRemoved loc) locks (.unlinkNext k prev loc next))
  | .unlinkNext k prev loc next => some (goOn (m.setNext prev next) locks (.unlinkPrev k prev loc next))
  | .unlinkPrev k prev loc next =>
      some ⟨m.setPrev next prev, locks, some (.setPrev c next), .release (.remove k) [loc, prev] true⟩
  | .release o [] done => some (goOn m locks (if done then .idle else .first o))
  | .release o (a :: rest) done =>
      some ⟨m, Function.update locks a none, some (.release c a), .release o rest done⟩

/-- What the scheduler chooses: a thread takes a step, or calls an operation. -/
inductive Action (K V ι : Type) where
  | step (c : ι) (ok : Bool)
  | call (c : ι) (o : Op K V)

/-- The next state, if the action is possible. -/
def next [DecidableEq ι] : Action K V ι → State K V ι → Option (List (Event K V ι) × State K V ι)
  | .step c ok, st =>
      (step c ok st.memory st.locks (st.threads c)).map fun r =>
        (r.event.toList, ⟨r.memory, r.locks, Function.update st.threads c r.pc⟩)
  | .call c o, st =>
      match st.threads c with
      | .idle => some ([], ⟨st.memory, st.locks, Function.update st.threads c (.first o)⟩)
      | _ => none

/-- At the start `init` has run, no lock is held, and no thread executes an operation. -/
structure Initial (st : State K V ι) : Prop where
  memory : ∃ m, st.memory = init m
  locks : ∀ a, st.locks a = none
  threads : ∀ c, st.threads c = .idle

/-- Any number of threads that work on one list. -/
def system [DecidableEq ι] : System (State K V ι) (Action K V ι) (Event K V ι) :=
  System.ofNext Initial next

end

/-! ## What the threads hold -/

section

variable {K V ι : Type}

/-- The locks of the critical sections in which a thread is. -/
def Pc.held : Pc K V → List Nat
  | .testRemoved _ prev _ | .testNext _ prev _ | .newNode _ _ prev _ | .linkNext _ _ prev _ _ |
      .linkPrev _ _ prev _ _ | .acquireLoc _ prev _ => [prev]
  | .loadNext _ prev loc | .mark _ prev loc _ | .unlinkNext _ prev loc _ | .unlinkPrev _ prev loc _ => [loc, prev]
  | .release _ held _ => held
  | _ => []

/-- No thread is inside a critical section. -/
def State.Quiet (st : State K V ι) : Prop := ∀ c, (st.threads c).held = []

/-- The node is on the way from the head to the tail. -/
def Listed (m : Memory K V) (a : Nat) : Prop :=
  ∃ ns e, Linked.Chain m.next (root :: ns ++ [e]) ∧ m.isEnd e = true ∧ (∀ b ∈ ns, m.isEnd b = false) ∧
    a ∈ root :: ns ++ [e]

/-- Thread `c` holds the lock of `w`, and `w` was in the list and preceded `x` when this critical section began. -/
def HeldAt (h : List (Event K V ι)) (c : ι) (w x : Nat) : Prop :=
  ∃ h₁ h₂ m, h = h₁ ++ .acquire c w m :: h₂ ∧ .release c w ∉ h₂ ∧ Listed m w ∧ m.next w = x

end

end Verlib.DList.Concurrent
