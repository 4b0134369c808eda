import Verlib.Interleaving.System
import Mathlib.Order.Defs.LinearOrder
import Mathlib.Data.Set.Insert
import Mathlib.Data.List.Chain

/-!
# The sorted list

`insert` and `remove` search without locks from the root, where every load of a `next` pointer is a step.
If the search says that there is nothing to do, they validate it with two reads; otherwise they run their
body under `try_lock`, in one step, and start again if a lock is not acquired or the body finds that the
place has changed. In the `Recorded_Once` build `remove` also replaces the node after the removed one by
a copy. Nodes are not freed while a thread may stand on them, so an address stands for one node.

Every step shows the memory before and after it.
-/

namespace Verlib.SortedList

open Interleaving

/-- A `node`; `next` is zero for the null pointer. The keys of the root and of an end node are not
read. -/
structure Node (K V : Type) where
  key : K
  value : V
  next : Nat
  isEnd : Bool
  removed : Bool

/-- The nodes by their addresses, and the next address to be allocated. -/
structure Memory (K V : Type) where
  nodes : Nat → Node K V
  fresh : Nat

/-- The address of the root. -/
def root : Nat :=
  1

/-- The operations. -/
inductive Op (K V : Type) where
  | insert (k : K) (v : V)
  | remove (k : K)
  deriving DecidableEq

/-- The key of an operation. -/
def Op.key {K V : Type} : Op K V → K
  | .insert k _ => k
  | .remove k => k

/-- Positions of a thread in `find_location`, in the two reads of the validation, and before its
`try_lock`. -/
inductive Pc (K V : Type) where
  | idle
  | first (op : Nat) (o : Op K V)
  | search (op : Nat) (o : Op K V) (cur nxt : Nat)
  | readNext (op : Nat) (o : Op K V) (cur nxt : Nat)
  | readRemoved (op : Nat) (o : Op K V) (cur nxt : Nat)
  | lock (op : Nat) (o : Op K V) (cur nxt : Nat)

/-- What a run shows: the call of an operation, every step that is taken for it, and its result. -/
inductive Event (K V : Type) where
  | call (op : Nat) (o : Op K V)
  | step (op : Nat) (m m' : Memory K V)
  | ret (op : Nat) (b : Bool)

/-- The memory, the threads, and the next identity of a call. -/
structure State (K V ι : Type) where
  memory : Memory K V
  threads : ι → Pc K V
  ops : Nat

variable {K V : Type}

/-- The event is the call `op` of operation `o`. -/
def Event.isCall [DecidableEq K] [DecidableEq V] (op : Nat) (o : Op K V) : Event K V → Bool
  | .call op' o' => op' = op ∧ o' = o
  | _ => false

/-- The event is the return of the call `op`. -/
def Event.isRet (op : Nat) (b : Bool) : Event K V → Bool
  | .ret op' b' => op' = op ∧ b' = b
  | _ => false

/-- The call that `isCall` accepts. -/
theorem Event.eq_of_isCall [DecidableEq K] [DecidableEq V] {op : Nat} {o : Op K V} {e : Event K V}
    (he : e.isCall op o = true) : e = .call op o := by
  cases e <;> simp_all [Event.isCall]

/-- The return that `isRet` accepts. -/
theorem Event.eq_of_isRet {op : Nat} {b : Bool} {e : Event K V} (he : e.isRet op b = true) :
    e = .ret op b := by
  cases e <;> simp_all [Event.isRet]

/-- Write `next`. -/
def Memory.setNext (m : Memory K V) (a b : Nat) : Memory K V :=
  { m with nodes := Function.update m.nodes a { m.nodes a with next := b } }

/-- Write `removed`. -/
def Memory.setRemoved (m : Memory K V) (a : Nat) : Memory K V :=
  { m with nodes := Function.update m.nodes a { m.nodes a with removed := true } }

/-- `node_pool.new_obj`: the new node is `m.fresh`. -/
def Memory.newNode (m : Memory K V) (n : Node K V) : Memory K V :=
  ⟨Function.update m.nodes m.fresh n, m.fresh + 1⟩

section Operations

variable [LinearOrder K]

/-- What follows `find_location`: the validation if the key of an `insert` is there or the key of a
`remove` is not, the `try_lock` otherwise. -/
def Op.located (o : Op K V) (op : Nat) (m : Memory K V) (cur nxt : Nat) : Pc K V :=
  match o with
  | .insert k _ =>
      if (m.nodes nxt).isEnd = false ∧ ¬ k < (m.nodes nxt).key then .readNext op o cur nxt
      else .lock op o cur nxt
  | .remove k =>
      if (m.nodes nxt).isEnd = true ∨ k < (m.nodes nxt).key then .readNext op o cur nxt
      else .lock op o cur nxt

/-- One turn of the loop of `find_location`, which loads `nxt->next`. -/
def Op.find (o : Op K V) (op : Nat) (m : Memory K V) (cur nxt : Nat) : Pc K V :=
  let nxt_nxt := (m.nodes nxt).next
  if (m.nodes nxt).isEnd = true ∨ ¬ (m.nodes nxt).key < o.key then o.located op m cur nxt
  else .search op o nxt nxt_nxt

end Operations

/-- The body of `insert` under the lock of `cur`; `locks` says which locks are acquired. -/
def insertBody (locks : Nat → Bool) (m : Memory K V) (k : K) (v : V) (cur nxt : Nat) :
    Option (Memory K V) :=
  if locks 0 ∧ (m.nodes cur).removed = false ∧ (m.nodes cur).next = nxt then
    some ((m.newNode ⟨k, v, nxt, false, false⟩).setNext cur m.fresh)
  else none

/-- The body of `remove` under the locks of `cur` and `nxt`, and in the `Recorded_Once` build of the node
after them. -/
def removeBody (recorded : Bool) (locks : Nat → Bool) (m : Memory K V) (cur nxt : Nat) :
    Option (Memory K V) :=
  if locks 0 ∧ (m.nodes cur).removed = false ∧ (m.nodes cur).next = nxt ∧ locks 1 then
    let nxtnxt := (m.nodes nxt).next
    if recorded then
      if locks 2 then
        let m' := (m.setRemoved nxt).setRemoved nxtnxt
        some ((m'.newNode { m'.nodes nxtnxt with removed := false }).setNext cur m.fresh)
      else none
    else some ((m.setRemoved nxt).setNext cur nxtnxt)
  else none

/-- The body of an operation, and the memory after it if it returns true. -/
def Op.body (recorded : Bool) (locks : Nat → Bool) (m : Memory K V) (o : Op K V) (cur nxt : Nat) :
    Option (Memory K V) :=
  match o with
  | .insert k v => insertBody locks m k v cur nxt
  | .remove _ => removeBody recorded locks m cur nxt

/-- One step of a thread: the call that it executes, the new memory, its result if it returns, and its
new position. -/
def stepThread [LinearOrder K] (recorded : Bool) (m : Memory K V) (locks : Nat → Bool) :
    Pc K V → Option (Nat × Memory K V × Option Bool × Pc K V)
  | .idle => none
  | .first op o => some (op, m, none, .search op o root (m.nodes root).next)
  | .search op o cur nxt => some (op, m, none, o.find op m cur nxt)
  | .readNext op o cur nxt =>
      some (op, m, none,
        if (m.nodes cur).next = nxt then .readRemoved op o cur nxt else .first op o)
  | .readRemoved op o cur _ =>
      if (m.nodes cur).removed = false then some (op, m, some false, .idle)
      else some (op, m, none, .first op o)
  | .lock op o cur nxt =>
      match o.body recorded locks m cur nxt with
      | some m' => some (op, m', some true, .idle)
      | none => some (op, m, none, .first op o)

/-- What the scheduler chooses: a thread takes a step, or calls an operation. -/
inductive Action (K V ι : Type) where
  | step (c : ι) (locks : Nat → Bool)
  | call (c : ι) (o : Op K V)

variable {ι : Type} [DecidableEq ι] [LinearOrder K]

/-- The next state, if the action is possible. -/
def next (recorded : Bool) :
    Action K V ι → State K V ι → Option (List (Event K V) × State K V ι)
  | .step c locks, st =>
      (stepThread recorded st.memory locks (st.threads c)).map fun (op, m, r, pc) =>
        (.step op st.memory m :: r.toList.map (.ret op),
          ⟨m, Function.update st.threads c pc, st.ops⟩)
  | .call c o, st =>
      match st.threads c with
      | .idle => some ([.call st.ops o],
          ⟨st.memory, Function.update st.threads c (.first st.ops o), st.ops + 1⟩)
      | _ => none

/-- The empty list: the root leads to the end node. -/
structure Memory.Initial (m : Memory K V) : Prop where
  root : (m.nodes root).next = 2 ∧ (m.nodes root).isEnd = false ∧ (m.nodes root).removed = false
  last : (m.nodes 2).next = 0 ∧ (m.nodes 2).isEnd = true ∧ (m.nodes 2).removed = false
  fresh : m.fresh = 3

/-- Any number of threads working on one list, in the default build or in the `Recorded_Once` build. -/
def system (recorded : Bool) : System (State K V ι) (Action K V ι) (Event K V) :=
  System.ofNext (fun st => st.memory.Initial ∧ (∀ c, st.threads c = .idle) ∧ st.ops = 0) (next recorded)

/-! ## What the list contains -/

/-- `b` follows `a`. -/
def Memory.Next (m : Memory K V) (a b : Nat) : Prop :=
  (m.nodes a).isEnd = false ∧ (m.nodes a).next = b

/-- The nodes `ns` lead from the root to the end node `e`. -/
def Memory.Path (m : Memory K V) (ns : List Nat) (e : Nat) : Prop :=
  (root :: ns ++ [e]).IsChain m.Next ∧ (m.nodes e).isEnd = true

/-- The keys in the list. -/
def Memory.content (m : Memory K V) : Set K :=
  { k | ∃ ns e, m.Path ns e ∧ ∃ a ∈ ns, (m.nodes a).key = k }

/-- What an operation that returns true does to the keys. -/
def Op.Effect (o : Op K V) (s s' : Set K) : Prop :=
  match o with
  | .insert k _ => k ∉ s ∧ s' = s ∪ {k}
  | .remove k => k ∈ s ∧ s' = s \ {k}

/-- Why an operation may return false. -/
def Op.Refused (o : Op K V) (s : Set K) : Prop :=
  match o with
  | .insert k _ => k ∈ s
  | .remove k => k ∉ s

/-- The steps of a call do not change the keys. -/
def NoChange (h : List (Event K V)) (op : Nat) : Prop :=
  ∀ m m', .step op m m' ∈ h → m'.content = m.content

/-- One step of a call has its effect, and no other step of it changes the keys. -/
def Changed (h : List (Event K V)) (op : Nat) (o : Op K V) : Prop :=
  ∃ h₁ h₂ m m', h = h₁ ++ .step op m m' :: h₂ ∧ o.Effect m.content m'.content ∧
    NoChange h₁ op ∧ NoChange h₂ op

end Verlib.SortedList
