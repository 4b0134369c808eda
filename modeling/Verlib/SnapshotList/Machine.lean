import Verlib.Indirect.Memory
import Verlib.Interleaving.Cuts
import Verlib.Interleaving.Rely
import Verlib.OrderedMap.Map
import Verlib.SortedList.Machine

/-!
# Snapshots of the concurrent list

`list/ordered_map.h` over the fully indirect pointers of `versioned_indirect.h`, with the locks of `spin_lock.h` and
the clock `timestamp_read`. Threads call `insert` and `remove`, and run any body under `with_snapshot`. Every load and
store of a `versioned_ptr`, every load, test and swap in `set_stamp`, every turn of the loop of `read_snapshot`, every
access to the clock, to a lock and to `removed` is a step.

A `version_link` is named by its pointer and its number: a store makes one link, whose `next_version` is the link
before it. A new node is built in the step that stores the pointer to it, as nobody else can see it before. Nodes and
links are not freed while a thread is in its epoch, so an address stands for one node.
-/

namespace Verlib.SnapshotList

open Interleaving Indirect
open SortedList (Op root)

/-- What is not written after the construction of a node. -/
structure Node (K V : Type) where
  key : K
  value : V
  isEnd : Bool

/-- The `value` of a `version_link`, which is the address of a node, and the call that stored it; this call is noted
for the history only. -/
structure Cell (K V ι : Type) where
  next : Nat
  call : Option (ι × Nat × Op K V)

/-- The clock and the versions of the pointers `next`, the nodes, their flags `removed`, the holders of their locks,
the next address to be allocated, and the next number of a call. -/
structure Memory (K V ι : Type) where
  versions : Versions Nat (Cell K V ι)
  nodes : Nat → Node K V
  removed : Nat → Bool
  locks : Nat → Option ι
  fresh : Nat
  calls : Nat

/-- The body of a `with_snapshot`: it loads `next` of the node at `a`, or reads what is not written in it. -/
inductive Body (K V R : Type) where
  | ret (r : R)
  | load (a : Nat) (f : Nat → Body K V R)
  | node (a : Nat) (f : Node K V → Body K V R)

/-- The result of a body if nobody writes the pointers. -/
def Body.run {K V R : Type} (next : Nat → Nat) (nodes : Nat → Node K V) : Body K V R → R
  | .ret r => r
  | .load a f => (f (next a)).run next nodes
  | .node a f => (f (nodes a)).run next nodes

/-- Positions in an update: the loads of `find_location`, the two loads of a validation, the `try_lock` of `cur` and
what follows under it. -/
inductive Update where
  | first
  | search (cur nxt : Nat)
  | validNext (cur nxt : Nat)
  | validRemoved (cur : Nat)
  | lock (cur nxt : Nat)
  | checkRemoved (cur nxt : Nat)
  | checkNext (cur nxt : Nat)
  | link (cur nxt : Nat)
  | lockNext (cur nxt : Nat)
  | readNext (cur nxt : Nat)
  | mark (cur nxt nxtnxt : Nat)
  | unlink (cur nxt nxtnxt : Nat)
  | unlock (held : List Nat) (done : Bool)

/-- Positions in `get_read_stamp`. -/
inductive ReadStamp where
  | load
  | test (ts : Nat)
  | add (ts : Nat)

/-- Positions of a thread: in an update, in `set_stamp` for version `i` of `p` on behalf of an update, in
`get_read_stamp`, in the body of a snapshot, and in the `set_stamp` and the loop of its `read_snapshot`. -/
inductive Pc (K V R : Type) where
  | idle
  | update (n : Nat) (o : Op K V) (l : Update)
  | stamping (n : Nat) (o : Op K V) (l : Update) (p i : Nat) (s : SetStamp)
  | starting (n : Nat) (f : Body K V R) (s : ReadStamp)
  | body (n ls : Nat) (f : Body K V R)
  | reading (n ls : Nat) (f : Nat → Body K V R) (p i : Nat) (s : SetStamp)
  | walking (n ls : Nat) (f : Nat → Body K V R) (p i : Nat)

/-- What a run shows: calls and returns of updates, the stamp that the version of an update gets, and for a snapshot
its call, its stamp and its result. -/
inductive What (K V R ι : Type) where
  | call (c : ι) (n : Nat) (o : Op K V)
  | stamp (c : ι) (n : Nat) (o : Op K V) (t : Nat)
  | ret (c : ι) (n : Nat) (b : Bool)
  | withSnapshot (c : ι) (n : Nat) (f : Body K V R)
  | began (c : ι) (n ls : Nat)
  | answer (c : ι) (n : Nat) (r : R)

/-- Every event shows the clock after its step. -/
structure Event (K V R ι : Type) where
  clock : Nat
  what : What K V R ι

/-- What the scheduler chooses: what an idle thread calls, and whether a lock is found free. -/
inductive Choice (K V R : Type) where
  | call (o : Op K V)
  | withSnapshot (f : Body K V R)
  | step (free : Bool)

variable {K V R ι : Type}

namespace Memory

variable (m : Memory K V ι)

/-- `removed = true`. -/
def setRemoved (a : Nat) : Memory K V ι := { m with removed := Function.update m.removed a true }

/-- Take or release a lock. -/
def setLock (a : Nat) (c : Option ι) : Memory K V ι := { m with locks := Function.update m.locks a c }

/-- `store` of a `versioned_ptr`, up to its `set_stamp`: a new link becomes the last version. -/
def store (p b : Nat) (call : ι × Nat × Op K V) : Memory K V ι :=
  { m with versions := m.versions.install p ⟨b, some call⟩ }

/-- `node_pool.new_obj(k, v, next)`: the new node is `m.fresh`, and its pointer has a version with the stamp
`zero_stamp`. -/
def newNode (d : Node K V) (next : Nat) : Memory K V ι :=
  { m with
    versions := { m.versions with
      value := Function.update m.versions.value m.fresh (Function.update (m.versions.value m.fresh) 0 ⟨next, none⟩) }
    nodes := Function.update m.nodes m.fresh d
    fresh := m.fresh + 1 }

/-- The address in version `i` of the pointer of `p`. -/
def next (p i : Nat) : Nat := (m.versions.value p i).next

/-- The pointers as a snapshot with the stamp `ls` should see them. -/
def view (ls p : Nat) : Nat := m.next p (m.versions.cut ls p)

end Memory

/-- One step of `set_stamp` for version `i` of `p`: the memory, the stamp that the version gets, and where it goes on;
`none` is its return. -/
def setStamp (m : Memory K V ι) (p i : Nat) : SetStamp → Memory K V ι × Option Nat × Option SetStamp
  | .load => (m, none, if m.versions.stamp p i = none then some .clock else none)
  | .clock => (m, none, some (.again m.versions.clock))
  | .again t => (m, none, if m.versions.stamp p i = none then some (.swap t) else none)
  | .swap t =>
      if m.versions.stamp p i = none then ({ m with versions := m.versions.setStamp p i t }, some t, none)
      else (m, none, none)

section

variable [LinearOrder K]

/-- What follows `find_location`. -/
def located (o : Op K V) (d : Node K V) (cur nxt : Nat) : Update :=
  match o with
  | .insert k _ => if d.isEnd = false ∧ ¬ k < d.key then .validNext cur nxt else .lock cur nxt
  | .remove k => if d.isEnd = true ∨ k < d.key then .validNext cur nxt else .lock cur nxt

/-- The pointer that is loaded at a position. -/
def Update.loads : Update → Option Nat
  | .first => some root
  | .search _ nxt | .readNext _ nxt => some nxt
  | .validNext cur _ | .checkNext cur _ => some cur
  | _ => none

/-- Where an update goes on when the load has yielded `x`. -/
def Update.loaded (o : Op K V) (nodes : Nat → Node K V) (x : Nat) : Update → Update
  | .first => .search root x
  | .search cur nxt =>
      if (nodes nxt).isEnd = true ∨ ¬ (nodes nxt).key < o.key then located o (nodes nxt) cur nxt else .search nxt x
  | .validNext cur nxt => if x = nxt then .validRemoved cur else .first
  | .checkNext cur nxt =>
      if x = nxt then
        match o with
        | .insert .. => .link cur nxt
        | .remove _ => .lockNext cur nxt
      else .unlock [cur] false
  | .readNext cur nxt => .mark cur nxt x
  | l => l

/-- The events of a step that gives a version its stamp. -/
def stampEvents (m : Memory K V ι) (p i : Nat) (t : Option Nat) : List (What K V R ι) :=
  match t, (m.versions.value p i).call with
  | some t, some (c, n, o) => [.stamp c n o t]
  | _, _ => []

variable [DecidableEq ι]

/-- A step of an update that is no load: the memory, and where the update goes on or what it returns; `some (p, i, l)`
is a `set_stamp`, after which it goes on at `l`. -/
def Update.act (c : ι) (n : Nat) (o : Op K V) (m : Memory K V ι) (free : Bool) :
    Update → Option (Memory K V ι × (Update ⊕ (Nat × Nat × Update) ⊕ Bool))
  | .validRemoved cur => some (m, if m.removed cur = false then .inr (.inr false) else .inl .first)
  | .lock cur nxt =>
      if free ∧ m.locks cur = none then some (m.setLock cur (some c), .inl (.checkRemoved cur nxt))
      else some (m, .inl .first)
  | .checkRemoved cur nxt =>
      some (m, .inl (if m.removed cur = false then .checkNext cur nxt else .unlock [cur] false))
  | .link cur nxt =>
      match o with
      | .insert k v => some ((m.newNode ⟨k, v, false⟩ nxt).store cur m.fresh (c, n, o),
          .inr (.inl (cur, m.versions.last cur + 1, .unlock [cur] true)))
      | .remove _ => none
  | .lockNext cur nxt =>
      if free ∧ m.locks nxt = none then some (m.setLock nxt (some c), .inl (.readNext cur nxt))
      else some (m, .inl (.unlock [cur] false))
  | .mark cur nxt nxtnxt => some (m.setRemoved nxt, .inl (.unlink cur nxt nxtnxt))
  | .unlink cur nxt nxtnxt => some (m.store cur nxtnxt (c, n, o),
      .inr (.inl (cur, m.versions.last cur + 1, .unlock [nxt, cur] true)))
  | .unlock (a :: held) done => some (m.setLock a none, .inl (.unlock held done))
  | .unlock [] done => some (m, if done then .inr (.inr true) else .inl .first)
  | _ => none

/-- One step of a thread: what it shows, the memory, and its position. -/
def stepThread (c : ι) (m : Memory K V ι) (x : Choice K V R) :
    Pc K V R → Option (List (What K V R ι) × Memory K V ι × Pc K V R)
  | .idle =>
      match x with
      | .call o => some ([.call c m.calls o], { m with calls := m.calls + 1 }, .update m.calls o .first)
      | .withSnapshot f =>
          some ([.withSnapshot c m.calls f], { m with calls := m.calls + 1 }, .starting m.calls f .load)
      | .step _ => none
  | .update n o l =>
      match x, l.loads with
      | .step _, some p => some ([], m, .stamping n o l p (m.versions.last p) .load)
      | .step free, none =>
          (l.act c n o m free).map fun r => match r with
            | (m', .inl l') => ([], m', .update n o l')
            | (m', .inr (.inl (p, i, l'))) => ([], m', .stamping n o l' p i .load)
            | (m', .inr (.inr b)) => ([.ret c n b], m', .idle)
      | _, _ => none
  | .stamping n o l p i s =>
      match setStamp m p i s with
      | (m', t, some s') => some (stampEvents m p i t, m', .stamping n o l p i s')
      | (m', t, none) => some (stampEvents m p i t, m', .update n o (l.loaded o m.nodes (m.next p i)))
  | .starting n f .load => some ([], m, .starting n f (.test m.versions.clock))
  | .starting n f (.test ts) =>
      if m.versions.clock = ts then some ([], m, .starting n f (.add ts)) else some ([.began c n ts], m, .body n ts f)
  | .starting n f (.add ts) => some ([.began c n ts], { m with versions := m.versions.tick }, .body n ts f)
  | .body n _ (.ret r) => some ([.answer c n r], m, .idle)
  | .body n ls (.node a f) => if a < m.fresh then some ([], m, .body n ls (f (m.nodes a))) else none
  | .body n ls (.load a f) =>
      if a < m.fresh then some ([], m, .reading n ls f a (m.versions.last a) .load) else none
  | .reading n ls f p i s =>
      match setStamp m p i s with
      | (m', t, some s') => some (stampEvents m p i t, m', .reading n ls f p i s')
      | (m', t, none) => some (stampEvents m p i t, m', .walking n ls f p i)
  | .walking n ls f p i =>
      if less ls (m.versions.stamp p i) then some ([], m, .walking n ls f p (i - 1))
      else some ([], m, .body n ls (f (m.next p i)))

/-- The threads. -/
def process : Process ι (Memory K V ι) (Pc K V R) (Choice K V R) (Event K V R ι) where
  step c m x pc := (stepThread c m x pc).map fun r => (r.1.map (Event.mk r.2.1.versions.clock), r.2)

end

/-- The empty list: the root leads to the end node. Nothing is read of `nullptr`, which is address 0. -/
structure Memory.Initial (m : Memory K V ι) : Prop where
  clock : m.versions.clock = 1
  last : ∀ p, m.versions.last p = 0
  stamp : ∀ p, m.versions.stamp p 0 = some zeroStamp
  born : ∀ p, m.versions.born p 0 = 0
  null : (m.nodes 0).isEnd = true
  first : (m.nodes root).isEnd = false ∧ m.next root 0 = 2
  last_node : (m.nodes 2).isEnd = true
  removed : ∀ a, m.removed a = false
  locks : ∀ a, m.locks a = none
  fresh : m.fresh = 3

/-- Any number of threads that work on one list. -/
def system [LinearOrder K] [DecidableEq ι] :
    System (Process.State ι (Memory K V ι) (Pc K V R)) (ι × Choice K V R) (Event K V R ι) :=
  process.system Memory.Initial .idle

end Verlib.SnapshotList
