import Verlib.Art.Node

/-!
# The operations of `arttree`

A node is named by the indices of the slots that lead to it from the root, and a slot (`cptr`) by the indices
that lead to it. In a sequential run `try_lock` and `read_lock` find their lock free, the node that was found is not
marked as removed and its slot still holds the child that `find_location` loaded, so the bodies under the locks
run at once. A fault is what the source leaves undefined.
-/

namespace Verlib.Art

open Verlib.Radix

variable {n : Nat} {V : Type}

/-- What the source leaves undefined. -/
inductive Fault where
  /-- `load` through a null `cptr`, or the lock of a null `gp`. -/
  | nullPointer
  /-- `leaf::find` on a node that is not a leaf. -/
  | notALeaf
  deriving DecidableEq

/-- The fault of a computation that does not end well. -/
def faultOf {α : Type} : Except Fault α → Option Fault
  | .error fault => some fault
  | .ok _ => none

/-- A computation without a fault has a result. -/
theorem exists_of_faultOf {α : Type} {x : Except Fault α} (h : faultOf x = none) : ∃ a, x = .ok a := by
  cases x with
  | error fault => cases h
  | ok a => exact ⟨a, rfl⟩

/-- A computation with a fault has no result. -/
theorem eq_error_of_faultOf {α : Type} {x : Except Fault α} {fault : Fault} (h : faultOf x = some fault) :
    x = .error fault := by
  cases x with
  | error fault' =>
      cases h
      rfl
  | ok a => cases h

namespace Node

/-- The node at an address. -/
def at_ : Node n V → List Nat → Node n V
  | x, [] => x
  | x, i :: rest => (x.child i).at_ rest

/-- Store through the slot at an address. -/
def store (x : Node n V) (a : List Nat) (c : Node n V) : Node n V :=
  match a with
  | [] => c
  | i :: rest =>
      match x with
      | inner key byteNum size slots ptr =>
          inner key byteNum size slots (Function.update ptr i ((ptr i).store rest c))
      | x => x
termination_by structural a

end Node

/-- The result of `find_location`. -/
structure Location (n : Nat) (V : Type) where
  gp : Option (List Nat)
  p : List Nat
  cptr : Option (List Nat)
  c : Node n V
  bytePos : Nat

/-- A location below the child at an index, as seen from its parent. -/
def Location.under (i : Nat) (l : Location n V) : Location n V where
  gp := some (l.gp.elim [] fun gp => i :: gp)
  p := i :: l.p
  cptr := l.cptr.map fun cptr => i :: cptr
  c := l.c
  bytePos := l.bytePos

/-- The inner loop of `find_location`, for at most `fuel` bytes. -/
def matchBytes (k key : Key n) : Nat → Nat → Nat
  | 0, bytePos => bytePos
  | fuel + 1, bytePos =>
      if getByte k bytePos = getByte key bytePos then matchBytes k key fuel (bytePos + 1) else bytePos

/-- `find_location` from the node `p` on: no child, empty child, leaf, or subtree (cut edge). -/
def findLocation (k : Key n) : Node n V → Nat → Location n V
  | .inner _ byteNum size slots ptr, bytePos =>
      match slots.getChild size (getByte k byteNum) with
      | none => ⟨none, [], none, .null, bytePos⟩
      | some i =>
          if (ptr i).isNull then ⟨none, [], some [i], .null, bytePos⟩
          else
            let stop := matchBytes k (ptr i).key ((ptr i).byteNum - (bytePos + 1)) (bytePos + 1)
            if stop ≠ (ptr i).byteNum ∨ (ptr i).isLeaf then ⟨none, [], some [i], ptr i, stop⟩
            else (findLocation k (ptr i) stop).under i
  | _, bytePos => ⟨none, [], none, .null, bytePos⟩

/-- `((leaf*) c)->find(k, byte_pos)`. On a full node, whose size is 0, it returns nothing; on a sparse or indirect
node it reads the slots as if they were entries. -/
def castFind : Node n V → Key n → Except Fault (Option V)
  | .leaf _ _ _ keyVals, k => .ok (findIn keyVals k)
  | .inner .., _ => .error .notALeaf
  | .null, _ => .error .nullPointer

/-- `c` is a leaf and `k` is one of its keys. -/
def leafHas (c : Node n V) (k : Key n) : Bool :=
  match c with
  | .leaf _ _ _ keyVals => (findIn keyVals k).isSome
  | _ => false

/-- `add_child`. The node at `gp` is locked and its slot for `p->key` loaded before `p` is locked. -/
def addChild (root : Node n V) (gp : Option (List Nat)) (p : List Nat) (k : Key n) (v : V) :
    Except Fault (Node n V × Bool) :=
  match gp with
  | none => .error .nullPointer
  | some gp =>
      match (root.at_ gp).getChild (root.at_ p).key with
      | none => .error .nullPointer
      | some i =>
          if gp ++ [i] ≠ p then .ok (root, false)
          else if (root.at_ p).getChild k ≠ none then .ok (root, false)
          else .ok (root.store p ((root.at_ p).copyWithChild k (.singleton k v)), true)

/-- What `try_insert` writes to `cptr`, where `c` was found and `k` is not in it. -/
def replacement (c : Node n V) (bytePos : Nat) (k : Key n) (v : V) : Node n V :=
  match c with
  | .null => .singleton k v
  | .leaf _ key _ keyVals =>
      if keyVals.length < maxSmallLeafSize then .addToLeaf false bytePos key keyVals k v
      else if keyVals.length = maxSmallLeafSize then .addToLeaf true bytePos key keyVals k v
      else if keyVals.length < maxBigLeafSize then .addToLeaf true bytePos key keyVals k v
      else .splitLeaf bytePos (insertIn keyVals ⟨k, v⟩)
  | .inner key .. => .sparsePair bytePos c key (.singleton k v) k

/-- `try_insert`; `none` is a failed attempt. -/
def tryInsert (root : Node n V) (k : Key n) (v : V) : Except Fault (Node n V × Option Bool) :=
  let l := findLocation k root 0
  if leafHas l.c k then .ok (root, some false)
  else
    match l.cptr with
    | some cptr => .ok (root.store cptr (replacement l.c l.bytePos k v), some true)
    | none => do
        let (root', x) ← addChild root l.gp l.p k v
        pure (root', if x then some true else none)

/-- What `try_remove` writes to `cptr`, where the leaf `c` was found. The result of `single_other_child` is not
used. -/
def remainder (c : Node n V) (k : Key n) : Node n V :=
  match c with
  | .leaf _ _ byteNum keyVals =>
      if keyVals.length = 1 then .null
      else if keyVals.length > maxSmallLeafSize + 1 then .removeFromLeaf true byteNum keyVals k
      else .removeFromLeaf false byteNum keyVals k
  | c => c

/-- `try_remove`. The read lock of `p` loads through `cptr`. -/
def tryRemove (root : Node n V) (k : Key n) : Except Fault (Node n V × Option Bool) :=
  let l := findLocation k root 0
  match l.cptr with
  | none => .error .nullPointer
  | some cptr =>
      if leafHas l.c k then .ok (root.store cptr (remainder l.c k), some true)
      else .ok (root, some false)

/-- `try_find`. The read lock of `p` loads through `cptr`. -/
def tryFind (root : Node n V) (k : Key n) : Except Fault (Option (Option V)) :=
  let l := findLocation k root 0
  match l.cptr with
  | none => .error .nullPointer
  | some _ =>
      if l.c.isNull then .ok (some none)
      else do
        let r ← castFind l.c k
        pure (some r)

/-- `find_`. -/
def find (root : Node n V) (k : Key n) : Except Fault (Option V) :=
  let l := findLocation k root 0
  if l.c.isNull then .ok none else castFind l.c k

/-- `flck::try_loop`, for at most `attempts` attempts. -/
def tryLoop {α : Type} (attempt : Node n V → Except Fault (Node n V × Option α)) :
    Nat → Node n V → Except Fault (Node n V × Option α)
  | 0, root => .ok (root, none)
  | attempts + 1, root =>
      match attempt root with
      | .error fault => .error fault
      | .ok (root', some r) => .ok (root', some r)
      | .ok (root', none) => tryLoop attempt attempts root'

/-- `find_locked`, of at most `attempts` attempts. -/
def findLocked (attempts : Nat) (root : Node n V) (k : Key n) : Except Fault (Node n V × Option (Option V)) :=
  tryLoop (fun root => do
    let r ← tryFind root k
    pure (root, r)) attempts root

/-- The constructor of the map; the key of the root is not set. -/
def empty (key : Key n) : Node n V := .inner key 0 0 .full fun _ => .null

/-- The operations that update the map. -/
inductive Op (n : Nat) (V : Type) where
  | insert (k : Key n) (v : V)
  | remove (k : Key n)

/-- An operation, of at most `attempts` attempts. -/
def perform (attempts : Nat) (root : Node n V) : Op n V → Except Fault (Node n V × Option Bool)
  | .insert k v => tryLoop (fun root => tryInsert root k v) attempts root
  | .remove k => tryLoop (fun root => tryRemove root k) attempts root

/-- The operations one after the other, with their results. -/
def run (attempts : Nat) : List (Op n V) → Node n V → Except Fault (Node n V × List (Option Bool))
  | [], root => .ok (root, [])
  | op :: rest, root => do
      let (root', r) ← perform attempts root op
      let (last, rs) ← run attempts rest root'
      pure (last, r :: rs)

end Verlib.Art
