import Mathlib.Data.List.Nodup
import Verlib.HashBlock.Contention
import Verlib.Ownership.Ledger

/-!
# Where the nodes of a hash table are

A node is built by a call, is in a bucket, waits in a call that has taken it out of its bucket, or has been given back:
it is retired if it was in a bucket, and destructed at once if the install of its call has failed. An install puts the
node of the call into the bucket and the node of the bucket into the hands of the call in one step.
-/

namespace Verlib.HashBlock

open Interleaving Ownership

/-- Where a node can be: in a bucket, with a call that has built it, with a call that has replaced it, or among those
that have been given back. -/
inductive Place (ι : Type) where
  | bucket (b : Nat)
  | built (c : ι)
  | replaced (c : ι)
  | freed (i : Nat)
  deriving DecidableEq

/-- The node that a call has built and not installed. -/
def Pos.built : Pos → Option Nat
  | .check _ new _ | .install _ new _ | .destruct new => new
  | _ => none

/-- The node that a call has replaced and not retired. -/
def Pos.replaced : Pos → Option Nat
  | .retire old _ => old
  | _ => none

variable {K V ι : Type}

/-- The nodes at the places. -/
def nodeAt (buckets : Nat → Option Nat) (built replaced : ι → Option Nat) (freed : List Nat) : Place ι → Option Nat
  | .bucket b => buckets b
  | .built c => built c
  | .replaced c => replaced c
  | .freed i => freed.reverse[i]?

/-- The node that a thread has built. -/
def built (threads : ι → Option (Nat × Op K V × Pos)) (c : ι) : Option Nat := (threads c).bind fun t => t.2.2.built

/-- The node that a thread has replaced. -/
def replaced (threads : ι → Option (Nat × Op K V × Pos)) (c : ι) : Option Nat :=
  (threads c).bind fun t => t.2.2.replaced

/-- The addresses of the nodes that have been given back. -/
def Memory.given (m : Memory K V) : List Nat := m.freed.map Prod.fst

/-- The nodes at the places of a state. -/
def place (st : Machine.State ι (Op K V) (Memory K V) Pos) : Place ι → Option Nat :=
  nodeAt st.memory.buckets (built st.threads) (replaced st.threads) st.memory.given

/-- Every step of a call on bucket `b`: it moves no node, builds one, installs what it has built in place of what is
in the bucket, does both at once, or gives back what it has replaced or built. -/
inductive Turn (b : Nat) (m : Memory K V) (p : Pos) (m' : Memory K V) (built replaced : Option Nat) : Prop where
  | stay : m'.buckets = m.buckets → m'.given = m.given → m'.fresh = m.fresh → built = p.built →
      replaced = p.replaced → Turn b m p m' built replaced
  | build : m'.buckets = m.buckets → m'.given = m.given → m'.fresh = m.fresh + 1 → p.built = none →
      built = some m.fresh → replaced = p.replaced → Turn b m p m' built replaced
  | install : m'.buckets = Function.update m.buckets b p.built → m'.given = m.given → m'.fresh = m.fresh →
      built = none → p.replaced = none → replaced = m.buckets b → Turn b m p m' built replaced
  | update : m'.buckets = Function.update m.buckets b (some m.fresh) → m'.given = m.given →
      m'.fresh = m.fresh + 1 → p.built = none → built = none → p.replaced = none → replaced = m.buckets b →
      Turn b m p m' built replaced
  | retire {a : Nat} : m'.buckets = m.buckets → m'.given = a :: m.given → m'.fresh = m.fresh →
      p.built = none → built = none → p.replaced = some a → replaced = none → Turn b m p m' built replaced
  | destruct {a : Nat} : m'.buckets = m.buckets → m'.given = a :: m.given → m'.fresh = m.fresh →
      p.built = some a → built = none → p.replaced = none → replaced = none → Turn b m p m' built replaced

section

variable {E : Keys K} {bits : Nat} {build : Build} {m m' : Memory K V} {o : Op K V} {p : Pos} {x : Bool}
  {k : Pos ⊕ Bool} {old : Option Nat}

/-- What a call that goes on, or returns, has built. -/
def builtBy (k : Pos ⊕ Bool) : Option Nat := k.elim Pos.built fun _ => none

/-- What a call that goes on, or returns, has replaced. -/
def replacedBy (k : Pos ⊕ Bool) : Option Nat := k.elim Pos.replaced fun _ => none

theorem turn_refuse :
    Turn (getBucket E bits o.key) m .start m (builtBy (refuse build old)) (replacedBy (refuse build old)) := by
  cases build with
  | useCAS => exact .stay rfl rfl rfl rfl rfl
  | tryLock => exact .stay rfl rfl rfl rfl rfl

/-- A call has built a node, or none for an empty bucket. -/
theorem held_tryUpdate (build : Build) (old new : Option Nat) (r : Bool) :
    (tryUpdate build old new r).built = new ∧ (tryUpdate build old new r).replaced = none := by
  cases build with
  | useCAS => exact ⟨rfl, rfl⟩
  | tryLock => exact ⟨rfl, rfl⟩

theorem turn_newObj {b : Nat} (n : Node K V) (r : Bool) :
    Turn b m .start (m.newObj n) (builtBy (.inl (tryUpdate build old (some m.fresh) r)))
      (replacedBy (.inl (tryUpdate build old (some m.fresh) r))) := by
  obtain ⟨hbuilt, hreplaced⟩ := held_tryUpdate build old (some m.fresh) r
  exact .build rfl rfl rfl rfl hbuilt hreplaced

/-- The first part of an update builds at most one node. -/
theorem turn_start (hstep : step E bits build o m x .start = some (m', k)) :
    Turn (getBucket E bits o.key) m .start m' (builtBy k) (replacedBy k) := by
  cases o with
  | insert key v =>
      obtain ⟨found, hfound, hrest⟩ := Option.bind_eq_some_iff.mp hstep
      cases found with
      | true =>
          cases hrest
          exact turn_refuse (o := .insert key v)
      | false =>
          obtain ⟨new, hnew, heq⟩ := Option.bind_eq_some_iff.mp hrest
          cases heq
          exact turn_newObj new true
  | upsert key f =>
      obtain ⟨found, hfound, hrest⟩ := Option.bind_eq_some_iff.mp hstep
      split at hrest
      · obtain ⟨new, hnew, heq⟩ := Option.bind_eq_some_iff.mp hrest
        cases heq
        exact turn_newObj new false
      · cases hrest
        exact .stay rfl rfl rfl rfl rfl
      · obtain ⟨new, hnew, heq⟩ := Option.bind_eq_some_iff.mp hrest
        cases heq
        exact turn_newObj new true
  | remove key =>
      obtain ⟨found, hfound, hrest⟩ := Option.bind_eq_some_iff.mp hstep
      split at hrest
      next a hold =>
          obtain ⟨new, hnew, heq⟩ := Option.bind_eq_some_iff.mp hrest
          cases new with
          | none =>
              cases heq
              obtain ⟨hbuilt, hreplaced⟩ := held_tryUpdate build (m.buckets (getBucket E bits key)) none true
              exact .stay rfl rfl rfl hbuilt hreplaced
          | some n =>
              cases heq
              exact turn_newObj n true
      · cases hrest
        exact turn_refuse (o := .remove key)

/-- Every step of a call is a turn. -/
theorem step_turn (hstep : step E bits build o m x p = some (m', k)) :
    Turn (getBucket E bits o.key) m p m' (builtBy k) (replacedBy k) := by
  cases p with
  | start => exact turn_start hstep
  | check old new r =>
      cases hstep
      show Turn _ m _ m (Pos.built (if _ then _ else _)) (Pos.replaced (if _ then _ else _))
      split
      · exact .stay rfl rfl rfl rfl rfl
      · exact .stay rfl rfl rfl rfl rfl
  | install old new r =>
      simp only [step] at hstep
      split at hstep
      next h =>
          cases hstep
          exact .install rfl rfl rfl rfl rfl h.2.symm
      · cases hstep
        exact .stay rfl rfl rfl rfl rfl
  | update old =>
      cases o with
      | upsert key f =>
          simp only [step] at hstep
          split at hstep
          next h =>
              obtain ⟨new, hnew, heq⟩ := Option.bind_eq_some_iff.mp hstep
              cases heq
              exact .update rfl rfl rfl rfl rfl rfl h.2.symm
          · cases hstep
            exact .stay rfl rfl rfl rfl rfl
      | insert => cases hstep
      | remove => cases hstep
  | validate old =>
      cases hstep
      show Turn _ m _ m (builtBy (if _ then _ else _)) (replacedBy (if _ then _ else _))
      split
      · exact .stay rfl rfl rfl rfl rfl
      · exact .stay rfl rfl rfl rfl rfl
  | retire old r =>
      cases hstep
      cases old with
      | none => exact .stay rfl rfl rfl rfl rfl
      | some a => exact .retire rfl rfl rfl rfl rfl rfl rfl
  | destruct new =>
      cases hstep
      cases new with
      | none => exact .stay rfl rfl rfl rfl rfl
      | some a => exact .destruct rfl rfl rfl rfl rfl rfl rfl

end

/-! ## Moves between the places -/

section

variable {buckets : Nat → Option Nat} {built replaced : ι → Option Nat} {freed : List Nat} {b n a : Nat} {c : ι}
  {x : Option Nat}

theorem freed_empty : (nodeAt buckets built replaced freed (.freed freed.length) : Option Nat) = none :=
  List.getElem?_eq_none (by simp)

variable [DecidableEq ι]

theorem nodeAt_bucket : nodeAt (Function.update buckets b x) built replaced freed =
    Function.update (nodeAt buckets built replaced freed) (.bucket b) x := by
  funext w
  cases w with
  | bucket => simp [nodeAt, Function.update_apply]
  | built | replaced | freed => simp [nodeAt]

theorem nodeAt_built : nodeAt buckets (Function.update built c x) replaced freed =
    Function.update (nodeAt buckets built replaced freed) (.built c) x := by
  funext w
  cases w with
  | built => simp [nodeAt, Function.update_apply]
  | bucket | replaced | freed => simp [nodeAt]

theorem nodeAt_replaced : nodeAt buckets built (Function.update replaced c x) freed =
    Function.update (nodeAt buckets built replaced freed) (.replaced c) x := by
  funext w
  cases w with
  | replaced => simp [nodeAt, Function.update_apply]
  | bucket | built | freed => simp [nodeAt]

/-- One more node has been given back. -/
theorem nodeAt_given : nodeAt buckets built replaced (a :: freed) =
    Function.update (nodeAt buckets built replaced freed) (.freed freed.length) (some a) := by
  funext w
  cases w with
  | freed i =>
      show (a :: freed).reverse[i]? = _
      rw [List.reverse_cons, List.getElem?_append, List.length_reverse]
      by_cases hi : i = freed.length
      · rw [hi, if_neg (Nat.lt_irrefl _), Nat.sub_self, Function.update_self]
        rfl
      · rw [Function.update_of_ne fun heq => hi (Place.freed.inj heq)]
        show _ = freed.reverse[i]?
        split
        next => rfl
        next hge =>
            have hlen : freed.reverse.length ≤ i := by
              rw [List.length_reverse]
              omega
            rw [List.getElem?_eq_none hlen]
            exact List.getElem?_eq_none (by simp; omega)
  | bucket | built | replaced => simp [nodeAt]

end

section

variable [DecidableEq ι] {m m' : Memory K V} {built replaced : ι → Option Nat} {p : Pos} {b : Nat} {c : ι}
  {newBuilt newReplaced : Option Nat}

/-- A step of a call keeps the ledger. -/
theorem Turn.ledger (h : Turn b m p m' newBuilt newReplaced) (hbuilt : built c = p.built)
    (hreplaced : replaced c = p.replaced) (hledger : Ledger (nodeAt m.buckets built replaced m.given) m.fresh) :
    Ledger (nodeAt m'.buckets (Function.update built c newBuilt) (Function.update replaced c newReplaced) m'.given)
      m'.fresh := by
  cases h with
  | stay hb hg hf hnb hnr =>
      rw [hb, hg, hf, hnb, hnr, ← hbuilt, ← hreplaced, Function.update_eq_self, Function.update_eq_self]
      exact hledger
  | build hb hg hf hnone hnb hnr =>
      rw [hb, hg, hf, hnb, hnr, ← hreplaced, Function.update_eq_self, nodeAt_built]
      exact hledger.build (.built c) (hbuilt.trans hnone)
  | install hb hg hf hnb hnone hnr =>
      rw [hb, hg, hf, hnb, hnr, ← hbuilt, nodeAt_replaced, nodeAt_built, nodeAt_bucket]
      exact hledger.exchange (.bucket b) (.built c) (.replaced c) nofun nofun nofun (hreplaced.trans hnone)
  | update hb hg hf hnone hnb hrnone hnr =>
      -- The new node is built by the call, and then installed.
      have hnew := hledger.build (.built c) (hbuilt.trans hnone)
      rw [← nodeAt_built] at hnew
      have hput := hnew.exchange (.bucket b) (.built c) (.replaced c) nofun nofun nofun (hreplaced.trans hrnone)
      have hself : nodeAt m.buckets (Function.update built c (some m.fresh)) replaced m.given (.built c) =
          some m.fresh := Function.update_self _ _ _
      rw [hself, ← nodeAt_bucket, ← nodeAt_built, Function.update_idem, ← nodeAt_replaced] at hput
      rw [hb, hg, hf, hnb, hnr]
      exact hput
  | @retire a hb hg hf hnone hnb hold hnr =>
      have hmoved := hledger.move (.replaced c) (.freed m.given.length) nofun freed_empty
      have hself : nodeAt m.buckets built replaced m.given (.replaced c) = some a := hreplaced.trans hold
      unfold move at hmoved
      rw [hself, ← nodeAt_replaced, ← nodeAt_given] at hmoved
      rw [hb, hg, hf, hnb, ← hnone, ← hbuilt, Function.update_eq_self, hnr]
      exact hmoved
  | @destruct a hb hg hf hold hnb hnone hnr =>
      have hmoved := hledger.move (.built c) (.freed m.given.length) nofun freed_empty
      have hself : nodeAt m.buckets built replaced m.given (.built c) = some a := hbuilt.trans hold
      unfold move at hmoved
      rw [hself, ← nodeAt_built, ← nodeAt_given] at hmoved
      rw [hb, hg, hf, hnr, ← hnone, ← hreplaced, Function.update_eq_self, hnb]
      exact hmoved

end

/-! ## Every run -/

section

variable [DecidableEq ι] {E : Keys K} {bits : Nat} {build : Build} {h : List (Machine.Event (Op K V) (Memory K V) Bool)}
  {st st' : Machine.State ι (Op K V) (Memory K V) Pos} {es : List (Machine.Event (Op K V) (Memory K V) Bool)}
  {threads : ι → Option (Nat × Op K V × Pos)} {c : ι} {t : Option (Nat × Op K V × Pos)}

/-- What a thread holds changes for this thread only. -/
theorem built_update : built (Function.update threads c t) =
    Function.update (built threads) c (t.bind fun t => t.2.2.built) := by
  funext c'
  unfold built
  by_cases hc : c' = c
  · rw [hc, Function.update_self, Function.update_self]
  · rw [Function.update_of_ne hc, Function.update_of_ne hc]

theorem replaced_update : replaced (Function.update threads c t) =
    Function.update (replaced threads) c (t.bind fun t => t.2.2.replaced) := by
  funext c'
  unfold replaced
  by_cases hc : c' = c
  · rw [hc, Function.update_self, Function.update_self]
  · rw [Function.update_of_ne hc, Function.update_of_ne hc]

/-- Every step of a run keeps the ledger. -/
theorem ledger_next {act : Machine.Action ι (Op K V) Bool} (hledger : Ledger (place st) st.memory.fresh)
    (hstep : Machine.next (machine E bits build) act st = some (es, st')) : Ledger (place st') st'.memory.fresh := by
  cases act with
  | call c o =>
      simp only [Machine.next] at hstep
      cases hc : st.threads c with
      | some t =>
          rw [hc] at hstep
          cases hstep
      | none =>
          rw [hc] at hstep
          cases hstep
          have hbuilt : built st.threads c = none := by
            unfold built
            rw [hc]
            rfl
          have hreplaced : replaced st.threads c = none := by
            unfold replaced
            rw [hc]
            rfl
          show Ledger (nodeAt _ (built (Function.update _ _ _)) (replaced (Function.update _ _ _)) _) _
          rw [built_update, replaced_update]
          show Ledger (nodeAt _ (Function.update (built st.threads) c none)
            (Function.update (replaced st.threads) c none) _) _
          rw [← hbuilt, Function.update_eq_self, hbuilt, ← hreplaced, Function.update_eq_self]
          exact hledger
  | step c x =>
      simp only [Machine.next] at hstep
      cases hc : st.threads c with
      | none =>
          rw [hc] at hstep
          cases hstep
      | some t =>
          obtain ⟨op, o, p⟩ := t
          have hbuilt : built st.threads c = p.built := by
            unfold built
            rw [hc]
            rfl
          have hreplaced : replaced st.threads c = p.replaced := by
            unfold replaced
            rw [hc]
            rfl
          simp only [hc] at hstep
          cases hmove : step E bits build o st.memory x p with
          | none =>
              rw [show (machine E bits build).step o st.memory x p = none from hmove] at hstep
              cases hstep
          | some r =>
              obtain ⟨m', k⟩ := r
              have hturn := (step_turn hmove).ledger hbuilt hreplaced hledger
              rw [show (machine E bits build).step o st.memory x p = some (m', k) from hmove] at hstep
              cases k with
              | inl p' =>
                  cases hstep
                  show Ledger (nodeAt _ (built (Function.update _ _ _)) (replaced (Function.update _ _ _)) _) _
                  rw [built_update, replaced_update]
                  exact hturn
              | inr b =>
                  cases hstep
                  show Ledger (nodeAt _ (built (Function.update _ _ _)) (replaced (Function.update _ _ _)) _) _
                  rw [built_update, replaced_update]
                  exact hturn

/-- In every run, with both builds, every node that has ever been built is at exactly one place: in one bucket, with
one call that has built it and not yet installed it, with one call that has replaced it and not yet retired it, or once
among the nodes that have been given back. So no node is given back twice, a node in a bucket has not been given back,
and while no call is running, every node is in one bucket or has been given back. -/
theorem nodes_owned_once (hexec : Exec ((machine E bits build).system Initial) h st) :
    (∀ a, a < st.memory.fresh → ∃! w, place st w = some a) ∧
      (∀ w a, place st w = some a → a < st.memory.fresh) ∧ st.memory.given.Nodup ∧
      (∀ b a, st.memory.buckets b = some a → a ∉ st.memory.given) ∧
      ((∀ c, st.threads c = none) → ∀ a, a < st.memory.fresh → a ∉ st.memory.given →
        ∃! b, st.memory.buckets b = some a) := by
  have hledger : Ledger (place st) st.memory.fresh := by
    refine Exec.invariant (P := fun _ st => Ledger (place st) st.memory.fresh) ?_ ?_ hexec
    · intro st hst
      rw [hst.memory.fresh]
      refine Ledger.empty fun w => ?_
      cases w with
      | bucket b => exact hst.memory.buckets b
      | built c =>
          show built st.threads c = none
          unfold built
          rw [hst.threads c]
          rfl
      | replaced c =>
          show replaced st.threads c = none
          unfold replaced
          rw [hst.threads c]
          rfl
      | freed i =>
          show (st.memory.freed.map Prod.fst).reverse[i]? = none
          rw [hst.memory.freed]
          rfl
    · intro h st act es st' _ hledger hstep
      exact ledger_next hledger hstep
  have hgiven : ∀ a, a ∈ st.memory.given → ∃ i, place st (.freed i) = some a := fun a ha =>
    List.mem_iff_getElem?.mp (List.mem_reverse.mpr ha)
  refine ⟨fun a => hledger.existsUnique, hledger.built, ?_, fun b a hb ha => ?_, fun hidle a ha hfree => ?_⟩
  · rw [← List.nodup_reverse, List.nodup_iff_injective_getElem]
    intro i j heq
    have hi : place st (.freed i.val) = some (st.memory.given.reverse[i.val]) := List.getElem?_eq_getElem i.isLt
    have hj : place st (.freed j.val) = some (st.memory.given.reverse[j.val]) := List.getElem?_eq_getElem j.isLt
    have heq : st.memory.given.reverse[i.val] = st.memory.given.reverse[j.val] := heq
    rw [heq] at hi
    exact Fin.ext (Place.freed.inj (hledger.once _ _ _ hi hj))
  · obtain ⟨i, hi⟩ := hgiven a ha
    cases hledger.once (.bucket b) (.freed i) a hb hi
  · obtain ⟨w, hw⟩ := hledger.found a ha
    cases w with
    | bucket b => exact ⟨b, hw, fun b' hb' => Place.bucket.inj (hledger.once (.bucket b') (.bucket b) a hb' hw)⟩
    | built c =>
        have hw : built st.threads c = some a := hw
        unfold built at hw
        rw [hidle c] at hw
        cases hw
    | replaced c =>
        have hw : replaced st.threads c = some a := hw
        unfold replaced at hw
        rw [hidle c] at hw
        cases hw
    | freed i => exact absurd (List.mem_reverse.mp (List.mem_of_getElem? hw)) hfree

/-- A run in which the install of a call comes too late: its node is destructed, and the node that it replaces in its
second attempt is retired. -/
theorem nodes_owned_once_run :
    ∃ (h : List (Machine.Event (Op Nat Nat) (Memory Nat Nat) Bool))
      (st : Machine.State Bool (Op Nat Nat) (Memory Nat Nat) Pos),
      Exec ((machine natKeys 0 .tryLock).system Initial) h st ∧ st.memory.given = [1, 0] ∧ st.memory.given.Nodup ∧
        ∃! w, place st w = some 2 := by
  obtain ⟨h, st, hexec, hgiven, hfresh⟩ :
      ∃ (h : List (Machine.Event (Op Nat Nat) (Memory Nat Nat) Bool))
        (st : Machine.State Bool (Op Nat Nat) (Memory Nat Nat) Pos),
        Exec ((machine natKeys 0 .tryLock).system Initial) h st ∧ (st.memory.given = [1, 0] ∧ 2 < st.memory.fresh) :=
    exists_exec_of_run _ (s := ⟨⟨fun _ => ⟨.node1, 1, []⟩, 0, fun _ => none, []⟩, fun _ => none, 0⟩)
      (List.flatten [[.call false (.insert 5 50), .call true (.insert 7 70), .step true true],
        List.replicate 3 (.step false true), List.replicate 5 (.step true true)])
      ⟨⟨fun _ => rfl, rfl, rfl⟩, fun _ => rfl, rfl⟩ (by decide +kernel)
  obtain ⟨honce, -, hnodup, -⟩ := nodes_owned_once hexec
  exact ⟨h, st, hexec, hgiven, hnodup, honce 2 hfresh⟩

end

end Verlib.HashBlock
