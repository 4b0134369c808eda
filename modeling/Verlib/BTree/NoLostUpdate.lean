import Verlib.BTree.Leaves
import Verlib.BTree.Termination
import Verlib.Interleaving.Ghost

/-!
# No lost update in the concurrent B-tree

What a call knows at its position: the nodes that it has entered need no repair, and the slot in which it has found a
node that needs one is not written by anybody else. This survives the steps of other threads, so the repairs keep the
contents of the tree, and an update changes them for its key only.
-/

namespace Verlib.BTree.Concurrent

open Separated Interleaving Machine

variable {K V ι : Type} [LinearOrder K]

/-! ## What a call knows -/

/-- A search has gone down from the slot `pidx` of `gp` to the slot `cidx` of `p`. -/
structure Below (L : Layout K) (m : Memory K V) (k : K) (gp pidx p cidx : Nat) : Prop where
  parent : Entered L m k gp pidx
  node : Entered L m k p cidx
  ne_root : p ≠ root
  ok : gp ≠ root → (m.blocks p).header.status = .ok

/-- A search has come to the leaf `l`, in which `o` has something to do. -/
structure Located (B : BlockSizes) (L : Layout K) (m : Memory K V) (o : Op K V) (p cidx l : Nat) : Prop where
  node : Entered L m o.key p cidx
  alloc : l < m.fresh
  leaf : ∃ status keyvals, m.blocks l = .leaf status keyvals ∧ keyvals.length < B.leaf ∧
    (p ≠ root → status = .ok) ∧ o.located keyvals p cidx l = .update p cidx l

/-- What a call of `o` knows at its position. -/
def Known (B : BlockSizes) (L : Layout K) (m : Memory K V) (o : Op K V) : Pos → Prop
  | .start => True
  | .load gp pidx p cidx => Below L m o.key gp pidx p cidx
  | .fixRoot c => c < m.fresh ∧ NeedsFix (m.blocks c).header
  | .fix gp pidx p cidx c => Below L m o.key gp pidx p cidx ∧ m.child p cidx = c ∧ c < m.fresh ∧
      (m.blocks c).header.status ≠ .ok
  | .readPtr .. => True
  | .readRemoved _ => True
  | .update p cidx l => Located B L m o p cidx l

section

variable {B : BlockSizes} {L L' : Layout K} {m m' : Memory K V} {o : Op K V} {k : K} {cidx gp pidx p i : Nat}
  {pos : Pos}

theorem Entered.mono (he : Entered L m k p i) (hext : Ext L m L' m') : Entered L' m' k p i := by
  obtain ⟨status, size, keys, children, hb, hpos⟩ := he.index
  obtain ⟨children', hb'⟩ := node_of_header (hext.header p he.alloc) hb
  refine ⟨he.alloc.trans_le hext.fresh, ⟨status, size, keys, children', hb', hpos⟩, he.covers.imp_right fun hk => ?_,
    fun hroot => ?_⟩
  · rw [hext.lo p he.alloc, hext.hi p he.alloc]
    exact hk
  · rw [hext.header p he.alloc]
    exact he.noFix hroot

theorem Below.mono (hb : Below L m k gp pidx p cidx) (hext : Ext L m L' m') : Below L' m' k gp pidx p cidx := by
  refine ⟨hb.parent.mono hext, hb.node.mono hext, hb.ne_root, fun hroot => ?_⟩
  rw [hext.header p hb.node.alloc]
  exact hb.ok hroot

/-- What a call knows survives the steps of others. -/
theorem Known.mono (hk : Known B L m o pos) (hext : Ext L m L' m') : Known B L' m' o pos := by
  cases pos with
  | start => trivial
  | load gp pidx p cidx => exact Below.mono hk hext
  | fixRoot c =>
      obtain ⟨hlt, hneeds⟩ := hk
      refine ⟨hlt.trans_le hext.fresh, ?_⟩
      rw [hext.header c hlt]
      exact hneeds
  | fix gp pidx p cidx c =>
      obtain ⟨hbelow, hc, hlt, hbad⟩ := hk
      refine ⟨hbelow.mono hext, ?_, hlt.trans_le hext.fresh, ?_⟩
      · -- the slot holds a node that needs a repair, so nobody has written it
        have hpinned := hext.pinned p hbelow.node.alloc hbelow.ne_root cidx
        rw [hc] at hpinned
        exact hpinned.resolve_right hbad
      · rw [hext.header c hlt]
        exact hbad
  | readPtr => trivial
  | readRemoved => trivial
  | update p cidx l =>
      obtain ⟨hnode, hlt, status, keyvals, hb, hleaf⟩ := hk
      exact ⟨hnode.mono hext, hlt.trans_le hext.fresh, status, keyvals, leaf_of_header (hext.header l hlt) hb, hleaf⟩

/-! ## Steps -/

/-- A search goes on at a child that needs no repair. -/
theorem visit_spec (hinv : Inv B L m) (hp : Entered L m o.key p cidx)
    (hfix : ¬ NeedsFix (m.blocks (m.child p cidx)).header)
    (hok : p ≠ root → (m.blocks (m.child p cidx)).header.status = .ok) :
    ∃ pos, o.visit m p cidx (m.child p cidx) = some pos ∧ Known B L m o pos := by
  obtain ⟨hcovers, ⟨h, lo, hi, hplaced⟩, -⟩ := hp.child hinv.wf
  have hblock := hinv.wf.block hplaced
  have hsize := hinv.wf.size _ hplaced.alloc hplaced.ne_root
  rw [Op.visit]
  cases hb : m.blocks (m.child p cidx) with
  | leaf status keyvals =>
      rw [hb] at hsize hfix hok
      refine ⟨_, rfl, ?_⟩
      have hlocated : ∀ b : Bool, o.located keyvals p cidx (m.child p cidx) =
          (if b then .readPtr p cidx (m.child p cidx) else .update p cidx (m.child p cidx)) →
          Known B L m o (o.located keyvals p cidx (m.child p cidx)) := by
        intro b heq
        cases b with
        | true =>
            rw [heq]
            trivial
        | false =>
            have hupdate : Located B L m o p cidx (m.child p cidx) :=
              ⟨hp, hplaced.alloc, status, keyvals, hb, hsize.room hfix, hok, heq⟩
            rw [heq]
            exact hupdate
      cases o with
      | insert k v upsert => exact hlocated _ rfl
      | remove k => exact hlocated _ rfl
  | node status size keys children =>
      rw [hb] at hblock
      obtain ⟨h', -, hchain⟩ := hblock
      obtain ⟨i, hfind, -, hpos⟩ := find_spec (k := o.key) (fun _ _ => hchain.sorted) hchain.size_pos
        fun j hj => absurd hj (Nat.not_lt_zero j)
      refine ⟨.load p cidx (m.child p cidx) i, by simp only [hfind, Option.map_some], hp, ?_, hplaced.ne_root, hok⟩
      exact ⟨hplaced.alloc, ⟨status, size, keys, children, hb, hpos⟩, hcovers, fun _ => hfix⟩

/-- The search starts at the root. -/
theorem entered_root (hwf : WellFormed B L m) (k : K) : Entered L m k root 0 := by
  obtain ⟨keys, children, htop, h, hplaced⟩ := hwf.top
  refine ⟨(Nat.zero_le _).trans_lt hplaced.alloc, ⟨.ok, 1, keys, children, htop, ?_⟩, .inl rfl,
    fun hne => absurd rfl hne⟩
  exact ⟨by omega, fun j hj => absurd hj (Nat.not_lt_zero j), fun j _ hj => absurd hj (by omega)⟩

/-- What a step does: it keeps the invariant, and it changes the contents only as its operation is to do. -/
structure StepOk (B : BlockSizes) (L : Layout K) (m : Memory K V) (o : Op K V) (L' : Layout K) (m' : Memory K V)
    (r : Pos ⊕ Bool) : Prop where
  inv : Inv B L' m'
  ext : Ext L m L' m'
  known : ∀ pos', r = .inl pos' → Known B L' m' o pos'
  same : r ≠ .inr true → ∀ k v, Contains m' k v ↔ Contains m k v
  changes : r = .inr true → o.Changes (Contains m) (Contains m')

/-- A step that only reads. -/
theorem StepOk.read {r : Pos ⊕ Bool} (hinv : Inv B L m) (hr : r ≠ .inr true)
    (hknown : ∀ pos', r = .inl pos' → Known B L m o pos') : StepOk B L m o L m r :=
  ⟨hinv, ⟨Grows.refl L m, fun _ _ _ _ => .inl rfl⟩, hknown, fun _ _ _ => Iff.rfl, fun heq => absurd heq hr⟩

/-- A repair, after which the search starts again. -/
theorem Repairs.stepOk (h : Repairs B L m m') : ∃ L', StepOk B L m o L' m' (.inl .start) := by
  obtain ⟨L', hinv', hext, hsame⟩ := h
  refine ⟨L', hinv', hext, fun pos' heq => ?_, fun _ => hsame, fun heq => by cases heq⟩
  cases heq
  trivial

/-- No step fails. -/
theorem step_spec (locks : Nat → Bool) (hinv : Inv B L m) (hk : Known B L m o pos) :
    ∃ m' r L', step B o m locks pos = some (m', r) ∧ StepOk B L m o L' m' r := by
  have hread : ∀ {pos'}, Known B L m o pos' → StepOk B L m o L m (.inl pos') := by
    intro pos' hk'
    refine .read hinv (fun heq => by cases heq) fun pos'' heq => ?_
    cases heq
    exact hk'
  cases pos with
  | start =>
      have hroot := entered_root hinv.wf o.key
      rw [step]
      by_cases hneeds : NeedsFix (m.blocks (m.child root 0)).header
      · obtain ⟨-, ⟨h, lo, hi, hplaced⟩, -⟩ := hroot.child hinv.wf
        simp only [if_pos hneeds]
        have hk' : Known B L m o (.fixRoot (m.child root 0)) := ⟨hplaced.alloc, hneeds⟩
        exact ⟨m, _, L, rfl, hread hk'⟩
      · obtain ⟨pos', hvisit, hk'⟩ := visit_spec hinv hroot hneeds fun hne => absurd rfl hne
        simp only [if_neg hneeds, hvisit, Option.map_some]
        exact ⟨m, _, L, rfl, hread hk'⟩
  | load gp pidx p cidx =>
      have hbelow : Below L m o.key gp pidx p cidx := hk
      obtain ⟨-, ⟨h, lo, hi, hplaced⟩, hsize⟩ := hbelow.node.child hinv.wf
      rw [step]
      by_cases hok : (m.blocks (m.child p cidx)).header.status = .ok
      · have hfix : ¬ NeedsFix (m.blocks (m.child p cidx)).header := fun hneeds =>
          (hsize hbelow.ne_root).bad_of_needsFix hneeds hok
        obtain ⟨pos', hvisit, hk'⟩ := visit_spec hinv hbelow.node hfix fun _ => hok
        simp only [if_pos hok, hvisit, Option.map_some]
        exact ⟨m, _, L, rfl, hread hk'⟩
      · simp only [if_neg hok]
        have hk' : Known B L m o (.fix gp pidx p cidx (m.child p cidx)) := ⟨hbelow, rfl, hplaced.alloc, hok⟩
        exact ⟨m, _, L, rfl, hread hk'⟩
  | fixRoot c =>
      obtain ⟨m', hfix, hrepairs⟩ := fixRoot_spec locks hinv hk.2
      obtain ⟨L', hok⟩ := hrepairs.stepOk (o := o)
      rw [step, hfix]
      exact ⟨m', _, L', rfl, hok⟩
  | fix gp pidx p cidx c =>
      obtain ⟨hbelow, hc, -, hbad⟩ := hk
      obtain ⟨m', hfix, hrepairs⟩ := fixNode_spec locks hinv hbelow.parent hbelow.node hbelow.ne_root
        hbelow.ok hc hbad
      obtain ⟨L', hok⟩ := hrepairs.stepOk (o := o)
      rw [step, hfix]
      exact ⟨m', _, L', rfl, hok⟩
  | readPtr p cidx l =>
      refine ⟨m, _, L, rfl, hread ?_⟩
      split
      · trivial
      · trivial
  | readRemoved p =>
      refine ⟨m, _, L, rfl, ?_⟩
      split
      · exact .read hinv (fun heq => by cases heq) fun pos' heq => by cases heq
      · exact hread trivial
  | update p cidx l =>
      obtain ⟨hnode, -, status, keyvals, hb, hroom, hok, hlocated⟩ := hk
      obtain ⟨m', r, hbody, L', hinv', hext, hsame, hchanges⟩ := body_spec locks hinv hnode hb hroom hok
        hlocated
      rw [step, hbody]
      cases r with
      | true =>
          exact ⟨m', .inr true, L', rfl, hinv', hext, fun pos' heq => (by cases heq), fun hne => absurd rfl hne,
            fun _ => hchanges rfl⟩
      | false =>
          obtain ⟨L'', hok⟩ := Repairs.stepOk (o := o) ⟨L', hinv', hext, hsame rfl⟩
          exact ⟨m', .inl .start, L'', rfl, hok⟩

end

/-! ## Runs -/

section

variable {B : BlockSizes} {m : Memory K V} {h : List (Event (Op K V) (Memory K V) Bool)}
  {st : State ι (Op K V) (Memory K V) Pos}

/-- The empty tree. -/
theorem Initial.inv (hm : Initial B m) : ∃ L, Inv B L m := by
  obtain ⟨keys, children, htop, hchild⟩ := hm.top
  have hone : ∀ a < m.fresh, a ≠ root → a = 1 := by
    intro a ha hne
    rw [hm.fresh] at ha
    have : a ≠ 0 := hne
    omega
  have hplaced : Placed ⟨fun _ => ⊥, fun _ => ⊤, fun _ => 0⟩ m 0 (⊥ : Bound K) ⊤ (children 0) := by
    rw [hchild]
    exact ⟨Nat.one_ne_zero, by rw [hm.fresh]; omega, rfl, rfl, rfl⟩
  refine ⟨⟨fun _ => ⊥, fun _ => ⊤, fun _ => 0⟩, ⟨⟨keys, children, htop, 0, hplaced⟩, hm.removed, fun a ha hne => ?_,
    fun a ha hne => ?_⟩, fun a ha hleaf hfix hlive => ?_⟩
  · rw [hone a ha hne, hm.leaf]
    exact ⟨rfl, Nat.zero_le _⟩
  · rw [hone a ha hne, hm.leaf]
    exact ⟨rfl, List.Pairwise.nil, fun kv hkv => absurd hkv List.not_mem_nil⟩
  · by_cases hne : a = root
    · rw [hne]
      exact .root
    · rw [hone a ha hne, hm.leaf] at hleaf
      cases hleaf

/-- The layout is the ghost state of the tree. -/
def guarded (B : BlockSizes) : Guarded (machine B : Machine (Op K V) _ _ _ _) (Initial B) (Layout K) where
  Inv := Inv B
  Known := Known B
  Ext := Ext
  initial _ hm := hm.inv
  start _ _ _ := trivial
  other _ _ _ _ _ _ hext hk := hk.mono hext
  step L m o locks pos m' r hinv hk hstep := by
    obtain ⟨m₁, r₁, L', hstep₁, hok⟩ := step_spec locks hinv hk
    have hstep : step B o m locks pos = some (m', r) := hstep
    rw [hstep₁] at hstep
    cases hstep
    exact ⟨L', hok.inv, hok.ext, hok.known⟩

variable [DecidableEq ι]

/-- In every state of every run: when `underfull_node` passes its test, its slot of `p` holds the `c` that it was called
with; no step fails, and no step changes the contents of the tree but a successful body of `try_insert` or
`try_remove`, which adds, replaces or deletes its key and leaves the other keys as they are. -/
theorem btree_no_lost_update (hexec : Exec ((machine B).system (Initial B)) h st) :
    (∀ t op o gp pidx p cidx c, st.threads t = some (op, o, .fix gp pidx p cidx c) →
      (st.memory.blocks c).header.status ≠ .isOver → st.memory.removed gp = false ∧ st.memory.child gp pidx = p →
      st.memory.child p cidx = c) ∧
    ∀ t op o pos locks, st.threads t = some (op, o, pos) → ∃ m' r, step B o st.memory locks pos = some (m', r) ∧
      (r ≠ .inr true → ∀ k v, Contains m' k v ↔ Contains st.memory k v) ∧
      (r = .inr true → o.Changes (Contains st.memory) (Contains m')) := by
  obtain ⟨L, hinv, hknown⟩ : (guarded B).RunInv st := (guarded B).known hexec
  refine ⟨fun t op o gp pidx p cidx c ht _ _ => ?_, fun t op o pos locks ht => ?_⟩
  · obtain ⟨-, hc, -⟩ : Known B L st.memory o (.fix gp pidx p cidx c) := hknown t op o _ ht
    exact hc
  · obtain ⟨m', r, L', hstep, hok⟩ := step_spec locks hinv (hknown t op o pos ht)
    exact ⟨m', r, hstep, hok.same, hok.changes⟩

set_option synthInstance.maxSize 256 in
/-- A run with blocks of five: while one thread is about to repair the leaf of 2, which is too small, another has
replaced its neighbour, and is about to do so again. -/
theorem btree_no_lost_update_run :
    ∃ (h : List (Event (Op Nat Unit) (Memory Nat Unit) Bool)) (st : State Bool (Op Nat Unit) (Memory Nat Unit) Pos),
      Exec ((machine five).system (Initial five)) h st ∧ st.memory.child 9 0 = 10 ∧
      (∃ m', step five (.remove 2) st.memory (fun _ => true) (.fix root 0 9 0 10) = some (m', .inl .start) ∧
        ∀ k v, Contains m' k v ↔ Contains st.memory k v) ∧
      ∃ m', step five (.insert 7 () false) st.memory (fun _ => true) (.update 9 1 11) = some (m', .inr true) ∧
        (Op.insert 7 () false).Changes (Contains st.memory) (Contains m') := by
  obtain ⟨h, st, hexec, ⟨hfix, hupdate⟩, ⟨hunder, htest⟩, hinserts⟩ :
      ∃ (h : List (Event (Op Nat Unit) (Memory Nat Unit) Bool)) (st : State Bool (Op Nat Unit) (Memory Nat Unit) Pos),
        Exec ((machine five).system (Initial five)) h st ∧
          ((st.threads true = some (6, .remove 2, .fix root 0 9 0 10) ∧
            st.threads false = some (8, .insert 7 () false, .update 9 1 11)) ∧
            ((st.memory.blocks 10).header.status ≠ .isOver ∧
              st.memory.removed root = false ∧ st.memory.child root 0 = 9) ∧
            (step five (.insert 7 () false) st.memory (fun _ => true) (.update 9 1 11)).map Prod.snd =
              some (.inr true)) :=
    exists_exec_of_run _
      (s := ⟨⟨fun a => if a = 0 then .node .ok 1 (fun _ => 0) fun _ => 1 else .leaf .ok [], fun _ => false, 2⟩,
        fun _ => none, 0⟩)
      (List.flatten [[.call false (.insert 1 () false)], List.replicate 2 (.step false fun _ => true),
        [.call false (.insert 2 () false)], List.replicate 2 (.step false fun _ => true),
        [.call false (.insert 3 () false)], List.replicate 2 (.step false fun _ => true),
        [.call false (.insert 4 () false)], List.replicate 2 (.step false fun _ => true),
        [.call false (.insert 5 () false)], List.replicate 2 (.step false fun _ => true),
        [.call false (.remove 1)], List.replicate 5 (.step false fun _ => true),
        [.call true (.remove 2)], List.replicate 2 (.step true fun _ => true),
        [.call false (.insert 6 () false)], List.replicate 3 (.step false fun _ => true),
        [.call false (.insert 7 () false)], List.replicate 2 (.step false fun _ => true)])
      ⟨⟨⟨_, _, rfl, rfl⟩, rfl, rfl, rfl⟩, fun _ => rfl, rfl⟩ (by decide +kernel)
  obtain ⟨hpinned, hsteps⟩ := btree_no_lost_update hexec
  obtain ⟨m₁, r₁, hstep₁, hsame, -⟩ := hsteps true _ _ _ (fun _ => true) hfix
  obtain ⟨m₂, r₂, hstep₂, -, hchanges⟩ := hsteps false _ _ _ (fun _ => true) hupdate
  have hr₁ : r₁ = .inl .start := by
    obtain ⟨m', -, heq⟩ := Option.map_eq_some_iff.mp hstep₁
    cases heq
    rfl
  rw [hstep₂] at hinserts
  have hr₂ : r₂ = .inr true := Option.some.inj hinserts
  rw [hr₁] at hstep₁ hsame
  rw [hr₂] at hstep₂ hchanges
  exact ⟨h, st, hexec, hpinned true _ _ _ _ _ _ _ hfix hunder htest, ⟨m₁, hstep₁, hsame (by decide)⟩,
    m₂, hstep₂, hchanges rfl⟩

end

end Verlib.BTree.Concurrent
