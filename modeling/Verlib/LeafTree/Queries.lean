import Verlib.Interleaving.Hindsight
import Verlib.Interleaving.Readers
import Verlib.LeafTree.Linear
import Verlib.OrderedMap.Relation

/-!
# `find_` and `find_locked` of the concurrent leaf-oriented tree

`find_` goes down to a leaf without a lock, also through internal nodes that others have unlinked meanwhile, and
returns what the leaf says. `find_locked` looks again whether the leaf is still below its parent, and if not, starts
again; as `read_lock` runs its body without a lock, the two loads of this test are two steps. The answers are values,
so the updates are taken here with the pairs that they add and delete.
-/

namespace Verlib.LeafTree.Concurrent

open ExternalTree OrderedMap Interleaving Machine

/-- The operations that only read. -/
inductive Query (K : Type) where
  | find (k : K)
  | findLocked (k : K)
  deriving DecidableEq

/-- The key that is looked for. -/
def Query.key {K : Type} : Query K → K
  | .find k => k
  | .findLocked k => k

/-- Positions of a call: before the first load, in the loop of the search, and before the two loads of the
validation. -/
inductive QueryPos where
  | start
  | search (p : Nat) (pLeft : Bool) (l : Nat)
  | readPtr (p : Nat) (pLeft : Bool) (l : Nat)
  | readRemoved (p l : Nat)
  deriving DecidableEq

section

variable {K V : Type} [LinearOrder K]

/-- `Equal(k, l) ? std::optional<V>(l->value) : std::optional<V>()`. -/
def Memory.answer (m : Memory K V) (k : K) (l : Nat) : Option V :=
  if m.equal k l then some (m.nodes l).value else none

/-- `find_` or `try_find` at the leaf. -/
def Query.located (q : Query K) (m : Memory K V) (p : Nat) (pLeft : Bool) (l : Nat) : QueryPos ⊕ Option V :=
  match q with
  | .find k => .inr (m.answer k l)
  | .findLocked _ => .inl (.readPtr p pLeft l)

/-- One turn of the loop of the search. -/
def Query.visit (q : Query K) (m : Memory K V) (p : Nat) (pLeft : Bool) (l : Nat) : QueryPos ⊕ Option V :=
  if (m.nodes l).isLeaf then q.located m p pLeft l
  else
    let left := m.less q.key l
    .inl (.search l left (m.child l left))

/-- One step of a call. -/
def Query.step (q : Query K) (m : Memory K V) : QueryPos → Option (QueryPos ⊕ Option V)
  | .start => some (.inl (.search root true (m.child root true)))
  | .search p pLeft l => some (q.visit m p pLeft l)
  | .readPtr p pLeft l => some (.inl (if m.child p pLeft = l then .readRemoved p l else .start))
  | .readRemoved p l => some (if (m.nodes p).removed = false then .inr (m.answer q.key l) else .inl .start)

/-- The calls that only read. -/
def reader : Reader (Query K) (Memory K V) QueryPos (Option V) := ⟨fun _ => .start, Query.step⟩

end

/-! ## What the tree is for -/

section

variable {K V : Type}

/-- The pairs of the leaves. -/
def Memory.Maps (m : Memory K V) (k : K) (v : V) : Prop :=
  ∃ t, m.Shape t (m.nodes root).left ∧
    ∃ a ∈ t.leaves, (m.nodes a).isSentinal = false ∧ (m.nodes a).key = k ∧ (m.nodes a).value = v

/-- What an operation that returns true does to the pairs. -/
def Op.Changes (o : Op K V) (before after : K → V → Prop) : Prop :=
  match o with
  | .insert k v => Adds before after k v
  | .remove k => Deletes before after k

/-- Why an operation may return false. -/
def Op.Idle (o : Op K V) (content : K → V → Prop) : Prop :=
  match o with
  | .insert k _ => ∃ v, content k v
  | .remove k => ∀ v, ¬ content k v

/-- What the updates are to do to the map. -/
def mapSpec : Spec (Op K V) (Memory K V) Bool where
  Same m m' := ∀ k v, m'.Maps k v ↔ m.Maps k v
  Effect o r m m' := r = true ∧ o.Changes m.Maps m'.Maps
  Refused o r m := r = false ∧ o.Idle m.Maps

/-- The right answer to a query. -/
def Answer (q : Query K) (t : Option V) (m : Memory K V) : Prop := Answers m.Maps q.key t

end

variable {K V : Type} [LinearOrder K]

section

variable {m m' : Memory K V} {t t' : ExtTree Nat Nat} {f : K → Option V} {o : Op K V} {k : K} {v : V}
  {a l p : Nat} {loc : Place} {pos : Pos} {locks : Nat → Bool} {past : Memory K V → Prop}

theorem MemInv.maps_iff (hm : MemInv m t) (hf : Represents (m.view t) f) : m.Maps k v ↔ f k = some v := by
  rw [← hf.mem, Memory.view, ExtTree.leaves_map, List.mem_map]
  constructor
  · intro h
    obtain ⟨t', hshape, a, ha, hsentinal, hkey, hvalue⟩ := h
    rw [hshape.unique hm.shape] at ha
    exact ⟨a, ha, by rw [Memory.leafOf, hsentinal, hkey, hvalue]; rfl⟩
  · intro h
    obtain ⟨a, ha, hleaf⟩ := h
    rw [Memory.leafOf] at hleaf
    split at hleaf
    next => cases hleaf
    next hsentinal =>
        cases hleaf
        exact ⟨t, hm.shape, a, ha, Bool.eq_false_iff.mpr hsentinal, rfl, rfl⟩

/-- The keys of the pairs are those of the tree. -/
theorem MemInv.exists_maps (hm : MemInv m t) : (∃ v, m.Maps k v) ↔ k ∈ m.content := by
  obtain ⟨f, hf⟩ := hm.map
  rw [hm.mem_content hf, Option.isSome_iff_exists]
  exact exists_congr fun v => hm.maps_iff hf

/-- A search that is at a node of the tree with a leaf below knows what the tree has for the key. -/
theorem MemInv.answers_of_onPath (hm : MemInv m t) (h : m.OnPath k p)
    (hleaf : (m.nodes (m.child p (m.turn k p))).isLeaf = true) :
    Answers m.Maps k (m.answer k (m.child p (m.turn k p))) := by
  obtain ⟨f, hf⟩ := hm.map
  obtain ⟨before, after, hfound⟩ := hf.search k
  have hsearch : (m.view t).search (toward k) = m.leafOf (m.child p (m.turn k p)) := by
    rw [Memory.view, ExtTree.search_map]
    exact congrArg m.leafOf (hm.search_eq h hleaf)
  have hvalue := hfound.valueFor
  rw [hsearch] at hvalue
  intro v
  rw [hm.maps_iff hf, ← hvalue, Memory.answer, ← equal_leafOf]
  unfold Memory.leafOf
  cases (m.nodes (m.child p (m.turn k p))).isSentinal with
  | true => exact Iff.rfl
  | false => exact Iff.rfl

/-! ## The updates, with their values -/

/-- The body of `try_insert` adds its pair. -/
theorem MemInv.insert_maps (hm : MemInv m t) (hp : m.OnPath k p) (hl : m.child p (m.turn k p) = l)
    (hleaf : (m.nodes l).isLeaf = true) (hne : m.equal k l = false) (h : Inserted m m' p (m.turn k p) l k v) :
    Adds m.Maps m'.Maps k v := by
  obtain ⟨hm', hview⟩ := h.memInv hm hp hl hleaf hne
  obtain ⟨f, hf⟩ := hm.map
  have hnone : f k = none := by
    have hanswers := hm.answers_of_onPath hp (hl ▸ hleaf)
    rw [hl, Memory.answer, hne] at hanswers
    cases hk : f k with
    | none => rfl
    | some v' => exact absurd ((hanswers v').mpr ((hm.maps_iff hf).mpr hk)) (by simp)
  have hf' := (hf.tryInsert k v false).2
  rw [← hview, hnone, if_neg (by simp)] at hf'
  exact adds_update (fun _ _ => hm.maps_iff hf) (fun _ _ => hm'.maps_iff hf') hnone

/-- The body of `try_remove` deletes the pair of its key. -/
theorem MemInv.remove_maps {gp : Nat} (hm : MemInv m t) (hgp : m.OnPath k gp) (hp : m.child gp (m.turn k gp) = p)
    (hinner : (m.nodes p).isLeaf = false) (hl : m.child p (m.turn k p) = l) (hleaf : (m.nodes l).isLeaf = true)
    (heq : m.equal k l = true) (h : Pruned m m' gp p (m.turn k gp) (m.turn k p)) :
    Deletes m.Maps m'.Maps k := by
  subst hl
  obtain ⟨hm', -, hview⟩ := h.memInv hm hgp hp hinner hleaf heq
  obtain ⟨f, hf⟩ := hm.map
  obtain ⟨t', hremove, hf'⟩ := hf.remove k
  rw [hview, Option.some.injEq] at hremove
  have hsome : (f k).isSome = true := (Prod.mk.inj hremove).2.symm
  rw [← (Prod.mk.inj hremove).1, if_pos hsome] at hf'
  exact deletes_update (fun _ _ => hm.maps_iff hf) (fun _ _ => hm'.maps_iff hf') hsome

/-- The body of an operation does to the pairs what the operation should do. -/
theorem body_maps (hm : MemInv m t) (h : Ended m past o.key loc) (htodo : o.Todo m loc.l)
    (hbody : o.body m locks loc = some m') : o.Changes m.Maps m'.Maps := by
  cases o with
  | insert k v =>
      rw [Op.body, insertBody] at hbody
      split at hbody
      next hcond =>
          obtain ⟨-, hlive, hl⟩ := hcond
          cases hbody
          have hpath := h.p.path hlive
          rw [h.p.turn] at hl ⊢
          exact hm.insert_maps hpath hl h.leaf htodo (inserted m h.p.allocated.2 _ loc.l k v)
      next => cases hbody
  | remove k =>
      rw [Op.body, removeBody] at hbody
      split at hbody
      next hcond =>
          obtain ⟨-, -, hlive, hp, hl⟩ := hcond
          cases hbody
          have hanchor : Anchor m k loc.gp loc.gpLeft := by
            refine h.gp.resolve_left fun hzero => ?_
            have hsentinal := equal_sentinal (k := k) (h.header hzero h.leaf)
            rw [show m.equal k loc.l = true from htodo] at hsentinal
            cases hsentinal
          have hpath := hanchor.path hlive
          rw [hanchor.turn] at hp ⊢
          rw [h.p.turn] at hl ⊢
          exact hm.remove_maps hpath hp h.p.inner hl h.leaf htodo (pruned m loc.gp loc.p _ _)
      next => cases hbody

/-- A step that writes is the body of an update that returns true. -/
theorem step_writes {r : Pos ⊕ Bool} (hstep : step o m locks pos = some (m', r)) :
    m' = m ∨ ∃ loc, pos = .lock loc ∧ o.body m locks loc = some m' ∧ r = .inr true := by
  cases pos with
  | lock loc =>
      rw [step] at hstep
      split at hstep
      next hbody =>
          cases hstep
          exact .inr ⟨loc, rfl, hbody, rfl⟩
      · cases hstep
        exact .inl rfl
  | _ =>
      cases hstep
      exact .inl rfl

omit [LinearOrder K] in
theorem Kept.refl (m : Memory K V) (a : Nat) : Kept m m a := .of_eq rfl

/-- The keys and the values of the nodes are not written. -/
theorem step_kept {r : Pos ⊕ Bool} (h : Known o m past pos) (hstep : step o m locks pos = some (m', r))
    (ha : a < m.fresh) : Kept m m' a := by
  obtain rfl | ⟨loc, rfl, hbody, -⟩ := step_writes hstep
  · exact .refl _ a
  · obtain ⟨hended, -⟩ := h
    cases o with
    | insert k v =>
        rw [Op.body, insertBody] at hbody
        split at hbody
        · cases hbody
          exact (inserted m hended.p.allocated.2 _ loc.l k v).kept a ha
        · cases hbody
    | remove k =>
        rw [Op.body, removeBody] at hbody
        split at hbody
        · cases hbody
          exact (pruned m loc.gp loc.p _ _).kept a
        · cases hbody

/-- Every step of an update, with the pairs. -/
theorem step_maps {r : Pos ⊕ Bool} (hm : MemInv m t) (h : Known o m past pos)
    (hstep : step o m locks pos = some (m', r)) :
    (∀ pos', r = .inl pos' → m' = m) ∧
      ∀ b, r = .inr b → b = true ∧ o.Changes m.Maps m'.Maps ∨
        m' = m ∧ b = false ∧ ∃ m₀, (past m₀ ∨ m₀ = m) ∧ o.Refused m₀.content := by
  have hok := step_ok hm h hstep
  refine ⟨fun pos' heq => (hok.move pos' heq).1, fun b heq => ?_⟩
  obtain rfl | ⟨loc, rfl, hbody, hr⟩ := step_writes hstep
  · cases hok.ret b heq with
    | inl heffect =>
        -- an operation that returns true changes the keys
        obtain ⟨-, heffect⟩ := heffect
        cases o with
        | insert k v =>
            obtain ⟨hk, hnew⟩ := heffect
            refine absurd ?_ hk
            show k ∈ m'.content
            rw [hnew]
            exact .inr rfl
        | remove k =>
            obtain ⟨hk, hnew⟩ := heffect
            rw [show m'.content = m'.content \ {k} from hnew] at hk
            exact absurd rfl hk.2
    | inr hrefused =>
        obtain ⟨-, m₀, hm₀, hb, hr⟩ := hrefused
        exact .inr ⟨rfl, hb, m₀, hm₀, hr⟩
  · rw [hr] at heq
    cases heq
    exact .inl ⟨rfl, body_maps hm h.1 h.2 hbody⟩

/-- Why an operation may return false, by the keys and by the pairs. -/
theorem MemInv.idle (hm : MemInv m t) (h : o.Refused m.content) : o.Idle m.Maps := by
  cases o with
  | insert k v => exact hm.exists_maps.mpr h
  | remove k => exact fun v hv => h (hm.exists_maps.mp ⟨v, hv⟩)

end

/-- What a step may do. -/
structure Moves (n n' : Unit × Memory K V) : Prop where
  ext : Ext n.2 n'.2
  kept : ∀ a < n.2.fresh, Kept n.2 n'.2 a

/-- The moments at which the invariant held. -/
def Sane (past : Unit × Memory K V → Prop) (m : Memory K V) : Prop := past ((), m) ∧ ∃ t, MemInv m t

/-- What an update knows of the memories at which the invariant held. -/
def Informed (o : Op K V) (pos : Pos) (n : Unit × Memory K V) (past : Unit × Memory K V → Prop) : Prop :=
  Known o n.2 (Sane past) pos

/-- An update returns in the step in which it takes effect. -/
def decided (_ : Pos) : Option Bool := none

section

variable {n n' : Unit × Memory K V} {m m' : Memory K V} {past past' : Unit × Memory K V → Prop} {o : Op K V} {pos : Pos}
  {locks : Nat → Bool} {r : Pos ⊕ Bool}

theorem Informed.weaken (hpast : ∀ n₀, past n₀ → past' n₀) (h : Informed o pos n past) : Informed o pos n past' :=
  Known.weaken (fun _ hm₀ => ⟨hpast _ hm₀.1, hm₀.2⟩) h

theorem sane_or {m₀ : Memory K V} (hm : ∃ t, MemInv n.2 t) (h : Sane past m₀ ∨ m₀ = n.2) :
    Sane (fun n₀ => past n₀ ∨ n₀ = n) m₀ := by
  cases h with
  | inl h => exact ⟨.inl h.1, h.2⟩
  | inr heq =>
      subst heq
      exact ⟨.inr rfl, hm⟩

/-- The steps of others take nothing away. -/
theorem Informed.move (hm : ∃ t, MemInv n.2 t) (hm' : ∃ t, MemInv n'.2 t) (hmove : Moves n n')
    (h : Informed o pos n past) : Informed o pos n' fun n₀ => past n₀ ∨ n₀ = n' := by
  obtain ⟨t, ht⟩ := hm
  obtain ⟨t', ht'⟩ := hm'
  exact (Known.ext ht ht' hmove.ext h).weaken fun m₀ hm₀ => sane_or ⟨t', ht'⟩ hm₀

/-- What a step of an update makes of what it knows. -/
theorem Informed.step (hm : ∃ t, MemInv m t) (h : Informed o pos ((), m) past)
    (hstep : machine.step o m locks pos = some (m', r)) :
    Outcome mapSpec Informed decided o pos m ((), m') past r := by
  obtain ⟨t, ht⟩ := hm
  obtain ⟨hsame, hret⟩ := step_maps ht h hstep
  cases r with
  | inl pos' =>
      obtain rfl := hsame pos' rfl
      obtain ⟨-, hknown⟩ := (step_ok ht h hstep).move pos' rfl
      exact ⟨hknown.weaken fun m₀ hm₀ => sane_or (n := ((), m')) ⟨t, ht⟩ hm₀, .inl ⟨rfl, fun _ _ => Iff.rfl⟩⟩
  | inr b =>
      refine .inr ⟨rfl, ?_⟩
      cases hret b rfl with
      | inl heffect => exact .inl heffect
      | inr hrefused =>
          obtain ⟨rfl, hb, m₀, hm₀, hr⟩ := hrefused
          obtain ⟨hpast, t₀, ht₀⟩ := sane_or (n := ((), m')) ⟨t, ht⟩ hm₀
          exact .inr ⟨fun _ _ => Iff.rfl, ((), m₀), hpast, hb, ht₀.idle hr⟩

end

/-- The updates, with the pairs that they add and delete. -/
def updates : Tracked (machine (K := K) (V := V)) mapSpec Initial Unit where
  Inv n := ∃ t, MemInv n.2 t
  Ext := Moves
  Known := Informed
  done := decided
  initial _ hm := ⟨(), _, hm.memInv⟩
  start _ _ _ _ := trivial
  start_done _ := rfl
  weaken _ _ _ _ _ hpast h := h.weaken hpast
  other _ _ _ _ _ hm hm' hmove h := h.move hm hm' hmove
  step o pos g m locks m' r hm hk hstep := by
    obtain ⟨t, ht⟩ := hm
    obtain ⟨past₀, hk⟩ := hk
    have hok := step_ok ht hk hstep
    exact ⟨(), hok.inv, ⟨hok.ext, fun a ha => step_kept hk hstep ha⟩, fun past h => h.step ⟨t, ht⟩ hstep⟩

/-! ## Searches that do not lock -/

/-- The way of a search for `k`: the internal nodes that it visits, with the child to which it goes and what it reads
there. -/
def route (k : K) : Route (Unit × Memory K V) Nat (Nat × Bool × Option V) where
  On n p := (∃ t, MemInv n.2 t) ∧ n.2.OnPath k p
  Alloc n p := n.2.Allocated p ∧ (n.2.nodes p).isLeaf = false ∧ ((n.2.nodes p).removed = false → n.2.OnPath k p)
  links n p :=
    let l := n.2.child p (n.2.turn k p)
    (l, (n.2.nodes l).isLeaf, n.2.answer k l)
  alloc n p hon := by
    obtain ⟨⟨t, hm⟩, hpath⟩ := hon
    exact ⟨hm.alloc_of_onPath hpath, hm.isLeaf_of_onPath hpath, fun _ => hpath⟩

section

variable {n n' : Unit × Memory K V} {t t' : ExtTree Nat Nat} {k : K} {a l p : Nat} {left : Bool} {q : Query K}
  {pos : QueryPos} {past past' : Unit × Memory K V → Prop}

theorem Moves.refl (n : Unit × Memory K V) : Moves n n := ⟨Ext.refl n.2, fun a _ => Kept.refl n.2 a⟩

theorem Moves.answer (hmove : Moves n n') (ha : a < n.2.fresh) : n'.2.answer k a = n.2.answer k a := by
  unfold Memory.answer
  rw [hmove.ext.equal ha, (hmove.kept a ha).value]

/-- The child to which a search goes. -/
theorem MemInv.turn_child {m : Memory K V} (hm : MemInv m t) (hp : m.Allocated p) (hinner : (m.nodes p).isLeaf = false) :
    m.Allocated (m.child p (m.turn k p)) ∧ m.child p (m.turn k p) ≠ root :=
  hm.child p hp hinner _ fun heq => by simp [Memory.turn, heq]

/-- Steps of updates write only on the way. -/
theorem Moves.keeps (hmove : Moves n n') (hm : MemInv n.2 t) (hm' : MemInv n'.2 t') : (route k).Keeps n n' := by
  intro p halloc
  obtain ⟨hp, hinner, hlive⟩ := halloc
  have hinner' : (n'.2.nodes p).isLeaf = false := (hmove.ext.isLeaf p hp.2).trans hinner
  have hlive' : (n'.2.nodes p).removed = false → n'.2.OnPath k p := fun hlive' =>
    hmove.ext.onPath k p hp.2 hlive' (hlive (hmove.ext.removed p hp.2 hlive'))
  refine ⟨⟨hmove.ext.allocated hp, hinner', hlive'⟩, ?_⟩
  cases hmove.ext.child p hp.2 hinner' with
  | inl hsame =>
      left
      have hl := (hm.turn_child (k := k) hp hinner).1.2
      show (_, _, _) = (_, _, _)
      rw [hmove.ext.turn hp.2, hsame, hmove.ext.isLeaf _ hl, hmove.answer hl]
  | inr hboth => exact .inr ⟨⟨t', hm'⟩, hlive' hboth.2⟩

/-- There was a moment at which `t` was the right answer. -/
def Told (past : Unit × Memory K V → Prop) (k : K) (t : Option V) : Prop := ∃ n₀, past n₀ ∧ Answers n₀.2.Maps k t

/-- A search that has loaded `l`. -/
structure Come (n : Unit × Memory K V) (past : Unit × Memory K V → Prop) (k : K) (l : Nat) : Prop where
  alloc : n.2.Allocated l ∧ l ≠ root
  inner : (n.2.nodes l).isLeaf = false → (route k).Search past n l
  leaf : (n.2.nodes l).isLeaf = true → Told past k (n.2.answer k l)

/-- What a query knows at its position. -/
def QueryKnown (q : Query K) (pos : QueryPos) (n : Unit × Memory K V) (past : Unit × Memory K V → Prop) : Prop :=
  match pos with
  | .start => True
  | .search _ _ l => Come n past q.key l
  | .readPtr _ _ l | .readRemoved _ l => l < n.2.fresh ∧ Told past q.key (n.2.answer q.key l)

omit [LinearOrder K] in
theorem Told.weaken {r : Option V} (h : Told past k r) (hpast : ∀ n₀, past n₀ → past' n₀) : Told past' k r := by
  obtain ⟨n₀, hn₀, hr⟩ := h
  exact ⟨n₀, hpast n₀ hn₀, hr⟩

theorem Come.weaken (h : Come n past k l) (hpast : ∀ n₀, past n₀ → past' n₀) : Come n past' k l :=
  ⟨h.alloc, fun hinner => (h.inner hinner).weaken hpast, fun hleaf => (h.leaf hleaf).weaken hpast⟩

theorem QueryKnown.weaken (hk : QueryKnown q pos n past) (hpast : ∀ n₀, past n₀ → past' n₀) :
    QueryKnown q pos n past' := by
  cases pos with
  | start => trivial
  | search p left l => exact Come.weaken hk hpast
  | readPtr p left l => exact ⟨hk.1, hk.2.weaken hpast⟩
  | readRemoved p l => exact ⟨hk.1, hk.2.weaken hpast⟩

theorem Told.move (hl : l < n.2.fresh) (h : Told past k (n.2.answer k l)) (hmove : Moves n n') :
    Told (fun n₀ => past n₀ ∨ n₀ = n') k (n'.2.answer k l) := by
  rw [hmove.answer hl]
  exact h.weaken fun _ => .inl

/-- What a query knows survives the steps of others. -/
theorem QueryKnown.move (hk : QueryKnown q pos n past) (hmove : Moves n n') (hm : MemInv n.2 t)
    (hm' : MemInv n'.2 t') : QueryKnown q pos n' fun n₀ => past n₀ ∨ n₀ = n' := by
  cases pos with
  | start => trivial
  | search p left l =>
      have hk : Come n past q.key l := hk
      have hlt := hk.alloc.1.2
      refine ⟨⟨hmove.ext.allocated hk.alloc.1, hk.alloc.2⟩, fun hinner => ?_, fun hleaf => ?_⟩
      · rw [hmove.ext.isLeaf l hlt] at hinner
        exact (hk.inner hinner).step (hmove.keeps hm hm')
      · rw [hmove.ext.isLeaf l hlt] at hleaf
        exact (hk.leaf hleaf).move hlt hmove
  | readPtr p left l => exact ⟨hk.1.trans_le hmove.ext.fresh, hk.2.move hk.1 hmove⟩
  | readRemoved p l => exact ⟨hk.1.trans_le hmove.ext.fresh, hk.2.move hk.1 hmove⟩

/-- A search loads the next child. -/
theorem Come.load (hm : MemInv n.2 t) (hs : (route k).Search past n p) :
    Come n past k (n.2.child p (n.2.turn k p)) := by
  obtain ⟨hp, hinner, -⟩ := hs.alloc
  refine ⟨hm.turn_child hp hinner, fun hnext => ?_, fun hleaf => ?_⟩
  · refine hs.follow fun n₁ _ hon hlinks => ?_
    obtain ⟨⟨t₁, hm₁⟩, hpath⟩ := hon
    obtain ⟨hchild, hkind⟩ := Prod.mk.inj hlinks
    have hkind := (Prod.mk.inj hkind).1
    have hnext₁ := hm₁.onPath_child hpath (hkind.trans hnext)
    rw [hchild] at hnext₁
    exact ⟨⟨t₁, hm₁⟩, hnext₁⟩
  · -- the leaf was below the node when this was on the way
    obtain ⟨n₁, hn₁, ⟨⟨t₁, hm₁⟩, hpath⟩, hlinks⟩ := hs.moment
    obtain ⟨-, hread⟩ := Prod.mk.inj hlinks
    obtain ⟨hkind, hanswer⟩ := Prod.mk.inj hread
    have hanswers := hm₁.answers_of_onPath hpath (hkind.trans hleaf)
    rw [hanswer] at hanswers
    exact ⟨n₁, hn₁, hanswers⟩

/-- The query returns an answer that was right, or goes on. -/
def QueryOk (q : Query K) (n : Unit × Memory K V) (past : Unit × Memory K V → Prop) : QueryPos ⊕ Option V → Prop
  | .inl pos => QueryKnown q pos n past
  | .inr r => Told past q.key r

/-- Every step of a query. -/
theorem queryStep_ok {next : QueryPos ⊕ Option V} (hm : MemInv n.2 t) (hk : QueryKnown q pos n past)
    (hstep : q.step n.2 pos = some next) : QueryOk q n (fun n₀ => past n₀ ∨ n₀ = n) next := by
  have hmore : QueryKnown q pos n fun n₀ => past n₀ ∨ n₀ = n := hk.weaken fun _ => .inl
  cases pos with
  | start =>
      cases hstep
      have hstart : (route q.key).Search (fun n₀ => past n₀ ∨ n₀ = n) n root := .start (.inr rfl) ⟨⟨t, hm⟩, .inl rfl⟩
      exact Come.load hm hstart
  | search p left l =>
      cases hstep
      have hmore : Come n (fun n₀ => past n₀ ∨ n₀ = n) q.key l := hmore
      unfold Query.visit
      cases hleaf : (n.2.nodes l).isLeaf with
      | true =>
          cases q with
          | find k => exact hmore.leaf hleaf
          | findLocked k => exact ⟨hmore.alloc.1.2, hmore.leaf hleaf⟩
      | false =>
          have hcome := Come.load hm (hmore.inner hleaf)
          rw [← hm.less hmore.alloc.1 hleaf hmore.alloc.2] at hcome
          exact hcome
  | readPtr p left l =>
      cases hstep
      by_cases hload : n.2.child p left = l
      · rw [if_pos hload]
        exact hmore
      · rw [if_neg hload]
        trivial
  | readRemoved p l =>
      cases hstep
      by_cases hlive : (n.2.nodes p).removed = false
      · rw [if_pos hlive]
        exact hmore.2
      · rw [if_neg hlive]
        trivial

end

/-- The operations that only read. -/
def queries : Reads (updates (K := K) (V := V)) reader Answer where
  Known := QueryKnown
  start _ _ _ _ := trivial
  weaken _ _ _ _ _ hpast hk := hk.weaken hpast
  other _ _ _ _ _ hm hm' hmove hk := by
    obtain ⟨t, hm⟩ := hm
    obtain ⟨t', hm'⟩ := hm'
    exact hk.move hmove hm hm'
  move _ _ _ _ _ hm hk hstep := by
    obtain ⟨t, hm⟩ := hm
    exact queryStep_ok hm hk hstep
  ret _ _ _ _ _ hm hk hstep := by
    obtain ⟨t, hm⟩ := hm
    exact queryStep_ok hm hk hstep

/-! ## Runs -/

section

variable {ι : Type} [DecidableEq ι]
  {h : List (Event (Op K V ⊕ Query K) (Memory K V) (Bool ⊕ Option V))}
  {st : State ι (Op K V ⊕ Query K) (Memory K V) (Pos ⊕ QueryPos)}

/-- In every run of the tree, in which any number of threads call `insert`, `remove`, `find_` and `find_locked`: every
update changes the pairs of the tree at most once, and exactly if it returns true, by adding or deleting the pair of its
key; an update that returns false, and every query, was right at a moment during its call. -/
theorem map_linearizable (hexec : Exec ((machine.withReader reader).system Initial) h st) :
    Linear (mapSpec.withReader Answer) h :=
  ((queries.tracked (fun _ _ _ => Iff.rfl) fun n _ => Moves.refl n).linear hexec).2

end

set_option synthInstance.maxSize 256 in
/-- A run: a thread that looks for 7 stands on a node that is unlinked when 5 is removed; then 7 is removed as well, and
the search, which goes on from the unlinked node, still finds its value. -/
theorem map_linearizable_run :
    ∃ (h : List (Event (Op Nat Nat ⊕ Query Nat) (Memory Nat Nat) (Bool ⊕ Option Nat)))
      (st : State Bool (Op Nat Nat ⊕ Query Nat) (Memory Nat Nat) (Pos ⊕ QueryPos)),
      Exec ((machine.withReader reader).system Initial) h st ∧ .ret 4 (.inl true) ∈ h ∧ .ret 2 (.inr (some 70)) ∈ h ∧
        Linear (mapSpec.withReader Answer) h := by
  obtain ⟨h, st, hexec, hremove, hfind⟩ :
      ∃ (h : List (Event (Op Nat Nat ⊕ Query Nat) (Memory Nat Nat) (Bool ⊕ Option Nat)))
        (st : State Bool (Op Nat Nat ⊕ Query Nat) (Memory Nat Nat) (Pos ⊕ QueryPos)),
        Exec ((machine.withReader reader).system Initial) h st ∧ h.any (Event.isRet 4 (.inl true)) = true ∧
          h.any (Event.isRet 2 (.inr (some 70))) = true :=
    exists_exec_of_run _
      (s := ⟨⟨fun a => ⟨0, 0, a == 2, true, false, if a = 1 then 2 else 0, 0⟩, 3⟩, fun _ => none, 0⟩)
      (List.flatten [[.call false (.inl (.insert 5 50))], List.replicate 3 (.step false fun _ => true),
        [.call false (.inl (.insert 7 70))], List.replicate 4 (.step false fun _ => true),
        [.call true (.inr (.find 7))], List.replicate 2 (.step true fun _ => true),
        [.call false (.inl (.remove 5))], List.replicate 5 (.step false fun _ => true),
        [.call false (.inl (.remove 7))], List.replicate 4 (.step false fun _ => true),
        List.replicate 2 (.step true fun _ => true)])
      ⟨⟨⟨rfl, rfl, rfl, rfl⟩, ⟨rfl, rfl⟩, rfl⟩, fun _ => rfl, rfl⟩ (by decide +kernel)
  exact ⟨h, st, hexec, Event.mem_of_isRet hremove, Event.mem_of_isRet hfind, map_linearizable hexec⟩

end Verlib.LeafTree.Concurrent
