import Verlib.LeafTree.Steps

/-!
# Runs on the leaf-oriented tree

A search may pass through removed nodes, whose child pointers are not written any more. What it knows of the nodes that
it can still reach is this: those that are not removed are visited by the search for its key in the tree as it is now,
and where a removed one leads to a leaf, there was a moment during the call at which the search for the key ended at
this leaf. So every search ends at a leaf at which it could have ended in one step, at some moment during the call, and
the answer of an operation that returns false needs no validation.
-/

namespace Verlib.LeafTree.Concurrent

open ExternalTree Interleaving Machine

variable {K V : Type} [LinearOrder K]

/-! ## What a search can reach -/

/-- The nodes that a search for the key reaches from a node if the memory stays as it is. -/
inductive Memory.Follow (m : Memory K V) (k : K) (a : Nat) : Nat → Prop where
  | refl : m.Follow k a a
  | tail {b : Nat} : m.Follow k a b → (m.nodes b).isLeaf = false → m.Follow k a (m.child b (m.turn k b))

/-- There was a moment at which the tree had the key, or had not. -/
def Seen (past : Memory K V → Prop) (k : K) (b : Bool) : Prop := ∃ m, past m ∧ (k ∈ m.content ↔ b = true)

/-- What a search knows of the internal nodes that it can reach. -/
def Trail (m : Memory K V) (past : Memory K V → Prop) (k : K) (a : Nat) : Prop :=
  ∀ q, m.Follow k a q → (m.nodes q).isLeaf = false →
    ((m.nodes q).removed = false → m.OnPath k q) ∧
      ((m.nodes q).removed = true → (m.nodes (m.child q (m.turn k q))).isLeaf = true →
        Seen past k (m.equal k (m.child q (m.turn k q))))

section

variable {m m' : Memory K V} {t t' : ExtTree Nat Nat} {past past' : Memory K V → Prop} {k : K} {a b p q : Nat}

theorem Memory.Follow.head (hinner : (m.nodes a).isLeaf = false) (h : m.Follow k (m.child a (m.turn k a)) b) :
    m.Follow k a b := by
  induction h with
  | refl => exact .tail .refl hinner
  | tail _ hb ih => exact .tail ih hb

theorem MemInv.allocated_follow (hm : MemInv m t) (ha : m.Allocated a) (h : m.Follow k a b) : m.Allocated b := by
  induction h with
  | refl => exact ha
  | tail _ hb ih => exact (hm.child _ ih hb _ fun heq => by simp [Memory.turn, heq]).1

omit [LinearOrder K] in
theorem Seen.weaken {seen : Bool} (hpast : ∀ m₀, past m₀ → past' m₀) (h : Seen past k seen) : Seen past' k seen := by
  obtain ⟨m₀, hm₀, hiff⟩ := h
  exact ⟨m₀, hpast m₀ hm₀, hiff⟩

theorem Trail.weaken (hpast : ∀ m₀, past m₀ → past' m₀) (h : Trail m past k a) : Trail m past' k a :=
  fun q hq hinner => ⟨(h q hq hinner).1, fun hremoved hleaf => ((h q hq hinner).2 hremoved hleaf).weaken hpast⟩

/-- From the root a search visits the nodes of the tree. -/
theorem MemInv.trail_root (hm : MemInv m t) (past : Memory K V → Prop) (k : K) : Trail m past k root := by
  have hpath : ∀ q, m.Follow k root q → (m.nodes q).isLeaf = false → m.OnPath k q := by
    intro q hq
    induction hq with
    | refl => exact fun _ => .inl rfl
    | tail _ hb ih => exact hm.onPath_child (ih hb)
  intro q hq hinner
  have hvisited := hpath q hq hinner
  refine ⟨fun _ => hvisited, fun hremoved => ?_⟩
  rw [hm.live_of_onPath hvisited] at hremoved
  cases hremoved

/-- What a search knows after it has loaded a child pointer. -/
theorem Trail.load (hm : MemInv m t) (h : Trail m past k p) (hnow : past m) (hinner : (m.nodes p).isLeaf = false) :
    ((m.nodes (m.child p (m.turn k p))).isLeaf = false → Trail m past k (m.child p (m.turn k p))) ∧
      ((m.nodes (m.child p (m.turn k p))).isLeaf = true → Seen past k (m.equal k (m.child p (m.turn k p)))) := by
  refine ⟨fun _ q hq => h q (hq.head hinner), fun hleaf => ?_⟩
  obtain ⟨hlive, hremoved⟩ := h p .refl hinner
  cases hp : (m.nodes p).removed with
  | false => exact ⟨m, hnow, hm.content_of_onPath (hlive hp) hleaf⟩
  | true => exact hremoved hp hleaf

/-! ## Steps of other threads -/

theorem Ext.turn (hext : Ext m m') (ha : a < m.fresh) : m'.turn k a = m.turn k a := by
  rw [Memory.turn, Memory.turn, Memory.goes, Memory.goes, hext.key a ha]

theorem Ext.equal (hext : Ext m m') (ha : a < m.fresh) : m'.equal k a = m.equal k a := by
  rw [Memory.equal, Memory.equal, hext.isSentinal a ha, hext.key a ha]

theorem Ext.allocated (hext : Ext m m') (ha : m.Allocated a) : m'.Allocated a :=
  ⟨ha.1, ha.2.trans_le hext.fresh⟩

/-- After a step a search reaches what it has reached before, or what the search in the new tree visits. -/
theorem Trail.follow (hm : MemInv m t) (hm' : MemInv m' t') (hext : Ext m m') (hp : m.Allocated p)
    (h : Trail m past k p) (hq : m'.Follow k p q) (hinner : (m'.nodes q).isLeaf = false) :
    m.Follow k p q ∨ m'.OnPath k q := by
  induction hq with
  | refl => exact .inl .refl
  | @tail b hb hbinner ih =>
      cases ih hbinner with
      | inr hpath => exact .inr (hm'.onPath_child hpath hinner)
      | inl hfollow =>
          have hlt := (hm.allocated_follow hp hfollow).2
          have hbinner' := (hext.isLeaf b hlt).symm.trans hbinner
          cases hext.child b hlt hbinner with
          | inl hsame =>
              rw [hsame, hext.turn hlt]
              exact .inl (.tail hfollow hbinner')
          | inr hlive =>
              have hpath := (h b hfollow hbinner').1 hlive.1
              exact .inr (hm'.onPath_child (hext.onPath k b hlt hlive.2 hpath) hinner)

/-- What a search knows survives the steps of others. A node that such a step removes was visited before it. -/
theorem Trail.ext (hm : MemInv m t) (hm' : MemInv m' t') (hext : Ext m m') (hp : m.Allocated p) (hnow : past m)
    (h : Trail m past k p) : Trail m' past k p := by
  intro q hq hinner
  cases h.follow hm hm' hext hp hq hinner with
  | inr hpath =>
      refine ⟨fun _ => hpath, fun hremoved => ?_⟩
      rw [hm'.live_of_onPath hpath] at hremoved
      cases hremoved
  | inl hfollow =>
      have halloc := hm.allocated_follow hp hfollow
      have hinner' := (hext.isLeaf q halloc.2).symm.trans hinner
      obtain ⟨hlive, hseen⟩ := h q hfollow hinner'
      have hchild := (hm.child q halloc hinner' (m.turn k q) fun heq => by simp [Memory.turn, heq]).1
      refine ⟨fun hfree => hext.onPath k q halloc.2 hfree (hlive (hext.removed q halloc.2 hfree)), fun hremoved hleaf => ?_⟩
      cases hext.child q halloc.2 hinner with
      | inr hfree =>
          rw [hfree.2] at hremoved
          cases hremoved
      | inl hsame =>
          rw [hsame, hext.turn halloc.2] at hleaf ⊢
          rw [hext.isLeaf _ hchild.2] at hleaf
          rw [hext.equal hchild.2]
          cases hq : (m.nodes q).removed with
          | true => exact hseen hq hleaf
          | false => exact ⟨m, hnow, hm.content_of_onPath (hlive hq) hleaf⟩

end

/-! ## Positions -/

/-- A node of the search: it is visited in the tree as it is now, or removed. -/
structure Anchor (m : Memory K V) (k : K) (a : Nat) (left : Bool) : Prop where
  allocated : m.Allocated a
  inner : (m.nodes a).isLeaf = false
  turn : left = m.turn k a
  path : (m.nodes a).removed = false → m.OnPath k a

/-- What is known of the nodes that `find_location` has come to. -/
structure At (m : Memory K V) (past : Memory K V → Prop) (k : K) (loc : Place) : Prop where
  now : past m
  gp : loc.gp = 0 ∨ Anchor m k loc.gp loc.gpLeft
  p : Anchor m k loc.p loc.pLeft
  l : m.Allocated loc.l ∧ loc.l ≠ root
  -- The leaf below the root is the sentinel.
  header : loc.gp = 0 → (m.nodes loc.l).isLeaf = true → (m.nodes loc.l).isSentinal = true

/-- The end of `find_location`: a leaf at which the search for the key could have ended. -/
structure Ended (m : Memory K V) (past : Memory K V → Prop) (k : K) (loc : Place) : Prop extends At m past k loc where
  leaf : (m.nodes loc.l).isLeaf = true
  seen : Seen past k (m.equal k loc.l)

/-- The leaf says that the operation has nothing to do. -/
def Op.Nothing (o : Op K V) (m : Memory K V) (l : Nat) : Prop :=
  match o with
  | .insert k _ => m.equal k l = true
  | .remove k => m.equal k l = false ∧ (m.nodes l).isSentinal = false

/-- What `Equal` says where the operation returns false. -/
def Op.refusedIf : Op K V → Bool
  | .insert .. => true
  | .remove _ => false

/-- The leaf says that the operation has something to do. -/
def Op.Todo (o : Op K V) (m : Memory K V) (l : Nat) : Prop :=
  match o with
  | .insert k _ => m.equal k l = false
  | .remove k => m.equal k l = true

/-- What a call knows at its position. -/
def Known (o : Op K V) (m : Memory K V) (past : Memory K V → Prop) : Pos → Prop
  | .start => True
  | .search loc => At m past o.key loc ∧ ((m.nodes loc.l).isLeaf = false → Trail m past o.key loc.l) ∧
      ((m.nodes loc.l).isLeaf = true → Seen past o.key (m.equal o.key loc.l))
  | .readPtr loc | .readRemoved loc => Ended m past o.key loc ∧ o.Nothing m loc.l
  | .lock loc => Ended m past o.key loc ∧ o.Todo m loc.l

section

variable {m m' : Memory K V} {t t' : ExtTree Nat Nat} {past past' : Memory K V → Prop} {k : K} {a : Nat} {left : Bool}
  {loc : Place} {o : Op K V} {pos : Pos}

theorem At.weaken (hpast : ∀ m₀, past m₀ → past' m₀) (h : At m past k loc) : At m past' k loc :=
  ⟨hpast m h.now, h.gp, h.p, h.l, h.header⟩

theorem Ended.weaken (hpast : ∀ m₀, past m₀ → past' m₀) (h : Ended m past k loc) : Ended m past' k loc :=
  ⟨h.toAt.weaken hpast, h.leaf, h.seen.weaken hpast⟩

theorem Known.weaken (hpast : ∀ m₀, past m₀ → past' m₀) (h : Known o m past pos) : Known o m past' pos := by
  cases pos with
  | start => trivial
  | search loc => exact ⟨h.1.weaken hpast, fun hinner => (h.2.1 hinner).weaken hpast, fun hleaf => (h.2.2 hleaf).weaken hpast⟩
  | readPtr loc | readRemoved loc | lock loc => exact ⟨h.1.weaken hpast, h.2⟩

theorem Anchor.ext (hext : Ext m m') (h : Anchor m k a left) : Anchor m' k a left := by
  have hlt := h.allocated.2
  refine ⟨hext.allocated h.allocated, (hext.isLeaf a hlt).trans h.inner, h.turn.trans (hext.turn hlt).symm, fun hlive => ?_⟩
  exact hext.onPath k a hlt hlive (h.path (hext.removed a hlt hlive))

theorem At.ext (hext : Ext m m') (h : At m past k loc) : At m' (fun m₀ => past m₀ ∨ m₀ = m') k loc := by
  refine ⟨.inr rfl, h.gp.imp_right fun hgp => hgp.ext hext, h.p.ext hext, ⟨hext.allocated h.l.1, h.l.2⟩, ?_⟩
  rw [hext.isLeaf _ h.l.1.2, hext.isSentinal _ h.l.1.2]
  exact h.header

theorem Ended.ext (hext : Ext m m') (h : Ended m past k loc) : Ended m' (fun m₀ => past m₀ ∨ m₀ = m') k loc := by
  refine ⟨h.toAt.ext hext, (hext.isLeaf _ h.l.1.2).trans h.leaf, ?_⟩
  rw [hext.equal h.l.1.2]
  exact h.seen.weaken fun _ hm₀ => .inl hm₀

/-- What a call knows survives the steps of others. -/
theorem Known.ext (hm : MemInv m t) (hm' : MemInv m' t') (hext : Ext m m') (h : Known o m past pos) :
    Known o m' (fun m₀ => past m₀ ∨ m₀ = m') pos := by
  cases pos with
  | start => trivial
  | search loc =>
      obtain ⟨hat, htrail, hseen⟩ := h
      have hlt := hat.l.1.2
      refine ⟨hat.ext hext, fun hinner => ?_, fun hleaf => ?_⟩
      · rw [hext.isLeaf _ hlt] at hinner
        exact ((htrail hinner).ext hm hm' hext hat.l.1 hat.now).weaken fun _ hm₀ => .inl hm₀
      · rw [hext.isLeaf _ hlt] at hleaf
        rw [hext.equal hlt]
        exact (hseen hleaf).weaken fun _ hm₀ => .inl hm₀
  | readPtr loc | readRemoved loc =>
      obtain ⟨hended, hnothing⟩ := h
      refine ⟨hended.ext hext, ?_⟩
      cases o with
      | insert k v | remove k =>
          simp only [Op.Nothing, hext.equal hended.l.1.2, hext.isSentinal _ hended.l.1.2]
          exact hnothing
  | lock loc =>
      obtain ⟨hended, htodo⟩ := h
      refine ⟨hended.ext hext, ?_⟩
      cases o with
      | insert k v | remove k =>
          simp only [Op.Todo, hext.equal hended.l.1.2]
          exact htodo

/-! ## Steps of a call -/

/-- What a step of a call establishes. -/
structure StepOk (o : Op K V) (m : Memory K V) (past : Memory K V → Prop) (r : Memory K V × (Pos ⊕ Bool)) : Prop where
  inv : ∃ t, MemInv r.1 t
  ext : Ext m r.1
  move : ∀ pos, r.2 = .inl pos → r.1 = m ∧ Known o m (fun m₀ => past m₀ ∨ m₀ = m) pos
  ret : ∀ b, r.2 = .inr b → spec.Effect o b m r.1 ∨
    r.1 = m ∧ ∃ m₀, (past m₀ ∨ m₀ = m) ∧ spec.Refused o b m₀

/-- A step that goes on. -/
theorem MemInv.stepOk_move (hm : MemInv m t) (h : Known o m (fun m₀ => past m₀ ∨ m₀ = m) pos) :
    StepOk o m past (m, .inl pos) :=
  ⟨⟨t, hm⟩, Ext.refl m, fun _ heq => ⟨rfl, by cases heq; exact h⟩, fun _ heq => by cases heq⟩

/-- A call that returns false. -/
theorem MemInv.stepOk_refused (hm : MemInv m t) (hseen : Seen past o.key (m.equal o.key loc.l))
    (hequal : m.equal o.key loc.l = o.refusedIf) : StepOk o m past (m, .inr false) := by
  refine ⟨⟨t, hm⟩, Ext.refl m, fun _ heq => (by cases heq), fun b heq => ?_⟩
  cases heq
  obtain ⟨m₀, hm₀, hiff⟩ := hseen
  rw [hequal] at hiff
  refine .inr ⟨rfl, m₀, .inl hm₀, rfl, ?_⟩
  cases o with
  | insert k v => exact hiff.mpr rfl
  | remove k => exact fun hmem => Bool.false_ne_true (hiff.mp hmem)

theorem Op.Nothing.equal {l : Nat} (h : o.Nothing m l) : m.equal o.key l = o.refusedIf := by
  cases o with
  | insert k v => exact h
  | remove k => exact h.1

theorem equal_sentinal (h : (m.nodes a).isSentinal = true) : m.equal k a = false := by
  rw [Memory.equal, h]
  rfl

theorem MemInv.header_sentinal (hm : MemInv m t) (hleaf : (m.nodes (m.child root true)).isLeaf = true) :
    (m.nodes (m.child root true)).isSentinal = true := by
  obtain ⟨f, hf⟩ := hm.map
  obtain ⟨rest, hleaves, -⟩ := hf.leaves
  rw [Memory.view, hm.shape.leaf_iff.mp hleaf] at hleaves
  have hfirst : m.leafOf (m.child root true) = .sentinal := (List.cons.inj hleaves).1
  rw [Memory.leafOf] at hfirst
  split at hfirst
  next hsentinal => exact hsentinal
  next => cases hfirst

/-- A node that a search has loaded, and the child that it loads next. -/
theorem MemInv.known_search (hm : MemInv m t) (hnow : past m) {gp : Nat} {gpLeft : Bool}
    (hgp : gp = 0 ∨ Anchor m o.key gp gpLeft) (hp : Anchor m o.key a left) (htrail : Trail m past o.key a)
    (hheader : gp = 0 → a = root) : Known o m past (.search ⟨gp, gpLeft, a, left, m.child a left⟩) := by
  obtain rfl := hp.turn
  have hchild := hm.child a hp.allocated hp.inner (m.turn o.key a) fun heq => by simp [Memory.turn, heq]
  obtain ⟨hinner, hleaf⟩ := htrail.load hm hnow hp.inner
  refine ⟨⟨hnow, hgp, hp, hchild, fun hzero => ?_⟩, hinner, hleaf⟩
  obtain rfl := hheader hzero
  exact hm.header_sentinal

/-- The loop of `find_location` ends. -/
theorem located_ok (hm : MemInv m t) (h : Ended m past o.key loc) : StepOk o m past (m, o.located m loc) := by
  have hended : Ended m (fun m₀ => past m₀ ∨ m₀ = m) o.key loc := h.weaken fun _ hm₀ => .inl hm₀
  cases o with
  | insert k v =>
      refine hm.stepOk_move ?_
      cases hequal : m.equal k loc.l with
      | true => exact ⟨hended, hequal⟩
      | false => exact ⟨hended, hequal⟩
  | remove k =>
      rw [Op.located]
      cases hsentinal : (m.nodes loc.l).isSentinal with
      | true => exact hm.stepOk_refused h.seen (equal_sentinal hsentinal)
      | false =>
          refine hm.stepOk_move ?_
          cases hequal : m.equal k loc.l with
          | true => exact ⟨hended, hequal⟩
          | false => exact ⟨hended, hequal, hsentinal⟩

/-- One turn of the loop of `find_location`. -/
theorem find_ok (hm : MemInv m t) (h : Known o m past (.search loc)) : StepOk o m past (m, o.find m loc) := by
  obtain ⟨hat, htrail, hseen⟩ := h
  rw [Op.find]
  cases hleaf : (m.nodes loc.l).isLeaf with
  | true => exact located_ok hm ⟨hat, hleaf, hseen hleaf⟩
  | false =>
      have htrail := htrail hleaf
      have hless : m.less o.key loc.l = m.turn o.key loc.l := hm.less hat.l.1 hleaf hat.l.2
      have hanchor : Anchor m o.key loc.l (m.less o.key loc.l) :=
        ⟨hat.l.1, hleaf, hless, fun hlive => (htrail loc.l .refl hleaf).1 hlive⟩
      refine hm.stepOk_move ((hm.known_search hat.now (.inr hat.p) hanchor htrail fun hzero => ?_).weaken
        fun _ hm₀ => .inl hm₀)
      exact absurd hzero hat.p.allocated.1.ne'

/-- The body of an operation does what the operation should do. -/
theorem body_ok {locks : Nat → Bool} (hm : MemInv m t) (h : Ended m past o.key loc) (htodo : o.Todo m loc.l)
    (hbody : o.body m locks loc = some m') :
    (∃ t', MemInv m' t') ∧ Ext m m' ∧ o.Effect m.content m'.content := by
  cases o with
  | insert k v =>
      rw [Op.body, insertBody] at hbody
      split at hbody
      next hcond =>
          obtain ⟨-, hlive, hl⟩ := hcond
          cases hbody
          have hpath := h.p.path hlive
          rw [h.p.turn] at hl ⊢
          exact hm.insert hpath hl h.leaf htodo (inserted m h.p.allocated.2 _ loc.l k v)
      next => cases hbody
  | remove k =>
      rw [Op.body, removeBody] at hbody
      split at hbody
      next hcond =>
          obtain ⟨-, -, hlive, hp, hl⟩ := hcond
          cases hbody
          have hanchor : Anchor m k loc.gp loc.gpLeft := by
            refine h.gp.resolve_left fun hzero => ?_
            have hsentinal := equal_sentinal (k := k) (h.header hzero h.leaf)
            rw [show m.equal k loc.l = true from htodo] at hsentinal
            cases hsentinal
          have hpath := hanchor.path hlive
          rw [hanchor.turn] at hp ⊢
          rw [h.p.turn] at hl ⊢
          exact hm.remove hpath hp h.p.inner hl h.leaf htodo (pruned m loc.gp loc.p _ _)
      next => cases hbody

/-- Every step of a call. -/
theorem step_ok {locks : Nat → Bool} {r : Memory K V × (Pos ⊕ Bool)} (hm : MemInv m t) (h : Known o m past pos)
    (hstep : step o m locks pos = some r) : StepOk o m past r := by
  cases pos with
  | start =>
      cases hstep
      refine hm.stepOk_move (hm.known_search (.inr rfl) (.inl rfl)
        ⟨⟨Nat.one_pos, hm.header.1⟩, hm.header.2.1, rfl, fun _ => .inl rfl⟩ (hm.trail_root _ _) fun _ => rfl)
  | search loc =>
      cases hstep
      exact find_ok hm h
  | readPtr loc =>
      cases hstep
      have hread : Known o m (fun m₀ => past m₀ ∨ m₀ = m) (.readRemoved loc) :=
        Known.weaken (fun _ hm₀ => .inl hm₀) h
      refine hm.stepOk_move ?_
      by_cases hload : m.child (o.validated loc).1 (o.validated loc).2.1 = (o.validated loc).2.2
      · rw [if_pos hload]
        exact hread
      · rw [if_neg hload]
        trivial
  | readRemoved loc =>
      cases hstep
      by_cases hfree : (m.nodes (o.validated loc).1).removed = false
      · rw [if_pos hfree]
        exact hm.stepOk_refused h.1.seen h.2.equal
      · rw [if_neg hfree]
        exact hm.stepOk_move trivial
  | lock loc =>
      rw [step] at hstep
      cases hbody : o.body m locks loc with
      | none =>
          rw [hbody] at hstep
          cases hstep
          exact hm.stepOk_move trivial
      | some m' =>
          rw [hbody] at hstep
          cases hstep
          obtain ⟨hinv, hext, heffect⟩ := body_ok hm h.1 h.2 hbody
          refine ⟨hinv, hext, fun _ heq => (by cases heq), fun b heq => ?_⟩
          cases heq
          exact .inl ⟨rfl, heffect⟩

end

/-! ## Every run -/

/-- The memory with the root and the sentinel. -/
theorem Initial.memInv {m : Memory K V} (h : Initial m) : MemInv m (.leaf 2) := by
  obtain ⟨⟨hleft, hinner, -, hlive⟩, ⟨hleaf, hsentinal⟩, hfresh⟩ := h
  have hcases : ∀ b, m.Allocated b → b = root ∨ b = 2 := by
    intro b hb
    obtain ⟨hpos, hlt⟩ := hb
    rw [hfresh] at hlt
    simp only [root]
    omega
  have hroot : ∀ b, m.Allocated b → (m.nodes b).isLeaf = false → b = root := by
    intro b hb hinner
    refine (hcases b hb).resolve_right fun heq => ?_
    rw [heq, hleaf] at hinner
    cases hinner
  refine ⟨⟨hleft, hleaf⟩, List.nodup_nil, fun b hb => (by cases hb), fun l hl => ?_, ⟨by rw [hfresh]; decide, hinner, hlive⟩,
    fun b hb hinner _ => .inl (hroot b hb hinner), fun b hb hinner side hside => ?_,
    fun b hb hinner hne => absurd (hroot b hb hinner) hne, fun _ => none, ?_⟩
  · rw [List.mem_singleton.mp hl, hfresh]
    decide
  · obtain rfl := hroot b hb hinner
    rw [hside rfl, show m.child root true = 2 from hleft, Memory.Allocated, hfresh]
    decide
  · have hview : m.view (.leaf 2) = empty := by
      show ExtTree.leaf (m.leafOf 2) = _
      rw [Memory.leafOf, hsentinal]
      rfl
    rw [hview]
    exact represents_empty

/-- The calls of the tree are sound. -/
def sound : Sound (machine (K := K) (V := V)) spec Initial where
  Inv m := ∃ t, MemInv m t
  Ext := Ext
  Known o pos m past := Known o m past pos
  done _ := none
  initial _ hm := ⟨_, hm.memInv⟩
  start _ _ _ _ := trivial
  start_done _ := rfl
  weaken _ _ _ _ _ hpast h := h.weaken hpast
  other _ _ _ _ _ hm hm' hext h := by
    obtain ⟨t, hm⟩ := hm
    obtain ⟨t', hm'⟩ := hm'
    exact h.ext hm hm' hext
  inv _ _ _ _ _ _ _ hm h hstep := by
    obtain ⟨t, hm⟩ := hm
    have hok := step_ok hm h hstep
    exact ⟨hok.inv, hok.ext⟩
  move _ _ _ _ _ _ _ hm h hstep := by
    obtain ⟨t, hm⟩ := hm
    obtain ⟨rfl, hknown⟩ := (step_ok hm h hstep).move _ rfl
    exact ⟨hknown, .inl ⟨rfl, rfl⟩⟩
  ret _ _ _ _ _ _ _ hm h hstep := by
    obtain ⟨t, hm⟩ := hm
    refine .inr ⟨rfl, ((step_ok hm h hstep).ret _ rfl).imp_right fun hrefused => ?_⟩
    obtain ⟨rfl, hrefused⟩ := hrefused
    exact ⟨rfl, hrefused⟩

section

variable {m : Memory K V} {t : ExtTree Nat Nat}

theorem ordered_of_routed (h : Routed HasKey (m.view t)) : m.Ordered t := by
  have hleaf : ∀ (s : ExtTree Nat Nat) (a : Nat), a ∈ s.leaves → (m.nodes a).isSentinal = false →
      ∃ l ∈ (m.view s).leaves, HasKey l (m.nodes a).key := by
    intro s a ha hsentinal
    refine ⟨m.leafOf a, ?_, (m.nodes a).value, by simp [Memory.leafOf, hsentinal]⟩
    rw [Memory.view, ExtTree.leaves_map]
    exact List.mem_map_of_mem ha
  induction t with
  | leaf l => trivial
  | node b left right ihl ihr =>
      obtain ⟨hleft, hright, hrl, hrr⟩ := h
      refine ⟨fun a ha hsentinal => ?_, fun a ha hsentinal => ?_, ihl hrl, ihr hrr⟩
      · obtain ⟨l, hl, hkey⟩ := hleaf left a ha hsentinal
        exact hleft l hl _ hkey
      · obtain ⟨l, hl, hkey⟩ := hleaf right a ha hsentinal
        exact hright l hl _ hkey

theorem MemInv.searchTree (hm : MemInv m t) : m.SearchTree t := by
  obtain ⟨f, hf⟩ := hm.map
  have hsentinal : ∀ a, m.leafOf a = .sentinal ↔ (m.nodes a).isSentinal = true := by
    intro a
    rw [Memory.leafOf]
    split
    next h => exact iff_of_true rfl h
    next h => exact iff_of_false (fun heq => by cases heq) h
  refine ⟨hm.shape, ordered_of_routed hf.routed, ?_, fun b hb => ?_⟩
  · obtain ⟨rest, hleaves, hrest⟩ := hf.leaves
    rw [Memory.view, ExtTree.leaves_map] at hleaves
    obtain ⟨a, as, heq, hfirst, rfl⟩ := List.map_eq_cons_iff.mp hleaves
    refine ⟨a, as, heq, (hsentinal a).mp hfirst, fun b hb => ?_⟩
    rw [← Bool.not_eq_true, ← hsentinal]
    exact fun hb' => hrest (hb' ▸ List.mem_map_of_mem hb)
  · obtain ⟨hroot, halloc, -⟩ := hm.router b hb
    exact hm.inner b halloc (hm.shape.isLeaf_router hb) hroot

end

/-- In every run the tree below the root is an external search tree whose leftmost leaf is the sentinel, and no other
node is, and no call uses a null `gp`. A call that returns true changes the keys in one step, by adding or deleting its
own; one that returns false changes nothing, and during the call there was a moment at which its key was there (for
`insert`) or was not there (for `remove`). -/
theorem leafTree_linearizable {ι : Type} [DecidableEq ι] {h : List (Event (Op K V) (Memory K V) Bool)}
    {st : State ι (Op K V) (Memory K V) Pos} (hexec : Exec (machine.system Initial) h st) :
    (∃ t, st.memory.SearchTree t) ∧
      (∀ c op o pos gp, st.threads c = some (op, o, pos) → o.usesGp pos = some gp → gp ≠ 0) ∧
      ∀ op o, .call op o ∈ h →
        (.ret op true ∈ h → ChangedOnce spec h op o true) ∧ (.ret op false ∈ h → RefusedOnce spec h op o false) := by
  have hrun := sound.runInv hexec
  obtain ⟨⟨t, hm⟩, hlinear⟩ := sound.linear hexec
  refine ⟨⟨t, hm.searchTree⟩, fun c op o pos gp hc hgp => ?_, fun op o hcall => ?_⟩
  · have hknown : Known o st.memory (Since h op o) pos := (hrun.active c _ hc).known
    have hend : ∃ loc, loc.gp = gp ∧ Ended st.memory (Since h op o) o.key loc ∧
        (st.memory.nodes loc.l).isSentinal = false := by
      cases o with
      | insert k v => cases hgp
      | remove k =>
          cases pos with
          | start => cases hgp
          | search loc => cases hgp
          | readPtr loc | readRemoved loc => exact ⟨loc, Option.some.inj hgp, hknown.1, hknown.2.2⟩
          | lock loc =>
              refine ⟨loc, Option.some.inj hgp, hknown.1, Bool.eq_false_iff.mpr fun hsentinal => ?_⟩
              have hequal := equal_sentinal (k := k) hsentinal
              rw [show st.memory.equal k loc.l = true from hknown.2] at hequal
              cases hequal
    obtain ⟨loc, rfl, hended, hsentinal⟩ := hend
    intro hzero
    rw [hended.header hzero hended.leaf] at hsentinal
    cases hsentinal
  · obtain ⟨-, hret⟩ := hlinear op o hcall
    constructor
    · intro htrue
      refine (hret true htrue).resolve_right fun hrefused => ?_
      obtain ⟨-, _, _, _, -, hfalse, -⟩ := hrefused
      cases hfalse
    · intro hfalse
      refine (hret false hfalse).resolve_left fun hchanged => ?_
      obtain ⟨_, _, _, _, -, ⟨htrue, -⟩, -⟩ := hchanged
      cases htrue

/-- A run: a `remove` of 5 has found its place when 7 is removed with the parent of both, so it has to search again. -/
theorem leafTree_linearizable_run :
    ∃ (h : List (Event (Op Nat Unit) (Memory Nat Unit) Bool)) (st : State Bool (Op Nat Unit) (Memory Nat Unit) Pos),
      Exec (machine.system Initial) h st ∧ (∃ t, st.memory.SearchTree t) ∧
        (.call 3 (.remove 7) ∈ h ∧ .ret 3 true ∈ h ∧ ChangedOnce spec h 3 (.remove 7) true) ∧
        .call 2 (.remove 5) ∈ h ∧ .ret 2 true ∈ h ∧ ChangedOnce spec h 2 (.remove 5) true := by
  obtain ⟨h, st, hexec, hcall₃, hret₃, hcall₂, hret₂⟩ :
      ∃ (h : List (Event (Op Nat Unit) (Memory Nat Unit) Bool)) (st : State Bool (Op Nat Unit) (Memory Nat Unit) Pos),
        Exec (machine.system Initial) h st ∧ (h.any (Event.isCall 3 (.remove 7)) = true ∧
          h.any (Event.isRet 3 true) = true ∧ h.any (Event.isCall 2 (.remove 5)) = true ∧
          h.any (Event.isRet 2 true) = true) :=
    exists_exec_of_run _
      (s := ⟨⟨fun a => ⟨0, (), a == 2, true, false, if a = 1 then 2 else 0, 0⟩, 3⟩, fun _ => none, 0⟩)
      (List.flatten [[.call false (.insert 5 ())], List.replicate 3 (.step false fun _ => true),
        [.call false (.insert 7 ())], List.replicate 4 (.step false fun _ => true),
        [.call true (.remove 5)], List.replicate 4 (.step true fun _ => true), [.call false (.remove 7)],
        List.replicate 5 (.step false fun _ => true), List.replicate 5 (.step true fun _ => true)])
      ⟨⟨⟨rfl, rfl, rfl, rfl⟩, ⟨rfl, rfl⟩, rfl⟩, fun _ => rfl, rfl⟩ (by decide +kernel)
  obtain ⟨htree, -, hcalls⟩ := leafTree_linearizable hexec
  have hcall₃ := Event.mem_of_isCall hcall₃
  have hret₃ := Event.mem_of_isRet hret₃
  have hcall₂ := Event.mem_of_isCall hcall₂
  have hret₂ := Event.mem_of_isRet hret₂
  exact ⟨h, st, hexec, htree, ⟨hcall₃, hret₃, (hcalls 3 _ hcall₃).1 hret₃⟩, hcall₂, hret₂, (hcalls 2 _ hcall₂).1 hret₂⟩

end Verlib.LeafTree.Concurrent
