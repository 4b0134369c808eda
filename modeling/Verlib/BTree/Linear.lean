import Verlib.BTree.Queries

/-!
# The concurrent B-tree is linearizable

Every `insert`, `upsert` and `remove` changes the contents of the tree at most once, and as its result says; if it
returns false, there was a moment during the call at which there was nothing to do. Every `find_` and `find_locked`
returns what was right at a moment during its call. For the updates this moment is the validation; a search that does
not lock may be on nodes that have been replaced, and is right in hindsight.
-/

namespace Verlib.BTree.Concurrent

open Separated Interleaving Machine

variable {K V ι : Type}

/-! ## What a step may do -/

/-- What a step may do, with the layout as the ghost state. A node is written only if it is reachable and stays so. -/
structure Moves (n n' : Layout K × Memory K V) : Prop where
  ext : Ext n.1 n.2 n'.1 n'.2
  removed : ∀ a < n.2.fresh, n.2.removed a = true → n'.2.removed a = true
  blocks : ∀ a < n.2.fresh, n'.2.blocks a = n.2.blocks a ∨ Reach n'.2.blocks a

/-- A moment, and a later one. -/
structure Later (n n' : Layout K × Memory K V) : Prop where
  grows : Grows n.1 n.2 n'.1 n'.2
  removed : ∀ a < n.2.fresh, n.2.removed a = true → n'.2.removed a = true

section

variable {n n' n'' : Layout K × Memory K V}

theorem Moves.refl (n : Layout K × Memory K V) : Moves n n where
  ext := ⟨Grows.refl n.1 n.2, fun _ _ _ _ => .inl rfl⟩
  removed _ _ hmark := hmark
  blocks _ _ := .inl rfl

theorem Later.refl (n : Layout K × Memory K V) : Later n n := ⟨Grows.refl n.1 n.2, fun _ _ hmark => hmark⟩

theorem Later.move (hl : Later n n') (hm : Moves n' n'') : Later n n'' where
  grows := hl.grows.trans hm.ext.toGrows
  removed a ha hmark := hm.removed a (ha.trans_le hl.grows.fresh) (hl.removed a ha hmark)

end

variable [LinearOrder K]

section

variable {B : BlockSizes} {L L' : Layout K} {m m' : Memory K V} {g : Nat}

/-- A node whose slot is written stays reachable: the way to it does not need what is written in it. -/
theorem Writes.reach (hw : Writes g m m') (hwf : WellFormed B L m) (hg : Reach m.blocks g) : Reach m'.blocks g := by
  have hway : ∀ {a}, Reach m.blocks a → Reach m'.blocks a ∨ Reach m'.blocks g := by
    intro a ha
    induction ha with
    | root => exact .inl .root
    | @kid a y ha hy ih =>
        cases ih with
        | inl ih =>
            by_cases hag : a = g
            · exact .inr (hag ▸ ih)
            · refine .inl (.kid ih ?_)
              rw [hw.blocks a (hwf.alloc_of_reach ha) hag]
              exact hy
        | inr ih => exact .inr ih
  exact (hway hg).elim id id

/-- A body that writes a node that is reachable if it is not marked. -/
theorem WritesLive.moves (hw : WritesLive g m m') (hwf : WellFormed B L m) (hext : Ext L m L' m')
    (hg : m.removed g = false → Reach m.blocks g) : Moves (L, m) (L', m') := by
  obtain ⟨hw, hcases⟩ := hw
  refine ⟨hext, hw.removed, fun a ha => ?_⟩
  by_cases hag : a = g
  · obtain rfl | hroot | hlive := hcases
    · exact .inl rfl
    · rw [hag, hroot]
      exact .inr .root
    · rw [hag]
      exact .inr (hw.reach hwf (hg hlive))
  · exact .inl (hw.blocks a ha hag)

end

/-! ## What an update knows -/

section

variable {B : BlockSizes} {L L' : Layout K} {m m' : Memory K V} {n n' : Layout K × Memory K V} {o : Op K V} {k : K}
  {cidx p l : Nat} {pos : Pos} {r : Pos ⊕ Bool} {locks : Nat → Bool}
  {past past' : Layout K × Memory K V → Prop}

/-- A search has come to the leaf `l`, in which `o` has nothing to do. -/
structure Refuses (n : Layout K × Memory K V) (o : Op K V) (p cidx l : Nat) : Prop where
  node : Entered n.1 n.2 o.key p cidx
  alloc : l < n.2.fresh
  leaf : ∃ status keyvals, n.2.blocks l = .leaf status keyvals ∧ o.located keyvals p cidx l = .readPtr p cidx l

/-- The parent `p` had such a leaf as its child at a moment of the past. -/
def Held (B : BlockSizes) (past : Layout K × Memory K V → Prop) (n : Layout K × Memory K V) (o : Op K V) (p : Nat) :
    Prop :=
  ∃ n₀ cidx l, past n₀ ∧ Inv B n₀.1 n₀.2 ∧ Later n₀ n ∧ Refuses n₀ o p cidx l ∧ n₀.2.child p cidx = l

/-- What a call knows at its position, with what it needs to return false. -/
def UpdateKnown (B : BlockSizes) (o : Op K V) (pos : Pos) (n : Layout K × Memory K V)
    (past : Layout K × Memory K V → Prop) : Prop :=
  Known B n.1 n.2 o pos ∧
    match pos with
    | .readPtr p cidx l => Refuses n o p cidx l
    | .readRemoved p => Held B past n o p
    | _ => True

theorem Refuses.mono (h : Refuses n o p cidx l) (hext : Ext n.1 n.2 n'.1 n'.2) : Refuses n' o p cidx l := by
  obtain ⟨status, keyvals, hb, hlocated⟩ := h.leaf
  exact ⟨h.node.mono hext, h.alloc.trans_le hext.fresh, status, keyvals, leaf_of_header (hext.header l h.alloc) hb,
    hlocated⟩

theorem UpdateKnown.weaken (hk : UpdateKnown B o pos n past) (hpast : ∀ n₀, past n₀ → past' n₀) :
    UpdateKnown B o pos n past' := by
  obtain ⟨hknown, hmore⟩ := hk
  refine ⟨hknown, ?_⟩
  cases pos with
  | readRemoved p =>
      obtain ⟨n₀, cidx, l, hn₀, hrest⟩ := hmore
      exact ⟨n₀, cidx, l, hpast n₀ hn₀, hrest⟩
  | _ => exact hmore

theorem UpdateKnown.mono (hk : UpdateKnown B o pos n past) (hmove : Moves n n') : UpdateKnown B o pos n' past := by
  obtain ⟨hknown, hmore⟩ := hk
  refine ⟨hknown.mono hmove.ext, ?_⟩
  cases pos with
  | readPtr p cidx l => exact Refuses.mono hmore hmove.ext
  | readRemoved p =>
      obtain ⟨n₀, cidx, l, hn₀, hinv, hlater, hrest⟩ := hmore
      exact ⟨n₀, cidx, l, hn₀, hinv, hlater.move hmove, hrest⟩
  | _ => trivial

omit [LinearOrder K] in
/-- What follows `find_and_fix` is the validation or the `try_lock`. -/
theorem located_cases [LinearOrder K] (o : Op K V) (keyvals : List (KV K V)) (p cidx l : Nat) :
    o.located keyvals p cidx l = .readPtr p cidx l ∨ o.located keyvals p cidx l = .update p cidx l := by
  cases o with
  | insert k v upsert => exact ite_eq_or_eq ..
  | remove k => exact ite_eq_or_eq ..

/-- What a search knows at the leaf to which it goes. -/
theorem visit_refuses (hinv : Inv B L m) (hp : Entered L m o.key p cidx)
    (hvisit : o.visit m p cidx (m.child p cidx) = some pos) (hk : Known B L m o pos) :
    UpdateKnown B o pos (L, m) past := by
  refine ⟨hk, ?_⟩
  obtain ⟨-, ⟨h, lo, hi, hplaced⟩, -⟩ := hp.child hinv.wf
  unfold Op.visit at hvisit
  split at hvisit
  next status keyvals hb =>
      have hpos := Option.some.inj hvisit
      cases located_cases o keyvals p cidx (m.child p cidx) with
      | inl hnothing =>
          rw [← hpos, hnothing]
          exact ⟨hp, hplaced.alloc, status, keyvals, hb, hnothing⟩
      | inr hupdate =>
          rw [← hpos, hupdate]
          trivial
  next size keys children hb =>
      obtain ⟨i, -, rfl⟩ := Option.map_eq_some_iff.mp hvisit
      trivial

/-- A leaf in which there is nothing to do, and the contents of the tree. -/
theorem Refuses.nothing (h : Refuses n o p cidx l) (hinv : Inv B n.1 n.2) (hreach : Reach n.2.blocks p)
    (hchild : n.2.child p cidx = l) : o.Nothing (Contains n.2) := by
  obtain ⟨status, keyvals, hb, hlocated⟩ := h.leaf
  obtain ⟨hcovers, -⟩ := h.node.child hinv.wf
  have hslot := h.node.slot
  rw [hchild] at hcovers hslot
  have hfind := hinv.wf.leafFind (.kid hreach hslot.mem_kids) hcovers hb
  cases o with
  | insert k v upsert =>
      simp only [Op.located] at hlocated
      split at hlocated
      next htest =>
          simp only [Bool.and_eq_true, Bool.not_eq_true', Option.isSome_iff_exists] at htest
          obtain ⟨hflag, v', hv'⟩ := htest
          exact ⟨hflag, v', (hfind v').mp hv'⟩
      · cases hlocated
  | remove k =>
      simp only [Op.located] at hlocated
      split at hlocated
      next htest =>
          simp only [Bool.not_eq_true', Option.isSome_eq_false_iff, Option.isNone_iff_eq_none] at htest
          intro v hv
          have hsome := (hfind v).mpr hv
          rw [show BTree.leafFind keyvals (Op.remove k : Op K V).key = none from htest] at hsome
          cases hsome
      · cases hlocated

/-- If the parent is still not marked, then there was nothing to do at the moment at which it had the leaf. -/
theorem Held.nothing (h : Held B past n o p) (hlive : n.2.removed p = false) :
    ∃ n₀, past n₀ ∧ o.Nothing (Contains n₀.2) := by
  obtain ⟨n₀, cidx, l, hn₀, hinv, hlater, hrefuses, hchild⟩ := h
  have hlive₀ : n₀.2.removed p = false := by
    by_contra hmark
    rw [Bool.not_eq_false] at hmark
    rw [hlater.removed p hrefuses.node.alloc hmark] at hlive
    cases hlive
  exact ⟨n₀, hn₀, hrefuses.nothing hinv (hrefuses.node.reach hinv hlive₀) hchild⟩

/-! ## Steps of an update -/

/-- A node is written only if it is reachable and stays so. -/
theorem step_moves (hinv : Inv B L m) (hk : Known B L m o pos) (hstep : step B o m locks pos = some (m', r))
    (hext : Ext L m L' m') : Moves (L, m) (L', m') := by
  have hread : m' = m → Moves (L, m) (L', m') := by
    intro heq
    subst heq
    exact ⟨hext, fun _ _ hmark => hmark, fun _ _ => .inl rfl⟩
  unfold step at hstep
  split at hstep
  · dsimp only at hstep
    split at hstep
    · cases hstep
      exact hread rfl
    · obtain ⟨_, -, heq⟩ := Option.map_eq_some_iff.mp hstep
      cases heq
      exact hread rfl
  · dsimp only at hstep
    split at hstep
    · obtain ⟨_, -, heq⟩ := Option.map_eq_some_iff.mp hstep
      cases heq
      exact hread rfl
    · cases hstep
      exact hread rfl
  · obtain ⟨m₁, hfix, heq⟩ := Option.map_eq_some_iff.mp hstep
    cases heq
    exact (fixRoot_writes hfix).moves hinv.wf hext fun _ => .root
  next gp pidx p cidx c =>
      obtain ⟨m₁, hfix, heq⟩ := Option.map_eq_some_iff.mp hstep
      cases heq
      have hbelow : Below L m o.key gp pidx p cidx := hk.1
      exact (fixNode_writes hfix).moves hinv.wf hext (hbelow.parent.reach hinv)
  · cases hstep
    exact hread rfl
  · cases hstep
    exact hread rfl
  next p cidx l =>
      obtain ⟨⟨m₁, b⟩, hbody, heq⟩ := Option.map_eq_some_iff.mp hstep
      cases heq
      have hnode : Entered L m o.key p cidx := Located.node hk
      exact (body_writes hbody).moves hinv.wf hext (hnode.reach hinv)

/-- What a call knows after its own step. -/
theorem step_knows {pos' : Pos} (hinv' : Inv B L' m') (hk : UpdateKnown B o pos (L, m) past)
    (hstep : step B o m locks pos = some (m', .inl pos')) (hknown : Known B L' m' o pos')
    (hmove : Moves (L, m) (L', m')) :
    UpdateKnown B o pos' (L', m') fun n₀ => past n₀ ∨ n₀ = (L', m') := by
  cases pos with
  | start =>
      rw [step] at hstep
      split at hstep
      · cases hstep
        exact ⟨hknown, trivial⟩
      · obtain ⟨pos₁, hvisit, heq⟩ := Option.map_eq_some_iff.mp hstep
        cases heq
        exact visit_refuses hinv' (entered_root hinv'.wf o.key) hvisit hknown
  | load gp pidx p cidx =>
      have hbelow : Below L m o.key gp pidx p cidx := hk.1
      rw [step] at hstep
      split at hstep
      · obtain ⟨pos₁, hvisit, heq⟩ := Option.map_eq_some_iff.mp hstep
        cases heq
        exact visit_refuses hinv' (hbelow.node.mono hmove.ext) hvisit hknown
      · cases hstep
        exact ⟨hknown, trivial⟩
  | fixRoot c =>
      obtain ⟨m₁, -, heq⟩ := Option.map_eq_some_iff.mp hstep
      cases heq
      exact ⟨hknown, trivial⟩
  | fix gp pidx p cidx c =>
      obtain ⟨m₁, -, heq⟩ := Option.map_eq_some_iff.mp hstep
      cases heq
      exact ⟨hknown, trivial⟩
  | readPtr p cidx l =>
      obtain ⟨-, hrefuses⟩ := hk
      have hrefuses : Refuses (L, m) o p cidx l := hrefuses
      rw [step] at hstep
      split at hstep
      next hchild =>
          cases hstep
          -- this is the moment at which there is nothing to do, if `p` is still not marked at the next step
          exact ⟨hknown, (L', m), cidx, l, .inr rfl, hinv', .refl _, hrefuses.mono hmove.ext, hchild⟩
      · cases hstep
        exact ⟨hknown, trivial⟩
  | readRemoved p =>
      rw [step] at hstep
      split at hstep
      · cases hstep
      · cases hstep
        exact ⟨hknown, trivial⟩
  | update p cidx l =>
      obtain ⟨⟨m₁, b⟩, -, heq⟩ := Option.map_eq_some_iff.mp hstep
      cases b with
      | false =>
          cases heq
          exact ⟨hknown, trivial⟩
      | true => cases heq

/-- A call that returns false was right to do so. -/
theorem step_false (hk : UpdateKnown B o pos (L, m) past) (hstep : step B o m locks pos = some (m', .inr false)) :
    m' = m ∧ ∃ n₀, past n₀ ∧ o.Nothing (Contains n₀.2) := by
  cases pos with
  | readRemoved p =>
      obtain ⟨-, hheld⟩ := hk
      rw [step] at hstep
      split at hstep
      next hlive =>
          cases hstep
          exact ⟨rfl, Held.nothing hheld hlive⟩
      · cases hstep
  | start =>
      rw [step] at hstep
      split at hstep
      · cases hstep
      · obtain ⟨_, -, heq⟩ := Option.map_eq_some_iff.mp hstep
        cases heq
  | load gp pidx p cidx =>
      rw [step] at hstep
      split at hstep
      · obtain ⟨_, -, heq⟩ := Option.map_eq_some_iff.mp hstep
        cases heq
      · cases hstep
  | fixRoot c =>
      obtain ⟨m₁, -, heq⟩ := Option.map_eq_some_iff.mp hstep
      cases heq
  | fix gp pidx p cidx c =>
      obtain ⟨m₁, -, heq⟩ := Option.map_eq_some_iff.mp hstep
      cases heq
  | readPtr p cidx l => cases hstep
  | update p cidx l =>
      obtain ⟨⟨m₁, b⟩, -, heq⟩ := Option.map_eq_some_iff.mp hstep
      cases b with
      | false => cases heq
      | true => cases heq

/-- The updates of the tree. -/
def updates (B : BlockSizes) : Tracked (machine B : Machine (Op K V) _ _ _ _) spec (Initial B) (Layout K) where
  Inv n := Inv B n.1 n.2
  Ext := Moves
  Known := UpdateKnown B
  done _ := none
  initial _ hm := hm.inv
  start _ _ _ _ := ⟨trivial, trivial⟩
  start_done _ := rfl
  weaken _ _ _ _ _ hpast hk := hk.weaken hpast
  other _ _ _ _ _ _ _ hmove hk := (hk.mono hmove).weaken fun _ => .inl
  step o pos L m locks m' r hinv hk hstep := by
    obtain ⟨past₀, hk₀⟩ := hk
    obtain ⟨m₁, r₁, L', hstep₁, hok⟩ := step_spec locks hinv hk₀.1
    have hstep : step B o m locks pos = some (m', r) := hstep
    rw [hstep] at hstep₁
    cases hstep₁
    have hmove := step_moves hinv hk₀.1 hstep hok.ext
    refine ⟨L', hok.inv, hmove, fun past hk => ?_⟩
    cases r with
    | inl pos' =>
        have hsame := hok.same (fun heq => by cases heq)
        exact ⟨step_knows hok.inv hk hstep (hok.known pos' rfl) hmove, .inl ⟨rfl, hsame⟩⟩
    | inr b =>
        cases b with
        | true => exact .inr ⟨rfl, .inl ⟨rfl, hok.changes rfl⟩⟩
        | false =>
            obtain ⟨-, n₀, hn₀, hnothing⟩ := step_false hk hstep
            exact .inr ⟨rfl, .inr ⟨hok.same (fun heq => by cases heq), n₀, .inl hn₀, rfl, hnothing⟩⟩

end

/-! ## Queries -/

section

variable {B : BlockSizes} {m : Memory K V} {n n' : Layout K × Memory K V} {q : Query K} {k : K} {cidx p l : Nat}
  {past past' : Layout K × Memory K V → Prop} {next : QueryPos ⊕ Option V}

/-- The way of a search for `k`. -/
def route (B : BlockSizes) (k : K) : Route (Layout K × Memory K V) Nat (Block K V) where
  On n a := Inv B n.1 n.2 ∧ Reach n.2.blocks a ∧ Covers n.1 k a
  Alloc n a := a < n.2.fresh ∧ Covers n.1 k a
  links n a := n.2.blocks a
  alloc _ _ hon := ⟨hon.1.wf.alloc_of_reach hon.2.1, hon.2.2⟩

/-- What a query knows at its position: where it is on its way, or that the leaf was right. -/
def QueryKnown (B : BlockSizes) (q : Query K) (pos : QueryPos) (n : Layout K × Memory K V)
    (past : Layout K × Memory K V → Prop) : Prop :=
  match pos with
  | .start => True
  | .load p cidx => (route B q.key).Search past n p ∧ p < n.2.fresh ∧ ∃ status size keys children,
      n.2.blocks p = .node status size keys children ∧ Position size keys q.key cidx
  | .readPtr _ _ l | .readRemoved _ l => l < n.2.fresh ∧ ∃ n₀, past n₀ ∧
      Answer q (leafFind (n.2.blocks l).entries q.key) n₀.2

/-- Steps of updates write only on the way. -/
theorem Moves.keeps (hmove : Moves n n') (hinv' : Inv B n'.1 n'.2) : (route B k).Keeps n n' := by
  intro a halloc
  obtain ⟨hlt, hcovers⟩ := halloc
  have hcovers' : Covers n'.1 k a := by
    refine hcovers.imp_right fun hin => ?_
    rw [hmove.ext.lo a hlt, hmove.ext.hi a hlt]
    exact hin
  refine ⟨⟨hlt.trans_le hmove.ext.fresh, hcovers'⟩, (hmove.blocks a hlt).imp_right fun hreach => ?_⟩
  exact ⟨hinv', hreach, hcovers'⟩

theorem QueryKnown.weaken {pos : QueryPos} (hk : QueryKnown B q pos n past) (hpast : ∀ n₀, past n₀ → past' n₀) :
    QueryKnown B q pos n past' := by
  cases pos with
  | start => trivial
  | load p cidx => exact ⟨hk.1.weaken hpast, hk.2⟩
  | readPtr p cidx l =>
      obtain ⟨hlt, n₀, hn₀, hanswer⟩ := hk
      exact ⟨hlt, n₀, hpast n₀ hn₀, hanswer⟩
  | readRemoved p l =>
      obtain ⟨hlt, n₀, hn₀, hanswer⟩ := hk
      exact ⟨hlt, n₀, hpast n₀ hn₀, hanswer⟩

/-- What a query knows survives the steps of others. -/
theorem QueryKnown.mono {pos : QueryPos} (hk : QueryKnown B q pos n past) (hmove : Moves n n')
    (hinv' : Inv B n'.1 n'.2) : QueryKnown B q pos n' fun n₀ => past n₀ ∨ n₀ = n' := by
  have hleaf : ∀ {l}, (l < n.2.fresh ∧ ∃ n₀, past n₀ ∧ Answer q (leafFind (n.2.blocks l).entries q.key) n₀.2) →
      l < n'.2.fresh ∧ ∃ n₀, (past n₀ ∨ n₀ = n') ∧ Answer q (leafFind (n'.2.blocks l).entries q.key) n₀.2 := by
    intro l hl
    obtain ⟨hlt, n₀, hn₀, hanswer⟩ := hl
    refine ⟨hlt.trans_le hmove.ext.fresh, n₀, .inl hn₀, ?_⟩
    rw [entries_of_header (hmove.ext.header l hlt)]
    exact hanswer
  cases pos with
  | start => trivial
  | load p cidx =>
      obtain ⟨hsearch, hlt, status, size, keys, children, hb, hpos⟩ := hk
      obtain ⟨children', hb'⟩ := node_of_header (hmove.ext.header p hlt) hb
      exact ⟨hsearch.step (hmove.keeps hinv'), hlt.trans_le hmove.ext.fresh, status, size, keys, children', hb', hpos⟩
  | readPtr p cidx l => exact hleaf hk
  | readRemoved p l => exact hleaf hk

/-- The query returns an answer that was right, or goes on. -/
def QueryOk (B : BlockSizes) (q : Query K) (n : Layout K × Memory K V) (past : Layout K × Memory K V → Prop) :
    QueryPos ⊕ Option V → Prop
  | .inl pos => QueryKnown B q pos n past
  | .inr t => ∃ n₀, past n₀ ∧ Answer q t n₀.2

/-- A search goes down. -/
theorem queryVisit_spec (hinv : Inv B n.1 n.2) (hsearch : (route B q.key).Search past n p) (hlt : p < n.2.fresh)
    {status : Status} {size : Nat} {keys : Nat → K} {children : Nat → Nat}
    (hb : n.2.blocks p = .node status size keys children) (hpos : Position size keys q.key cidx) :
    ∃ next, q.visit n.2 p cidx (n.2.child p cidx) = some next ∧ QueryOk B q n past next := by
  have hchild : (route B q.key).Search past n (n.2.child p cidx) := by
    refine hsearch.follow fun n₁ _ hon hlinks => ?_
    obtain ⟨hinv₁, hreach₁, hcovers₁⟩ := hon
    have hb₁ : n₁.2.blocks p = .node status size keys children := hlinks.trans hb
    have hc : n.2.child p cidx = n₁.2.child p cidx := by rw [Memory.child, Memory.child, hb, hb₁]
    obtain ⟨hkid, hk⟩ := hinv₁.wf.covers_child (hinv₁.wf.alloc_of_reach hreach₁) hb₁ hpos hcovers₁
    rw [hc]
    exact ⟨hinv₁, .kid hreach₁ hkid, hk⟩
  obtain ⟨n₁, hn₁, ⟨hinv₁, hreach₁, hcovers₁⟩, hlinks⟩ := hchild.moment
  have hslot : Slot n.2 p cidx (n.2.child p cidx) := by
    refine ⟨status, size, keys, children, hb, hpos.lt_size, ?_⟩
    rw [Memory.child, hb]
  obtain ⟨hroot, halloc, -⟩ := hinv.wf.kid hlt hslot.mem_kids
  unfold Query.visit
  cases hc : n.2.blocks (n.2.child p cidx) with
  | leaf status' keyvals =>
      have hanswer : Answer q (leafFind keyvals q.key) n₁.2 :=
        hinv₁.wf.leafFind hreach₁ hcovers₁ (hlinks.trans hc)
      refine ⟨_, rfl, ?_⟩
      cases q with
      | find k => exact ⟨n₁, hn₁, hanswer⟩
      | findLocked k =>
          refine ⟨halloc, n₁, hn₁, ?_⟩
          rw [hc]
          exact hanswer
  | node status' size' keys' children' =>
      have hblock := hinv.wf.blocks _ halloc hroot
      rw [hc] at hblock
      obtain ⟨h', -, hchain⟩ := hblock
      obtain ⟨i, hfind, -, hposi⟩ := find_spec (k := q.key) (fun _ _ => hchain.sorted) hchain.size_pos
        fun j hj => absurd hj (Nat.not_lt_zero j)
      refine ⟨.inl (.load (n.2.child p cidx) i), ?_, hchild, halloc, status', size', keys', children', hc, hposi⟩
      show (BTree.find size' keys' q.key 0).map _ = _
      rw [hfind]
      rfl

/-- No step of a query fails. -/
theorem queryStep_spec {pos : QueryPos} (hinv : Inv B n.1 n.2) (hk : QueryKnown B q pos n past) :
    ∃ next, q.step n.2 pos = some next ∧ QueryOk B q n (fun n₀ => past n₀ ∨ n₀ = n) next := by
  have hmore : QueryKnown B q pos n fun n₀ => past n₀ ∨ n₀ = n := hk.weaken fun _ => .inl
  cases pos with
  | start =>
      obtain ⟨keys, children, htop, h, hplaced⟩ := hinv.wf.top
      have hstart : (route B q.key).Search (fun n₀ => past n₀ ∨ n₀ = n) n root :=
        .start (.inr rfl) ⟨hinv, .root, .inl rfl⟩
      exact queryVisit_spec hinv hstart (hinv.wf.alloc_of_reach .root) htop
        ⟨Nat.one_pos, fun j hj => absurd hj (Nat.not_lt_zero j), fun j _ hj => absurd hj (by omega)⟩
  | load p cidx =>
      obtain ⟨hsearch, hlt, status, size, keys, children, hb, hpos⟩ := hmore
      exact queryVisit_spec hinv hsearch hlt hb hpos
  | readPtr p cidx l =>
      refine ⟨_, rfl, ?_⟩
      split
      · exact hmore
      · trivial
  | readRemoved p l =>
      refine ⟨_, rfl, ?_⟩
      split
      · exact hmore.2
      · trivial

/-- The operations that only read. -/
def queries (B : BlockSizes) : Reads (updates B : Tracked (machine B : Machine (Op K V) _ _ _ _) _ _ _) reader Answer where
  Known := QueryKnown B
  start _ _ _ _ := trivial
  weaken _ _ _ _ _ hpast hk := hk.weaken hpast
  other _ _ _ _ _ _ hinv' hmove hk := hk.mono hmove hinv'
  move q pos n pos' past hinv hk hstep := by
    obtain ⟨next, hnext, hok⟩ := queryStep_spec hinv hk
    have hstep : q.step n.2 pos = some (.inl pos') := hstep
    rw [hstep] at hnext
    cases hnext
    exact hok
  ret q pos n t past hinv hk hstep := by
    obtain ⟨next, hnext, hok⟩ := queryStep_spec hinv hk
    have hstep : q.step n.2 pos = some (.inr t) := hstep
    rw [hstep] at hnext
    cases hnext
    exact hok

end

/-! ## Runs -/

section

variable {B : BlockSizes} {h : List (Event (Op K V ⊕ Query K) (Memory K V) (Bool ⊕ Option V))}
  {st : State ι (Op K V ⊕ Query K) (Memory K V) (Pos ⊕ QueryPos)}

variable [DecidableEq ι]

end

end Verlib.BTree.Concurrent
