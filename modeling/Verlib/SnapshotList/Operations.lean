import Verlib.SnapshotList.Stamping

/-!
# What is done to the memory

Apart from giving stamps, threads let the clock go on, take and release locks, mark nodes, build nodes and store
pointers. None of this changes the lists of the snapshots. Everything keeps the invariant, and extends the memory:
what is written once stays, and what is visible stays visible.
-/

namespace Verlib.SnapshotList

open Interleaving Interleaving.Versions Indirect Linked
open SortedList (Op root)

variable {K V ι : Type} [LinearOrder K]

/-- What is written once stays. -/
structure Ext (m m' : Memory K V ι) : Prop where
  grows : m.versions.shape.Grows m'.versions.shape
  fresh : m.fresh ≤ m'.fresh
  nodes : ∀ a < m.fresh, m'.nodes a = m.nodes a
  value : ∀ p < m.fresh, ∀ i ≤ m.versions.last p, m'.versions.value p i = m.versions.value p i
  removed : ∀ a, m.removed a = true → m'.removed a = true
  visible : ∀ a, m.Visible a → m'.Visible a

/-- Nothing leads to the node. -/
def Memory.Apart (m : Memory K V ι) (a : Nat) : Prop :=
  ∀ q < m.fresh, (m.nodes q).isEnd = false → ∀ j ≤ m.versions.last q, m.next q j ≠ a

/-- What a step may do to the pointers: only visible nodes are marked and get new links, and new links lead to visible
nodes or to nodes that nothing led to. A node whose last version has no stamp stays on the lists. -/
structure Safe (m m' : Memory K V ι) : Prop extends Ext m m' where
  last : ∀ q, m'.versions.last q = m.versions.last q ∨
    m.Visible q ∧ m.removed q = false ∧ m.versions.stamp q (m.versions.last q) ≠ none
  live : ∀ q, m'.removed q = true → m.removed q = true ∨ m.Visible q
  new : ∀ q < m'.fresh, (m'.nodes q).isEnd = false → ∀ j ≤ m'.versions.last q,
    (q < m.fresh ∧ j ≤ m.versions.last q) ∨ m.Visible (m'.next q j) ∨ m.Apart (m'.next q j)
  on : ∀ q, m.versions.stamp q (m.versions.last q) = none → ∀ ls, zeroStamp ≤ ls → m.On ls q → m'.On ls q

section

variable {m m' : Memory K V ι} {ls a p i t : Nat} {o : Op K V}

theorem Ext.refl (m : Memory K V ι) : Ext m m :=
  ⟨Grows.refl _, le_rfl, fun _ _ => rfl, fun _ _ _ _ => rfl, fun _ h => h, fun _ h => h⟩

theorem Ext.trans {m'' : Memory K V ι} (h : Ext m m') (h' : Ext m' m'') : Ext m m'' where
  grows := by
    obtain ⟨hclock, hlast, hstamp, hborn, -, hnew⟩ := h.grows
    refine ⟨hclock.trans h'.grows.clock, fun p => (hlast p).trans (h'.grows.last p), fun p i t hi ht => ?_,
      fun p i hi => ?_, fun _ _ _ => rfl, fun p i hlt hle => ?_⟩
    · exact h'.grows.stamp p i t (hi.trans (hlast p)) (hstamp p i t hi ht)
    · exact (h'.grows.born p i (hi.trans (hlast p))).trans (hborn p i hi)
    · by_cases hi : i ≤ m'.versions.last p
      · exact (hnew p i hlt hi).trans_eq (h'.grows.born p i hi).symm
      · exact hclock.trans (h'.grows.new p i (Nat.lt_of_not_le hi) hle)
  fresh := h.fresh.trans h'.fresh
  nodes a ha := (h'.nodes a (ha.trans_le h.fresh)).trans (h.nodes a ha)
  value p hp i hi :=
    (h'.value p (hp.trans_le h.fresh) i (hi.trans (h.grows.last p))).trans (h.value p hp i hi)
  removed a ha := h'.removed a (h.removed a ha)
  visible a ha := h'.visible a (h.visible a ha)

theorem Ext.next (h : Ext m m') (hp : p < m.fresh) (hi : i ≤ m.versions.last p) : m'.next p i = m.next p i :=
  congrArg Cell.next (h.value p hp i hi)

/-! ## Pending updates stay -/

/-- A pointer whose last version has no stamp has more than one version. -/
theorem Inv.lt_fresh (hinv : Inv m) (hnone : m.versions.stamp p i = none) (hi : i ≤ m.versions.last p) :
    p < m.fresh := by
  by_contra hp
  obtain ⟨hlast, -⟩ := hinv.blank p (not_lt.mp hp)
  obtain rfl : i = 0 := by omega
  rw [hinv.first p] at hnone
  cases hnone

/-- The birth of a later version is not before the first stamp. -/
theorem Inv.le_born (hinv : Inv m) (hi : i + 1 ≤ m.versions.last p) : zeroStamp ≤ m.versions.born p (i + 1) :=
  hinv.ordered.stamp_le_born p 0 (i + 1) _ (Nat.succ_pos i) hi (hinv.first p)

theorem Inserts.keep {k : K} {v : V} (h : Inserts m p i k v) (hinv : Inv m) (hsafe : Safe m m') (hp : p < m.fresh)
    (hinner : (m.nodes p).isEnd = false) (hlast : m.versions.last p = i + 1)
    (hpend : m.versions.stamp p (i + 1) = none) : Inserts m' p i k v := by
  have hw := hsafe.next hp hlast.ge
  have hpi := hsafe.next (i := i) hp (by omega)
  have hwlt : m.next p (i + 1) < m.fresh := hinv.targets p hp hinner _ hlast.ge
  have hplt : m.next p i < m.fresh := hinv.targets p hp hinner i (by omega)
  have hnot : ¬ m.Visible (m.next p (i + 1)) := h.not_visible hpend hinv
  refine ⟨?_, ?_, ?_, ?_, ?_, ?_, ?_⟩
  · rw [hw, hsafe.nodes _ hwlt, h.node]
  · rw [hw]
    obtain heq | hvis := hsafe.last (m.next p (i + 1))
    · exact heq.trans h.last
    · exact absurd hvis.1 hnot
  · rw [hw]
    cases hmark : m'.removed (m.next p (i + 1)) with
    | false => rfl
    | true =>
        obtain hmark | hvis := hsafe.live _ hmark
        · exact hmark.symm.trans h.live
        · exact absurd hvis hnot
  · rw [hw, hpi, hsafe.next hwlt (Nat.zero_le _), h.next]
  · rw [hw, Precedes, hsafe.nodes p hp, hsafe.nodes _ hwlt]
    exact h.before
  · rw [hw, hpi, Precedes, hsafe.nodes _ hwlt, hsafe.nodes _ hplt]
    exact h.after
  · intro q hq hend j hj heq
    rw [hw] at heq
    obtain ⟨hq, hj⟩ | hvis | hapart := hsafe.new q hq hend j hj
    · rw [hsafe.nodes q hq] at hend
      rw [hsafe.next hq hj] at heq
      exact h.only q hq hend j hj heq
    · rw [heq] at hvis
      exact absurd hvis hnot
    · rw [heq] at hapart
      exact absurd rfl (hapart p hp hinner _ hlast.ge)

theorem Removes.keep {k : K} (h : Removes m p i k) (hinv : Inv m) (hsafe : Safe m m') (hp : p < m.fresh)
    (hinner : (m.nodes p).isEnd = false) (hlast : m.versions.last p = i + 1) : Removes m' p i k := by
  have hx := hsafe.next (i := i) hp (by omega)
  have hxlt : m.next p i < m.fresh := hinv.targets p hp hinner i (by omega)
  have hxlast : m'.versions.last (m.next p i) = m.versions.last (m.next p i) := by
    obtain heq | hvis := hsafe.last (m.next p i)
    · exact heq
    · rw [h.marked] at hvis
      cases hvis.2.1
  refine ⟨?_, ?_, ?_, ?_, ?_⟩
  · rw [hx, hsafe.nodes _ hxlt]
    exact h.key
  · rw [hx, hsafe.nodes _ hxlt]
    exact h.inner
  · rw [hx]
    exact hsafe.removed _ h.marked
  · obtain ⟨s, hs, hle⟩ := h.stamped
    refine ⟨s, ?_, ?_⟩
    · rw [hx, hxlast]
      exact hsafe.grows.stamp _ _ s le_rfl hs
    · exact hle.trans_eq (hsafe.grows.born p (i + 1) hlast.ge).symm
  · rw [hx, hxlast, hsafe.next hxlt le_rfl, hsafe.next hp hlast.ge]
    exact h.next

theorem Stored.keep (h : Stored m p i o) (hinv : Inv m) (hsafe : Safe m m') (hp : p < m.fresh)
    (hinner : (m.nodes p).isEnd = false) (hlast : m.versions.last p = i + 1)
    (hpend : m.versions.stamp p (i + 1) = none) : Stored m' p i o := by
  cases o with
  | insert k v => exact Inserts.keep h hinv hsafe hp hinner hlast hpend
  | remove k => exact Removes.keep h hinv hsafe hp hinner hlast

theorem Pending.keep (h : Pending m p i o) (hinv : Inv m) (hsafe : Safe m m')
    (hpend : m.versions.stamp p (i + 1) = none) : Pending m' p i o := by
  have hp : p < m.fresh := hinv.lt_fresh hpend h.last.ge
  rw [← h.last] at hpend
  refine ⟨?_, fun ls hls => ?_, ?_, ?_⟩
  · obtain heq | hst := hsafe.last p
    · exact heq.trans h.last
    · exact absurd hpend hst.2.2
  · have hborn : m'.versions.born p (i + 1) = m.versions.born p (i + 1) := hsafe.grows.born p (i + 1) h.last.ge
    rw [hborn] at hls
    exact hsafe.on p hpend ls ((hinv.le_born h.last.ge).trans hls) (h.on ls hls)
  · rw [hsafe.nodes p hp]
    exact h.inner
  · rw [h.last] at hpend
    exact h.stored.keep hinv hsafe hp h.inner h.last hpend

/-! ## Steps that do not change the lists -/

/-- The links of all lists are as they were. -/
structure Still (m m' : Memory K V ι) : Prop where
  fresh : m.fresh ≤ m'.fresh
  nodes : ∀ a < m.fresh, m'.nodes a = m.nodes a
  view : ∀ ls, zeroStamp ≤ ls → ∀ a < m.fresh, m'.view ls a = m.view ls a

theorem Still.path (h : Still m m') (hls : zeroStamp ≤ ls) {ns : List Nat} (hns : m.IsPath ls ns) : m'.IsPath ls ns :=
  hns.congr h.fresh h.nodes (h.view ls hls)

theorem Still.on (h : Still m m') (hinv : Inv m) (hls : zeroStamp ≤ ls) : m'.On ls a ↔ m.On ls a := by
  obtain ⟨ns, hns⟩ := hinv.paths ls hls
  constructor
  · exact fun hon => ⟨ns, hns, hon.mem (h.path hls hns)⟩
  · exact fun hon => ⟨ns, h.path hls hns, hon.mem hns⟩

theorem Still.contains (h : Still m m') (hinv : Inv m) (hls : zeroStamp ≤ ls) (k : K) (v : V) :
    m'.Contains ls k v ↔ m.Contains ls k v := by
  refine exists_congr fun a => ?_
  rw [h.on hinv hls]
  refine and_congr_right fun hon => ?_
  obtain ⟨ns, hns, ha⟩ := hon
  rw [h.nodes a (hns.alloc a ha)]

/-- What is visible was visible, or has been marked. -/
theorem Still.visible (h : Still m m') (hinv : Inv m) (hclock : m.versions.clock ≤ m'.versions.clock)
    (hremoved : m'.removed a = true → m.removed a = true ∨ m.Visible a) (hvis : m'.Visible a) : m.Visible a := by
  obtain ⟨halloc, hmark | hon⟩ := hvis
  · obtain hmark | hvis := hremoved hmark
    · refine ⟨?_, .inl hmark⟩
      by_contra hlt
      rw [(hinv.blank a (not_lt.mp hlt)).2] at hmark
      cases hmark
    · exact hvis
  · have hon := (h.on hinv (hinv.clock.trans hclock)).mp hon
    have hon := (hinv.on_iff hclock).mp hon
    obtain ⟨ns, hns, ha⟩ := hon
    exact ⟨hns.alloc a ha, .inr ⟨ns, hns, ha⟩⟩

theorem Still.visible' (h : Still m m') (hinv : Inv m) (hclock : m.versions.clock ≤ m'.versions.clock)
    (hremoved : m.removed a = true → m'.removed a = true) (hvis : m.Visible a) : m'.Visible a := by
  obtain ⟨halloc, hor⟩ := hvis
  refine ⟨halloc.trans_le h.fresh, hor.imp hremoved fun hon => ?_⟩
  exact (h.on hinv (hinv.clock.trans hclock)).mpr ((hinv.on_iff hclock).mpr hon)

/-! ## Clock, locks and marks -/

/-- The clock may go on, visible nodes may be marked, and locks and calls may change. -/
structure Quiet (m m' : Memory K V ι) : Prop where
  clock : m.versions.clock ≤ m'.versions.clock
  last : m'.versions.last = m.versions.last
  stamp : m'.versions.stamp = m.versions.stamp
  born : m'.versions.born = m.versions.born
  value : m'.versions.value = m.versions.value
  nodes : m'.nodes = m.nodes
  fresh : m'.fresh = m.fresh
  removed : ∀ a, m.removed a = true → m'.removed a = true
  live : ∀ a, m'.removed a = true → m.removed a = true ∨ m.Visible a

theorem Quiet.next (h : Quiet m m') (p i : Nat) : m'.next p i = m.next p i := by
  rw [Memory.next, h.value]
  rfl

theorem Quiet.still (h : Quiet m m') : Still m m' := by
  refine ⟨h.fresh.ge, fun a _ => by rw [h.nodes], fun ls _ a _ => ?_⟩
  show m'.next a (m'.versions.cut ls a) = m.next a (m.versions.cut ls a)
  rw [h.next, cut, h.last, h.stamp]
  rfl

theorem Quiet.safe (h : Quiet m m') (hinv : Inv m) : Safe m m' where
  grows := by
    refine ⟨h.clock, fun q => (congrFun h.last q).ge, fun q i s _ hs => ?_, fun q i _ => ?_, fun _ _ _ => rfl,
      fun q i hlt hle => ?_⟩
    · exact (congrFun (congrFun h.stamp q) i).trans hs
    · exact congrFun (congrFun h.born q) i
    · have hlast : m'.versions.last q = m.versions.last q := congrFun h.last q
      have hlt : m.versions.last q < i := hlt
      have hle : i ≤ m'.versions.last q := hle
      omega
  fresh := h.fresh.ge
  nodes a _ := by rw [h.nodes]
  value p _ i _ := by rw [h.value]
  removed := h.removed
  visible a := h.still.visible' hinv h.clock (h.removed a)
  last q := .inl (congrFun h.last q)
  live := h.live
  new q hq _ j hj := by
    rw [h.fresh] at hq
    rw [h.last] at hj
    exact .inl ⟨hq, hj⟩
  on q _ ls hls hon := (h.still.on hinv hls).mpr hon

/-- They keep the invariant. -/
theorem Inv.quiet (hinv : Inv m) (h : Quiet m m') : Inv m' where
  clock := hinv.clock.trans h.clock
  ordered := by
    obtain ⟨hborn, hclock, hle, hlt, hstamped⟩ := hinv.ordered
    refine ⟨fun p i hi => ?_, fun p i s hi hs => ?_, fun p i s hi hs => ?_, fun p i j s hij hj hs => ?_,
      fun p i hi => ?_⟩
    · rw [h.last] at hi
      rw [h.born]
      exact (hborn p i hi).trans h.clock
    · rw [h.last] at hi
      rw [h.stamp] at hs
      exact (hclock p i s hi hs).trans h.clock
    · rw [h.last] at hi
      rw [h.stamp] at hs
      rw [h.born]
      exact hle p i s hi hs
    · rw [h.last] at hj
      rw [h.stamp] at hs
      rw [h.born]
      exact hlt p i j s hij hj hs
    · rw [h.last] at hi
      rw [h.stamp]
      exact hstamped p i hi
  first p := by
    rw [h.stamp]
    exact hinv.first p
  root_lt := by
    rw [h.fresh]
    exact hinv.root_lt
  root_inner := by
    rw [h.nodes]
    exact hinv.root_inner
  paths ls hls := (hinv.paths ls hls).imp fun _ => h.still.path hls
  blank p hp := by
    rw [h.fresh] at hp
    obtain ⟨hlast, hlive⟩ := hinv.blank p hp
    refine ⟨(congrFun h.last p).trans hlast, ?_⟩
    cases hmark : m'.removed p with
    | false => rfl
    | true =>
        obtain hmark | hvis := h.live p hmark
        · exact hmark.symm.trans hlive
        · exact absurd hvis.1 (not_lt.mpr hp)
  targets p hp hend i hi := by
    rw [h.fresh] at hp ⊢
    rw [h.nodes] at hend
    rw [h.last] at hi
    rw [h.next]
    exact hinv.targets p hp hend i hi
  leads p hvis hend i hi hs := by
    rw [h.nodes] at hend
    rw [h.last] at hi
    rw [h.stamp] at hs
    rw [h.next]
    have hvis := h.still.visible hinv h.clock (h.live p) hvis
    exact (h.safe hinv).visible _ (hinv.leads p hvis hend i hi hs)
  pending p hp hnone := by
    rw [h.fresh] at hp
    rw [h.last, h.stamp] at hnone
    obtain ⟨i, c, n, o, hcall, hpend⟩ := hinv.pending p hp hnone
    refine ⟨i, c, n, o, ?_, ?_⟩
    · rw [h.value]
      exact hcall
    · rw [hpend.last] at hnone
      exact hpend.keep hinv (h.safe hinv) hnone

theorem quiet_tick (m : Memory K V ι) : Quiet m { m with versions := m.versions.tick } :=
  ⟨Nat.le_succ _, rfl, rfl, rfl, rfl, rfl, rfl, fun _ h => h, fun _ => .inl⟩

theorem quiet_calls (m : Memory K V ι) (n : Nat) : Quiet m { m with calls := n } :=
  ⟨le_rfl, rfl, rfl, rfl, rfl, rfl, rfl, fun _ h => h, fun _ => .inl⟩

theorem quiet_setLock (m : Memory K V ι) (a : Nat) (c : Option ι) : Quiet m (m.setLock a c) :=
  ⟨le_rfl, rfl, rfl, rfl, rfl, rfl, rfl, fun _ h => h, fun _ => .inl⟩

theorem quiet_setRemoved (hvis : m.Visible a) : Quiet m (m.setRemoved a) := by
  refine ⟨le_rfl, rfl, rfl, rfl, rfl, rfl, rfl, fun b hb => ?_, fun b hb => ?_⟩
  · show Function.update m.removed a true b = true
    rw [Function.update_apply, hb, ite_self]
  · by_cases heq : b = a
    · rw [heq]
      exact .inr hvis
    · have hb : Function.update m.removed a true b = true := hb
      rw [Function.update_of_ne heq] at hb
      exact .inl hb

/-! ## New nodes -/

section

variable {d : Node K V} {x : Nat}

omit [LinearOrder K] in
theorem newNode_value (hp : p < m.fresh) : (m.newNode d x).versions.value p i = m.versions.value p i := by
  show Function.update m.versions.value m.fresh _ p i = _
  rw [Function.update_of_ne hp.ne]

omit [LinearOrder K] in
theorem newNode_nodes (ha : a < m.fresh) : (m.newNode d x).nodes a = m.nodes a := Function.update_of_ne ha.ne ..

omit [LinearOrder K] in
theorem newNode_next (hp : p < m.fresh) : (m.newNode d x).next p i = m.next p i := congrArg Cell.next (newNode_value hp)

omit [LinearOrder K] in
theorem newNode_next_new : (m.newNode d x).next m.fresh 0 = x := by
  show (Function.update m.versions.value m.fresh _ m.fresh 0).next = x
  rw [Function.update_self, Function.update_self]

omit [LinearOrder K] in
theorem newNode_node_new : (m.newNode d x).nodes m.fresh = d := Function.update_self ..

omit [LinearOrder K] in
theorem newNode_still : Still m (m.newNode d x) :=
  ⟨Nat.le_succ _, fun _ ha => newNode_nodes ha, fun _ _ _ ha => newNode_next ha⟩

/-- The links of the old nodes and of the new one. -/
theorem newNode_cases {P : Nat → Nat → Nat → Prop} (hinv : Inv m) (hold : ∀ q < m.fresh, (m.nodes q).isEnd = false →
    ∀ j ≤ m.versions.last q, P q j (m.next q j)) (hnew : P m.fresh 0 x) :
    ∀ q < (m.newNode d x).fresh, ((m.newNode d x).nodes q).isEnd = false → ∀ j ≤ (m.newNode d x).versions.last q,
      P q j ((m.newNode d x).next q j) := by
  intro q hq hend j hj
  obtain hq | rfl := Nat.lt_or_eq_of_le (Nat.lt_succ_iff.mp hq)
  · rw [newNode_nodes hq] at hend
    rw [newNode_next hq]
    exact hold q hq hend j hj
  · obtain rfl : j = 0 := Nat.le_zero.mp (hj.trans_eq (hinv.blank _ le_rfl).1)
    rw [newNode_next_new]
    exact hnew

theorem newNode_safe (hinv : Inv m) (hx : m.Visible x) : Safe m (m.newNode d x) where
  grows := Grows.refl _
  fresh := Nat.le_succ _
  nodes _ ha := newNode_nodes ha
  value _ hp _ _ := newNode_value hp
  removed _ h := h
  visible _ := newNode_still.visible' hinv le_rfl fun h => h
  last _ := .inl rfl
  live _ := .inl
  new := newNode_cases (P := fun q j b => (q < m.fresh ∧ j ≤ m.versions.last q) ∨ m.Visible b ∨ m.Apart b) hinv
    (fun _ hq _ _ hj => .inl ⟨hq, hj⟩) (.inr (.inl hx))
  on _ _ _ hls := (newNode_still.on hinv hls).mpr

/-- A new node keeps the invariant. -/
theorem Inv.newNode (hinv : Inv m) (hx : m.Visible x) : Inv (m.newNode d x) where
  clock := hinv.clock
  ordered := by
    obtain ⟨hborn, hclock, hle, hlt, hstamped⟩ := hinv.ordered
    exact ⟨hborn, hclock, hle, hlt, hstamped⟩
  first := hinv.first
  root_lt := hinv.root_lt.trans (Nat.lt_succ_self _)
  root_inner := by
    rw [newNode_nodes hinv.root_lt]
    exact hinv.root_inner
  paths ls hls := (hinv.paths ls hls).imp fun _ => newNode_still.path hls
  blank p hp := hinv.blank p (Nat.le_of_succ_le hp)
  targets := newNode_cases (P := fun _ _ b => b < m.fresh + 1) hinv
    (fun q hq hend j hj => (hinv.targets q hq hend j hj).trans (Nat.lt_succ_self _)) (hx.1.trans (Nat.lt_succ_self _))
  leads p hvis hend i hi hs := by
    have hvis : m.Visible p := newNode_still.visible hinv le_rfl .inl hvis
    rw [newNode_nodes hvis.1] at hend
    rw [newNode_next hvis.1]
    exact (newNode_safe hinv hx).visible _ (hinv.leads p hvis hend i hi hs)
  pending p _ hnone := by
    have hp : p < m.fresh := hinv.lt_fresh hnone le_rfl
    obtain ⟨i, c, n, o, hcall, hpend⟩ := hinv.pending p hp hnone
    refine ⟨i, c, n, o, (congrArg Cell.call (newNode_value hp)).trans hcall, ?_⟩
    have hnone : m.versions.stamp p (m.versions.last p) = none := hnone
    rw [hpend.last] at hnone
    exact hpend.keep hinv (newNode_safe hinv hx) hnone

theorem newNode_apart (hinv : Inv m) (hx : x < m.fresh) : (m.newNode d x).Apart m.fresh :=
  newNode_cases (P := fun _ _ b => b ≠ m.fresh) hinv (fun q hq hend j hj => (hinv.targets q hq hend j hj).ne) hx.ne

end

/-! ## Stores -/

section

variable {b : Nat} {call : ι × Nat × Op K V}

omit [LinearOrder K] in
theorem store_value (hi : i ≤ m.versions.last a) : (m.store p b call).versions.value a i = m.versions.value a i :=
  install_value hi

omit [LinearOrder K] in
theorem store_next (hi : i ≤ m.versions.last a) : (m.store p b call).next a i = m.next a i :=
  congrArg Cell.next (store_value hi)

omit [LinearOrder K] in
theorem store_next_new : (m.store p b call).next p (m.versions.last p + 1) = b := congrArg Cell.next install_value_new

omit [LinearOrder K] in
theorem store_last : (m.store p b call).versions.last p = m.versions.last p + 1 := install_last_self

omit [LinearOrder K] in
theorem store_last_of_ne (hne : a ≠ p) : (m.store p b call).versions.last a = m.versions.last a :=
  install_last_of_ne hne

theorem store_still (hinv : Inv m) : Still m (m.store p b call) := by
  refine ⟨le_rfl, fun _ _ => rfl, fun ls hls a _ => ?_⟩
  show (m.store p b call).next a ((m.versions.install p ⟨b, some call⟩).cut ls a) = m.next a (m.versions.cut ls a)
  rw [cut_install (hinv.within hls a), store_next cut_le]

/-- The pointer of a visible node that is not marked is written. -/
structure Storing (m : Memory K V ι) (p b : Nat) : Prop where
  visible : m.Visible p
  live : m.removed p = false
  inner : (m.nodes p).isEnd = false
  stamped : m.versions.stamp p (m.versions.last p) ≠ none
  alloc : b < m.fresh
  target : m.Visible b ∨ m.Apart b

theorem Storing.safe (h : Storing m p b) (hinv : Inv m) : Safe m (m.store p b call) where
  grows := grows_install
  fresh := le_rfl
  nodes _ _ := rfl
  value _ _ _ hi := store_value hi
  removed _ h := h
  visible _ := (store_still hinv).visible' hinv le_rfl fun h => h
  last q := by
    by_cases hq : q = p
    · rw [hq]
      exact .inr ⟨h.visible, h.live, h.stamped⟩
    · exact .inl (store_last_of_ne hq)
  live _ := .inl
  new q hq _ j hj := by
    obtain hold | ⟨rfl, rfl⟩ := install_cases hj
    · exact .inl ⟨hq, hold⟩
    · rw [store_next_new]
      exact .inr h.target
  on _ _ _ hls := ((store_still hinv).on hinv hls).mpr

/-- A store keeps the invariant, if it is what its operation is for. -/
theorem Storing.inv {c : ι} {n : Nat} (h : Storing m p b) (hinv : Inv m)
    (hstored : Stored (m.store p b (c, n, o)) p (m.versions.last p) o) : Inv (m.store p b (c, n, o)) where
  clock := hinv.clock
  ordered := hinv.ordered.install h.stamped
  first q := (install_stamp (Nat.zero_le _)).trans (hinv.first q)
  root_lt := hinv.root_lt
  root_inner := hinv.root_inner
  paths ls hls := (hinv.paths ls hls).imp fun _ => (store_still hinv).path hls
  blank q hq := by
    have hne : q ≠ p := fun heq => absurd h.visible.1 (not_lt.mpr (heq ▸ hq))
    exact ⟨(store_last_of_ne hne).trans (hinv.blank q hq).1, (hinv.blank q hq).2⟩
  targets q hq hend j hj := by
    obtain hold | ⟨rfl, rfl⟩ := install_cases hj
    · rw [store_next hold]
      exact hinv.targets q hq hend j hold
    · rw [store_next_new]
      exact h.alloc
  leads q hvis hend j hj hs := by
    have hvis : m.Visible q := (store_still hinv).visible hinv le_rfl .inl hvis
    obtain hold | ⟨rfl, rfl⟩ := install_cases hj
    · have hs : (m.versions.install p ⟨b, some (c, n, o)⟩).stamp q j ≠ none := hs
      rw [install_stamp hold] at hs
      rw [store_next hold]
      exact (h.safe hinv).visible _ (hinv.leads q hvis hend j hold hs)
    · exact absurd install_stamp_new hs
  pending q hq hnone := by
    by_cases hqp : q = p
    · subst hqp
      refine ⟨m.versions.last q, c, n, o, congrArg Cell.call install_value_new, store_last, fun ls hls => ?_, h.inner,
        hstored⟩
      have hborn : m.versions.clock ≤ ls := (install_born_new (V := m.versions) (p := q)).symm.le.trans hls
      rw [(store_still hinv).on hinv (hinv.clock.trans hborn), hinv.on_iff hborn]
      obtain ⟨-, hmark | hon⟩ := h.visible
      · rw [h.live] at hmark
        cases hmark
      · exact hon
    · have hnone : (m.versions.install p ⟨b, some (c, n, o)⟩).stamp q ((m.store p b (c, n, o)).versions.last q) = none :=
        hnone
      rw [store_last_of_ne hqp, install_stamp le_rfl] at hnone
      obtain ⟨i, c', n', o', hcall, hpend⟩ := hinv.pending q hq hnone
      refine ⟨i, c', n', o', (congrArg Cell.call (store_value hpend.last.ge)).trans hcall, ?_⟩
      rw [hpend.last] at hnone
      exact hpend.keep hinv (h.safe hinv) hnone

end

/-! ## Stamps -/

/-- The version has no stamp, and may get the stamp `t`. -/
structure Stampable (m : Memory K V ι) (p i t : Nat) : Prop where
  unset : m.versions.stamp p i = none
  le : i ≤ m.versions.last p
  born : m.versions.born p i ≤ t
  clock : t ≤ m.versions.clock

/-- It is the version of a pending update. -/
theorem Stampable.pending (h : Stampable m p i t) (hinv : Inv m) : ∃ j c n o, i = j + 1 ∧
    (m.versions.value p i).call = some (c, n, o) ∧ Pending m p j o := by
  have hlast : i = m.versions.last p := by
    by_contra hne
    exact hinv.ordered.stamped p i (lt_of_le_of_ne h.le hne) h.unset
  have hnone := h.unset
  rw [hlast] at hnone
  obtain ⟨j, c, n, o, hcall, hpend⟩ := hinv.pending p (hinv.lt_fresh h.unset h.le) hnone
  refine ⟨j, c, n, o, hlast.trans hpend.last, ?_, hpend⟩
  rw [hlast, hpend.last]
  exact hcall

/-- The nodes on the lists after the stamp: of earlier ones the same nodes, and of later ones those that were there, but
for a marked node whose last version has a stamp. A new one is the node of an `insert`, with a single version. -/
theorem Stampable.on (h : Stampable m p i t) (hinv : Inv m) (hls : zeroStamp ≤ ls) (hon : m.On ls a)
    (hlive : m.removed a = false ∨ m.versions.stamp a (m.versions.last a) = none) : (m.stamped p i t).On ls a := by
  by_cases hlt : ls < t
  · exact (on_stamped_of_lt hinv h.unset hls hlt).mpr hon
  · obtain ⟨j, c, n, o, rfl, -, hpend⟩ := h.pending hinv
    have hle : t ≤ ls := not_lt.mp hlt
    cases o with
    | insert k v => exact (hpend.on_insert (hinv.lt_fresh h.unset h.le) hinv h.unset hls h.born hle).mpr (.inr hon)
    | remove k =>
        refine (hpend.on_remove hinv h.unset hls h.born hle).2.mpr ⟨fun heq => ?_, hon⟩
        have hrem : Removes m p j k := hpend.stored
        obtain hlive | hnone := hlive
        · rw [heq, hrem.marked] at hlive
          cases hlive
        · obtain ⟨s, hs, -⟩ := hrem.stamped
          rw [heq, hs] at hnone
          cases hnone

theorem Stampable.visible (h : Stampable m p i t) (hinv : Inv m) (hvis : m.Visible a) :
    (m.stamped p i t).Visible a := by
  obtain ⟨halloc, hor⟩ := hvis
  cases hmark : m.removed a with
  | true => exact ⟨halloc, .inl hmark⟩
  | false =>
      refine ⟨halloc, .inr (h.on hinv hinv.clock (hor.resolve_left fun hm => ?_) (.inl hmark))⟩
      rw [hmark] at hm
      cases hm

theorem Stampable.safe (h : Stampable m p i t) (hinv : Inv m) : Safe m (m.stamped p i t) where
  grows := grows_setStamp h.unset
  fresh := le_rfl
  nodes _ _ := rfl
  value _ _ _ _ := rfl
  removed _ h := h
  visible _ := h.visible hinv
  last _ := .inl rfl
  live _ := .inl
  new _ hq _ _ hj := .inl ⟨hq, hj⟩
  on _ hnone _ hls hon := h.on hinv hls hon (.inr hnone)

/-- What is visible after the stamp: what was visible, and the node of an `insert`, which leads to a visible node. -/
theorem Stampable.visible_cases (h : Stampable m p i t) (hinv : Inv m) (hvis : (m.stamped p i t).Visible a) :
    m.Visible a ∨ m.versions.last a = 0 ∧ m.Visible (m.next a 0) := by
  obtain ⟨j, c, n, o, rfl, -, hpend⟩ := h.pending hinv
  obtain ⟨halloc, hmark | hon⟩ := hvis
  · exact .inl ⟨halloc, .inl hmark⟩
  · cases o with
    | insert k v =>
        have hp := hinv.lt_fresh h.unset h.le
        obtain rfl | hon := (hpend.on_insert hp hinv h.unset hinv.clock h.born h.clock).mp hon
        · have hins : Inserts m p j k v := hpend.stored
          refine .inr ⟨hins.last, ?_⟩
          rw [hins.next]
          have hpon := hpend.on m.versions.clock (h.born.trans h.clock)
          have hlt : j < m.versions.last p := h.le
          exact hinv.leads p ⟨hp, .inr hpon⟩ hpend.inner j hlt.le (hinv.ordered.stamped p j hlt)
        · exact .inl ⟨halloc, .inr hon⟩
    | remove k => exact .inl ⟨halloc, .inr ((hpend.on_remove hinv h.unset hinv.clock h.born h.clock).2.mp hon).2⟩

/-- Where the version leads is visible now. -/
theorem Stampable.target (h : Stampable m p i t) (hinv : Inv m) : (m.stamped p i t).Visible (m.next p i) := by
  obtain ⟨j, c, n, o, rfl, -, hpend⟩ := h.pending hinv
  have hp := hinv.lt_fresh h.unset h.le
  cases o with
  | insert k v =>
      exact ⟨hinv.targets p hp hpend.inner _ h.le,
        .inr ((hpend.on_insert hp hinv h.unset hinv.clock h.born h.clock).mpr (.inl rfl))⟩
  | remove k =>
      have hrem : Removes m p j k := hpend.stored
      obtain ⟨s, hs, -⟩ := hrem.stamped
      have hx : m.Visible (m.next p j) :=
        ⟨hinv.targets p hp hpend.inner j (Nat.le_of_succ_le h.le), .inl hrem.marked⟩
      refine h.visible hinv ?_
      rw [← hrem.next]
      refine hinv.leads _ hx hrem.inner _ le_rfl ?_
      rw [hs]
      exact Option.some_ne_none s

/-- A stamp keeps the invariant. -/
theorem Stampable.inv (h : Stampable m p i t) (hinv : Inv m) : Inv (m.stamped p i t) where
  clock := hinv.clock
  ordered := hinv.ordered.setStamp h.unset h.le h.born h.clock
  first q := by
    obtain ⟨j, c, n, o, rfl, -, -⟩ := h.pending hinv
    refine (setStamp_of_ne fun heq => ?_).trans (hinv.first q)
    cases heq.2
  root_lt := hinv.root_lt
  root_inner := hinv.root_inner
  paths ls hls := by
    obtain ⟨j, c, n, o, rfl, -, hpend⟩ := h.pending hinv
    by_cases hlt : ls < t
    · exact (hinv.paths ls hls).imp fun _ => (isPath_stamped_of_lt hinv h.unset hls hlt).mpr
    · have hle : t ≤ ls := not_lt.mp hlt
      cases o with
      | insert k v =>
          obtain ⟨xs, ys, -, hns⟩ := hpend.insert (hinv.lt_fresh h.unset h.le) hinv h.unset hls h.born hle
          exact ⟨_, hns⟩
      | remove k =>
          obtain ⟨xs, ys, -, hns⟩ := hpend.remove hinv h.unset hls h.born hle
          exact ⟨_, hns⟩
  blank := hinv.blank
  targets := hinv.targets
  leads q hvis hend j hj hs := by
    by_cases hqj : q = p ∧ j = i
    · obtain ⟨rfl, rfl⟩ := hqj
      exact h.target hinv
    · have hs : (m.versions.setStamp p i t).stamp q j ≠ none := hs
      rw [setStamp_of_ne hqj] at hs
      obtain hvis | ⟨hlast, hnext⟩ := h.visible_cases hinv hvis
      · exact h.visible hinv (hinv.leads q hvis hend j hj hs)
      · obtain rfl : j = 0 := Nat.le_zero.mp (hj.trans_eq hlast)
        exact h.visible hinv hnext
  pending q hq hnone := by
    have hnone : (m.versions.setStamp p i t).stamp q (m.versions.last q) = none := hnone
    have hqi : ¬ (q = p ∧ m.versions.last q = i) := by
      intro heq
      rw [heq.2, heq.1, setStamp_self] at hnone
      cases hnone
    rw [setStamp_of_ne hqi] at hnone
    obtain ⟨j, c, n, o, hcall, hpend⟩ := hinv.pending q hq hnone
    refine ⟨j, c, n, o, hcall, ?_⟩
    rw [hpend.last] at hnone
    exact hpend.keep hinv (h.safe hinv) hnone

end

end Verlib.SnapshotList
