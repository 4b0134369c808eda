import Verlib.BTree.Bodies

/-!
# Updates of a leaf

A key has one reachable leaf, as the intervals of the children of a node have no key in common. So the contents of the
tree for a key are those of this leaf, and the bodies of `try_insert` and `try_remove` change them for their key only.
-/

namespace Verlib.BTree.Concurrent

open Separated Relation

variable {K V : Type}

/-! ## What an operation is to do -/

/-- What a successful operation does to a set of keys with values. -/
def Op.Changes (o : Op K V) (before after : K → V → Prop) : Prop :=
  match o with
  | .insert k v upsert => (upsert = false → ∀ v', ¬ before k v') ∧
      ∀ k' v', after k' v' ↔ k' = k ∧ v' = v ∨ k' ≠ k ∧ before k' v'
  | .remove k => (∃ v, before k v) ∧ ∀ k' v', after k' v' ↔ k' ≠ k ∧ before k' v'

section

variable {o : Op K V} {before after before' after' : K → V → Prop}

/-- Other keys keep their values. -/
theorem Op.Changes.other (h : o.Changes before after) {k : K} (hne : k ≠ o.key) (v : V) :
    after k v ↔ before k v := by
  cases o with
  | insert k' v' upsert =>
      refine (h.2 k v).trans ⟨fun hk => ?_, fun hk => .inr ⟨hne, hk⟩⟩
      exact (hk.resolve_left fun hk => hne hk.1).2
  | remove k' => exact (h.2 k v).trans (and_iff_right hne)

/-- It is enough to know the sets for the key of the operation. -/
theorem Op.Changes.of_key (h : o.Changes before after) (hbefore : ∀ v, before' o.key v ↔ before o.key v)
    (hafter : ∀ v, after' o.key v ↔ after o.key v) (hother : ∀ k v, k ≠ o.key → (after' k v ↔ before' k v)) :
    o.Changes before' after' := by
  cases o with
  | insert k v upsert =>
      refine ⟨fun hno v' hv' => h.1 hno v' ((hbefore v').mp hv'), fun k' v' => ?_⟩
      by_cases hk : k' = k
      · subst hk
        refine ((hafter v').trans (h.2 k' v')).trans ?_
        simp
      · rw [hother k' v' hk]
        simp [hk]
  | remove k =>
      refine ⟨h.1.imp fun v hv => (hbefore v).mpr hv, fun k' v' => ?_⟩
      by_cases hk : k' = k
      · subst hk
        refine ((hafter v').trans (h.2 k' v')).trans ?_
        simp
      · rw [hother k' v' hk]
        simp [hk]

end

variable [LinearOrder K]

/-- The entries with other keys lie around the place of a key. -/
theorem mem_iff_of_ne {keyvals lows highs : List (KV K V)} {k k' : K} {v : V} (hcut : Cut keyvals k lows highs)
    (hne : k' ≠ k) : ⟨k', v⟩ ∈ keyvals ↔ ⟨k', v⟩ ∈ lows ++ highs := by
  cases hcut.entries with
  | inl habsent => rw [habsent.2]
  | inr hpresent =>
      obtain ⟨old, -, heq⟩ := hpresent
      rw [heq, List.mem_append, List.mem_append, List.mem_cons]
      simp [hne]

/-- The new leaf of an operation that has something to do. -/
theorem newLeaf_spec {B : BlockSizes} {o : Op K V} {keyvals : List (KV K V)} {p cidx l : Nat}
    (hsorted : Sorted keyvals) (hroom : keyvals.length < B.leaf)
    (hlocated : o.located keyvals p cidx l = .update p cidx l) :
    ∃ new, o.newLeaf B keyvals = some (newLeaf B new) ∧ Sorted new ∧
      (new.length ≤ keyvals.length + 1 ∧ keyvals.length ≤ new.length + 1) ∧
      o.Changes (fun k v => ⟨k, v⟩ ∈ keyvals) fun k v => ⟨k, v⟩ ∈ new := by
  obtain ⟨lows, highs, hcut⟩ := cut_spec hsorted o.key
  have hlength := hcut.length_le
  cases o with
  | insert k v upsert =>
      have hflag : (upsert && (leafFind keyvals k).isSome) = (leafFind keyvals k).isSome := by
        cases upsert with
        | true => rfl
        | false =>
            cases hfind : leafFind keyvals k with
            | none => rfl
            | some old =>
                simp only [Op.located, hfind] at hlocated
                cases hlocated
      refine ⟨lows ++ ⟨k, v⟩ :: highs, ?_, (hcut.sorted hsorted v).2, ?_, fun hno v' hv' => ?_, fun k' v' => ?_⟩
      · rw [Op.newLeaf, hflag]
        exact insertLeaf_spec hcut hroom v
      · rw [List.length_append, List.length_cons]
        omega
      · have hsome := (leafFind_eq_some hsorted).mpr hv'
        simp only [Op.located, hno, hsome] at hlocated
        cases hlocated
      · by_cases hk : k' = k
        · subst hk
          have hne : ∀ kv ∈ lows ++ highs, kv.key ≠ k' := hcut.ne
          have habsent : (⟨k', v'⟩ : KV K V) ∉ lows ++ highs := fun hmem => hne _ hmem rfl
          rw [List.mem_append, not_or] at habsent
          simp [habsent]
        · have hother := mem_iff_of_ne (v := v') hcut hk
          rw [List.mem_append] at hother
          simp [hk, hother]
  | remove k =>
      have hfind : (leafFind keyvals k).isSome = true := by
        by_contra hno
        rw [Bool.not_eq_true] at hno
        simp only [Op.located, hno] at hlocated
        cases hlocated
      obtain ⟨old, hold⟩ := Option.isSome_iff_exists.mp hfind
      have heq : keyvals = lows ++ ⟨k, old⟩ :: highs := by
        cases hcut.entries with
        | inl habsent =>
            have hnone : leafFind keyvals k = none := habsent.1
            rw [hnone] at hold
            cases hold
        | inr hpresent =>
            obtain ⟨old', hfind', heq⟩ := hpresent
            have hsome : leafFind keyvals k = some old' := hfind'
            rw [hold] at hsome
            cases hsome
            exact heq
      refine ⟨lows ++ highs, removeLeaf_spec hcut hroom heq, (hcut.sorted hsorted old).1, ?_,
        ⟨old, (leafFind_eq_some hsorted).mp hold⟩, fun k' v' => ?_⟩
      · rw [List.length_append]
        omega
      · by_cases hk : k' = k
        · subst hk
          exact iff_of_false (fun hmem => hcut.ne _ hmem rfl) fun h => h.1 rfl
        · exact (mem_iff_of_ne hcut hk).symm.trans (and_iff_right hk).symm

/-! ## The leaf of a key -/

/-- A step down on the way to the leaf of `k`. -/
structure Down (L : Layout K) (m : Memory K V) (k : K) (a x : Nat) : Prop where
  alloc : a < m.fresh
  kid : x ∈ (m.blocks a).kids
  covers : Covers L k x

section

variable {B : BlockSizes} {L L' : Layout K} {m m' : Memory K V} {k : K} {v : V} {a b x y : Nat} {status : Status}
  {keyvals : List (KV K V)}

/-- The interval of a child is a part of the interval of its node. -/
theorem WellFormed.covers_of_kid (hwf : WellFormed B L m) (ha : a < m.fresh) (hx : x ∈ (m.blocks a).kids)
    (hk : Covers L k x) : Covers L k a := by
  by_cases hroot : a = root
  · exact .inl hroot
  · have hblock := hwf.blocks a ha hroot
    obtain ⟨hxroot, -, -⟩ := hwf.kid ha hx
    obtain ⟨hlo, hhi⟩ := hk.resolve_left hxroot
    cases hb : m.blocks a with
    | leaf status keyvals =>
        rw [hb] at hx
        cases hx
    | node status size keys children =>
        rw [hb] at hblock hx
        obtain ⟨h, -, -, cuts, hcuts⟩ := hblock
        obtain ⟨i, hi, rfl⟩ := mem_row.mp hx
        have hplaced := (hcuts.child i hi).1
        rw [hplaced.lo_eq] at hlo
        rw [hplaced.hi_eq] at hhi
        have hfirst := hcuts.le_of_le (Nat.zero_le i) hi.le
        have hlast := hcuts.le_of_le (show i + 1 ≤ size from hi) le_rfl
        rw [hcuts.first] at hfirst
        rw [hcuts.last] at hlast
        exact .inr ⟨hfirst.trans hlo, hhi.trans_le hlast⟩

/-- There is one way down. -/
theorem WellFormed.down_unique (hwf : WellFormed B L m) (hx : Down L m k a x) (hy : Down L m k a y) : x = y := by
  have hxkid := hx.kid
  have hykid := hy.kid
  obtain ⟨hxroot, -, -⟩ := hwf.kid hx.alloc hxkid
  obtain ⟨hyroot, -, -⟩ := hwf.kid hx.alloc hykid
  have hkx := hx.covers.resolve_left hxroot
  have hky := hy.covers.resolve_left hyroot
  by_cases hroot : a = root
  · obtain ⟨keys, children, htop, -⟩ := hwf.top
    rw [hroot, htop] at hxkid hykid
    obtain ⟨i, hi, rfl⟩ := mem_row.mp hxkid
    obtain ⟨j, hj, rfl⟩ := mem_row.mp hykid
    rw [show i = j by omega]
  · have hblock := hwf.blocks a hx.alloc hroot
    cases hb : m.blocks a with
    | leaf status keyvals =>
        rw [hb] at hxkid
        cases hxkid
    | node status size keys children =>
        rw [hb] at hblock hxkid hykid
        obtain ⟨h, -, -, cuts, hcuts⟩ := hblock
        obtain ⟨i, hi, rfl⟩ := mem_row.mp hxkid
        obtain ⟨j, hj, rfl⟩ := mem_row.mp hykid
        have hplacedi := (hcuts.child i hi).1
        have hplacedj := (hcuts.child j hj).1
        rw [hplacedi.lo_eq, hplacedi.hi_eq] at hkx
        rw [hplacedj.lo_eq, hplacedj.hi_eq] at hky
        rw [hcuts.eq_of_mem hi hj hkx hky]

/-- The way down from the root. -/
theorem WellFormed.down_of_reach (hwf : WellFormed B L m) (ha : Reach m.blocks a) (hk : Covers L k a) :
    ReflTransGen (Down L m k) root a := by
  induction ha with
  | root => exact .refl
  | @kid a x ha hx ih =>
      have halloc := hwf.alloc_of_reach ha
      exact (ih (hwf.covers_of_kid halloc hx hk)).tail ⟨halloc, hx, hk⟩

/-- A key has one reachable leaf. -/
theorem WellFormed.leaf_unique (hwf : WellFormed B L m) (ha : Reach m.blocks a) (hb : Reach m.blocks b)
    (hka : Covers L k a) (hkb : Covers L k b) (hleafA : (m.blocks a).kids = []) (hleafB : (m.blocks b).kids = []) :
    a = b := by
  have hend : ∀ {a b}, (m.blocks a).kids = [] → ReflTransGen (Down L m k) a b → a = b := by
    intro a b hleaf hdown
    cases hdown.cases_head with
    | inl heq => exact heq
    | inr hstep =>
        obtain ⟨x, hx, -⟩ := hstep
        have hkid := hx.kid
        rw [hleaf] at hkid
        cases hkid
  have hunique : Relator.RightUnique (Down L m k) := fun _ _ _ hx hy => hwf.down_unique hx hy
  cases ReflTransGen.total_of_right_unique hunique (hwf.down_of_reach ha hka) (hwf.down_of_reach hb hkb) with
  | inl hdown => exact hend hleafA hdown
  | inr hdown => exact (hend hleafB hdown).symm

/-- A node with an entry is a leaf for the key of the entry. -/
theorem WellFormed.leaf_of_entry (hwf : WellFormed B L m) (ha : a < m.fresh) (hkv : ⟨k, v⟩ ∈ (m.blocks a).entries) :
    (m.blocks a).kids = [] ∧ Covers L k a := by
  have hroot : a ≠ root := by
    intro hroot
    obtain ⟨keys, children, htop, -⟩ := hwf.top
    rw [hroot, htop] at hkv
    cases hkv
  have hblock := hwf.blocks a ha hroot
  cases hb : m.blocks a with
  | leaf status keyvals =>
      rw [hb] at hkv hblock
      exact ⟨rfl, .inr (hblock.2.2 _ hkv)⟩
  | node status size keys children =>
      rw [hb] at hkv
      cases hkv

/-- The contents of the tree for a key are those of its leaf. -/
theorem WellFormed.contains_leaf (hwf : WellFormed B L m) (ha : Reach m.blocks a) (hk : Covers L k a)
    (hleaf : (m.blocks a).kids = []) : Contains m k v ↔ ⟨k, v⟩ ∈ (m.blocks a).entries := by
  constructor
  · rintro ⟨b, hb, hkv⟩
    obtain ⟨hleaf', hk'⟩ := hwf.leaf_of_entry (hwf.alloc_of_reach hb) hkv
    rw [hwf.leaf_unique ha hb hk hk' hleaf hleaf']
    exact hkv
  · exact fun hkv => ⟨a, ha, hkv⟩

end

/-! ## Storing a new leaf -/

section

variable {B : BlockSizes} {L L' : Layout K} {m m' : Memory K V} {k : K} {p i l x : Nat} {status : Status}
  {keyvals new : List (KV K V)} {o : Op K V}

/-- The child in the slot that a search has found. -/
theorem Entered.child (he : Entered L m k p i) (hwf : WellFormed B L m) :
    Covers L k (m.child p i) ∧ (∃ h lo hi, Placed L m h lo hi (m.child p i)) ∧
      (p ≠ root → SizeOk B (m.blocks (m.child p i)).header) := by
  obtain ⟨htop, hchild⟩ := hwf.slot he.alloc he.slot
  by_cases hroot : p = root
  · obtain ⟨h, hplaced⟩ := htop hroot
    refine ⟨.inr ?_, ⟨h, _, _, hplaced⟩, fun hne => absurd hroot hne⟩
    rw [hplaced.lo_eq, hplaced.hi_eq]
    exact ⟨bot_le, ofKey_lt_top k⟩
  · obtain ⟨status, size, keys, children, hb, hpos⟩ := he.index
    have hblock := hwf.blocks p he.alloc hroot
    rw [hb] at hblock
    obtain ⟨h, -, -, b, hcuts⟩ := hblock
    obtain ⟨hlo, hhi⟩ := he.covers.resolve_left hroot
    have hin := hcuts.interval hpos.lt_size hlo hhi hpos.before fun hlt => hpos.after i le_rfl hlt
    have hc : m.child p i = children i := by rw [Memory.child, hb]
    obtain ⟨hplaced, hsize⟩ := hcuts.child i hpos.lt_size
    rw [hc]
    refine ⟨.inr ?_, ⟨_, _, _, hplaced⟩, fun _ => hsize⟩
    rw [hplaced.lo_eq, hplaced.hi_eq]
    exact hin

/-- A new leaf is ready to take the place of a leaf. -/
theorem replaces_leaf {h : Nat} {lo hi : Bound K} (hl : Placed L m h lo hi l) (hkids : (m.blocks l).kids = [])
    (hnew : New B L m L' m' 0 lo hi x (.leaf status keyvals)) : Replaces L m L' m' [l] l x := by
  have hx := hnew.eq_fresh
  have hfresh := hnew.fresh
  have hax : ∀ a, m.fresh ≤ a → a < m'.fresh → a = x := fun a hle hlt => by omega
  refine ⟨hnew.ext, List.mem_singleton_self l, fun d hd => ?_, fun d hd hreach => ?_, fun y hy => ?_,
    fun a hle hlt => ?_, .inl hx.ge, fun a hle hlt y hy => ?_⟩
  · rw [List.mem_singleton.mp hd]
    exact ⟨hl.ne_root, hl.alloc, le_rfl⟩
  · rw [List.mem_singleton.mp hd]
    exact hreach
  · rw [kids_one, hkids] at hy
    cases hy
  · rw [hax a hle hlt]
    exact fun _ _ hreach => hreach
  · rw [hax a hle hlt, hnew.block] at hy
    cases hy

/-- A new leaf that differs in the entries for the key of the search only. -/
theorem storeLeaf_spec (hinv : Inv B L m) (hp : Entered L m k p i) (hlive : m.removed p = false)
    (hl : m.child p i = l) (hb : m.blocks l = .leaf status keyvals) (hroom : keyvals.length < B.leaf)
    (hok : p ≠ root → status = .ok) (hsorted : Sorted new)
    (hsize : new.length ≤ keyvals.length + 1 ∧ keyvals.length ≤ new.length + 1)
    (hother : ∀ k' v, k' ≠ k → (⟨k', v⟩ ∈ new ↔ ⟨k', v⟩ ∈ keyvals)) :
    ∃ L' m' x, placeLeaf (newLeaf B new) m = some (m', x) ∧ Inv B L' (m'.setChild p i x) ∧
      Ext L m L' (m'.setChild p i x) ∧ (∀ v, Contains m k v ↔ ⟨k, v⟩ ∈ keyvals) ∧
      (∀ v, Contains (m'.setChild p i x) k v ↔ ⟨k, v⟩ ∈ new) ∧
      ∀ k' v, k' ≠ k → (Contains (m'.setChild p i x) k' v ↔ Contains m k' v) := by
  have hreach := hp.reach hinv hlive
  have hslot := hp.slot
  obtain ⟨hcovers, ⟨h, lo, hi, hplaced⟩, hsizeOk⟩ := hp.child hinv.wf
  obtain ⟨htop, hchild⟩ := hinv.wf.slot hp.alloc hslot
  rw [hl] at hslot hcovers hplaced hsizeOk htop hchild
  have hblock := hinv.wf.block hplaced
  have hkids : (m.blocks l).kids = [] := by rw [hb]; rfl
  have hentries : (m.blocks l).entries = keyvals := by rw [hb]; rfl
  rw [hb] at hblock hsizeOk
  obtain ⟨rfl, -, hin⟩ := hblock
  have hkin := hcovers.resolve_left hplaced.ne_root
  rw [hplaced.lo_eq, hplaced.hi_eq] at hkin
  have hnewIn : ∀ kv ∈ new, lo ≤ ofKey kv.key ∧ ofKey kv.key < hi := by
    intro kv hkv
    by_cases hk : kv.key = k
    · rw [hk]
      exact hkin
    · exact hin kv ((hother kv.key kv.value hk).mp hkv)
  obtain ⟨L', m', x, status', hplace, heq, hnew⟩ := placeLeaf_spec (t := newLeaf B new) hinv.wf
    ⟨rfl, hsorted, hnewIn⟩ ⟨rfl, by omega⟩
  cases heq
  have hr := replaces_leaf hplaced hkids hnew
  have hxle : m.fresh ≤ x := hnew.eq_fresh.ge
  have hxlt : x < m'.fresh := hnew.placed.alloc
  have hlreach := Reach.kid hreach hslot.mem_kids
  obtain ⟨hinv', hext⟩ : Inv B L' (m'.setChild p i x) ∧ Ext L m L' (m'.setChild p i x) := by
    refine hr.inv [] hinv hnew.wf hreach hslot (fun hroot => ?_) (fun hroot => ?_) (fun hroot => ?_)
      (fun d hd => absurd hd List.not_mem_nil) fun d hd => .inr (.inl ?_)
    · obtain ⟨h', htop⟩ := htop hroot
      rw [← htop.lo_eq, ← htop.hi_eq, hplaced.lo_eq, hplaced.hi_eq]
      exact ⟨0, hnew.placed⟩
    · obtain ⟨hstatus, hmin, -⟩ := hsizeOk hroot
      obtain ⟨hne, -⟩ := ne_of_statusOf_ok (hstatus.symm.trans (hok hroot))
      rw [hplaced.lo_eq, hplaced.hi_eq, hplaced.height_eq]
      exact hnew.childOk ⟨rfl, show B.leafMin ≤ new.length by omega, show new.length ≤ B.leaf by omega⟩
    · rw [hb]
      exact hok hroot
    · rw [List.mem_singleton.mp hd, hb]
      rfl
  have hxreach : Reach (m'.setChild p i x).blocks x :=
    hr.reach_new [] hinv.wf hreach hslot (hr.all x hxle hxlt)
  have hxblock : (m'.setChild p i x).blocks x = .leaf (statusOf B.leafMin B.leaf new.length) new :=
    (blocks_new [] hp.alloc hxle).trans hnew.block
  have hxcovers : Covers L' k x := by
    right
    rw [hnew.placed.lo_eq, hnew.placed.hi_eq]
    exact hkin
  refine ⟨L', m', x, hplace, hinv', hext, fun v => ?_, fun v => ?_, fun k' v hk => ?_⟩
  · rw [hinv.wf.contains_leaf hlreach hcovers hkids, hentries]
  · rw [hinv'.wf.contains_leaf hxreach hxcovers (by rw [hxblock]; rfl), hxblock]
    rfl
  · constructor
    · rintro ⟨a, ha, hkv⟩
      cases hr.reach_origin [] hinv.wf hinv'.wf hreach hslot ha with
      | inl hanew =>
          obtain rfl : a = x := by
            have := hnew.eq_fresh
            have := hnew.fresh
            omega
          rw [hxblock] at hkv
          refine ⟨l, hlreach, ?_⟩
          rw [hentries]
          exact (hother k' v hk).mp hkv
      | inr haold =>
          rw [entries_of_header (hext.header a (hinv.wf.alloc_of_reach haold))] at hkv
          exact ⟨a, haold, hkv⟩
    · rintro ⟨a, ha, hkv⟩
      cases hr.reach_kept [] hinv.wf hreach hslot ha with
      | inl hgone =>
          rw [List.mem_singleton.mp hgone, hentries] at hkv
          refine ⟨x, hxreach, ?_⟩
          rw [hxblock]
          exact (hother k' v hk).mpr hkv
      | inr hkept =>
          refine ⟨a, hkept, ?_⟩
          rw [entries_of_header (hext.header a (hinv.wf.alloc_of_reach ha))]
          exact hkv

/-- The body of `try_insert` and `try_remove`, where there is something to do. -/
theorem body_spec (locks : Nat → Bool) (hinv : Inv B L m) (hp : Entered L m o.key p i)
    (hb : m.blocks l = .leaf status keyvals) (hroom : keyvals.length < B.leaf) (hok : p ≠ root → status = .ok)
    (hlocated : o.located keyvals p i l = .update p i l) :
    ∃ m' r, o.body B locks p i l m = some (m', r) ∧ ∃ L', Inv B L' m' ∧ Ext L m L' m' ∧
      (r = false → ∀ k v, Contains m' k v ↔ Contains m k v) ∧ (r = true → o.Changes (Contains m) (Contains m')) := by
  rw [Op.body]
  by_cases htest : locks 0 ∧ m.removed p = false ∧ m.child p i = l
  · have hsorted : Sorted keyvals := by
      obtain ⟨-, ⟨h, lo, hi, hplaced⟩, -⟩ := hp.child hinv.wf
      rw [htest.2.2] at hplaced
      have hblock := hinv.wf.block hplaced
      rw [hb] at hblock
      exact hblock.2.1
    obtain ⟨new, hnew, hsorted', hsize, hchanges⟩ := newLeaf_spec (B := B) hsorted hroom hlocated
    obtain ⟨L', m', x, hplace, hinv', hext, hbefore, hafter, hother⟩ := storeLeaf_spec hinv hp htest.2.1 htest.2.2 hb
      hroom hok hsorted' hsize fun k v hk => hchanges.other hk v
    rw [if_pos htest, hb]
    simp only [Block.entries, hnew, hplace, bind, Option.bind]
    exact ⟨_, true, rfl, L', hinv', hext, fun h => (by cases h), fun _ => hchanges.of_key hbefore hafter hother⟩
  · rw [if_neg htest]
    obtain ⟨L', hinv', hext, hsame⟩ := Repairs.refl hinv
    exact ⟨m, false, rfl, L', hinv', hext, fun _ => hsame, fun h => by cases h⟩

end

end Verlib.BTree.Concurrent
