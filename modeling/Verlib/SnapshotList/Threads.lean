import Verlib.SnapshotList.Updates

/-!
# What the threads know of the memory

At every position of an update the facts that its checks have established, and for a snapshot which versions it will
not read. They rely on the other threads: these do not touch what is locked, and store nothing in its name.
-/

namespace Verlib.SnapshotList

open Interleaving Interleaving.Versions Indirect Linked
open SortedList (Op root)

variable {K V R ι : Type} [LinearOrder K]

/-- What thread `c` relies on when the others step. -/
structure Rely (c : ι) (m m' : Memory K V ι) : Prop extends Ext m m' where
  locks : ∀ a, m'.locks a = some c ↔ m.locks a = some c
  held : ∀ a, m.locks a = some c → m'.versions.last a = m.versions.last a ∧ m'.removed a = m.removed a
  authors : ∀ p i n o, m'.Author p i c n o ↔ m.Author p i c n o

/-- The node that `find_location` has passed, and the one that comes after it. -/
structure Searched (m : Memory K V ι) (k : K) (cur nxt : Nat) : Prop where
  visible : m.Visible cur
  inner : (m.nodes cur).isEnd = false
  before : cur = root ∨ (m.nodes cur).key < k
  next : m.Visible nxt

/-- The node after which there is something to do. -/
def After (o : Op K V) (d : Node K V) : Prop :=
  match o with
  | .insert k _ => d.isEnd = true ∨ k < d.key
  | .remove k => d.isEnd = false ∧ d.key = k

/-- `remove` has both locks. -/
structure Both (c : ι) (m : Memory K V ι) (o : Op K V) (cur nxt : Nat) : Prop where
  remove : o = .remove o.key
  after : After o (m.nodes nxt)
  checked : Checked m o.key cur nxt
  lock : m.locks cur = some c
  lockNext : m.locks nxt = some c

/-- What a thread knows in an update. -/
def Update.Known (c : ι) (m : Memory K V ι) (o : Op K V) : Update → Prop
  | .first | .validNext .. | .validRemoved _ => True
  | .search cur nxt => Searched m o.key cur nxt
  | .lock cur nxt => Searched m o.key cur nxt ∧ After o (m.nodes nxt)
  | .checkRemoved cur nxt => Searched m o.key cur nxt ∧ After o (m.nodes nxt) ∧ m.locks cur = some c
  | .checkNext cur nxt =>
      Searched m o.key cur nxt ∧ After o (m.nodes nxt) ∧ m.locks cur = some c ∧ m.removed cur = false
  | .link cur nxt => After o (m.nodes nxt) ∧ Checked m o.key cur nxt ∧ m.locks cur = some c
  | .lockNext cur nxt =>
      o = .remove o.key ∧ After o (m.nodes nxt) ∧ Checked m o.key cur nxt ∧ m.locks cur = some c
  | .readNext cur nxt => Both c m o cur nxt
  | .mark cur nxt b => Both c m o cur nxt ∧ m.versions.stamp nxt (m.versions.last nxt) ≠ none ∧
      m.next nxt (m.versions.last nxt) = b
  | .unlink cur nxt b => Both c m o cur nxt ∧ m.versions.stamp nxt (m.versions.last nxt) ≠ none ∧
      m.next nxt (m.versions.last nxt) = b ∧ m.removed nxt = true
  | .unlock held _ => held.Nodup ∧ ∀ a ∈ held, m.locks a = some c

/-- What a thread knows in `set_stamp` for version `i` of `p`. -/
def Setting (m : Memory K V ι) (p i : Nat) : SetStamp → Prop
  | .load | .clock => i ≤ m.versions.last p
  | .again t | .swap t => i ≤ m.versions.last p ∧ m.versions.born p i ≤ t ∧ t ≤ m.versions.clock

/-- The versions of `p` after version `i` are too young for a snapshot with the stamp `ls`. -/
def Young (m : Memory K V ι) (ls p i : Nat) : Prop :=
  ∀ j, i < j → j ≤ m.versions.last p → (∃ t, m.versions.stamp p j = some t ∧ ls < t) ∨ ls < m.versions.born p j

/-- A snapshot with the stamp `ls` has begun. -/
def Begun (m : Memory K V ι) (ls : Nat) : Prop := zeroStamp ≤ ls ∧ ls < m.versions.clock

/-- What a thread knows of the memory at its position. -/
def Pc.Known (c : ι) (m : Memory K V ι) : Pc K V R → Prop
  | .idle => True
  | .update _ o l => l.Known c m o
  | .stamping _ o l p i s => l.Known c m o ∧ Setting m p i s ∧
      ∀ q, l.loads = some q → q = p ∧ (m.locks p = some c → i = m.versions.last p)
  | .starting _ _ .load => True
  | .starting _ _ (.test ts) | .starting _ _ (.add ts) => zeroStamp ≤ ts ∧ ts ≤ m.versions.clock
  | .body _ ls _ => Begun m ls
  | .reading _ ls _ p i s => Begun m ls ∧ p < m.fresh ∧ Setting m p i s ∧ Young m ls p i
  | .walking _ ls _ p i => Begun m ls ∧ p < m.fresh ∧ i ≤ m.versions.last p ∧ m.versions.stamp p i ≠ none ∧ Young m ls p i

section

variable {c d : ι} {m m' : Memory K V ι} {o : Op K V} {k : K} {cur nxt p i ls : Nat} {s : SetStamp}

/-! ## What stays known -/

theorem Searched.stable (h : Searched m k cur nxt) (hext : Ext m m') : Searched m' k cur nxt := by
  refine ⟨hext.visible _ h.visible, ?_, ?_, hext.visible _ h.next⟩
  · rw [hext.nodes cur h.visible.1]
    exact h.inner
  · rw [hext.nodes cur h.visible.1]
    exact h.before

theorem After.stable (h : After o (m.nodes nxt)) (hext : Ext m m') (hnxt : m.Visible nxt) : After o (m'.nodes nxt) := by
  rwa [hext.nodes nxt hnxt.1]

theorem Checked.stable (h : Checked m k cur nxt) (hrely : Rely c m m') (hlock : m.locks cur = some c) :
    Checked m' k cur nxt := by
  obtain ⟨hlast, hremoved⟩ := hrely.held cur hlock
  have hcur := h.visible.1
  refine ⟨hrely.visible _ h.visible, ?_, ?_, hremoved.trans h.live, ?_, ?_⟩
  · rw [hrely.nodes cur hcur]
    exact h.inner
  · rw [hrely.nodes cur hcur]
    exact h.before
  · rw [hlast]
    exact hrely.grows.ne_none le_rfl h.stamped
  · rw [hlast, hrely.next hcur le_rfl]
    exact h.next

theorem Both.stable (h : Both c m o cur nxt) (hinv : Inv m) (hrely : Rely c m m') : Both c m' o cur nxt :=
  ⟨h.remove, h.after.stable hrely.toExt (h.checked.visible_next hinv), h.checked.stable hrely h.lock,
    (hrely.locks cur).mpr h.lock, (hrely.locks nxt).mpr h.lockNext⟩

/-- The last version of a locked node. -/
theorem Rely.last_next {b : Nat} (hrely : Rely c m m') (hlock : m.locks nxt = some c) (hnxt : m.Visible nxt)
    (hs : m.versions.stamp nxt (m.versions.last nxt) ≠ none) (hb : m.next nxt (m.versions.last nxt) = b) :
    m'.versions.stamp nxt (m'.versions.last nxt) ≠ none ∧ m'.next nxt (m'.versions.last nxt) = b := by
  rw [(hrely.held nxt hlock).1, hrely.next hnxt.1 le_rfl]
  exact ⟨hrely.grows.ne_none le_rfl hs, hb⟩

theorem Update.Known.stable {l : Update} (h : l.Known c m o) (hinv : Inv m) (hrely : Rely c m m') : l.Known c m' o := by
  cases l with
  | first => trivial
  | validNext cur nxt => trivial
  | validRemoved cur => trivial
  | search cur nxt => exact Searched.stable h hrely.toExt
  | lock cur nxt =>
      obtain ⟨hs, hafter⟩ := h
      exact ⟨hs.stable hrely.toExt, hafter.stable hrely.toExt hs.next⟩
  | checkRemoved cur nxt =>
      obtain ⟨hs, hafter, hlock⟩ := h
      exact ⟨hs.stable hrely.toExt, hafter.stable hrely.toExt hs.next, (hrely.locks cur).mpr hlock⟩
  | checkNext cur nxt =>
      obtain ⟨hs, hafter, hlock, hlive⟩ := h
      exact ⟨hs.stable hrely.toExt, hafter.stable hrely.toExt hs.next, (hrely.locks cur).mpr hlock,
        (hrely.held cur hlock).2.trans hlive⟩
  | link cur nxt =>
      obtain ⟨hafter, hc, hlock⟩ := h
      exact ⟨hafter.stable hrely.toExt (hc.visible_next hinv), hc.stable hrely hlock, (hrely.locks cur).mpr hlock⟩
  | lockNext cur nxt =>
      obtain ⟨ho, hafter, hc, hlock⟩ := h
      exact ⟨ho, hafter.stable hrely.toExt (hc.visible_next hinv), hc.stable hrely hlock, (hrely.locks cur).mpr hlock⟩
  | readNext cur nxt => exact Both.stable h hinv hrely
  | mark cur nxt b =>
      obtain ⟨hboth, hs, hb⟩ := h
      exact ⟨hboth.stable hinv hrely, hrely.last_next hboth.lockNext (hboth.checked.visible_next hinv) hs hb⟩
  | unlink cur nxt b =>
      obtain ⟨hboth, hs, hb, hmark⟩ := h
      obtain ⟨hs, hb⟩ := hrely.last_next hboth.lockNext (hboth.checked.visible_next hinv) hs hb
      exact ⟨hboth.stable hinv hrely, hs, hb, hrely.removed nxt hmark⟩
  | unlock held done => exact ⟨h.1, fun a ha => (hrely.locks a).mpr (h.2 a ha)⟩

omit [LinearOrder K] in
theorem Setting.le (h : Setting m p i s) : i ≤ m.versions.last p := by
  cases s with
  | load => exact h
  | clock => exact h
  | again t => exact h.1
  | swap t => exact h.1

theorem Setting.stable (h : Setting m p i s) (hext : Ext m m') : Setting m' p i s := by
  have hlast : m.versions.last p ≤ m'.versions.last p := hext.grows.last p
  have hborn : m'.versions.born p i = m.versions.born p i := hext.grows.born p i h.le
  have hclock : m.versions.clock ≤ m'.versions.clock := hext.grows.clock
  cases s with
  | load => exact h.le.trans hlast
  | clock => exact h.le.trans hlast
  | again t => exact ⟨h.le.trans hlast, hborn.le.trans h.2.1, h.2.2.trans hclock⟩
  | swap t => exact ⟨h.le.trans hlast, hborn.le.trans h.2.1, h.2.2.trans hclock⟩

theorem Begun.stable (h : Begun m ls) (hext : Ext m m') : Begun m' ls := ⟨h.1, h.2.trans_le hext.grows.clock⟩

theorem Young.stable (h : Young m ls p i) (hext : Ext m m') (hls : Begun m ls) : Young m' ls p i := by
  intro j hlt hle
  by_cases hj : j ≤ m.versions.last p
  · obtain ⟨t, ht, htlt⟩ | hborn := h j hlt hj
    · exact .inl ⟨t, hext.grows.stamp p j t hj ht, htlt⟩
    · exact .inr (hborn.trans_eq (hext.grows.born p j hj).symm)
  · exact .inr (hls.2.trans_le (hext.grows.new p j (Nat.lt_of_not_le hj) hle))

theorem Pc.Known.stable {pc : Pc K V R} (h : pc.Known c m) (hinv : Inv m) (hrely : Rely c m m') : pc.Known c m' := by
  cases pc with
  | idle => trivial
  | update n o l => exact Update.Known.stable h hinv hrely
  | stamping n o l p i s =>
      obtain ⟨hknown, hset, hload⟩ := h
      refine ⟨hknown.stable hinv hrely, hset.stable hrely.toExt, fun q hq => ⟨(hload q hq).1, fun hlock => ?_⟩⟩
      have hlock := (hrely.locks p).mp hlock
      exact ((hload q hq).2 hlock).trans (hrely.held p hlock).1.symm
  | starting n f s =>
      cases s with
      | load => trivial
      | test ts => exact ⟨h.1, h.2.trans hrely.grows.clock⟩
      | add ts => exact ⟨h.1, h.2.trans hrely.grows.clock⟩
  | body n ls f => exact Begun.stable h hrely.toExt
  | reading n ls f p i s =>
      obtain ⟨hls, hp, hset, hyoung⟩ := h
      exact ⟨hls.stable hrely.toExt, hp.trans_le hrely.fresh, hset.stable hrely.toExt, hyoung.stable hrely.toExt hls⟩
  | walking n ls f p i =>
      obtain ⟨hls, hp, hi, hs, hyoung⟩ := h
      exact ⟨hls.stable hrely.toExt, hp.trans_le hrely.fresh, hi.trans (hrely.grows.last p),
        hrely.grows.ne_none hi hs, hyoung.stable hrely.toExt hls⟩

/-! ## The loads of an update -/

/-- What follows `find_location`. -/
theorem located_known (h : Searched m o.key cur nxt) (hat : (m.nodes nxt).isEnd = true ∨ ¬ (m.nodes nxt).key < o.key) :
    (located o (m.nodes nxt) cur nxt).Known c m o := by
  cases o with
  | insert k v =>
      show Update.Known c m _ (if _ then _ else _)
      split
      · trivial
      · refine ⟨h, ?_⟩
        rename_i hnew
        show (m.nodes nxt).isEnd = true ∨ k < (m.nodes nxt).key
        cases hend : (m.nodes nxt).isEnd with
        | true => exact .inl rfl
        | false => exact .inr (by_contra fun hlt => hnew ⟨hend, hlt⟩)
  | remove k =>
      show Update.Known c m _ (if _ then _ else _)
      split
      · trivial
      · refine ⟨h, ?_⟩
        rename_i hthere
        obtain ⟨hend, hlt⟩ := not_or.mp hthere
        have hat := hat.resolve_left hend
        exact ⟨Bool.not_eq_true _ ▸ hend, le_antisymm (not_lt.mp hlt) (not_lt.mp hat)⟩

/-- What a thread knows after a load. -/
theorem Update.Known.loaded {l : Update} (h : l.Known c m o) (hinv : Inv m) (hi : i ≤ m.versions.last p)
    (hs : m.versions.stamp p i ≠ none)
    (hload : ∀ q, l.loads = some q → q = p ∧ (m.locks p = some c → i = m.versions.last p)) :
    (l.loaded o m.nodes (m.next p i)).Known c m o := by
  cases l with
  | first =>
      obtain ⟨rfl, -⟩ := hload root rfl
      exact ⟨hinv.visible_root, hinv.root_inner, .inl rfl,
        hinv.leads root hinv.visible_root hinv.root_inner i hi hs⟩
  | search cur nxt =>
      obtain ⟨rfl, -⟩ := hload nxt rfl
      have h : Searched m o.key cur nxt := h
      show Update.Known c m o (if _ then _ else _)
      split
      · rename_i hat
        exact located_known h hat
      · rename_i hgo
        obtain ⟨hend, hlt⟩ := not_or.mp hgo
        have hinner : (m.nodes nxt).isEnd = false := Bool.not_eq_true _ ▸ hend
        exact ⟨h.next, hinner, .inr (not_not.mp hlt), hinv.leads nxt h.next hinner i hi hs⟩
  | validNext cur nxt =>
      show Update.Known c m o (if _ then _ else _)
      split
      · trivial
      · trivial
  | checkNext cur nxt =>
      obtain ⟨rfl, hlast⟩ := hload cur rfl
      obtain ⟨hsearch, hafter, hlock, hlive⟩ := h
      obtain rfl := hlast hlock
      show Update.Known c m o (if _ then _ else _)
      split
      · rename_i hnext
        have hchecked : Checked m o.key cur nxt :=
          ⟨hsearch.visible, hsearch.inner, hsearch.before, hlive, hs, hnext⟩
        cases o with
        | insert k v => exact ⟨hafter, hchecked, hlock⟩
        | remove k => exact ⟨rfl, hafter, hchecked, hlock⟩
      · refine ⟨List.nodup_singleton cur, fun a ha => ?_⟩
        rw [List.mem_singleton.mp ha]
        exact hlock
  | readNext cur nxt =>
      obtain ⟨rfl, hlast⟩ := hload nxt rfl
      have h : Both c m o cur nxt := h
      obtain rfl := hlast h.lockNext
      exact ⟨h, hs, rfl⟩
  | validRemoved cur => exact h
  | lock cur nxt => exact h
  | checkRemoved cur nxt => exact h
  | link cur nxt => exact h
  | lockNext cur nxt => exact h
  | mark cur nxt b => exact h
  | unlink cur nxt b => exact h
  | unlock held done => exact h

end

end Verlib.SnapshotList
