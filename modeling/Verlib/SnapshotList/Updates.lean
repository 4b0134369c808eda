import Verlib.SnapshotList.Operations

/-!
# The stores of the updates

Under the lock of `cur`, `insert` stores the pointer to its new node and `remove` the one to what follows the marked
node. Both keep the invariant. `Install` says what the history needs of them, which is who has stored which version.
-/

namespace Verlib.SnapshotList

open Interleaving Interleaving.Versions Indirect Linked
open SortedList (Op root)

variable {K V ι : Type} [LinearOrder K]

/-- Version `i + 1` of `p` was stored by call `n` of thread `c`, which is the call of `o`. -/
def Memory.Author (m : Memory K V ι) (p i : Nat) (c : ι) (n : Nat) (o : Op K V) : Prop :=
  i < m.versions.last p ∧ (m.versions.value p (i + 1)).call = some (c, n, o)

/-- A step that stores a new version of `p`. -/
structure Install (m m' : Memory K V ι) (p : Nat) (c : ι) (n : Nat) (o : Op K V) : Prop where
  ext : Ext m m'
  still : Still m m'
  clock : m'.versions.clock = m.versions.clock
  calls : m'.calls = m.calls
  locks : m'.locks = m.locks
  removed : m'.removed = m.removed
  stamped : m.versions.stamp p (m.versions.last p) ≠ none
  last : m'.versions.last p = m.versions.last p + 1
  last_of_ne : ∀ q, q ≠ p → m'.versions.last q = m.versions.last q
  born : m'.versions.born p (m.versions.last p + 1) = m.versions.clock
  stamp : m'.versions.stamp p (m.versions.last p + 1) = none
  stamp_old : ∀ q j, j ≤ m.versions.last q → m'.versions.stamp q j = m.versions.stamp q j
  author : ∀ q j d k o', m'.Author q j d k o' ↔
    m.Author q j d k o' ∨ q = p ∧ j = m.versions.last p ∧ (d, k, o') = (c, n, o)

/-- What an update has found under the lock of `cur`. -/
structure Checked (m : Memory K V ι) (k : K) (cur nxt : Nat) : Prop where
  visible : m.Visible cur
  inner : (m.nodes cur).isEnd = false
  before : cur = root ∨ (m.nodes cur).key < k
  live : m.removed cur = false
  stamped : m.versions.stamp cur (m.versions.last cur) ≠ none
  next : m.next cur (m.versions.last cur) = nxt

section

variable {m m' : Memory K V ι} {k : K} {v : V} {cur nxt b p : Nat} {c : ι} {n : Nat} {o : Op K V}

theorem Checked.visible_next (h : Checked m k cur nxt) (hinv : Inv m) : m.Visible nxt := by
  rw [← h.next]
  exact hinv.leads cur h.visible h.inner _ le_rfl h.stamped

/-- The two nodes are neighbours on the list of the present. -/
theorem Checked.related (h : Checked m k cur nxt) (hinv : Inv m) : Precedes m.nodes cur nxt := by
  obtain ⟨-, hmark | hon⟩ := h.visible
  · rw [h.live] at hmark
    cases hmark
  · obtain ⟨ns, hns, hcur⟩ := hon
    obtain ⟨s, hs⟩ := Option.ne_none_iff_exists'.mp h.stamped
    have hview : m.view m.versions.clock cur = nxt := by
      rw [Memory.view, cut_last hs (hinv.ordered.le_clock cur _ s le_rfl hs)]
      exact h.next
    obtain ⟨xs, ys, rfl⟩ := hns.path.split hcur fun hend => by
      have hend : (m.nodes cur).isEnd = true := hend
      rw [h.inner] at hend
      cases hend
    have hrel := hns.path.related
    rwa [hview] at hrel

omit [LinearOrder K] in
/-- The authors after a store. -/
theorem author_store (call : ι × Nat × Op K V) (q j : Nat) (d : ι) (l : Nat) (o' : Op K V) :
    (m.store p b call).Author q j d l o' ↔ m.Author q j d l o' ∨ q = p ∧ j = m.versions.last p ∧ (d, l, o') = call := by
  constructor
  · intro h
    obtain ⟨hlt, hcall⟩ := h
    obtain hold | ⟨rfl, heq⟩ := install_cases (V := m.versions) (Nat.succ_le_of_lt hlt)
    · rw [store_value hold] at hcall
      exact .inl ⟨hold, hcall⟩
    · obtain rfl : j = m.versions.last q := by omega
      have hnew : some call = some (d, l, o') := (congrArg Cell.call install_value_new).symm.trans hcall
      exact .inr ⟨rfl, rfl, (Option.some.inj hnew).symm⟩
  · intro h
    obtain ⟨hlt, hcall⟩ | ⟨rfl, rfl, hcall⟩ := h
    · refine ⟨lt_of_lt_of_le hlt install_last_le, ?_⟩
      rw [store_value hlt]
      exact hcall
    · refine ⟨?_, ?_⟩
      · rw [store_last]
        exact Nat.lt_succ_self _
      · rw [hcall]
        exact congrArg Cell.call install_value_new

theorem Storing.install (h : Storing m p b) (hinv : Inv m) : Install m (m.store p b (c, n, o)) p c n o where
  ext := (h.safe hinv).toExt
  still := store_still hinv
  clock := rfl
  calls := rfl
  locks := rfl
  removed := rfl
  stamped := h.stamped
  last := store_last
  last_of_ne _ hne := store_last_of_ne hne
  born := install_born_new
  stamp := install_stamp_new
  stamp_old _ _ hj := install_stamp hj
  author := author_store _

/-- `insert` under the lock: the new node comes after `cur`. -/
theorem Checked.link (h : Checked m k cur nxt) (hinv : Inv m)
    (hafter : (m.nodes nxt).isEnd = true ∨ k < (m.nodes nxt).key) :
    Inv ((m.newNode ⟨k, v, false⟩ nxt).store cur m.fresh (c, n, .insert k v)) ∧
      Install m ((m.newNode ⟨k, v, false⟩ nxt).store cur m.fresh (c, n, .insert k v)) cur c n (.insert k v) := by
  have hnxt := h.visible_next hinv
  have hinv₁ : Inv (m.newNode ⟨k, v, false⟩ nxt) := hinv.newNode hnxt
  have hext₁ : Ext m (m.newNode ⟨k, v, false⟩ nxt) := (newNode_safe hinv hnxt).toExt
  have hcur : cur < m.fresh := h.visible.1
  have hne : cur ≠ m.fresh := hcur.ne
  have hapart : (m.newNode ⟨k, v, false⟩ nxt).Apart m.fresh := newNode_apart hinv hnxt.1
  have hst : Storing (m.newNode ⟨k, v, false⟩ nxt) cur m.fresh := by
    refine ⟨hext₁.visible _ h.visible, h.live, ?_, h.stamped, Nat.lt_succ_self _, .inr hapart⟩
    rw [newNode_nodes hcur]
    exact h.inner
  have hins := hst.install (c := c) (n := n) (o := .insert k v) hinv₁
  refine ⟨hst.inv hinv₁ ?_, ?_⟩
  · -- what the stored version is for
    have hlast : m.versions.last m.fresh = 0 := (hinv.blank _ le_rfl).1
    have hold : ∀ {a i}, a < m.fresh → i ≤ m.versions.last a →
        ((m.newNode ⟨k, v, false⟩ nxt).store cur m.fresh (c, n, .insert k v)).next a i = m.next a i := by
      intro a i ha hi
      have hstore : ((m.newNode ⟨k, v, false⟩ nxt).store cur m.fresh (c, n, .insert k v)).next a i =
          (m.newNode ⟨k, v, false⟩ nxt).next a i := store_next hi
      exact hstore.trans (newNode_next ha)
    have hcurnext := (hold hcur le_rfl).trans h.next
    have hnew : ((m.newNode ⟨k, v, false⟩ nxt).store cur m.fresh (c, n, .insert k v)).next cur
        (m.versions.last cur + 1) = m.fresh := store_next_new
    refine ⟨?_, ?_, ?_, ?_, ?_, ?_, ?_⟩
    · show (m.newNode ⟨k, v, false⟩ nxt).nodes (Memory.next _ cur (m.versions.last cur + 1)) = _
      rw [hnew]
      exact newNode_node_new
    · show ((m.newNode ⟨k, v, false⟩ nxt).store cur m.fresh (c, n, .insert k v)).versions.last
        (Memory.next _ cur (m.versions.last cur + 1)) = 0
      rw [hnew, store_last_of_ne hne.symm]
      exact hlast
    · show m.removed (Memory.next _ cur (m.versions.last cur + 1)) = false
      rw [hnew]
      exact (hinv.blank _ le_rfl).2
    · show Memory.next _ (Memory.next _ cur (m.versions.last cur + 1)) 0 = Memory.next _ cur (m.versions.last cur)
      rw [hnew, hcurnext, store_next (Nat.zero_le _)]
      exact newNode_next_new
    · show Precedes (m.newNode ⟨k, v, false⟩ nxt).nodes cur (Memory.next _ cur (m.versions.last cur + 1))
      rw [hnew, Precedes, newNode_nodes hcur, newNode_node_new]
      exact ⟨hinv.root_lt.ne', h.inner, .inr h.before⟩
    · show Precedes (m.newNode ⟨k, v, false⟩ nxt).nodes (Memory.next _ cur (m.versions.last cur + 1))
        (Memory.next _ cur (m.versions.last cur))
      rw [hnew, hcurnext, Precedes, newNode_nodes hnxt.1, newNode_node_new]
      exact ⟨(h.related hinv).1, rfl, hafter.imp_right .inr⟩
    · intro q hq hend j hj heq
      have heq : Memory.next _ q j = Memory.next _ cur (m.versions.last cur + 1) := heq
      rw [hnew] at heq
      obtain hold | hnew := install_cases hj
      · rw [store_next hold] at heq
        exact absurd heq (hapart q hq hend j hold)
      · exact hnew
  · refine ⟨hext₁.trans hins.ext, ⟨?_, fun a ha => ?_, fun ls hls a ha => ?_⟩, rfl, rfl, rfl, rfl, h.stamped, hins.last,
      hins.last_of_ne, hins.born, hins.stamp, hins.stamp_old, fun q j d l o' => ?_⟩
    · exact hext₁.fresh.trans hins.ext.fresh
    · exact newNode_nodes (x := nxt) ha
    · exact (hins.still.view ls hls a (ha.trans_le hext₁.fresh)).trans (newNode_still.view ls hls a ha)
    · rw [hins.author]
      refine or_congr_left (and_congr_right fun hlt => ?_)
      have hlt : j < m.versions.last q := hlt
      have hq : q < m.fresh := by
        by_contra hge
        have := (hinv.blank q (not_lt.mp hge)).1
        omega
      rw [newNode_value hq]

/-- `remove` under both locks: `cur` leads to what follows the marked node. -/
theorem Checked.unlink (h : Checked m k cur nxt) (hinv : Inv m) (hinner : (m.nodes nxt).isEnd = false)
    (hkey : (m.nodes nxt).key = k) (hmark : m.removed nxt = true)
    (hstamped : m.versions.stamp nxt (m.versions.last nxt) ≠ none)
    (hnext : m.next nxt (m.versions.last nxt) = b) :
    Inv (m.store cur b (c, n, .remove k)) ∧ Install m (m.store cur b (c, n, .remove k)) cur c n (.remove k) := by
  have hnxt := h.visible_next hinv
  have hb : m.Visible b := by
    rw [← hnext]
    exact hinv.leads nxt hnxt hinner _ le_rfl hstamped
  have hst : Storing m cur b := ⟨h.visible, h.live, h.inner, h.stamped, hb.1, .inl hb⟩
  have hne : nxt ≠ cur := by
    intro heq
    rw [heq, h.live] at hmark
    cases hmark
  refine ⟨hst.inv hinv ?_, hst.install hinv⟩
  have hcur : (m.store cur b (c, n, .remove k)).next cur (m.versions.last cur) = nxt := (store_next le_rfl).trans h.next
  have hlast : (m.store cur b (c, n, .remove k)).versions.last nxt = m.versions.last nxt := store_last_of_ne hne
  refine ⟨?_, ?_, ?_, ?_, ?_⟩
  · rw [hcur]
    exact hkey
  · rw [hcur]
    exact hinner
  · rw [hcur]
    exact hmark
  · obtain ⟨s, hs⟩ := Option.ne_none_iff_exists'.mp hstamped
    refine ⟨s, ?_, ?_⟩
    · rw [hcur, hlast]
      exact (install_stamp le_rfl).trans hs
    · exact (hinv.ordered.le_clock nxt _ s le_rfl hs).trans_eq install_born_new.symm
  · rw [hcur, hlast, store_next le_rfl, hnext]
    exact store_next_new.symm

end

end Verlib.SnapshotList
