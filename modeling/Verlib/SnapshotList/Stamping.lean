import Verlib.SnapshotList.Views

/-!
# A version gets its stamp

This is the moment at which an update takes effect for the snapshots: in the lists of the stamp `t` and of all later
ones the node of an `insert` comes after its predecessor, and the node of a `remove` is gone. The lists of earlier
stamps do not change.
-/

namespace Verlib.SnapshotList

open Interleaving Interleaving.Versions Indirect Linked
open SortedList (Op root)

variable {K V ι : Type} [LinearOrder K]

/-- Version `i` of `p` gets the stamp `t`. -/
def Memory.stamped (m : Memory K V ι) (p i t : Nat) : Memory K V ι :=
  { m with versions := m.versions.setStamp p i t }

/-- The operation on a map. -/
def toMap : Op K V → OrderedMap.Op K V
  | .insert k v => .insert k v
  | .remove k => .remove k

/-- The map has these entries. -/
def Represents (map : K → Option V) (entries : K → V → Prop) : Prop := ∀ k v, map k = some v ↔ entries k v

/-- What an operation that has something to do does to the entries. -/
def Changes (o : Op K V) (before after : K → V → Prop) : Prop :=
  match o with
  | .insert k v => (∀ v', ¬ before k v') ∧ ∀ k' v', after k' v' ↔ k' = k ∧ v' = v ∨ before k' v'
  | .remove k => (∃ v, before k v) ∧ ∀ k' v', after k' v' ↔ k' ≠ k ∧ before k' v'

/-- An operation that has something to do acts on a map, and says so. -/
theorem Changes.act {o : Op K V} {before after : K → V → Prop} {map : K → Option V} (h : Changes o before after)
    (hmap : Represents map before) :
    ∃ map', (toMap o).act map = (map', .changed true) ∧ Represents map' after := by
  cases o with
  | insert k v =>
      obtain ⟨hno, hafter⟩ := h
      have hnone : map k = none := by
        cases hk : map k with
        | none => rfl
        | some v' => exact absurd ((hmap k v').mp hk) (hno v')
      refine ⟨Function.update map k (some v), ?_, fun k' v' => ?_⟩
      · show OrderedMap.Op.act map (.insert k v) = _
        rw [OrderedMap.Op.act_insert, hnone]
        rfl
      · by_cases hk : k' = k
        · subst hk
          rw [Function.update_self, hafter]
          constructor
          · intro hv
            exact .inl ⟨rfl, (Option.some.inj hv).symm⟩
          · intro hv
            obtain ⟨-, rfl⟩ | hold := hv
            · rfl
            · exact absurd hold (hno v')
        · rw [Function.update_of_ne hk, hmap k' v', hafter]
          exact (or_iff_right fun hv => hk hv.1).symm
  | remove k =>
      obtain ⟨⟨v, hv⟩, hafter⟩ := h
      refine ⟨Function.update map k none, ?_, fun k' v' => ?_⟩
      · show OrderedMap.Op.act map (.remove k) = _
        rw [OrderedMap.Op.act_remove, (hmap k v).mpr hv]
        rfl
      · by_cases hk : k' = k
        · subst hk
          rw [Function.update_self, hafter]
          exact iff_of_false (fun hv => by cases hv) fun hv => hv.1 rfl
        · rw [Function.update_of_ne hk, hmap k' v', hafter]
          exact (and_iff_right hk).symm

section

variable {m : Memory K V ι} {ls p i q t u : Nat} {o : Op K V}

/-! ## The links -/

/-- Precedes the stamp, the lists of the present select the version before. -/
theorem Pending.view (h : Pending m p i o) (hinv : Inv m) (hnone : m.versions.stamp p (i + 1) = none)
    (hls : m.versions.born p (i + 1) ≤ ls) : m.view ls p = m.next p i := by
  rw [Memory.view, cut_pred hinv.ordered hnone h.last hls]

/-- The lists of earlier stamps, and the links of other nodes. -/
theorem view_stamped_of_ne (hinv : Inv m) (hnone : m.versions.stamp p i = none) (hls : zeroStamp ≤ ls)
    (hne : q ≠ p ∨ ls < t) : (m.stamped p i t).view ls q = m.view ls q :=
  congrArg (m.next q) (cut_setStamp_of_ne (hinv.within hls q) hnone hne)

/-- The link of the node in the lists of later stamps. -/
theorem Pending.view_stamped (h : Pending m p i o) (hle : t ≤ ls) :
    (m.stamped p (i + 1) t).view ls p = m.next p (i + 1) := by
  have hcut : (m.versions.setStamp p (i + 1) t).cut ls p = i + 1 := by
    have hself := cut_setStamp (V := m.versions) (p := p) hle
    rwa [h.last] at hself
  exact congrArg (m.next p) hcut

/-- All links in the lists of later stamps. -/
theorem Pending.view_eq (h : Pending m p i o) (hinv : Inv m) (hnone : m.versions.stamp p (i + 1) = none)
    (hls : zeroStamp ≤ ls) (hle : t ≤ ls) :
    (m.stamped p (i + 1) t).view ls = Function.update (m.view ls) p (m.next p (i + 1)) := by
  funext q
  by_cases hq : q = p
  · rw [hq, Function.update_self, h.view_stamped hle]
  · rw [Function.update_of_ne hq, view_stamped_of_ne hinv hnone hls (.inl hq)]

/-! ## The lists -/

/-- The lists of earlier stamps do not change. -/
theorem isPath_stamped_of_lt (hinv : Inv m) (hnone : m.versions.stamp p i = none) (hls : zeroStamp ≤ ls) (hlt : ls < t)
    {ns : List Nat} : (m.stamped p i t).IsPath ls ns ↔ m.IsPath ls ns := by
  have hview : ∀ a, (m.stamped p i t).view ls a = m.view ls a := fun a =>
    view_stamped_of_ne hinv hnone hls (.inr hlt)
  constructor
  · exact fun h => h.congr le_rfl (fun _ _ => rfl) fun a _ => (hview a).symm
  · exact fun h => h.congr le_rfl (fun _ _ => rfl) fun a _ => hview a

/-- The node before the change, and the one after it. -/
theorem Pending.split (h : Pending m p i o) (hinv : Inv m) (hnone : m.versions.stamp p (i + 1) = none)
    (hborn : m.versions.born p (i + 1) ≤ ls) : ∃ xs ys, m.IsPath ls (xs ++ p :: m.next p i :: ys) := by
  obtain ⟨ns, hns, hp⟩ := h.on ls hborn
  obtain ⟨xs, ys, rfl⟩ := hns.path.split hp fun hend => by
    have hend : (m.nodes p).isEnd = true := hend
    rw [h.inner] at hend
    cases hend
  rw [h.view hinv hnone hborn] at hns
  exact ⟨xs, ys, hns⟩

/-- A node is inserted. -/
theorem Pending.insert {k : K} {v : V} (h : Pending m p i (.insert k v)) (hp : p < m.fresh) (hinv : Inv m)
    (hnone : m.versions.stamp p (i + 1) = none) (hls : zeroStamp ≤ ls) (hborn : m.versions.born p (i + 1) ≤ t)
    (hle : t ≤ ls) : ∃ xs ys, m.IsPath ls (xs ++ p :: m.next p i :: ys) ∧
      (m.stamped p (i + 1) t).IsPath ls (xs ++ p :: m.next p (i + 1) :: m.next p i :: ys) := by
  obtain ⟨xs, ys, hns⟩ := h.split hinv hnone (hborn.trans hle)
  have hins : Inserts m p i k v := h.stored
  have hnew : m.next p (i + 1) ∉ xs ++ p :: m.next p i :: ys := fun hmem =>
    hins.not_on hnone hinv hls ⟨_, hns, hmem⟩
  have hnext : m.view ls (m.next p (i + 1)) = m.next p i := by
    rw [Memory.view, cut_zero hins.last]
    exact hins.next
  refine ⟨xs, ys, hns, ?_, fun a ha => ?_⟩
  · rw [h.view_eq hinv hnone hls hle]
    exact hns.path.insert hins.before hins.after hnext hnew
  · have hold : ∀ {b}, b ∈ xs ++ p :: m.next p i :: ys → b < m.fresh := fun hb => hns.alloc _ hb
    by_cases hw : a = m.next p (i + 1)
    · rw [hw]
      exact hinv.targets p hp h.inner (i + 1) h.last.ge
    · refine hold ?_
      simp only [List.mem_append, List.mem_cons] at ha ⊢
      tauto

/-- A node is taken out. -/
theorem Pending.remove {k : K} (h : Pending m p i (.remove k)) (hinv : Inv m)
    (hnone : m.versions.stamp p (i + 1) = none) (hls : zeroStamp ≤ ls) (hborn : m.versions.born p (i + 1) ≤ t)
    (hle : t ≤ ls) : ∃ xs ys, m.IsPath ls (xs ++ p :: m.next p i :: m.next p (i + 1) :: ys) ∧
      (m.stamped p (i + 1) t).IsPath ls (xs ++ p :: m.next p (i + 1) :: ys) := by
  obtain ⟨xs, ys, hns⟩ := h.split hinv hnone (hborn.trans hle)
  have hrem : Removes m p i k := h.stored
  obtain ⟨s, hs, hsle⟩ := hrem.stamped
  have hview : m.view ls (m.next p i) = m.next p (i + 1) := by
    rw [Memory.view, cut_last hs (hsle.trans (hborn.trans hle))]
    exact hrem.next
  -- the removed node is no end node, so another one follows it
  cases ys with
  | nil =>
      obtain ⟨e, he, hend⟩ := hns.path.last
      rw [List.getLast?_append_cons, List.getLast?_cons_cons] at he
      cases he
      have hend : (m.nodes (m.next p i)).isEnd = true := hend
      rw [hrem.inner] at hend
      cases hend
  | cons w ys =>
      have hw : m.view ls (m.next p i) = w := by
        have hchain := (chain_append.mp hns.path.chain).2.2
        exact (chain_cons.mp hchain).1
      rw [hview] at hw
      subst hw
      refine ⟨xs, ys, hns, ?_, fun a ha => hns.alloc a ?_⟩
      · rw [h.view_eq hinv hnone hls hle]
        exact hns.path.remove
      · simp only [List.mem_append, List.mem_cons] at ha ⊢
        tauto

/-! ## The nodes on the lists -/

/-- The nodes on a list after an `insert`. -/
theorem Pending.on_insert {k : K} {v : V} (h : Pending m p i (.insert k v)) (hp : p < m.fresh) (hinv : Inv m)
    (hnone : m.versions.stamp p (i + 1) = none) (hls : zeroStamp ≤ ls) (hborn : m.versions.born p (i + 1) ≤ t)
    (hle : t ≤ ls) : (m.stamped p (i + 1) t).On ls u ↔ u = m.next p (i + 1) ∨ m.On ls u := by
  obtain ⟨xs, ys, hns, hns'⟩ := h.insert hp hinv hnone hls hborn hle
  have hmem : u ∈ xs ++ p :: m.next p (i + 1) :: m.next p i :: ys ↔
      u = m.next p (i + 1) ∨ u ∈ xs ++ p :: m.next p i :: ys := by
    simp only [List.mem_append, List.mem_cons]
    tauto
  constructor
  · exact fun hon => (hmem.mp (hon.mem hns')).imp_right fun hu => ⟨_, hns, hu⟩
  · exact fun hon => ⟨_, hns', hmem.mpr (hon.imp_right fun hon => hon.mem hns)⟩

/-- The nodes on a list after a `remove`. -/
theorem Pending.on_remove {k : K} (h : Pending m p i (.remove k)) (hinv : Inv m)
    (hnone : m.versions.stamp p (i + 1) = none) (hls : zeroStamp ≤ ls) (hborn : m.versions.born p (i + 1) ≤ t)
    (hle : t ≤ ls) : m.On ls (m.next p i) ∧
      ((m.stamped p (i + 1) t).On ls u ↔ u ≠ m.next p i ∧ m.On ls u) := by
  obtain ⟨xs, ys, hns, hns'⟩ := h.remove hinv hnone hls hborn hle
  have hon : m.On ls (m.next p i) := ⟨_, hns, by simp⟩
  have hnot : m.next p i ∉ xs ++ p :: m.next p (i + 1) :: ys := by
    have hnodup := hns.path.nodup
    intro hmem
    have heq : xs ++ p :: m.next p i :: m.next p (i + 1) :: ys =
        (xs ++ [p]) ++ m.next p i :: (m.next p (i + 1) :: ys) := by simp
    rw [heq] at hnodup
    refine (List.nodup_middle.mp hnodup).notMem ?_
    simpa using hmem
  refine ⟨hon, fun hu => ?_, fun hu => ?_⟩
  · have hmem := hu.mem hns'
    refine ⟨fun heq => hnot (heq ▸ hmem), _, hns, ?_⟩
    simp only [List.mem_append, List.mem_cons] at hmem ⊢
    tauto
  · obtain ⟨hne, hu⟩ := hu
    have hmem := hu.mem hns
    refine ⟨_, hns', ?_⟩
    simp only [List.mem_append, List.mem_cons] at hmem ⊢
    tauto

/-- The lists of earlier stamps. -/
theorem on_stamped_of_lt (hinv : Inv m) (hnone : m.versions.stamp p i = none) (hls : zeroStamp ≤ ls) (hlt : ls < t) :
    (m.stamped p i t).On ls u ↔ m.On ls u :=
  exists_congr fun _ => and_congr_left' (isPath_stamped_of_lt hinv hnone hls hlt)

/-! ## The entries -/

/-- The update acts on the entries that the snapshots of its stamp and of later ones should see. -/
theorem Pending.changes (h : Pending m p i o) (hp : p < m.fresh) (hinv : Inv m)
    (hnone : m.versions.stamp p (i + 1) = none) (hls : zeroStamp ≤ ls) (hborn : m.versions.born p (i + 1) ≤ t)
    (hle : t ≤ ls) : Changes o (m.Contains ls) ((m.stamped p (i + 1) t).Contains ls) := by
  cases o with
  | insert k v =>
      have hins : Inserts m p i k v := h.stored
      have hkey : (m.nodes (m.next p (i + 1))).key = k ∧ (m.nodes (m.next p (i + 1))).value = v ∧
          (m.nodes (m.next p (i + 1))).isEnd = false := by
        rw [hins.node]
        exact ⟨rfl, rfl, rfl⟩
      refine ⟨fun v' hv' => ?_, fun k' v' => ?_⟩
      · -- afterwards two nodes of one list would have the key
        obtain ⟨a, ha, haroot, haend, hak, -⟩ := hv'
        have ha' := (h.on_insert hp hinv hnone hls hborn hle).mpr (.inr ha)
        have hw' := (h.on_insert hp hinv hnone hls hborn hle).mpr (.inl rfl)
        have heq := ha'.eq_of_key hw' haroot hins.before.1 haend hkey.2.2 (hak.trans hkey.1.symm)
        rw [heq] at ha
        exact hins.not_on hnone hinv hls ha
      · constructor
        · intro hv'
          obtain ⟨a, ha, haroot, haend, hak, hav⟩ := hv'
          obtain rfl | ha := (h.on_insert hp hinv hnone hls hborn hle).mp ha
          · exact .inl ⟨hak.symm.trans hkey.1, hav.symm.trans hkey.2.1⟩
          · exact .inr ⟨a, ha, haroot, haend, hak, hav⟩
        · intro hv'
          obtain ⟨rfl, rfl⟩ | hold := hv'
          · exact ⟨_, (h.on_insert hp hinv hnone hls hborn hle).mpr (.inl rfl), hins.before.1, hkey.2.2, hkey.1,
              hkey.2.1⟩
          · obtain ⟨a, ha, hrest⟩ := hold
            exact ⟨a, (h.on_insert hp hinv hnone hls hborn hle).mpr (.inr ha), hrest⟩
  | remove k =>
      have hrem : Removes m p i k := h.stored
      have hon : m.On ls (m.next p i) := (h.on_remove (u := p) hinv hnone hls hborn hle).1
      have hroot : m.next p i ≠ root := by
        obtain ⟨xs, ys, hns, -⟩ := h.remove hinv hnone hls hborn hle
        exact hns.path.related.1
      refine ⟨⟨_, _, hon, hroot, hrem.inner, hrem.key, rfl⟩, fun k' v' => ?_⟩
      constructor
      · intro hv'
        obtain ⟨a, ha, haroot, haend, hak, hav⟩ := hv'
        obtain ⟨hne, ha⟩ := (h.on_remove hinv hnone hls hborn hle).2.mp ha
        refine ⟨fun hk => hne ?_, a, ha, haroot, haend, hak, hav⟩
        exact ha.eq_of_key hon haroot hroot haend hrem.inner (hak.trans (hk.trans hrem.key.symm))
      · intro hv'
        obtain ⟨hk, a, ha, haroot, haend, hak, hav⟩ := hv'
        refine ⟨a, (h.on_remove hinv hnone hls hborn hle).2.mpr ⟨fun heq => hk ?_, ha⟩, haroot, haend, hak, hav⟩
        rw [← hak, heq, hrem.key]

/-! ## One update of a key at a time -/

/-- The key of a pending update lies between its node and the one that this node leads to. -/
theorem Pending.gap (h : Pending m p i o) (hinv : Inv m) (hnone : m.versions.stamp p (i + 1) = none) :
    (p = root ∨ (m.nodes p).key < o.key) ∧
      ((m.nodes (m.next p i)).isEnd = true ∨ ¬ (m.nodes (m.next p i)).key < o.key) := by
  have hnode : ∀ {a : Nat}, (m.nodes a).isEnd = false → Precedes m.nodes p a → p = root ∨ (m.nodes p).key < (m.nodes a).key := by
    intro a ha hbefore
    obtain ⟨-, -, hend | hor⟩ := hbefore
    · rw [ha] at hend
      cases hend
    · exact hor
  cases o with
  | insert k v =>
      have hins : Inserts m p i k v := h.stored
      have hw := hins.node
      have hbefore := hnode (by rw [hw]) hins.before
      obtain ⟨-, -, hafter⟩ := hins.after
      rw [hw] at hbefore hafter
      refine ⟨hbefore, hafter.imp_right fun hor hlt => ?_⟩
      obtain hroot | hlt' := hor
      · exact hins.before.1 hroot
      · exact lt_asymm hlt hlt'
  | remove k =>
      have hrem : Removes m p i k := h.stored
      obtain ⟨xs, ys, hns⟩ := h.split hinv hnone le_rfl
      have hbefore := hnode hrem.inner hns.path.related
      rw [hrem.key] at hbefore ⊢
      exact ⟨hbefore, .inr (lt_irrefl k)⟩

/-- Of two such nodes neither comes before the other. -/
theorem Pending.not_before {j : Nat} {o' : Op K V} (h : Pending m p i o) (h' : Pending m q j o') (hinv : Inv m)
    (hnone : m.versions.stamp p (i + 1) = none) (hnone' : m.versions.stamp q (j + 1) = none) (hkey : o.key = o'.key) :
    ¬ Precedes m.nodes p q := by
  intro hpq
  have hborn := hinv.ordered.born_le p (i + 1) h.last.ge
  obtain ⟨xs, ys, hns⟩ := h.split hinv hnone hborn
  have hq := (h'.on m.versions.clock (hinv.ordered.born_le q (j + 1) h'.last.ge)).mem hns
  obtain ⟨-, hat⟩ := h.gap hinv hnone
  obtain ⟨hroot | hlt, -⟩ := h'.gap hinv hnone'
  · exact hpq.1 hroot
  · rw [hkey] at hat
    have hsorted := hns.path.sorted
    obtain ⟨-, hrest, hcross⟩ := List.pairwise_append.mp hsorted
    obtain hq | hq := List.mem_append.mp hq
    · have hqp := hcross q hq p List.mem_cons_self
      exact Std.Irrefl.irrefl (r := Precedes m.nodes) p (IsTrans.trans p q p hpq hqp)
    · obtain rfl | hq := List.mem_cons.mp hq
      · exact Std.Irrefl.irrefl (r := Precedes m.nodes) q hpq
      · obtain ⟨hp, hrest⟩ := List.pairwise_cons.mp hrest
        obtain rfl | hq := List.mem_cons.mp hq
        · -- the next node is not small enough
          obtain hend | hge := hat
          · rw [h'.inner] at hend
            cases hend
          · exact hge hlt
        · obtain ⟨-, hinner, hor⟩ := (List.pairwise_cons.mp hrest).1 q hq
          obtain hend | hge := hat
          · rw [hinner] at hend
            cases hend
          · obtain hend | hroot | hlt' := hor
            · rw [h'.inner] at hend
              cases hend
            · exact (hp _ List.mem_cons_self).1 hroot
            · exact hge (hlt'.trans hlt)

/-- There is one pending update of a key at most. -/
theorem Pending.unique {j : Nat} {o' : Op K V} (h : Pending m p i o) (h' : Pending m q j o') (hinv : Inv m)
    (hnone : m.versions.stamp p (i + 1) = none) (hnone' : m.versions.stamp q (j + 1) = none) (hkey : o.key = o'.key) :
    p = q := by
  obtain ⟨ns, hns, hp⟩ := h.on m.versions.clock (hinv.ordered.born_le p (i + 1) h.last.ge)
  have hq := (h'.on m.versions.clock (hinv.ordered.born_le q (j + 1) h'.last.ge)).mem hns
  obtain heq | hpq | hqp := hns.path.total hp hq
  · exact heq
  · exact absurd hpq (h.not_before h' hinv hnone hnone' hkey)
  · exact absurd hqp (h'.not_before h hinv hnone' hnone hkey.symm)

end

end Verlib.SnapshotList
