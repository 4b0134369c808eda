import Verlib.BTree.Runs

/-!
# The end of `find_and_fix`

The search counts the calls of `fix_node` and gives up after 100000000 of them. Without this limit it always comes to an
end, with a number of repairs that depends on the tree and the key only; so it finds the leaf if this number is not over
the limit. Trees as high as the limit are over it.
-/

namespace Verlib.BTree

open Separated

variable {K V : Type}

/-- How a search ends: with the child of the root afterwards and the leaf, or with a call of `abort`. -/
inductive Outcome (K V : Type) where
  | returned (root : Node K V) (path : List Nat)
  | aborted

/-- The value of `cnt` at which `find_and_fix` gives up. -/
def cntLimit : Nat := 100000000

section

variable [LinearOrder K]

/-- `find_and_fix` with its count `cnt`, for at most `fuel` rounds. -/
def findAndFixCounted (B : BlockSizes) (limit : Nat) (k : K) : Nat → Nat → Node K V → Option (Outcome K V)
  | 0, _, _ => none
  | fuel + 1, cnt, root =>
      if NeedsFix root then do
        let root' ← fixRoot B root
        findAndFixCounted B limit k fuel cnt root'
      else do
        match ← descend k root with
        | .found path => pure (.returned root path)
        | .bad path cidx => do
            let p ← root.at_ path
            let c ← p.at_ [cidx]
            let p' ← fixNode B p cidx c
            if cnt = limit then pure .aborted
            else findAndFixCounted B limit k fuel (cnt + 1) (root.store path p')

/-- Along the path, the keys of every node place `k` at the child that the path leads to. -/
def InRange (k : K) : Node K V → List Nat → Prop
  | _, [] => True
  | .leaf .., _ :: _ => False
  | .node _ size keys children, i :: rest => Position size keys k i ∧ InRange k (children i) rest

/-- The path leads to a leaf whose range contains the key. It is not full, and above the least size unless it is the
child of the root. -/
def LeafFor (B : BlockSizes) (k : K) (root : Node K V) (path : List Nat) : Prop :=
  ∃ status keyvals, root.at_ path = some (.leaf status keyvals) ∧ InRange k root path ∧ keyvals.length < B.leaf ∧
    (path ≠ [] → B.leafMin < keyvals.length)

section

variable {B : BlockSizes} {k : K} {t root : Node K V} {h : Nat} {path : List Nat}

/-- A descent to a leaf follows the keys. -/
theorem inRange_of_descend (htree : SearchTree t) (hdescend : descend k t = some (.found path)) : InRange k t path := by
  induction t generalizing path with
  | leaf status keyvals =>
      cases hdescend
      trivial
  | node status size keys children ih =>
      obtain ⟨hsize, hsorted, hchildren⟩ := htree
      obtain ⟨cidx, hfind, -, hpos⟩ := find_spec (k := k) hsorted hsize fun j hj => absurd hj (Nat.not_lt_zero j)
      simp only [descend, hfind, bind, Option.bind_some] at hdescend
      split at hdescend
      · cases hdescend
      · obtain ⟨D, hD, hunder⟩ := Option.map_eq_some_iff.mp hdescend
        cases D with
        | found rest =>
            cases hunder
            exact ⟨hpos, ih cidx (hchildren cidx hpos.lt_size).1 hD⟩
        | bad p i => cases hunder

/-- The leaf at the end of a descent. -/
theorem leafFor_of_ends (hroot : RootGood B root h) (hdescend : descend k root = some (.found path))
    (hends : (Descent.found path).Ends B k root h ⊥ ⊤) : LeafFor B k root path := by
  obtain ⟨status, keyvals, h', lo', hi', hr⟩ := hends
  refine ⟨status, keyvals, hr.zoom.at_eq, inRange_of_descend hroot.good.searchTree hdescend, hr.room, fun hne => ?_⟩
  obtain ⟨⟨hstatus, hmin, -⟩, hok⟩ := hr.below hne
  exact lt_of_le_of_ne hmin (Ne.symm (ne_of_statusOf_ok (hstatus.symm.trans hok)).1)

/-- In every balanced tree, whichever of its nodes are over- or underfull, the search for a key takes a certain number of
calls of `fix_node`, and finitely many of `fix_root`. If the calls of `fix_node` are at most `limit`, it returns a leaf
whose range contains the key, which is not full, and above the least size unless it is the child of the root; otherwise
it calls `abort`. The tree stays balanced and keeps its entries. -/
theorem findAndFix_ends (B : BlockSizes) (k : K) (hroot : RootGood B root h) :
    ∃ repairs root' h' path, RootGood B root' h' ∧ root'.entries = root.entries ∧ LeafFor B k root' path ∧
      ∀ limit, ∃ enough, ∀ fuel ≥ enough, findAndFixCounted B limit k fuel 0 root =
        some (if repairs ≤ limit then .returned root' path else .aborted) := by
  suffices hgeneral : ∃ repairs root' h' path, RootGood B root' h' ∧ root'.entries = root.entries ∧
      LeafFor B k root' path ∧ ∀ limit cnt, cnt ≤ limit → ∃ enough, ∀ fuel ≥ enough,
        findAndFixCounted B limit k fuel cnt root =
          some (if cnt + repairs ≤ limit then .returned root' path else .aborted) by
    obtain ⟨repairs, root', h', path, hroot', hentries, hleaf, hsearch⟩ := hgeneral
    refine ⟨repairs, root', h', path, hroot', hentries, hleaf, fun limit => ?_⟩
    simpa only [Nat.zero_add] using hsearch limit 0 (Nat.zero_le limit)
  induction root using nearer_induction generalizing h with
  | hstep root ih =>
      rcases round_spec B k hroot with hfixed | hfound | hfixed
      · obtain ⟨next, h', hneeds, hfix, hgood, hentries, hnearer⟩ := hfixed
        obtain ⟨repairs, root', h'', path, hroot', hentries', hleaf, hsearch⟩ := ih next hnearer hgood
        refine ⟨repairs, root', h'', path, hroot', hentries'.trans hentries, hleaf, fun limit cnt hcnt => ?_⟩
        obtain ⟨enough, henough⟩ := hsearch limit cnt hcnt
        refine ⟨enough + 1, fun fuel hfuel => ?_⟩
        rw [← Nat.sub_add_cancel (show 1 ≤ fuel by omega), findAndFixCounted, if_pos hneeds, hfix]
        exact henough _ (by omega)
      · obtain ⟨path, hneeds, hdescend, hends⟩ := hfound
        refine ⟨0, root, h, path, hroot, rfl, leafFor_of_ends hroot hdescend hends, fun limit cnt hcnt => ?_⟩
        refine ⟨1, fun fuel hfuel => ?_⟩
        rw [← Nat.sub_add_cancel hfuel, findAndFixCounted, if_neg hneeds, hdescend, if_pos (by omega)]
        rfl
      · obtain ⟨path, cidx, p, c, p', hneeds, hdescend, hp, hc, hfix, hgood, hentries, hnearer⟩ := hfixed
        obtain ⟨repairs, root', h'', path', hroot', hentries', hleaf, hsearch⟩ := ih _ hnearer hgood
        refine ⟨repairs + 1, root', h'', path', hroot', hentries'.trans hentries, hleaf, fun limit cnt hcnt => ?_⟩
        by_cases heq : cnt = limit
        · refine ⟨1, fun fuel hfuel => ?_⟩
          rw [← Nat.sub_add_cancel hfuel, findAndFixCounted, if_neg hneeds, hdescend, if_neg (by omega)]
          simp only [bind, Option.bind_some, hp, hc, hfix, if_pos heq, pure]
        · obtain ⟨enough, henough⟩ := hsearch limit (cnt + 1) (by omega)
          refine ⟨enough + 1, fun fuel hfuel => ?_⟩
          rw [← Nat.sub_add_cancel (show 1 ≤ fuel by omega), findAndFixCounted, if_neg hneeds, hdescend]
          simp only [bind, Option.bind_some, hp, hc, hfix, if_neg heq]
          rw [henough _ (by omega), show cnt + 1 + repairs = cnt + (repairs + 1) by omega]

end

end

/-! ## High trees -/

/-- Blocks of five entries and five children. -/
def five : BlockSizes := ⟨5, 5, le_rfl, le_rfl⟩

/-- A leaf with one entry, below nodes with one child. -/
def tower (e : Nat) : Nat → Node Nat Unit
  | 0 => .leaf .isUnder [⟨e, ()⟩]
  | h + 1 => .node .isUnder 1 (fun _ => 1) fun _ => tower e h

/-- Two towers of the same height. -/
def twins (h : Nat) : Node Nat Unit := rootNode (tower 0 h, 1, tower 1 h)

theorem tower_good {e h : Nat} {lo hi : Bound Nat} (hlo : lo ≤ ofKey e) (hhi : ofKey e < hi) :
    SizeOk five (tower e h) ∧ Good five (tower e h) h lo hi := by
  induction h with
  | zero =>
      refine ⟨⟨rfl, le_rfl, Nat.le_of_ble_eq_true rfl⟩, rfl, List.pairwise_singleton _ _, fun kv hkv => ?_⟩
      rw [List.mem_singleton.mp hkv]
      exact ⟨hlo, hhi⟩
  | succ h ih =>
      refine ⟨⟨rfl, by decide, by decide⟩, good_node.mpr ⟨h, rfl, by decide, fun i => if i = 0 then lo else hi, ?_⟩⟩
      have hone : ∀ i < 1, i = 0 := fun i hi => by omega
      refine ⟨rfl, rfl, fun i hi => absurd hi (by omega), fun i hi => ?_, fun i hi => ?_⟩
      · rw [hone i hi]
        exact hlo.trans_lt hhi
      · rw [hone i hi]
        exact ih

theorem twins_good (h : Nat) : RootGood five (twins h) (h + 1) := by
  refine ⟨⟨by decide, by decide, .inr ⟨rfl, by decide⟩⟩, good_node.mpr ⟨h, rfl, ?_⟩⟩
  have hleft := tower_good (e := 0) (h := h) bot_le (ofKey_lt_ofKey.mpr Nat.zero_lt_one)
  have hright := tower_good (e := 1) (h := h) le_rfl (ofKey_lt_top 1)
  exact Chain.two (bot_lt_iff_ne_bot.mpr WithBot.coe_ne_bot) (ofKey_lt_top 1) hleft hright

/-- The search for 0 in twins of height 3. -/
theorem findAndFix_ends_twins :
    ∃ repairs root' h' path, RootGood five root' h' ∧ root'.entries = (twins 3).entries ∧ LeafFor five 0 root' path ∧
      ∀ limit, ∃ enough, ∀ fuel ≥ enough, findAndFixCounted five limit 0 fuel 0 (twins 3) =
        some (if repairs ≤ limit then .returned root' path else .aborted) :=
  findAndFix_ends five 0 (twins_good 3)

/-- The descent into twins ends at their first tower. -/
theorem descend_twins (h : Nat) : ¬ NeedsFix (twins h) ∧ descend 0 (twins h) = some (.bad [] 0) := by
  constructor
  · intro hneeds
    cases hneeds with
    | inl hover => cases hover
    | inr hone => cases hone.2
  · have hfind : find 2 (fun _ => 1) 0 0 = some 0 := by decide
    have hstatus : (tower 0 h).status ≠ .ok := by
      cases h with
      | zero => decide
      | succ h => exact fun heq => by cases heq
    simp only [twins, rootNode, descend, hfind, bind, Option.bind_some, if_true]
    exact if_pos hstatus

/-- A repair of twins joins their tops. -/
theorem fixNode_twins (h : Nat) : ∃ keys children,
    fixNode five (twins (h + 1)) 0 (tower 0 (h + 1)) = some (.node .isUnder 1 keys children) ∧ children 0 = twins h := by
  have hkeys : appendKeys 1 (fun _ => 1) 1 (fun _ => 1) = fun _ : Nat => 1 := by
    funext i
    simp [appendKeys]
  have hchildren : append 1 (fun _ => tower 0 h) (fun _ => tower 1 h) =
      fun i => if i = 0 then tower 0 h else tower 1 h := by
    funext i
    simp [append]
  have hjoin : join five (tower 0 (h + 1)) 1 (tower 1 (h + 1)) = some (twins h) := by
    rw [tower, tower, join, hkeys, hchildren]
    rfl
  exact ⟨_, _, show (do let j ← join five (tower 0 (h + 1)) 1 (tower 1 (h + 1)); joinChildren five 2 _ _ j 0) = _ by
    rw [hjoin]; rfl, rfl⟩

/-- A repair of twins and one of the child of the root leave lower twins. -/
theorem findAndFixCounted_twins {limit cnt : Nat} (hcnt : cnt ≠ limit) (fuel h : Nat) :
    findAndFixCounted five limit 0 (fuel + 2) cnt (twins (h + 1)) =
      findAndFixCounted five limit 0 fuel (cnt + 1) (twins h) := by
  obtain ⟨hno, hdescend⟩ := descend_twins (h + 1)
  obtain ⟨keys, children, hfix, hchild⟩ := fixNode_twins h
  have hp : (twins (h + 1)).at_ [] = some (twins (h + 1)) := rfl
  have hc : (twins (h + 1)).at_ [0] = some (tower 0 (h + 1)) := rfl
  rw [findAndFixCounted, if_neg hno, hdescend]
  simp only [bind, Option.bind_some, hp, hc, hfix, if_neg hcnt]
  rw [Node.store, findAndFixCounted, if_pos (.inr ⟨rfl, rfl⟩), ← hchild]
  rfl

/-- At the limit, the search in twins gives up. -/
theorem findAndFixCounted_limit (limit fuel h : Nat) :
    findAndFixCounted five limit 0 (fuel + 1) limit (twins h) = some .aborted := by
  obtain ⟨hno, hdescend⟩ := descend_twins h
  rcases round_spec five 0 (twins_good h) with hfixed | hfound | hfixed
  · obtain ⟨_, _, hneeds, -⟩ := hfixed
    exact absurd hneeds hno
  · obtain ⟨path, -, hpath, -⟩ := hfound
    rw [hdescend] at hpath
    cases hpath
  · obtain ⟨path, cidx, p, c, p', -, hpath, hp, hc, hfix, -⟩ := hfixed
    rw [findAndFixCounted, if_neg hno, hpath]
    simp only [bind, Option.bind_some, hp, hc, hfix, if_true, pure]

/-- The search in twins that are as high as the limit, or higher. -/
theorem findAndFixCounted_aborts {limit : Nat} (h cnt : Nat) (hcnt : cnt ≤ limit) (hlimit : limit ≤ cnt + h) :
    ∀ fuel ≥ 2 * h + 1, findAndFixCounted five limit 0 fuel cnt (twins h) = some .aborted := by
  induction h generalizing cnt with
  | zero =>
      intro fuel hfuel
      obtain rfl : cnt = limit := by omega
      rw [← Nat.sub_add_cancel hfuel]
      exact findAndFixCounted_limit cnt _ 0
  | succ h ih =>
      intro fuel hfuel
      by_cases heq : cnt = limit
      · rw [heq, ← Nat.sub_add_cancel (show 1 ≤ fuel by omega)]
        exact findAndFixCounted_limit limit _ (h + 1)
      · rw [← Nat.sub_add_cancel (show 2 ≤ fuel by omega), findAndFixCounted_twins heq]
        exact ih (cnt + 1) (by omega) (by omega) _ (by omega)

/-- The search for 0 in twins of height 100000000 does not return. -/
theorem findAndFix_gives_up :
    ¬ ∀ (root : Node Nat Unit) (h : Nat), RootGood five root h → ∀ k : Nat, ∃ root' path, LeafFor five k root' path ∧
      ∃ enough, ∀ fuel ≥ enough,
        findAndFixCounted five cntLimit k fuel 0 root = some (.returned root' path) := by
  intro hall
  obtain ⟨root', path, -, enough, hreturn⟩ := hall (twins cntLimit) _ (twins_good _) 0
  have habort := findAndFixCounted_aborts cntLimit 0 (Nat.zero_le cntLimit) (Nat.zero_add cntLimit).ge
    (max enough (2 * cntLimit + 1)) (Nat.le_max_right _ _)
  rw [hreturn _ (Nat.le_max_left _ _)] at habort
  cases habort

end Verlib.BTree
