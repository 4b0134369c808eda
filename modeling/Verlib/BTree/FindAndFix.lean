import Verlib.BTree.Repair

/-!
# `find_and_fix`

The search for a leaf that repairs what it meets on its way. The root has one child, which is what is modelled here, and
a node below it is named by the indices that lead to it. In a sequential run every lock is free and what is checked
under it still holds. A round of the loop ends with the leaf, or with one node repaired; then the search starts again.
It comes to an end, since a repair takes a bad node away, or moves it up the tree, and only a root that is split or
removed changes the depth of the others. The count of the repairs, at which the source gives up in the end, is added in
`Verlib.BTree.Termination`.
-/

namespace Verlib.BTree

open Separated

variable {K V : Type}

/-! ## Room -/

/-- There is room for one entry or child more, and for one less if there is more than one child. -/
def Room (B : BlockSizes) : Node K V → Prop
  | .leaf _ keyvals => keyvals.length < B.leaf
  | .node _ size _ _ => 1 < size ∧ size < B.node

/-- A node with status `OK` has room. -/
theorem SizeOk.room {B : BlockSizes} {c : Node K V} (hsize : SizeOk B c) (hok : c.status = .ok) : Room B c := by
  obtain ⟨hmin, hnode, hleafMin, hleaf⟩ := B.min_lt
  cases c with
  | leaf status keyvals =>
      obtain ⟨hstatus, -, hle⟩ := hsize
      exact lt_of_le_of_ne hle (ne_of_statusOf_ok (hstatus.symm.trans hok)).2
  | node status size keys children =>
      obtain ⟨hstatus, hge, hle⟩ := hsize
      obtain ⟨hne, hne'⟩ := ne_of_statusOf_ok (hstatus.symm.trans hok)
      exact ⟨by omega, lt_of_le_of_ne hle hne'⟩

/-- A root that is not repaired has room. -/
theorem RootOk.room {B : BlockSizes} {root : Node K V} (hroot : RootOk B root) (hno : ¬ NeedsFix root) :
    Room B root := by
  obtain ⟨hmin, hnode, hleafMin, hleaf⟩ := B.min_lt
  obtain ⟨hover, hone⟩ := not_or.mp hno
  cases root with
  | leaf status keyvals =>
      obtain ⟨hstatus, hle⟩ := hroot
      refine lt_of_le_of_ne hle fun heq => hover ?_
      exact hstatus.trans ((statusOf_isOver (by omega)).mpr heq)
  | node status size keys children =>
      obtain ⟨hpos, hle, hstatus⟩ := hroot
      have hsize : size ≠ 1 := fun heq => hone ⟨rfl, heq⟩
      refine ⟨by omega, ?_⟩
      cases hstatus with
      | inl hstatus =>
          refine lt_of_le_of_ne hle fun heq => hover ?_
          exact hstatus.trans ((statusOf_isOver (by omega)).mpr heq)
      | inr hok => exact hok.2

/-! ## The search -/

namespace Node

/-- The node at the end of some indices. -/
def at_ : List Nat → Node K V → Option (Node K V)
  | [], t => some t
  | _ :: _, leaf .. => none
  | i :: rest, node _ _ _ children => (children i).at_ rest

/-- Store through the pointer at the end of some indices. -/
def store : List Nat → Node K V → Node K V → Node K V
  | [], _, x => x
  | _ :: _, leaf status keyvals, _ => leaf status keyvals
  | i :: rest, node status size keys children, x =>
      node status size keys (Function.update children i ((children i).store rest x))

theorem sizeOk_store {B : BlockSizes} {t x : Node K V} {i : Nat} {path : List Nat} (h : SizeOk B t) :
    SizeOk B (t.store (i :: path) x) := by
  cases t with
  | leaf => exact h
  | node => exact h

theorem rootOk_store {B : BlockSizes} {t x : Node K V} {i : Nat} {path : List Nat} (h : RootOk B t) :
    RootOk B (t.store (i :: path) x) := by
  cases t with
  | leaf => exact h
  | node => exact h

/-- Only the nodes below the root count for what happens to them. -/
theorem badAll_store (t x y : Node K V) (i : Nat) (path : List Nat) :
    ∃ own own', badAll (t.store (i :: path) x) = own ++ (t.store (i :: path) x).badBelow 0 ∧
      badAll (t.store (i :: path) y) = own ++ (t.store (i :: path) y).badBelow 0 ∧
      (t.store (i :: path) x).bad 0 = own' ++ (t.store (i :: path) x).badBelow 0 ∧
      (t.store (i :: path) y).bad 0 = own' ++ (t.store (i :: path) y).badBelow 0 := by
  cases t with
  | leaf status keyvals => exact ⟨_, _, rfl, rfl, Node.bad_eq 0 _, Node.bad_eq 0 _⟩
  | node status size keys children => exact ⟨_, _, rfl, rfl, Node.bad_eq 0 _, Node.bad_eq 0 _⟩

end Node

/-- How a descent ends: at a leaf, or at a node `p` with a child `c` that is to be repaired first. -/
inductive Descent where
  | found (path : List Nat)
  | bad (p : List Nat) (cidx : Nat)

/-- A descent below a child, as seen from its parent. -/
def Descent.under (i : Nat) : Descent → Descent
  | found path => found (i :: path)
  | bad p cidx => bad (i :: p) cidx

variable [LinearOrder K]

/-- The inner loop of `find_and_fix`, from the node `c` on. -/
def descend (k : K) : Node K V → Option Descent
  | .leaf .. => some (.found [])
  | .node _ size keys children => do
      let cidx ← find size keys k 0
      if (children cidx).status ≠ .ok then some (.bad [] cidx)
      else (descend k (children cidx)).map (Descent.under cidx)

/-- `find_and_fix`, for at most `fuel` rounds: the child of the root afterwards, and the leaf. -/
def findAndFix (B : BlockSizes) (k : K) : Nat → Node K V → Option (Node K V × List Nat)
  | 0, _ => none
  | fuel + 1, root =>
      if NeedsFix root then do
        let root' ← fixRoot B root
        findAndFix B k fuel root'
      else do
        match ← descend k root with
        | .found path => pure (root, path)
        | .bad path cidx => do
            let p ← root.at_ path
            let c ← p.at_ [cidx]
            let p' ← fixNode B p cidx c
            findAndFix B k fuel (root.store path p')

/-! ## Paths -/

/-- The search for `k` in `t` leads along `path` to `s`, which is responsible for the keys from `lo'` on and before
`hi'`, and what is stored there changes nothing else. -/
structure Zoom (B : BlockSizes) (k : K) (t : Node K V) (h : Nat) (lo hi : Bound K) (path : List Nat) (s : Node K V)
    (h' : Nat) (lo' hi' : Bound K) : Prop where
  at_eq : t.at_ path = some s
  good : Good B s h' lo' hi'
  lo_le : lo' ≤ ofKey k
  lt_hi : ofKey k < hi'
  store_self : t.store path s = t
  store_good : ∀ x, Good B x h' lo' hi' → (path ≠ [] → SizeOk B x) → Good B (t.store path x) h lo hi
  entries : ∃ before after, (∀ kv ∈ before, kv.key ≠ k) ∧ (∀ kv ∈ after, kv.key ≠ k) ∧
    ∀ x, (t.store path x).entries = before ++ x.entries ++ after
  bad : ∀ d, ∃ before after, ∀ x, (t.store path x).bad d = before ++ x.bad (d + path.length) ++ after

section

variable {B : BlockSizes} {k : K} {t s c root : Node K V} {h h' h'' size i : Nat} {lo hi lo' hi' : Bound K}
  {status : Status} {keys : Nat → K} {children : Nat → Node K V} {b : Nat → Bound K} {path : List Nat}

/-- The node where the search starts. -/
theorem Zoom.nil (hgood : Good B t h lo hi) (hlo : lo ≤ ofKey k) (hhi : ofKey k < hi) :
    Zoom B k t h lo hi [] t h lo hi :=
  ⟨rfl, hgood, hlo, hhi, rfl, fun _ hx _ => hx,
    ⟨[], [], fun _ hkv => absurd hkv List.not_mem_nil, fun _ hkv => absurd hkv List.not_mem_nil,
      fun _ => (List.append_nil _).symm⟩,
    fun _ => ⟨[], [], fun _ => (List.append_nil _).symm⟩⟩

/-- A search below a child. -/
theorem Zoom.under (hb : Cuts (Child B h') lo hi size keys children b) (hi' : i < size)
    (hlo : b i ≤ ofKey k) (hhi : ofKey k < b (i + 1)) {path : List Nat} {lo'' hi'' : Bound K}
    (hz : Zoom B k (children i) h' (b i) (b (i + 1)) path s h'' lo'' hi'') :
    Zoom B k (.node status size keys children) (h' + 1) lo hi (i :: path) s h'' lo'' hi'' := by
  refine ⟨hz.at_eq, hz.good, hz.lo_le, hz.lt_hi, ?_, fun x hx hsize => ?_, ?_, fun d => ?_⟩
  · rw [Node.store, hz.store_self, Function.update_eq_self]
  · have hold := hb.child i hi'
    have hnew := hz.store_good x hx fun _ => hsize (List.cons_ne_nil _ _)
    refine good_node.mpr ⟨h', rfl, by omega, b, hb.update ⟨?_, hnew⟩⟩
    cases path with
    | nil => exact hsize (List.cons_ne_nil _ _)
    | cons j path => exact Node.sizeOk_store hold.1
  · obtain ⟨before, after, hbefore, hafter, hentries⟩ := hz.entries
    refine ⟨(row i children).flatMap Node.entries ++ before,
      after ++ (row (size - (i + 1)) fun j => children (j + (i + 1))).flatMap Node.entries,
      fun kv hkv => ?_, fun kv hkv => ?_, fun x => ?_⟩
    · cases List.mem_append.mp hkv with
      | inl hkv =>
          obtain ⟨c, hc, hkv⟩ := List.mem_flatMap.mp hkv
          obtain ⟨j, hj, rfl⟩ := mem_row.mp hc
          have hkey := ((hb.child j (by omega)).2.mem_interval hkv).2
          have hle := (hb.le_of_le (show j + 1 ≤ i from hj) hi'.le).trans hlo
          exact (ofKey_lt_ofKey.mp (hkey.trans_le hle)).ne
      | inr hkv => exact hbefore kv hkv
    · cases List.mem_append.mp hkv with
      | inl hkv => exact hafter kv hkv
      | inr hkv =>
          obtain ⟨c, hc, hkv⟩ := List.mem_flatMap.mp hkv
          obtain ⟨j, hj, rfl⟩ := mem_row.mp hc
          have hkey := ((hb.child (j + (i + 1)) (by omega)).2.mem_interval hkv).1
          have hle := hhi.trans_le (hb.le_of_le (show i + 1 ≤ j + (i + 1) by omega) (by omega))
          exact (ofKey_lt_ofKey.mp (hle.trans_le hkey)).ne'
    · rw [Node.store, Node.entries_node, row_update hi', List.flatMap_append, List.flatMap_cons, hentries]
      simp only [List.append_assoc]
  · obtain ⟨before, after, hbad⟩ := hz.bad (d + 1)
    refine ⟨(if status = .ok then [] else [d]) ++ (row i children).flatMap (Node.bad (d + 1)) ++ before,
      after ++ (row (size - (i + 1)) fun j => children (j + (i + 1))).flatMap (Node.bad (d + 1)), fun x => ?_⟩
    rw [Node.bad_eq, Node.store, Node.badBelow, row_update hi', List.flatMap_append, List.flatMap_cons, hbad,
      List.length_cons, show d + (path.length + 1) = d + 1 + path.length by omega]
    simp only [List.append_assoc]
    rfl

/-- What is stored has all entries for the key. -/
theorem Zoom.mem_store {lo hi : Bound K} {v : V} (hz : Zoom B k t h lo hi path s h' lo' hi') (x : Node K V) :
    ⟨k, v⟩ ∈ (t.store path x).entries ↔ ⟨k, v⟩ ∈ x.entries := by
  obtain ⟨before, after, hbefore, hafter, hentries⟩ := hz.entries
  rw [hentries, List.mem_append, List.mem_append]
  constructor
  · intro hmem
    exact (hmem.resolve_right fun hkv => hafter _ hkv rfl).resolve_left fun hkv => hbefore _ hkv rfl
  · exact fun hmem => .inl (.inr hmem)

/-- An entry that is in both or in none of two nodes. -/
theorem Zoom.mem_congr {lo hi : Bound K} {x : Node K V} {kv : KV K V} (hz : Zoom B k t h lo hi path s h' lo' hi')
    (hx : kv ∈ x.entries ↔ kv ∈ s.entries) : kv ∈ (t.store path x).entries ↔ kv ∈ t.entries := by
  obtain ⟨before, after, -, -, hentries⟩ := hz.entries
  have hself := hentries s
  rw [hz.store_self] at hself
  rw [hentries, hself, List.mem_append, List.mem_append, List.mem_append, List.mem_append, hx]

/-- A node with the same entries. -/
theorem Zoom.entries_congr {lo hi : Bound K} {x : Node K V} (hz : Zoom B k t h lo hi path s h' lo' hi')
    (hx : x.entries = s.entries) : (t.store path x).entries = t.entries := by
  obtain ⟨before, after, -, -, hentries⟩ := hz.entries
  have hself := hentries s
  rw [hz.store_self] at hself
  rw [hentries, hself, hx]

/-- The child for a key. -/
theorem child_spec (hchain : Chain (Child B h) lo hi size keys children) (hlo : lo ≤ ofKey k) (hhi : ofKey k < hi) :
    ∃ cidx b, find size keys k 0 = some cidx ∧ cidx < size ∧ Cuts (Child B h) lo hi size keys children b ∧
      b cidx ≤ ofKey k ∧ ofKey k < b (cidx + 1) := by
  obtain ⟨cidx, hfind, -, hpos⟩ := find_spec (k := k) (fun _ _ => hchain.sorted) hchain.size_pos
    fun j hj => absurd hj (Nat.not_lt_zero j)
  obtain ⟨-, b, hb⟩ := hchain
  exact ⟨cidx, b, hfind, hpos.lt_size, hb,
    hb.interval hpos.lt_size hlo hhi hpos.before fun hlt => hpos.after cidx le_rfl hlt⟩

/-! ## Descents -/

/-- A node that a search has come to without a repair. -/
structure Reached (B : BlockSizes) (k : K) (t : Node K V) (h : Nat) (lo hi : Bound K) (path : List Nat) (s : Node K V)
    (h' : Nat) (lo' hi' : Bound K) : Prop where
  zoom : Zoom B k t h lo hi path s h' lo' hi'
  room : Room B s
  below : path ≠ [] → SizeOk B s ∧ s.status = .ok

/-- Where a descent ends. -/
def Descent.Ends (B : BlockSizes) (k : K) (t : Node K V) (h : Nat) (lo hi : Bound K) : Descent → Prop
  | found path => ∃ status keyvals h' lo' hi', Reached B k t h lo hi path (.leaf status keyvals) h' lo' hi'
  | bad path cidx => ∃ status size keys children h' lo' hi',
      Reached B k t h lo hi path (.node status size keys children) h' lo' hi' ∧ cidx < size ∧
        (children cidx).status ≠ .ok

/-- What a child with status `OK` leads to. -/
theorem Reached.under (hb : Cuts (Child B h') lo hi size keys children b) (hi' : i < size)
    (hlo : b i ≤ ofKey k) (hhi : ofKey k < b (i + 1)) (hok : (children i).status = .ok) {path : List Nat}
    {lo'' hi'' : Bound K} (hr : Reached B k (children i) h' (b i) (b (i + 1)) path s h'' lo'' hi'') :
    Reached B k (.node status size keys children) (h' + 1) lo hi (i :: path) s h'' lo'' hi'' := by
  refine ⟨hr.zoom.under hb hi' hlo hhi, hr.room, fun _ => ?_⟩
  cases path with
  | nil =>
      have hs : some (children i) = some s := hr.zoom.at_eq
      cases hs
      exact ⟨(hb.child i hi').1, hok⟩
  | cons j path => exact hr.below (List.cons_ne_nil _ _)

/-- The descent from a node with room. -/
theorem descend_spec (hgood : Good B t h lo hi) (hroom : Room B t) (hlo : lo ≤ ofKey k) (hhi : ofKey k < hi) :
    ∃ D, descend k t = some D ∧ D.Ends B k t h lo hi := by
  induction t generalizing h lo hi with
  | leaf status keyvals =>
      exact ⟨.found [], rfl, _, _, _, _, _, Zoom.nil hgood hlo hhi, hroom, fun hne => absurd rfl hne⟩
  | node status size keys children ih =>
      obtain ⟨h', rfl, hchain⟩ := good_node.mp hgood
      obtain ⟨cidx, b, hfind, hlt, hb, hlo', hhi'⟩ := child_spec hchain hlo hhi
      by_cases hok : (children cidx).status = .ok
      · have hchild := hb.child cidx hlt
        obtain ⟨D, hdescend, hends⟩ := ih cidx hchild.2 (hchild.1.room hok) hlo' hhi'
        refine ⟨D.under cidx, ?_, ?_⟩
        · rw [descend, hfind]
          simp only [bind, Option.bind_some, hok, ne_eq, not_true_eq_false, if_false, hdescend, Option.map_some]
        · cases D with
          | found path =>
              obtain ⟨status', keyvals, h'', lo'', hi'', hr⟩ := hends
              exact ⟨_, _, _, _, _, hr.under hb hlt hlo' hhi' hok⟩
          | bad path cidx' =>
              obtain ⟨_, _, _, _, _, _, _, hr, hbad⟩ := hends
              exact ⟨_, _, _, _, _, _, _, hr.under hb hlt hlo' hhi' hok, hbad⟩
      · refine ⟨.bad [] cidx, ?_, ?_⟩
        · rw [descend, hfind]
          simp only [bind, Option.bind_some, ne_eq, hok, not_false_eq_true, if_true]
        · exact ⟨_, _, _, _, _, _, _, ⟨Zoom.nil hgood hlo hhi, hroom, fun hne => absurd rfl hne⟩, hlt, hok⟩

/-! ## Rounds -/

/-- A node is stored in the place of one that a search has come to. -/
theorem RootGood.store {x : Node K V} (hroot : RootGood B root h)
    (hr : Reached B k root h ⊥ ⊤ path s h' lo' hi') (hx : Good B x h' lo' hi') (hrootOk : RootOk B x)
    (hsizeOk : path ≠ [] → SizeOk B x) : RootGood B (root.store path x) h := by
  refine ⟨?_, hr.zoom.store_good x hx hsizeOk⟩
  cases path with
  | nil => exact hrootOk
  | cons i path => exact Node.rootOk_store hroot.sizeOk

/-- A repaired copy has one of the sizes that are allowed. -/
theorem Repaired.sizeOk {p' : Node K V} {lo hi : Bound K}
    (hrep : Repaired B (.node status size keys children) h lo hi p')
    (hroom : Room B (.node status size keys children : Node K V)) :
    RootOk B p' ∧ (SizeOk B (.node status size keys children) ∧ status = .ok → SizeOk B p') := by
  obtain ⟨size', keys', children', rfl, hle, hge⟩ := hrep.copied
  have hgood := hrep.good
  obtain ⟨_, rfl, hchain⟩ := good_node.mp hgood
  obtain ⟨-, hlt⟩ := hroom
  have hle' : size' ≤ size + 1 := hle
  have hge' : size ≤ size' + 1 := hge
  refine ⟨⟨hchain.size_pos, by omega, .inl rfl⟩, fun hok => ⟨rfl, ?_, by omega⟩⟩
  obtain ⟨hne, -⟩ := ne_of_statusOf_ok (hok.1.1.symm.trans hok.2)
  have hmin := hok.1.2.1
  omega

/-- The measure of the search is smaller: fewer nodes to repair, or as many and nearer to the root. -/
def Nearer (root' root : Node K V) : Prop :=
  (badAll root').length < (badAll root).length ∨
    (badAll root').length ≤ (badAll root).length ∧ (badAll root').sum < (badAll root).sum

/-- A repair of a node that the descent has come to. -/
theorem Repaired.nearer {p' : Node K V} (hno : ¬ NeedsFix root)
    (hr : Reached B k root h ⊥ ⊤ path (.node status size keys children) h' lo' hi')
    (hrep : Repaired B (.node status size keys children) h' lo' hi' p') : Nearer (root.store path p') root := by
  cases path with
  | nil =>
      have hs : some root = some (.node status size keys children) := hr.zoom.at_eq
      cases hs
      have hcount := hrep.count 0
      have hdepth := hrep.depth 0
      show Nearer p' _
      rw [Nearer, badAll, badAll, if_neg hno, List.nil_append, List.length_append, List.sum_append]
      by_cases hneeds : NeedsFix p'
      · rw [if_pos hneeds, List.length_singleton, List.sum_singleton]
        omega
      · rw [if_neg hneeds, List.length_nil, List.sum_nil]
        omega
  | cons i path =>
      obtain ⟨before, after, hbad⟩ := hr.zoom.bad 0
      obtain ⟨own, own', hall', hall, hown', hown⟩ := Node.badAll_store root p'
        (.node status size keys children) i path
      rw [hbad] at hown hown'
      rw [hr.zoom.store_self] at hall hown
      have hok : (Node.node status size keys children).status = .ok := (hr.below (List.cons_ne_nil _ _)).2
      rw [Node.bad_of_ok hok] at hown
      rw [Node.bad_eq] at hown'
      have hcount := hrep.count (0 + (i :: path).length)
      have hdepth := hrep.depth (0 + (i :: path).length)
      have hlength := congrArg List.length hown
      have hlength' := congrArg List.length hown'
      have hsum := congrArg List.sum hown
      have hsum' := congrArg List.sum hown'
      rw [Nearer, hall', hall]
      simp only [List.length_append, List.sum_append] at hlength hlength' hsum hsum' ⊢
      by_cases hok' : p'.status = .ok
      · rw [if_pos hok', List.length_nil] at hlength'
        rw [if_pos hok', List.sum_nil] at hsum'
        omega
      · rw [if_neg hok', List.length_singleton] at hlength'
        rw [if_neg hok', List.sum_singleton] at hsum'
        omega

omit [LinearOrder K] in
/-- The measure cannot get smaller for ever. -/
theorem nearer_induction {P : Node K V → Prop} (hstep : ∀ root, (∀ root', Nearer root' root → P root') → P root)
    (root : Node K V) : P root := by
  induction hlength : (badAll root).length using Nat.strong_induction_on generalizing root with
  | _ length ihLength =>
      induction hsum : (badAll root).sum using Nat.strong_induction_on generalizing root with
      | _ sum ihSum =>
          refine hstep root fun root' hnearer => ?_
          by_cases hlt : (badAll root').length < length
          · exact ihLength _ hlt _ rfl
          · rw [Nearer, hlength, hsum] at hnearer
            exact ihSum _ (by omega) _ (by omega) rfl

/-- A round repairs the child of the root, finds the leaf, or repairs a node below. -/
theorem round_spec (B : BlockSizes) (k : K) (hroot : RootGood B root h) :
    (∃ root' h', NeedsFix root ∧ fixRoot B root = some root' ∧ RootGood B root' h' ∧ root'.entries = root.entries ∧
      Nearer root' root) ∨
    (∃ path, ¬ NeedsFix root ∧ descend k root = some (.found path) ∧ (Descent.found path).Ends B k root h ⊥ ⊤) ∨
    ∃ path cidx p c p', ¬ NeedsFix root ∧ descend k root = some (.bad path cidx) ∧ root.at_ path = some p ∧
      p.at_ [cidx] = some c ∧ fixNode B p cidx c = some p' ∧ RootGood B (root.store path p') h ∧
      (root.store path p').entries = root.entries ∧ Nearer (root.store path p') root := by
  by_cases hneeds : NeedsFix root
  · obtain ⟨root', h', hfix, hroot', hentries, hlt⟩ := fixRoot_spec hroot hneeds
    exact .inl ⟨root', h', hneeds, hfix, hroot', hentries, .inl hlt⟩
  · have hroom : Room B root := hroot.sizeOk.room hneeds
    obtain ⟨D, hdescend, hends⟩ := descend_spec hroot.good hroom bot_le (ofKey_lt_top k)
    cases D with
    | found path => exact .inr (.inl ⟨path, hneeds, hdescend, hends⟩)
    | bad path cidx =>
        obtain ⟨status, size, keys, children, h', lo', hi', hr, hcidx, hbad⟩ := hends
        obtain ⟨h'', rfl, hchain⟩ := good_node.mp hr.zoom.good
        obtain ⟨p', hfix, hrep⟩ := fixNode_spec status hchain hcidx hr.room hbad
        obtain ⟨hrootOk, hsizeOk⟩ := hrep.sizeOk hr.room
        exact .inr (.inr ⟨path, cidx, _, _, p', hneeds, hdescend, hr.zoom.at_eq, rfl, hfix,
          hroot.store hr hrep.good hrootOk fun hne => hsizeOk (hr.below hne), hr.zoom.entries_congr hrep.entries,
          hrep.nearer hneeds hr⟩)

/-- `find_and_fix` comes to an end, at a leaf with room that the key belongs to. The entries stay as they are. -/
theorem findAndFix_spec (B : BlockSizes) (k : K) (hroot : RootGood B root h) :
    ∃ root' h' path, RootGood B root' h' ∧ root'.entries = root.entries ∧ ¬ NeedsFix root' ∧
      (Descent.found path).Ends B k root' h' ⊥ ⊤ ∧
      ∃ enough, ∀ fuel ≥ enough, findAndFix B k fuel root = some (root', path) := by
  induction root using nearer_induction generalizing h with
  | hstep root ih =>
      -- The search goes on with the tree after a repair.
      have hnext : ∀ next h', RootGood B next h' → next.entries = root.entries → Nearer next root →
          (∀ fuel, findAndFix B k (fuel + 1) root = findAndFix B k fuel next) →
          ∃ root' h' path, RootGood B root' h' ∧ root'.entries = root.entries ∧ ¬ NeedsFix root' ∧
            (Descent.found path).Ends B k root' h' ⊥ ⊤ ∧
            ∃ enough, ∀ fuel ≥ enough, findAndFix B k fuel root = some (root', path) := by
        intro next h' hgood hentries hnearer hround
        obtain ⟨root', h'', path, hroot', hentries', hneeds, hends, enough, henough⟩ := ih next hnearer hgood
        refine ⟨root', h'', path, hroot', hentries'.trans hentries, hneeds, hends, enough + 1, fun fuel hfuel => ?_⟩
        rw [← Nat.sub_add_cancel (show 1 ≤ fuel by omega), hround]
        exact henough _ (by omega)
      rcases round_spec B k hroot with hfixed | hfound | hfixed
      · obtain ⟨next, h', hneeds, hfix, hgood, hentries, hnearer⟩ := hfixed
        refine hnext next h' hgood hentries hnearer fun fuel => ?_
        rw [findAndFix, if_pos hneeds, hfix]
        rfl
      · obtain ⟨path, hneeds, hdescend, hends⟩ := hfound
        refine ⟨root, h, path, hroot, rfl, hneeds, hends, 1, fun fuel hfuel => ?_⟩
        rw [← Nat.sub_add_cancel hfuel, findAndFix, if_neg hneeds, hdescend]
        rfl
      · obtain ⟨path, cidx, p, c, p', hneeds, hdescend, hp, hc, hfix, hgood, hentries, hnearer⟩ := hfixed
        refine hnext _ h hgood hentries hnearer fun fuel => ?_
        rw [findAndFix, if_neg hneeds, hdescend]
        simp only [bind, Option.bind_some, hp, hc, hfix]

end

end Verlib.BTree
