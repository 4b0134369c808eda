import Verlib.SortedList.Machine

/-!
# What the steps do to the list

The nodes that are not removed are those on the path from the root to the end node, and their keys
increase along it. A body that finds `cur` not removed and followed by `nxt` therefore works on two
neighbours of the path, however old the search is that led to them, and the same holds for the two reads
of a validation, since a removed node stays removed.
-/

namespace Verlib.SortedList

open Interleaving

variable {K V : Type} [LinearOrder K]

/-! ## The path -/

/-- Node `b` may come after node `a` on the path. -/
def Memory.Below (m : Memory K V) (a b : Nat) : Prop :=
  b ≠ root ∧ (m.nodes a).isEnd = false ∧
    ((m.nodes b).isEnd = true ∨ a = root ∨ (m.nodes a).key < (m.nodes b).key)

/-- Node `b` follows node `a` and may do so. -/
def Memory.Link (m : Memory K V) (a b : Nat) : Prop :=
  m.Next a b ∧ m.Below a b

/-- The invariant of the memory, where `p` are the nodes from the root to the end node. -/
structure MemInv (m : Memory K V) (p : List Nat) : Prop where
  chain : p.IsChain m.Link
  head : p.head? = some root
  last : ∃ e, p.getLast? = some e ∧ (m.nodes e).isEnd = true
  start : (m.nodes root).isEnd = false
  alloc : ∀ a ∈ p, 0 < a ∧ a < m.fresh
  live : ∀ a, 0 < a → a < m.fresh → (m.nodes a).removed = false → a ∈ p
  removed : ∀ a ∈ p, (m.nodes a).removed = false
  next : ∀ a, 0 < a → a < m.fresh → (m.nodes a).isEnd = false →
    0 < (m.nodes a).next ∧ (m.nodes a).next < m.fresh

section Paths

variable {m m' : Memory K V} {p p' : List Nat} {a b cur nxt : Nat}

/-- What may come after a node may come after those before it. -/
theorem Memory.Below.trans {c : Nat} (hab : m.Below a b) (hbc : m.Below b c) : m.Below a c := by
  refine ⟨hbc.1, hab.2.1, ?_⟩
  rcases hbc.2.2 with hend | heq | hlt
  · exact .inl hend
  · exact absurd heq hab.1
  · rcases hab.2.2 with hend | heq | hlt'
    · rw [hbc.2.1] at hend
      cases hend
    · exact .inr (.inl heq)
    · exact .inr (.inr (hlt'.trans hlt))

/-- Every node on the path may come after those before it. -/
theorem MemInv.below (hm : MemInv m p) : p.Pairwise m.Below := by
  have htrans : IsTrans Nat m.Below := ⟨fun _ _ _ => Memory.Below.trans⟩
  exact List.isChain_iff_pairwise.mp (hm.chain.imp fun _ _ hl => hl.2)

omit [LinearOrder K] in
/-- The path from a node is determined by it. -/
theorem chain_unique {e e' : Nat} {ns ns' : List Nat} (h : (a :: ns ++ [e]).IsChain m.Next)
    (h' : (a :: ns' ++ [e']).IsChain m.Next) (he : (m.nodes e).isEnd = true)
    (he' : (m.nodes e').isEnd = true) : ns = ns' ∧ e = e' := by
  induction ns generalizing a ns' with
  | nil =>
      cases ns' with
      | nil =>
          have hn := (List.isChain_cons_cons.mp h).1
          have hn' := (List.isChain_cons_cons.mp h').1
          exact ⟨rfl, hn.2.symm.trans hn'.2⟩
      | cons b ns' =>
          have hn := (List.isChain_cons_cons.mp h).1
          obtain ⟨hn', hrest⟩ := List.isChain_cons_cons.mp h'
          have hb : b = e := hn'.2.symm.trans hn.2
          have hnot : (m.nodes b).isEnd = false := by
            cases ns' with
            | nil => exact (List.isChain_cons_cons.mp hrest).1.1
            | cons => exact (List.isChain_cons_cons.mp hrest).1.1
          rw [hb, he] at hnot
          cases hnot
  | cons b ns ih =>
      obtain ⟨hn, hrest⟩ := List.isChain_cons_cons.mp h
      cases ns' with
      | nil =>
          have hn' := (List.isChain_cons_cons.mp h').1
          have hb : b = e' := hn.2.symm.trans hn'.2
          have hnot : (m.nodes b).isEnd = false := by
            cases ns with
            | nil => exact (List.isChain_cons_cons.mp hrest).1.1
            | cons => exact (List.isChain_cons_cons.mp hrest).1.1
          rw [hb, he'] at hnot
          cases hnot
      | cons b' ns' =>
          obtain ⟨hn', hrest'⟩ := List.isChain_cons_cons.mp h'
          obtain rfl : b = b' := hn.2.symm.trans hn'.2
          obtain ⟨rfl, rfl⟩ := ih hrest hrest'
          exact ⟨rfl, rfl⟩

/-- The path starts at the root and has an end node as its last node. -/
theorem MemInv.ends (hm : MemInv m p) :
    ∃ ns e, p = root :: ns ++ [e] ∧ (m.nodes e).isEnd = true := by
  obtain ⟨e, hlast, he⟩ := hm.last
  obtain ⟨init, rfl⟩ := List.getLast?_eq_some_iff.mp hlast
  cases init with
  | nil =>
      have hroot : e = root := by simpa using hm.head
      rw [hroot, hm.start] at he
      cases he
  | cons a ns =>
      have hroot : a = root := by simpa using hm.head
      exact ⟨ns, e, by rw [hroot], he⟩

/-- The nodes on the path, in the order of their keys. -/
theorem MemInv.sorted (hm : MemInv m p) :
    ∃ ns e, m.Path ns e ∧ (ns.map fun a => (m.nodes a).key).Pairwise (· < ·) ∧ ∀ a ∈ ns, (m.nodes a).isEnd = false := by
  obtain ⟨ns, e, rfl, he⟩ := hm.ends
  have hbelow := hm.below
  rw [List.cons_append, List.pairwise_cons] at hbelow
  obtain ⟨hroot, hpair⟩ := hbelow
  obtain ⟨hns, _, hlast⟩ := List.pairwise_append.mp hpair
  refine ⟨ns, e, ⟨hm.chain.imp fun _ _ hl => hl.1, he⟩, ?_, fun a ha => (hlast a ha e (by simp)).2.1⟩
  rw [List.pairwise_map]
  refine hns.imp_of_mem fun {a b} ha hb hab => ?_
  rcases hab.2.2 with hend | heq | hlt
  · rw [(hlast b hb e (by simp)).2.1] at hend
    cases hend
  · exact absurd heq (hroot a (by simp [ha])).1
  · exact hlt

/-- The keys in the list are those on the path. -/
theorem MemInv.mem_content (hm : MemInv m p) {k : K} :
    k ∈ m.content ↔ ∃ a ∈ p, a ≠ root ∧ (m.nodes a).isEnd = false ∧ (m.nodes a).key = k := by
  obtain ⟨ns, e, rfl, he⟩ := hm.ends
  have hbelow := hm.below
  rw [List.cons_append, List.pairwise_cons] at hbelow
  obtain ⟨hroot, hpair⟩ := hbelow
  obtain ⟨_, _, hlast⟩ := List.pairwise_append.mp hpair
  constructor
  · rintro ⟨ns', e', ⟨hchain, he'⟩, a, ha, hk⟩
    obtain ⟨rfl, rfl⟩ := chain_unique (hm.chain.imp fun _ _ hl => hl.1) hchain he he'
    exact ⟨a, by simp [ha], (hroot a (by simp [ha])).1, (hlast a ha e (by simp)).2.1, hk⟩
  · rintro ⟨a, ha, hne, hnot, hk⟩
    refine ⟨ns, e, ⟨hm.chain.imp fun _ _ hl => hl.1, he⟩, a, ?_, hk⟩
    rw [List.cons_append, List.mem_cons, List.mem_append, List.mem_singleton] at ha
    rcases ha with rfl | ha | rfl
    · exact absurd rfl hne
    · exact ha
    · rw [he] at hnot
      cases hnot

/-- A node that is not removed is followed on the path by its `next`. -/
theorem MemInv.split (hm : MemInv m p) (hpos : 0 < cur) (hlt : cur < m.fresh)
    (hnot : (m.nodes cur).isEnd = false) (hlive : (m.nodes cur).removed = false) :
    ∃ xs ys, p = xs ++ cur :: (m.nodes cur).next :: ys := by
  obtain ⟨xs, rest, rfl⟩ := List.append_of_mem (hm.live cur hpos hlt hlive)
  cases rest with
  | nil =>
      obtain ⟨ns, e, heq, he⟩ := hm.ends
      have hce : [cur] = [e] := (List.append_inj' heq rfl).2
      rw [List.singleton_inj.mp hce, he] at hnot
      cases hnot
  | cons b ys =>
      have hn := (List.isChain_append_cons_cons.mp hm.chain).2.1
      exact ⟨xs, ys, by rw [hn.1.2]⟩

/-- What comes before and after two neighbours. -/
theorem MemInv.around {xs ys : List Nat} (hm : MemInv m (xs ++ cur :: nxt :: ys)) :
    (∀ a ∈ xs, m.Below a cur ∧ m.Below a nxt ∧ ∀ b ∈ ys, m.Below a b) ∧ m.Below cur nxt ∧
      (∀ b ∈ ys, m.Below cur b ∧ m.Below nxt b) ∧ xs.Pairwise m.Below ∧ ys.Pairwise m.Below := by
  obtain ⟨hxs, hrest, hcross⟩ := List.pairwise_append.mp hm.below
  rw [List.pairwise_cons, List.pairwise_cons] at hrest
  obtain ⟨hcur, hnxt, hys⟩ := hrest
  refine ⟨fun a ha => ⟨hcross a ha cur (by simp), hcross a ha nxt (by simp),
    fun b hb => hcross a ha b (by simp [hb])⟩, hcur nxt (by simp),
    fun b hb => ⟨hcur b (by simp [hb]), hnxt b hb⟩, hxs, hys⟩

/-- No node comes after itself. -/
theorem Memory.Below.ne (hb : m.Below a b) : a ≠ b := by
  rintro rfl
  obtain ⟨hroot, hnot, hend | heq | hlt⟩ := hb
  · rw [hnot] at hend
    cases hend
  · exact hroot heq
  · exact lt_irrefl _ hlt

/-- A key between those of two neighbours is not in the list. -/
theorem MemInv.not_mem_content {k : K} {xs ys : List Nat} (hm : MemInv m (xs ++ cur :: nxt :: ys))
    (hcur : cur = root ∨ (m.nodes cur).key < k)
    (hnxt : (m.nodes nxt).isEnd = true ∨ k < (m.nodes nxt).key) : k ∉ m.content := by
  rw [hm.mem_content]
  obtain ⟨hxs, hcn, hys, _, _⟩ := hm.around
  rintro ⟨a, ha, hroot, hnot, rfl⟩
  have hle : ∀ {c}, m.Below c nxt → (m.nodes c).isEnd = false := fun hb => hb.2.1
  rw [List.mem_append, List.mem_cons, List.mem_cons] at ha
  rcases ha with ha | rfl | rfl | ha
  · -- Before `cur` the keys are smaller than that of `cur`.
    obtain ⟨hne, _, hend | heq | hlt⟩ := (hxs a ha).1
    · rw [hcn.2.1] at hend
      cases hend
    · exact hroot heq
    · rcases hcur with rfl | hck
      · exact hne rfl
      · exact lt_asymm hlt hck
  · rcases hcur with rfl | hck
    · exact hroot rfl
    · exact lt_irrefl _ hck
  · rcases hnxt with hend | hlt
    · rw [hnot] at hend
      cases hend
    · exact lt_irrefl _ hlt
  · obtain ⟨_, hnend, hend | heq | hlt⟩ := (hys a ha).2
    · rw [hnot] at hend
      cases hend
    · exact hcn.1 heq
    · rcases hnxt with hend | hk
      · rw [hnend] at hend
        cases hend
      · exact lt_asymm hlt hk

/-- The key of a node on the path is in the list. -/
theorem MemInv.mem_content_of_mem (hm : MemInv m p) (ha : a ∈ p) (hroot : a ≠ root)
    (hnot : (m.nodes a).isEnd = false) : (m.nodes a).key ∈ m.content :=
  hm.mem_content.mpr ⟨a, ha, hroot, hnot, rfl⟩

end Paths

/-! ## The bodies -/

/-- How a step may change the memory: keys stay, and a removed node stays removed. -/
structure Ext (m m' : Memory K V) : Prop where
  fresh : m.fresh ≤ m'.fresh
  key : ∀ a, a < m.fresh → (m'.nodes a).key = (m.nodes a).key
  isEnd : ∀ a, a < m.fresh → (m'.nodes a).isEnd = (m.nodes a).isEnd
  removed : ∀ a, a < m.fresh → (m'.nodes a).removed = false → (m.nodes a).removed = false

/-- The memory after the body of `remove` in the `Recorded_Once` build. -/
def Memory.copyNext (m : Memory K V) (cur nxt nn : Nat) : Memory K V :=
  let m' := (m.setRemoved nxt).setRemoved nn
  (m'.newNode { m'.nodes nn with removed := false }).setNext cur m.fresh

section Bodies

variable {m m' : Memory K V} {p xs ys zs : List Nat} {a b z cur nxt : Nat}

omit [LinearOrder K] in
/-- Nothing changes. -/
theorem Ext.refl (m : Memory K V) : Ext m m :=
  ⟨le_rfl, fun _ _ => rfl, fun _ _ => rfl, fun _ _ => id⟩

/-- Nodes that may follow each other still may. -/
theorem Ext.below (hext : Ext m m') (ha : a < m.fresh) (hb : b < m.fresh) (h : m.Below a b) :
    m'.Below a b := by
  unfold Memory.Below
  rw [hext.key a ha, hext.key b hb, hext.isEnd a ha, hext.isEnd b hb]
  exact h

/-- A node whose `next` is not written still leads to the next one. -/
theorem Ext.link (hext : Ext m m') (ha : a < m.fresh) (hb : b < m.fresh)
    (hnext : (m'.nodes a).next = (m.nodes a).next) (h : m.Link a b) : m'.Link a b :=
  ⟨⟨(hext.isEnd a ha).trans h.1.1, hnext.trans h.1.2⟩, hext.below ha hb h.2⟩

/-- A part of the path that is not written stays a path. -/
theorem Ext.chain (hext : Ext m m') {l : List Nat} (halloc : ∀ a ∈ l, a < m.fresh)
    (hnext : ∀ a ∈ l, (m'.nodes a).next = (m.nodes a).next) (hl : l.IsChain m.Link) :
    l.IsChain m'.Link :=
  hl.imp_of_mem_imp fun a b ha hb => hext.link (halloc a ha) (halloc b hb) (hnext a ha)

/-- The path is led to another node from `cur` on. -/
theorem MemInv.relink (hm : MemInv m (xs ++ cur :: ys)) (hext : Ext m m')
    (hnext : ∀ a ∈ xs, (m'.nodes a).next = (m.nodes a).next) (hcur : m'.Link cur z)
    (hchain : (z :: zs).IsChain m'.Link) : (xs ++ cur :: z :: zs).IsChain m'.Link := by
  have halloc : ∀ a ∈ xs ++ cur :: ys, a < m.fresh := fun a ha => (hm.alloc a ha).2
  obtain ⟨hxs, _, hcross⟩ := List.isChain_append.mp hm.chain
  refine List.isChain_append.mpr ⟨?_, List.isChain_cons_cons.mpr ⟨hcur, hchain⟩, ?_⟩
  · exact hext.chain (fun a ha => halloc a (by simp [ha])) hnext hxs
  · intro x hx y hy
    have hmem := List.mem_of_mem_getLast? hx
    obtain rfl : cur = y := by simpa using hy
    exact hext.link (halloc x (by simp [hmem])) (halloc cur (by simp)) (hnext x hmem)
      (hcross x hx cur (by simp))

/-- The path after a body that works at `cur`. -/
theorem MemInv.splice (hm : MemInv m (xs ++ cur :: ys)) (hext : Ext m m')
    (hnext : ∀ a ∈ xs, (m'.nodes a).next = (m.nodes a).next) (hcur : m'.Link cur z)
    (hchain : (z :: zs).IsChain m'.Link)
    (hlast : ∃ e, (z :: zs).getLast? = some e ∧ (m'.nodes e).isEnd = true)
    (halloc : ∀ b ∈ z :: zs, 0 < b ∧ b < m'.fresh)
    (hlive : ∀ a, 0 < a → a < m'.fresh → (m'.nodes a).removed = false →
      a ∈ xs ∨ a = cur ∨ a ∈ z :: zs)
    (hremoved : ∀ a, a ∈ xs ∨ a = cur ∨ a ∈ z :: zs → (m'.nodes a).removed = false)
    (hnext' : ∀ a, 0 < a → a < m'.fresh → (m'.nodes a).isEnd = false →
      0 < (m'.nodes a).next ∧ (m'.nodes a).next < m'.fresh) : MemInv m' (xs ++ cur :: z :: zs) := by
  have hmem : ∀ a, a ∈ xs ++ cur :: z :: zs ↔ a ∈ xs ∨ a = cur ∨ a ∈ z :: zs := by
    intro a
    rw [List.mem_append, List.mem_cons]
  have hroot : root < m.fresh := by
    obtain ⟨ns, e, heq, _⟩ := hm.ends
    exact (hm.alloc root (by rw [heq]; simp)).2
  refine ⟨hm.relink hext hnext hcur hchain, ?_, ?_, ?_, fun a ha => ?_, fun a h0 h1 h2 => ?_,
    fun a ha => hremoved a ((hmem a).mp ha), hnext'⟩
  · have hhead := hm.head
    rw [List.head?_append] at hhead ⊢
    exact hhead
  · obtain ⟨e, he, hend⟩ := hlast
    exact ⟨e, by simpa [List.getLast?_append] using he, hend⟩
  · rw [hext.isEnd root hroot, hm.start]
  · rcases (hmem a).mp ha with ha | rfl | ha
    · obtain ⟨h0, h1⟩ := hm.alloc a (by simp [ha])
      exact ⟨h0, h1.trans_le hext.fresh⟩
    · obtain ⟨h0, h1⟩ := hm.alloc a (by simp)
      exact ⟨h0, h1.trans_le hext.fresh⟩
    · exact halloc a ha
  · exact (hmem a).mpr (hlive a h0 h1 h2)

/-- The last node of the path from `nxt` on. -/
theorem MemInv.last_of_append (hm : MemInv m (xs ++ nxt :: ys)) :
    ∃ e, (nxt :: ys).getLast? = some e ∧ e < m.fresh ∧ (m.nodes e).isEnd = true := by
  obtain ⟨e, hlast, he⟩ := hm.last
  have hlast' : (nxt :: ys).getLast? = some e := by simpa [List.getLast?_append] using hlast
  exact ⟨e, hlast', (hm.alloc e (List.mem_of_mem_getLast? hlast)).2, he⟩

/-- The root has been allocated. -/
theorem MemInv.root_lt (hm : MemInv m p) : root < m.fresh := by
  obtain ⟨ns, e, heq, _⟩ := hm.ends
  exact (hm.alloc root (by rw [heq]; simp)).2

section Insert

variable {k : K} {v : V} (hm : MemInv m (xs ++ cur :: nxt :: ys))

omit [LinearOrder K] in
/-- The nodes after the body of `insert`. -/
theorem insert_nodes (nxt : Nat) (hcf : cur ≠ m.fresh) (v : V) (k : K) :
    let m' := (m.newNode ⟨k, v, nxt, false, false⟩).setNext cur m.fresh
    m'.nodes cur = { m.nodes cur with next := m.fresh } ∧
      m'.nodes m.fresh = ⟨k, v, nxt, false, false⟩ ∧
      ∀ a, a ≠ cur → a ≠ m.fresh → m'.nodes a = m.nodes a := by
  refine ⟨?_, ?_, fun a hac haf => ?_⟩
  · simp [Memory.setNext, Memory.newNode, Function.update_of_ne hcf]
  · simp [Memory.setNext, Memory.newNode, Function.update_of_ne hcf.symm]
  · simp [Memory.setNext, Memory.newNode, Function.update_of_ne hac, Function.update_of_ne haf]

include hm

/-- The body of `insert` keeps the keys of all nodes. -/
theorem MemInv.insert_ext :
    Ext m ((m.newNode ⟨k, v, nxt, false, false⟩).setNext cur m.fresh) := by
  have hcf : cur ≠ m.fresh := (hm.alloc cur (by simp)).2.ne
  obtain ⟨hself, _, hother⟩ := insert_nodes nxt hcf v k
  refine ⟨Nat.le_succ _, fun a ha => ?_, fun a ha => ?_, fun a ha hlive => ?_⟩
  · rcases eq_or_ne a cur with rfl | hac
    · rw [hself]
    · rw [hother a hac ha.ne]
  · rcases eq_or_ne a cur with rfl | hac
    · rw [hself]
    · rw [hother a hac ha.ne]
  · rcases eq_or_ne a cur with rfl | hac
    · rwa [hself] at hlive
    · rwa [hother a hac ha.ne] at hlive

/-- A body of `insert` at two neighbours puts its key between them. -/
theorem MemInv.insert (hcur : cur = root ∨ (m.nodes cur).key < k)
    (hnxt : (m.nodes nxt).isEnd = true ∨ k < (m.nodes nxt).key) :
    MemInv ((m.newNode ⟨k, v, nxt, false, false⟩).setNext cur m.fresh)
      (xs ++ cur :: m.fresh :: nxt :: ys) := by
  obtain ⟨hxs, hcn, hys, _, _⟩ := hm.around
  have hext := hm.insert_ext (k := k) (v := v)
  have hcf : cur ≠ m.fresh := (hm.alloc cur (by simp)).2.ne
  obtain ⟨hself, hnew, hother⟩ := insert_nodes nxt hcf v k
  have halloc : ∀ a ∈ xs ++ cur :: nxt :: ys, a < m.fresh := fun a ha => (hm.alloc a ha).2
  have htail : ∀ a ∈ nxt :: ys, a ∈ xs ++ cur :: nxt :: ys := fun a ha => by simp [List.mem_cons.mp ha]
  have hne : ∀ a ∈ nxt :: ys, a ≠ cur := by
    intro a ha
    rcases List.mem_cons.mp ha with rfl | ha
    · exact hcn.ne.symm
    · exact (hys a ha).1.ne.symm
  refine hm.splice hext (fun a ha => ?_) ?_ (List.isChain_cons_cons.mpr ⟨?_, ?_⟩) ?_ (fun a ha => ?_)
    (fun a h0 h1 hlive => ?_) (fun a ha => ?_) (fun a h0 h1 hnot => ?_)
  · rw [hother a (hxs a ha).1.ne (halloc a (by simp [ha])).ne]
  · refine ⟨⟨by rw [hself]; exact hcn.2.1, by rw [hself]⟩, hm.root_lt.ne', by rw [hself]; exact hcn.2.1,
      ?_⟩
    rw [hself, hnew]
    exact .inr hcur
  · refine ⟨⟨by rw [hnew], by rw [hnew]⟩, hcn.1, by rw [hnew], ?_⟩
    rw [hnew, hother nxt hcn.ne.symm (halloc nxt (by simp)).ne]
    exact hnxt.imp_right .inr
  · refine hext.chain (fun a ha => halloc a (htail a ha)) (fun a ha => ?_)
      (List.isChain_append_cons_cons.mp hm.chain).2.2
    rw [hother a (hne a ha) (halloc a (htail a ha)).ne]
  · have hm' : MemInv m ((xs ++ [cur]) ++ nxt :: ys) := by simpa using hm
    obtain ⟨e, he, hlt, hend⟩ := hm'.last_of_append
    exact ⟨e, by simpa using he, by rw [hext.isEnd e hlt, hend]⟩
  · rcases List.mem_cons.mp ha with rfl | ha
    · exact ⟨(Nat.zero_le _).trans_lt hm.root_lt, Nat.lt_succ_self _⟩
    · obtain ⟨h0, h1⟩ := hm.alloc a (htail a ha)
      exact ⟨h0, h1.trans (Nat.lt_succ_self _)⟩
  · rcases Nat.lt_or_eq_of_le (Nat.le_of_lt_succ h1) with hlt | rfl
    · have hmem := hm.live a h0 hlt (hext.removed a hlt hlive)
      rw [List.mem_append, List.mem_cons] at hmem
      exact hmem.imp_right (Or.imp_right (List.mem_cons_of_mem _))
    · exact .inr (.inr (by simp))
  · rcases ha with ha | rfl | ha
    · rw [hother a (hxs a ha).1.ne (halloc a (by simp [ha])).ne]
      exact hm.removed a (by simp [ha])
    · rw [hself]
      exact hm.removed a (by simp)
    · rcases List.mem_cons.mp ha with rfl | ha
      · rw [hnew]
      · rw [hother a (hne a ha) (halloc a (htail a ha)).ne]
        exact hm.removed a (htail a ha)
  · rcases Nat.lt_or_eq_of_le (Nat.le_of_lt_succ h1) with hlt | rfl
    · rcases eq_or_ne a cur with rfl | hac
      · rw [hself]
        exact ⟨h0.trans hlt, Nat.lt_succ_self _⟩
      · rw [hother a hac hlt.ne] at hnot ⊢
        obtain ⟨h2, h3⟩ := hm.next a h0 hlt hnot
        exact ⟨h2, h3.trans (Nat.lt_succ_self _)⟩
    · rw [hnew]
      obtain ⟨h2, h3⟩ := hm.alloc nxt (by simp)
      exact ⟨h2, h3.trans (Nat.lt_succ_self _)⟩

/-- The body of `insert` adds its key. -/
theorem MemInv.insert_content (hcur : cur = root ∨ (m.nodes cur).key < k)
    (hnxt : (m.nodes nxt).isEnd = true ∨ k < (m.nodes nxt).key) :
    ((m.newNode ⟨k, v, nxt, false, false⟩).setNext cur m.fresh).content = m.content ∪ {k} := by
  have hinv := hm.insert (v := v) hcur hnxt
  have hext := hm.insert_ext (k := k) (v := v)
  obtain ⟨_, hnew, _⟩ := insert_nodes nxt (hm.alloc cur (by simp)).2.ne v k
  ext k'
  rw [hinv.mem_content, Set.mem_union, hm.mem_content, Set.mem_singleton_iff]
  have hmem : ∀ a, a ∈ xs ++ cur :: m.fresh :: nxt :: ys ↔
      a ∈ xs ++ cur :: nxt :: ys ∨ a = m.fresh := by
    intro a
    simp only [List.mem_append, List.mem_cons]
    tauto
  constructor
  · rintro ⟨a, ha, hne, hnot, hk⟩
    rcases (hmem a).mp ha with ha | rfl
    · have hlt := (hm.alloc a ha).2
      rw [hext.isEnd a hlt] at hnot
      rw [hext.key a hlt] at hk
      exact .inl ⟨a, ha, hne, hnot, hk⟩
    · rw [hnew] at hk
      exact .inr hk.symm
  · rintro (⟨a, ha, hne, hnot, hk⟩ | rfl)
    · have hlt := (hm.alloc a ha).2
      exact ⟨a, (hmem a).mpr (.inl ha), hne, by rw [hext.isEnd a hlt, hnot],
        by rw [hext.key a hlt, hk]⟩
    · exact ⟨m.fresh, (hmem _).mpr (.inr rfl), hm.root_lt.ne', by rw [hnew], by rw [hnew]⟩

end Insert

section Remove

variable {nn : Nat} (hm : MemInv m (xs ++ cur :: nxt :: nn :: ys))
include hm

/-- The node that is removed and what is around it. -/
theorem MemInv.around_removed : m.Below cur nxt ∧ m.Below nxt nn ∧ m.Below cur nn ∧
    (m.nodes nxt).next = nn ∧ (∀ a ∈ xs, m.Below a cur ∧ m.Below a nxt ∧ m.Below a nn) ∧
    (∀ b ∈ ys, m.Below cur b ∧ m.Below nxt b ∧ m.Below nn b) ∧
    ((nn :: ys).IsChain m.Link) := by
  obtain ⟨hxs, hcn, hys, _, _⟩ := hm.around
  have hm' : MemInv m ((xs ++ [cur]) ++ nxt :: nn :: ys) := by simpa using hm
  obtain ⟨_, hnn, hys', _, _⟩ := hm'.around
  obtain ⟨_, hlink, hrest⟩ := List.isChain_append_cons_cons.mp hm'.chain
  exact ⟨hcn, hnn, (hys nn (by simp)).1, hlink.1.2,
    fun a ha => ⟨(hxs a ha).1, (hxs a ha).2.1, (hxs a ha).2.2 nn (by simp)⟩,
    fun b hb => ⟨(hys b (by simp [hb])).1, hys' b hb⟩, hrest⟩

/-- The body of `remove` deletes its key, whether the next node stays or is replaced by a copy. -/
theorem MemInv.remove_content (hinv : MemInv m' (xs ++ cur :: z :: ys)) (hext : Ext m m')
    (hkey : (m'.nodes z).key = (m.nodes nn).key) (hend : (m'.nodes z).isEnd = (m.nodes nn).isEnd) :
    m'.content = m.content \ {(m.nodes nxt).key} := by
  obtain ⟨hcn, hnn, hcnn, _, hxs, hys, _⟩ := hm.around_removed
  obtain ⟨_, hcz, _, _, _⟩ := hinv.around
  have halloc : ∀ a ∈ xs ++ cur :: nxt :: nn :: ys, a < m.fresh := fun a ha => (hm.alloc a ha).2
  -- Two nodes of the path that are neither the root nor an end node have different keys.
  have hdiff : ∀ {a b}, m.Below a b → a ≠ root → (m.nodes b).isEnd = false →
      (m.nodes a).key < (m.nodes b).key := by
    rintro a b ⟨_, _, hb | heq | hlt⟩ hroot hnot
    · rw [hnot] at hb
      cases hb
    · exact absurd heq hroot
    · exact hlt
  ext k
  rw [hinv.mem_content, Set.mem_sdiff, hm.mem_content, Set.mem_singleton_iff]
  constructor
  · rintro ⟨a, ha, hroot, hnot, rfl⟩
    rw [List.mem_append, List.mem_cons, List.mem_cons] at ha
    rcases ha with ha | rfl | rfl | ha
    · have hlt := halloc a (by simp [ha])
      rw [hext.isEnd a hlt] at hnot
      rw [hext.key a hlt]
      exact ⟨⟨a, by simp [ha], hroot, hnot, rfl⟩, (hdiff (hxs a ha).2.1 hroot hnn.2.1).ne⟩
    · have hlt := halloc a (by simp)
      rw [hext.isEnd a hlt] at hnot
      rw [hext.key a hlt]
      exact ⟨⟨a, by simp, hroot, hnot, rfl⟩, (hdiff hcn hroot hnn.2.1).ne⟩
    · rw [hend] at hnot
      rw [hkey]
      exact ⟨⟨nn, by simp, hnn.1, hnot, rfl⟩, (hdiff hnn hcn.1 hnot).ne'⟩
    · have hlt := halloc a (by simp [ha])
      rw [hext.isEnd a hlt] at hnot
      rw [hext.key a hlt]
      exact ⟨⟨a, by simp [ha], hroot, hnot, rfl⟩, (hdiff (hys a ha).2.1 hcn.1 hnot).ne'⟩
  · rintro ⟨⟨a, ha, hroot, hnot, rfl⟩, hne⟩
    have hlt := halloc a ha
    rw [List.mem_append, List.mem_cons, List.mem_cons, List.mem_cons] at ha
    rcases ha with ha | rfl | rfl | rfl | ha
    · exact ⟨a, by simp [ha], hroot, by rw [hext.isEnd a hlt, hnot], hext.key a hlt⟩
    · exact ⟨a, by simp, hroot, by rw [hext.isEnd a hlt, hnot], hext.key a hlt⟩
    · exact absurd rfl hne
    · exact ⟨z, by simp, hcz.1, by rw [hend, hnot], hkey⟩
    · exact ⟨a, by simp [ha], hroot, by rw [hext.isEnd a hlt, hnot], hext.key a hlt⟩

/-- A body of `remove` at two neighbours unlinks the second one. -/
theorem MemInv.remove :
    MemInv ((m.setRemoved nxt).setNext cur nn) (xs ++ cur :: nn :: ys) ∧
      Ext m ((m.setRemoved nxt).setNext cur nn) := by
  obtain ⟨hcn, hnn, hcnn, _, hxs, hys, hrest⟩ := hm.around_removed
  have halloc : ∀ a ∈ xs ++ cur :: nxt :: nn :: ys, a < m.fresh := fun a ha => (hm.alloc a ha).2
  have hself : ((m.setRemoved nxt).setNext cur nn).nodes cur = { m.nodes cur with next := nn } := by
    simp [Memory.setNext, Memory.setRemoved, Function.update_of_ne hcn.ne]
  have hnxt : ((m.setRemoved nxt).setNext cur nn).nodes nxt = { m.nodes nxt with removed := true } := by
    simp [Memory.setNext, Memory.setRemoved, Function.update_of_ne hcn.ne.symm]
  have hother : ∀ a, a ≠ cur → a ≠ nxt →
      ((m.setRemoved nxt).setNext cur nn).nodes a = m.nodes a := by
    intro a hac han
    simp [Memory.setNext, Memory.setRemoved, Function.update_of_ne hac, Function.update_of_ne han]
  have hcases : ∀ a, a = cur ∨ a = nxt ∨ a ≠ cur ∧ a ≠ nxt := by
    intro a
    rcases eq_or_ne a cur with rfl | hac
    · exact .inl rfl
    · rcases eq_or_ne a nxt with rfl | han
      · exact .inr (.inl rfl)
      · exact .inr (.inr ⟨hac, han⟩)
  have hext : Ext m ((m.setRemoved nxt).setNext cur nn) := by
    refine ⟨le_rfl, fun a _ => ?_, fun a _ => ?_, fun a _ hlive => ?_⟩
    · rcases hcases a with rfl | rfl | ⟨hac, han⟩
      · rw [hself]
      · rw [hnxt]
      · rw [hother a hac han]
    · rcases hcases a with rfl | rfl | ⟨hac, han⟩
      · rw [hself]
      · rw [hnxt]
      · rw [hother a hac han]
    · rcases hcases a with rfl | rfl | ⟨hac, han⟩
      · rwa [hself] at hlive
      · rw [hnxt] at hlive
        cases hlive
      · rwa [hother a hac han] at hlive
  have hne : ∀ a ∈ nn :: ys, a ≠ cur ∧ a ≠ nxt := by
    intro a ha
    rcases List.mem_cons.mp ha with rfl | ha
    · exact ⟨hcnn.ne.symm, hnn.ne.symm⟩
    · exact ⟨(hys a ha).1.ne.symm, (hys a ha).2.1.ne.symm⟩
  have htail : ∀ a ∈ nn :: ys, a ∈ xs ++ cur :: nxt :: nn :: ys :=
    fun a ha => by simp [List.mem_cons.mp ha]
  refine ⟨hm.splice hext (fun a ha => ?_) ?_ ?_ ?_ (fun a ha => hm.alloc a (htail a ha))
    (fun a h0 h1 hlive => ?_) (fun a ha => ?_) (fun a h0 h1 hnot => ?_), hext⟩
  · rw [hother a (hxs a ha).1.ne (hxs a ha).2.1.ne]
  · exact ⟨⟨by rw [hself]; exact hcn.2.1, by rw [hself]⟩,
      hext.below (halloc cur (by simp)) (halloc nn (by simp)) hcnn⟩
  · refine hext.chain (fun a ha => halloc a (htail a ha)) (fun a ha => ?_) hrest
    rw [hother a (hne a ha).1 (hne a ha).2]
  · have hm' : MemInv m ((xs ++ [cur, nxt]) ++ nn :: ys) := by simpa using hm
    obtain ⟨e, he, hlt, hend⟩ := hm'.last_of_append
    exact ⟨e, he, by rw [hext.isEnd e hlt, hend]⟩
  · have hmem := hm.live a h0 h1 (hext.removed a h1 hlive)
    rw [List.mem_append, List.mem_cons, List.mem_cons] at hmem
    rcases hmem with hmem | rfl | rfl | hmem
    · exact .inl hmem
    · exact .inr (.inl rfl)
    · rw [hnxt] at hlive
      cases hlive
    · exact .inr (.inr hmem)
  · rcases ha with ha | rfl | ha
    · rw [hother a (hxs a ha).1.ne (hxs a ha).2.1.ne]
      exact hm.removed a (by simp [ha])
    · rw [hself]
      exact hm.removed a (by simp)
    · rw [hother a (hne a ha).1 (hne a ha).2]
      exact hm.removed a (htail a ha)
  · rcases hcases a with rfl | rfl | ⟨hac, han⟩
    · rw [hself]
      exact hm.alloc nn (by simp)
    · rw [hnxt] at hnot ⊢
      exact hm.next a h0 h1 hnot
    · rw [hother a hac han] at hnot ⊢
      exact hm.next a h0 h1 hnot

omit hm [LinearOrder K] in
/-- The nodes after the body of `remove` in the `Recorded_Once` build. -/
theorem copy_nodes (hcx : cur ≠ nxt) (hcn : cur ≠ nn) (hxn : nxt ≠ nn) (hc : cur < m.fresh)
    (hx : nxt < m.fresh) (hn : nn < m.fresh) :
    (m.copyNext cur nxt nn).nodes cur = { m.nodes cur with next := m.fresh } ∧
      (m.copyNext cur nxt nn).nodes nxt = { m.nodes nxt with removed := true } ∧
      (m.copyNext cur nxt nn).nodes nn = { m.nodes nn with removed := true } ∧
      (m.copyNext cur nxt nn).nodes m.fresh = { m.nodes nn with removed := false } ∧
      ∀ a, a ≠ cur → a ≠ nxt → a ≠ nn → a ≠ m.fresh →
        (m.copyNext cur nxt nn).nodes a = m.nodes a := by
  refine ⟨?_, ?_, ?_, ?_, fun a hac hax han haf => ?_⟩
  · simp [Memory.copyNext, Memory.setNext, Memory.newNode, Memory.setRemoved,
      Function.update_of_ne hc.ne, Function.update_of_ne hcx, Function.update_of_ne hcn]
  · simp [Memory.copyNext, Memory.setNext, Memory.newNode, Memory.setRemoved,
      Function.update_of_ne hx.ne, Function.update_of_ne hcx.symm, Function.update_of_ne hxn]
  · simp [Memory.copyNext, Memory.setNext, Memory.newNode, Memory.setRemoved,
      Function.update_of_ne hn.ne, Function.update_of_ne hcn.symm, Function.update_of_ne hxn.symm]
  · simp [Memory.copyNext, Memory.setNext, Memory.newNode, Memory.setRemoved,
      Function.update_of_ne hc.ne', Function.update_of_ne hxn.symm]
  · simp [Memory.copyNext, Memory.setNext, Memory.newNode, Memory.setRemoved,
      Function.update_of_ne hac, Function.update_of_ne hax, Function.update_of_ne han,
      Function.update_of_ne haf]

/-- A body of `remove` in the `Recorded_Once` build unlinks the second of two neighbours and replaces the
node after it by a copy. -/
theorem MemInv.copyNext :
    MemInv (m.copyNext cur nxt nn) (xs ++ cur :: m.fresh :: ys) ∧ Ext m (m.copyNext cur nxt nn) ∧
      ((m.copyNext cur nxt nn).nodes m.fresh).key = (m.nodes nn).key ∧
      ((m.copyNext cur nxt nn).nodes m.fresh).isEnd = (m.nodes nn).isEnd := by
  obtain ⟨hcn, hnn, hcnn, _, hxs, hys, hrest⟩ := hm.around_removed
  have halloc : ∀ a ∈ xs ++ cur :: nxt :: nn :: ys, a < m.fresh := fun a ha => (hm.alloc a ha).2
  obtain ⟨hself, hnxt, hcopied, hnew, hother⟩ := copy_nodes hcn.ne hcnn.ne hnn.ne (halloc cur (by simp))
    (halloc nxt (by simp)) (halloc nn (by simp))
  have hcases : ∀ a, a < m.fresh → a = cur ∨ a = nxt ∨ a = nn ∨
      (m.copyNext cur nxt nn).nodes a = m.nodes a := by
    intro a ha
    by_cases hac : a = cur
    · exact .inl hac
    · by_cases hax : a = nxt
      · exact .inr (.inl hax)
      · by_cases han : a = nn
        · exact .inr (.inr (.inl han))
        · exact .inr (.inr (.inr (hother a hac hax han ha.ne)))
  have hext : Ext m (m.copyNext cur nxt nn) := by
    refine ⟨Nat.le_succ _, fun a ha => ?_, fun a ha => ?_, fun a ha hlive => ?_⟩
    · rcases hcases a ha with rfl | rfl | rfl | heq
      · rw [hself]
      · rw [hnxt]
      · rw [hcopied]
      · rw [heq]
    · rcases hcases a ha with rfl | rfl | rfl | heq
      · rw [hself]
      · rw [hnxt]
      · rw [hcopied]
      · rw [heq]
    · rcases hcases a ha with rfl | rfl | rfl | heq
      · rwa [hself] at hlive
      · rw [hnxt] at hlive
        cases hlive
      · rw [hcopied] at hlive
        cases hlive
      · rwa [heq] at hlive
  have hxs' : ∀ a ∈ xs, (m.copyNext cur nxt nn).nodes a = m.nodes a := fun a ha =>
    hother a (hxs a ha).1.ne (hxs a ha).2.1.ne (hxs a ha).2.2.ne (halloc a (by simp [ha])).ne
  have hys' : ∀ a ∈ ys, (m.copyNext cur nxt nn).nodes a = m.nodes a := fun a ha =>
    hother a (hys a ha).1.ne.symm (hys a ha).2.1.ne.symm (hys a ha).2.2.ne.symm
      (halloc a (by simp [ha])).ne
  -- The copy may stand where the node stood.
  have hlinkcur : (m.copyNext cur nxt nn).Link cur m.fresh := by
    refine ⟨⟨by rw [hself]; exact hcn.2.1, by rw [hself]⟩, hm.root_lt.ne', by rw [hself]; exact hcn.2.1,
      ?_⟩
    rw [hself, hnew]
    exact hcnn.2.2
  have hchain : (m.fresh :: ys).IsChain (m.copyNext cur nxt nn).Link := by
    cases ys with
    | nil => exact List.isChain_singleton _
    | cons b ys =>
        obtain ⟨hlink, hrest⟩ := List.isChain_cons_cons.mp hrest
        refine List.isChain_cons_cons.mpr ⟨⟨⟨by rw [hnew]; exact hlink.1.1, by rw [hnew]; exact hlink.1.2⟩,
          hlink.2.1, by rw [hnew]; exact hlink.1.1, ?_⟩, ?_⟩
        · rw [hnew, hys' b (by simp)]
          rcases hlink.2.2.2 with hend | heq | hlt
          · exact .inl hend
          · exact absurd heq hnn.1
          · exact .inr (.inr hlt)
        · refine hext.chain (fun a ha => halloc a (by simp [List.mem_cons.mp ha])) (fun a ha => ?_) hrest
          rw [hys' a ha]
  refine ⟨hm.splice hext (fun a ha => by rw [hxs' a ha]) hlinkcur hchain ?_ (fun a ha => ?_)
    (fun a h0 (h1 : a < m.fresh + 1) hlive => ?_) (fun a ha => ?_)
    (fun a h0 (h1 : a < m.fresh + 1) hnot => ?_), hext, by rw [hnew], by rw [hnew]⟩
  · have hm' : MemInv m ((xs ++ [cur, nxt]) ++ nn :: ys) := by simpa using hm
    obtain ⟨e, he, hlt, hend⟩ := hm'.last_of_append
    cases ys with
    | nil =>
        obtain rfl : nn = e := by simpa using he
        exact ⟨m.fresh, rfl, by rw [hnew]; exact hend⟩
    | cons b ys => exact ⟨e, by simpa using he, by rw [hext.isEnd e hlt, hend]⟩
  · rcases List.mem_cons.mp ha with rfl | ha
    · exact ⟨(Nat.zero_le _).trans_lt hm.root_lt, Nat.lt_succ_self _⟩
    · obtain ⟨h0, h1⟩ := hm.alloc a (by simp [ha])
      exact ⟨h0, h1.trans (Nat.lt_succ_self _)⟩
  · rcases Nat.lt_or_eq_of_le (Nat.le_of_lt_succ h1) with hlt | rfl
    · have hmem := hm.live a h0 hlt (hext.removed a hlt hlive)
      rw [List.mem_append, List.mem_cons, List.mem_cons, List.mem_cons] at hmem
      rcases hmem with hmem | rfl | rfl | rfl | hmem
      · exact .inl hmem
      · exact .inr (.inl rfl)
      · rw [hnxt] at hlive
        cases hlive
      · rw [hcopied] at hlive
        cases hlive
      · exact .inr (.inr (by simp [hmem]))
    · exact .inr (.inr (by simp))
  · rcases ha with ha | rfl | ha
    · rw [hxs' a ha]
      exact hm.removed a (by simp [ha])
    · rw [hself]
      exact hm.removed a (by simp)
    · rcases List.mem_cons.mp ha with rfl | ha
      · rw [hnew]
      · rw [hys' a ha]
        exact hm.removed a (by simp [ha])
  · have hold : ∀ b, 0 < b → b < m.fresh → (m.nodes b).isEnd = false →
        0 < (m.nodes b).next ∧ (m.nodes b).next < m.fresh + 1 := by
      intro b hb0 hb1 hnot
      obtain ⟨h2, h3⟩ := hm.next b hb0 hb1 hnot
      exact ⟨h2, h3.trans (Nat.lt_succ_self _)⟩
    rcases Nat.lt_or_eq_of_le (Nat.le_of_lt_succ h1) with hlt | rfl
    · rcases hcases a hlt with rfl | rfl | rfl | heq
      · rw [hself]
        exact ⟨h0.trans hlt, Nat.lt_succ_self _⟩
      · rw [hnxt] at hnot ⊢
        exact hold _ h0 hlt hnot
      · rw [hcopied] at hnot ⊢
        exact hold _ h0 hlt hnot
      · rw [heq] at hnot ⊢
        exact hold _ h0 hlt hnot
    · rw [hnew] at hnot ⊢
      obtain ⟨h2, h3⟩ := hm.alloc nn (by simp)
      exact hold nn h2 h3 hnot

end Remove

end Bodies

end Verlib.SortedList
