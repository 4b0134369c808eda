import Verlib.Interleaving.Hindsight
import Verlib.Interleaving.Readers
import Verlib.OrderedMap.Relation
import Verlib.SortedList.Runs

/-!
# `find_` and `find_locked` of the sorted list

Both searches are `find_location`, which goes on also over nodes that others have unlinked meanwhile, or replaced by a
copy in the `Recorded_Once` build. `find_` returns what it has found; `find_locked` first looks again whether the two
nodes are still neighbours, and if not, starts again. The answers are values, so the updates are taken here with the
pairs that they add and delete. They are the calls of `SortedList.Machine`, as a machine of which the system keeps the
numbers of the calls.
-/

namespace Verlib.SortedList

open OrderedMap Interleaving

/-- The operations that only read. -/
inductive Query (K : Type) where
  | find (k : K)
  | findLocked (k : K)
  deriving DecidableEq

/-- The key that is looked for. -/
def Query.key {K : Type} : Query K → K
  | .find k => k
  | .findLocked k => k

/-- Positions of a call: before the first load, in the loop of `find_location`, and before the two loads of the
validation. -/
inductive QueryPos where
  | start
  | search (cur nxt : Nat)
  | readNext (cur nxt : Nat)
  | readRemoved (cur nxt : Nat)
  deriving DecidableEq

section

variable {K V : Type} [LinearOrder K]

/-- `!nxt->is_end && !less(k, nxt->key) ? nxt->value : {}`. -/
def Memory.answer (m : Memory K V) (k : K) (nxt : Nat) : Option V :=
  if (m.nodes nxt).isEnd = false ∧ ¬ k < (m.nodes nxt).key then some (m.nodes nxt).value else none

/-- `find_` or `try_find` after `find_location`. -/
def Query.located (q : Query K) (m : Memory K V) (cur nxt : Nat) : QueryPos ⊕ Option V :=
  match q with
  | .find k => .inr (m.answer k nxt)
  | .findLocked _ => .inl (.readNext cur nxt)

/-- One turn of the loop of `find_location`, which loads `nxt->next`. -/
def Query.visit (q : Query K) (m : Memory K V) (cur nxt : Nat) : QueryPos ⊕ Option V :=
  let nxt_nxt := (m.nodes nxt).next
  if (m.nodes nxt).isEnd = true ∨ ¬ (m.nodes nxt).key < q.key then q.located m cur nxt else .inl (.search nxt nxt_nxt)

/-- One step of a call. -/
def Query.step (q : Query K) (m : Memory K V) : QueryPos → Option (QueryPos ⊕ Option V)
  | .start => some (.inl (.search root (m.nodes root).next))
  | .search cur nxt => some (q.visit m cur nxt)
  | .readNext cur nxt => some (.inl (if (m.nodes cur).next = nxt then .readRemoved cur nxt else .start))
  | .readRemoved cur nxt =>
      some (if (m.nodes cur).removed = false then .inr (m.answer q.key nxt) else .inl .start)

/-- The calls that only read. -/
def reader : Reader (Query K) (Memory K V) QueryPos (Option V) := ⟨fun _ => .start, Query.step⟩

/-- The updates as the calls of a machine. The number of a call in its position is not used. -/
def machine (recorded : Bool) : Machine (Op K V) (Memory K V) (Pc K V) Bool (Nat → Bool) where
  start o := .first 0 o
  step _ m locks pc :=
    (stepThread recorded m locks pc).map fun (_, m', r, pc') =>
      (m', match r with
        | some b => .inr b
        | none => .inl pc')

end

/-! ## What the list is for -/

section

variable {K V : Type}

/-- The pairs of the nodes. -/
def Memory.Maps (m : Memory K V) (k : K) (v : V) : Prop :=
  ∃ ns e, m.Path ns e ∧ ∃ a ∈ ns, (m.nodes a).key = k ∧ (m.nodes a).value = v

/-- What an operation that returns true does to the pairs. -/
def Op.Changes (o : Op K V) (before after : K → V → Prop) : Prop :=
  match o with
  | .insert k v => Adds before after k v
  | .remove k => Deletes before after k

/-- Why an operation may return false. -/
def Op.Idle (o : Op K V) (content : K → V → Prop) : Prop :=
  match o with
  | .insert k _ => ∃ v, content k v
  | .remove k => ∀ v, ¬ content k v

/-- What the updates are to do to the map. -/
def mapSpec : Spec (Op K V) (Memory K V) Bool where
  Same m m' := ∀ k v, m'.Maps k v ↔ m.Maps k v
  Effect o r m m' := r = true ∧ o.Changes m.Maps m'.Maps
  Refused o r m := r = false ∧ o.Idle m.Maps

/-- The right answer to a query. -/
def Answer (q : Query K) (t : Option V) (m : Memory K V) : Prop := Answers m.Maps q.key t

end

variable {K V : Type} [LinearOrder K]

section

variable {m m' : Memory K V} {p p' : List Nat} {k : K} {v v' : V} {a b cur nxt : Nat}

theorem MemInv.maps_iff (hm : MemInv m p) :
    m.Maps k v ↔ ∃ a ∈ p, a ≠ root ∧ (m.nodes a).isEnd = false ∧ (m.nodes a).key = k ∧ (m.nodes a).value = v := by
  obtain ⟨ns, e, heq, he⟩ := hm.ends
  obtain ⟨ns', e', hpath, -, hinner⟩ := hm.sorted
  have hchain : (root :: ns ++ [e]).IsChain m.Next := by
    rw [← heq]
    exact hm.chain.imp fun _ _ hlink => hlink.1
  obtain ⟨rfl, rfl⟩ := chain_unique hpath.1 hchain hpath.2 he
  constructor
  · intro h
    obtain ⟨ns₁, e₁, hpath₁, a, ha, hk, hv⟩ := h
    obtain ⟨rfl, rfl⟩ := chain_unique hpath₁.1 hchain hpath₁.2 he
    have hmem : a ∈ p := by
      rw [heq]
      simp [ha]
    have hroot : a ≠ root := by
      have hbelow := hm.below
      rw [heq, List.cons_append, List.pairwise_cons] at hbelow
      exact (hbelow.1 a (by simp [ha])).1
    exact ⟨a, hmem, hroot, hinner a ha, hk, hv⟩
  · intro h
    obtain ⟨a, ha, hroot, hnot, hk, hv⟩ := h
    refine ⟨ns', e', hpath, a, ?_, hk, hv⟩
    rw [heq] at ha
    simp only [List.cons_append, List.mem_cons, List.mem_append, List.not_mem_nil, or_false] at ha
    obtain ha | ha | ha := ha
    · exact absurd ha hroot
    · exact ha
    · rw [ha, he] at hnot
      cases hnot

/-- The keys of the pairs are those of the list. -/
theorem MemInv.exists_maps (hm : MemInv m p) : (∃ v, m.Maps k v) ↔ k ∈ m.content := by
  rw [hm.mem_content]
  constructor
  · intro h
    obtain ⟨v, hv⟩ := h
    obtain ⟨a, ha, hroot, hnot, hk, -⟩ := hm.maps_iff.mp hv
    exact ⟨a, ha, hroot, hnot, hk⟩
  · intro h
    obtain ⟨a, ha, hroot, hnot, hk⟩ := h
    exact ⟨(m.nodes a).value, hm.maps_iff.mpr ⟨a, ha, hroot, hnot, hk, rfl⟩⟩

/-- Two nodes of the list with the same key are one. -/
theorem MemInv.key_unique (hm : MemInv m p) (ha : a ∈ p) (hb : b ∈ p) (hroota : a ≠ root) (hrootb : b ≠ root)
    (hnota : (m.nodes a).isEnd = false) (hnotb : (m.nodes b).isEnd = false)
    (hkey : (m.nodes a).key = (m.nodes b).key) : a = b := by
  have hlt : ∀ {c d}, m.Below c d → c ≠ root → (m.nodes d).isEnd = false → (m.nodes c).key < (m.nodes d).key := by
    intro c d hbelow hc hd
    obtain hend | heq | hlt := hbelow.2.2
    · rw [hd] at hend
      cases hend
    · exact absurd heq hc
    · exact hlt
  by_contra hne
  have hpair : p.Pairwise fun c d => m.Below c d ∨ m.Below d c := hm.below.imp fun hbelow => .inl hbelow
  have hsymm : Std.Symm fun c d => m.Below c d ∨ m.Below d c := ⟨fun _ _ => Or.symm⟩
  cases hpair.forall ha hb hne with
  | inl hbelow => exact (hlt hbelow hroota hnotb).ne hkey
  | inr hbelow => exact (hlt hbelow hrootb hnota).ne' hkey

theorem MemInv.maps_unique (hm : MemInv m p) (hv : m.Maps k v) (hv' : m.Maps k v') : v = v' := by
  obtain ⟨a, ha, hroot, hnot, hk, rfl⟩ := hm.maps_iff.mp hv
  obtain ⟨b, hb, hroot', hnot', hk', rfl⟩ := hm.maps_iff.mp hv'
  rw [hm.key_unique ha hb hroot hroot' hnot hnot' (hk.trans hk'.symm)]

/-- What a search that stands between two neighbours says is right. -/
theorem MemInv.answers (hm : MemInv m p) (hcur : cur ∈ p) (hnot : (m.nodes cur).isEnd = false)
    (hkey : cur = root ∨ (m.nodes cur).key < k) (hnext : (m.nodes cur).next = nxt)
    (hstop : (m.nodes nxt).isEnd = true ∨ ¬ (m.nodes nxt).key < k) : Answers m.Maps k (m.answer k nxt) := by
  obtain ⟨xs, ys, rfl⟩ := hm.split (hm.alloc cur hcur).1 (hm.alloc cur hcur).2 hnot (hm.removed cur hcur)
  rw [hnext] at hm
  unfold Memory.answer
  split
  next hcond =>
      have heq : (m.nodes nxt).key = k := by
        refine le_antisymm (not_lt.mp hcond.2) (not_lt.mp (hstop.resolve_left fun hend => ?_))
        rw [hcond.1] at hend
        cases hend
      have hmaps : m.Maps k (m.nodes nxt).value :=
        hm.maps_iff.mpr ⟨nxt, by simp, hm.around.2.1.1, hcond.1, heq, rfl⟩
      exact answers_some hmaps fun v' hv' => hm.maps_unique hv' hmaps
  next hcond =>
      rw [not_and_or, Bool.not_eq_false, not_not] at hcond
      have hk := hm.not_mem_content hkey hcond
      exact answers_none fun v hv => hk (hm.exists_maps.mp ⟨v, hv⟩)

end

/-! ## What the bodies write -/

/-- What a body writes in a node that was there before. -/
structure Written (n n' : Node K V) (next removed : Prop) : Prop where
  key : n'.key = n.key
  value : n'.value = n.value
  isEnd : n'.isEnd = n.isEnd
  next : next ∨ n'.next = n.next
  removed : n'.removed = n.removed ∨ removed

/-- A body writes `next` in `cur` only, which is not removed, and it marks nodes. -/
structure Writes (m m' : Memory K V) (cur : Nat) : Prop where
  fresh : m.fresh ≤ m'.fresh ∧ m'.fresh ≤ m.fresh + 1
  node : ∀ a < m.fresh, Written (m.nodes a) (m'.nodes a) (a = cur) ((m'.nodes a).removed = true)
  live : (m'.nodes cur).removed = false

section

variable {m m' : Memory K V} {p p' xs ys : List Nat} {k : K} {v : V} {a cur nxt nn : Nat} {o : Op K V}
  {recorded : Bool} {locks : Nat → Bool}

omit [LinearOrder K] in
theorem Written.of_eq {n n' : Node K V} {next removed : Prop} (heq : n' = n) : Written n n' next removed := by
  rw [heq]
  exact ⟨rfl, rfl, rfl, .inr rfl, .inl rfl⟩

theorem MemInv.insert_writes (hm : MemInv m (xs ++ cur :: nxt :: ys)) :
    Writes m ((m.newNode ⟨k, v, nxt, false, false⟩).setNext cur m.fresh) cur := by
  obtain ⟨hself, -, hother⟩ := insert_nodes nxt (hm.alloc cur (by simp)).2.ne v k
  refine ⟨⟨Nat.le_succ _, le_rfl⟩, fun a ha => ?_, ?_⟩
  · by_cases hac : a = cur
    · rw [hac, hself]
      exact ⟨rfl, rfl, rfl, .inl rfl, .inl rfl⟩
    · exact .of_eq (hother a hac ha.ne)
  · rw [hself]
    exact hm.removed cur (by simp)

omit [LinearOrder K] in
/-- The nodes after the body of `remove`. -/
theorem remove_nodes (m : Memory K V) (nn : Nat) (hne : cur ≠ nxt) :
    ((m.setRemoved nxt).setNext cur nn).nodes cur = { m.nodes cur with next := nn } ∧
      ((m.setRemoved nxt).setNext cur nn).nodes nxt = { m.nodes nxt with removed := true } ∧
      ∀ a, a ≠ cur → a ≠ nxt → ((m.setRemoved nxt).setNext cur nn).nodes a = m.nodes a := by
  refine ⟨?_, ?_, fun a hac hax => ?_⟩
  · simp [Memory.setNext, Memory.setRemoved, Function.update_of_ne hne]
  · simp [Memory.setNext, Memory.setRemoved, Function.update_of_ne hne.symm]
  · simp [Memory.setNext, Memory.setRemoved, Function.update_of_ne hac, Function.update_of_ne hax]

theorem MemInv.remove_writes (hm : MemInv m (xs ++ cur :: nxt :: nn :: ys)) :
    Writes m ((m.setRemoved nxt).setNext cur nn) cur := by
  obtain ⟨hcn, -⟩ := hm.around_removed
  obtain ⟨hself, hnxt, hother⟩ := remove_nodes m nn hcn.ne
  refine ⟨⟨le_rfl, Nat.le_succ _⟩, fun a ha => ?_, ?_⟩
  · by_cases hac : a = cur
    · rw [hac, hself]
      exact ⟨rfl, rfl, rfl, .inl rfl, .inl rfl⟩
    · by_cases hax : a = nxt
      · rw [hax, hnxt]
        exact ⟨rfl, rfl, rfl, .inr rfl, .inr rfl⟩
      · exact .of_eq (hother a hac hax)
  · rw [hself]
    exact hm.removed cur (by simp)

theorem MemInv.copy_writes (hm : MemInv m (xs ++ cur :: nxt :: nn :: ys)) : Writes m (m.copyNext cur nxt nn) cur := by
  obtain ⟨hcn, hnn, hcnn, -⟩ := hm.around_removed
  have halloc : ∀ a ∈ xs ++ cur :: nxt :: nn :: ys, a < m.fresh := fun a ha => (hm.alloc a ha).2
  obtain ⟨hself, hnxt, hcopied, -, hother⟩ := copy_nodes hcn.ne hcnn.ne hnn.ne (halloc cur (by simp))
    (halloc nxt (by simp)) (halloc nn (by simp))
  refine ⟨⟨Nat.le_succ _, le_rfl⟩, fun a ha => ?_, ?_⟩
  · by_cases hac : a = cur
    · rw [hac, hself]
      exact ⟨rfl, rfl, rfl, .inl rfl, .inl rfl⟩
    · by_cases hax : a = nxt
      · rw [hax, hnxt]
        exact ⟨rfl, rfl, rfl, .inr rfl, .inr rfl⟩
      · by_cases han : a = nn
        · rw [han, hcopied]
          exact ⟨rfl, rfl, rfl, .inr rfl, .inr rfl⟩
        · exact .of_eq (hother a hac hax han ha.ne)
  · rw [hself]
    exact hm.removed cur (by simp)

/-! ## The updates, with their values -/

/-- A node that stays in the list has the pair that it had. -/
theorem Writes.maps_old (hw : Writes m m' cur) (hm : MemInv m p) (ha : a ∈ p) (hroot : a ≠ root)
    (hnot : (m.nodes a).isEnd = false) : m.Maps (m'.nodes a).key (m'.nodes a).value := by
  have hnode := hw.node a (hm.alloc a ha).2
  exact hm.maps_iff.mpr ⟨a, ha, hroot, hnot, hnode.key.symm, hnode.value.symm⟩

/-- The body of `insert` adds its pair. -/
theorem MemInv.insert_maps (hm : MemInv m (xs ++ cur :: nxt :: ys)) (hcur : cur = root ∨ (m.nodes cur).key < k)
    (hnxt : (m.nodes nxt).isEnd = true ∨ k < (m.nodes nxt).key) :
    Adds m.Maps ((m.newNode ⟨k, v, nxt, false, false⟩).setNext cur m.fresh).Maps k v := by
  have hm' := hm.insert (v := v) hcur hnxt
  have hw := hm.insert_writes (k := k) (v := v)
  obtain ⟨-, hnew, -⟩ := insert_nodes nxt (hm.alloc cur (by simp)).2.ne v k
  have hcontent := hm.insert_content (v := v) hcur hnxt
  have hk := hm.not_mem_content hcur hnxt
  refine .of_keys (fun k' v' hv' => ?_) ?_ (fun k' v' hv' => ?_) (fun _ _ _ h h' => hm'.maps_unique h h')
    fun v' hv' => hk (hm.exists_maps.mp ⟨v', hv'⟩)
  · obtain ⟨a, ha, hroot, hnot, rfl, rfl⟩ := hm.maps_iff.mp hv'
    have hnode := hw.node a (hm.alloc a ha).2
    refine hm'.maps_iff.mpr ⟨a, ?_, hroot, hnode.isEnd.trans hnot, hnode.key, hnode.value⟩
    rw [List.mem_append, List.mem_cons, List.mem_cons, List.mem_cons]
    rw [List.mem_append, List.mem_cons, List.mem_cons] at ha
    obtain ha | ha | ha | ha := ha
    · exact .inl ha
    · exact .inr (.inl ha)
    · exact .inr (.inr (.inr (.inl ha)))
    · exact .inr (.inr (.inr (.inr ha)))
  · refine hm'.maps_iff.mpr ⟨m.fresh, by simp, hm.root_lt.ne', ?_⟩
    rw [hnew]
    exact ⟨rfl, rfl, rfl⟩
  · have hmem := hm'.exists_maps.mp ⟨v', hv'⟩
    rw [hcontent] at hmem
    cases hmem with
    | inl hold => exact .inr (hm.exists_maps.mpr hold)
    | inr heq => exact .inl heq

/-- A body of `remove` deletes the pair of its key, whether the next node stays or is replaced by a copy. -/
theorem MemInv.remove_maps (hm : MemInv m (xs ++ cur :: nxt :: nn :: ys)) (hm' : MemInv m' p') (hw : Writes m m' cur)
    (hnot : (m.nodes nxt).isEnd = false) (hcontent : m'.content = m.content \ {(m.nodes nxt).key})
    (hnew : ∀ a, m.fresh ≤ a → a < m'.fresh → (m'.nodes a).isEnd = (m.nodes nn).isEnd ∧
      (m'.nodes a).key = (m.nodes nn).key ∧ (m'.nodes a).value = (m.nodes nn).value) :
    Deletes m.Maps m'.Maps (m.nodes nxt).key := by
  obtain ⟨hcn, hnn, -⟩ := hm.around_removed
  refine .of_keys (fun k v hv => ?_) ⟨_, hm.maps_iff.mpr ⟨nxt, by simp, hcn.1, hnot, rfl, rfl⟩⟩ (fun k => ?_)
    fun _ _ _ h h' => hm.maps_unique h h'
  · obtain ⟨a, ha, hroot, hnota, rfl, rfl⟩ := hm'.maps_iff.mp hv
    obtain ⟨hpos, hlt⟩ := hm'.alloc a ha
    by_cases hold : a < m.fresh
    · have hnode := hw.node a hold
      have hlive : (m.nodes a).removed = false := by
        have hlive' := hm'.removed a ha
        rw [← hnode.removed.resolve_right (by rw [hlive']; exact Bool.false_ne_true), hlive']
      rw [hnode.isEnd] at hnota
      exact hw.maps_old hm (hm.live a hpos hold hlive) hroot hnota
    · -- the copy has the pair of the node after the removed one
      obtain ⟨hend, hkey, hvalue⟩ := hnew a (not_lt.mp hold) hlt
      rw [hend] at hnota
      rw [hkey, hvalue]
      exact hm.maps_iff.mpr ⟨nn, by simp, hnn.1, hnota, rfl, rfl⟩
  · rw [hm'.exists_maps, hcontent, hm.exists_maps]
    exact and_comm

theorem MemInv.unlink_maps (hm : MemInv m (xs ++ cur :: nxt :: nn :: ys)) (hnot : (m.nodes nxt).isEnd = false) :
    Deletes m.Maps ((m.setRemoved nxt).setNext cur nn).Maps (m.nodes nxt).key := by
  obtain ⟨hinv, hext⟩ := hm.remove
  have hnn := (hm.alloc nn (by simp)).2
  have hcontent := hm.remove_content hinv hext (hext.key _ hnn) (hext.isEnd _ hnn)
  exact hm.remove_maps hinv hm.remove_writes hnot hcontent fun a h₁ h₂ => absurd h₂ h₁.not_gt

theorem MemInv.copy_maps (hm : MemInv m (xs ++ cur :: nxt :: nn :: ys)) (hnot : (m.nodes nxt).isEnd = false) :
    Deletes m.Maps (m.copyNext cur nxt nn).Maps (m.nodes nxt).key := by
  obtain ⟨hinv, hext, hkey, hend⟩ := hm.copyNext
  obtain ⟨hcn, hnn, hcnn, -⟩ := hm.around_removed
  have halloc : ∀ a ∈ xs ++ cur :: nxt :: nn :: ys, a < m.fresh := fun a ha => (hm.alloc a ha).2
  obtain ⟨-, -, -, hnew, -⟩ := copy_nodes hcn.ne hcnn.ne hnn.ne (halloc cur (by simp)) (halloc nxt (by simp))
    (halloc nn (by simp))
  refine hm.remove_maps hinv hm.copy_writes hnot (hm.remove_content hinv hext hkey hend) fun a h₁ h₂ => ?_
  have heq : a = m.fresh := le_antisymm (Nat.le_of_lt_succ h₂) h₁
  rw [heq, hnew]
  exact ⟨rfl, rfl, rfl⟩

/-- The body of an operation does to the pairs what the operation should do. -/
theorem body_maps (hm : MemInv m p) (ha : At m o cur nxt) (ht : o.Todo m nxt)
    (hbody : o.body recorded locks m cur nxt = some m') : o.Changes m.Maps m'.Maps ∧ Writes m m' cur := by
  cases o with
  | insert k v =>
      simp only [Op.body, insertBody] at hbody
      split at hbody
      next hcond =>
          obtain ⟨-, hlive, hnext⟩ := hcond
          obtain ⟨xs, ys, rfl⟩ := hm.split ha.cur_pos ha.cur_lt ha.cur_end hlive
          rw [hnext] at hm
          cases hbody
          exact ⟨hm.insert_maps ha.cur_key ht, hm.insert_writes⟩
      · cases hbody
  | remove k =>
      simp only [Op.body, removeBody] at hbody
      split at hbody
      next hcond =>
          obtain ⟨-, hlive, hnext, -⟩ := hcond
          obtain ⟨hnot, rfl⟩ := ht
          obtain ⟨xs, ys, rfl⟩ := hm.split ha.cur_pos ha.cur_lt ha.cur_end hlive
          rw [hnext] at hm
          have hmid : MemInv m ((xs ++ [cur]) ++ nxt :: ys) := by simpa using hm
          obtain ⟨ws, rfl⟩ : ∃ ws, ys = (m.nodes nxt).next :: ws := by
            cases ys with
            | nil =>
                obtain ⟨e, he, -, hend⟩ := hmid.last_of_append
                obtain rfl : nxt = e := by simpa using he
                rw [hnot] at hend
                cases hend
            | cons b ws =>
                have hlink := (List.isChain_append_cons_cons.mp hmid.chain).2.1
                exact ⟨ws, by rw [hlink.1.2]⟩
          cases recorded with
          | true =>
              simp only [if_true] at hbody
              split at hbody
              · cases hbody
                exact ⟨hm.copy_maps hnot, hm.copy_writes⟩
              · cases hbody
          | false =>
              cases hbody
              exact ⟨hm.unlink_maps hnot, hm.remove_writes⟩
      · cases hbody

end

/-! ## The steps of an update -/

/-- What a step may do: at most one node gets another `next`, and it is in the list before and after. -/
structure Moves (n n' : Unit × Memory K V) : Prop where
  ext : Ext n.2 n'.2
  value : ∀ a < n.2.fresh, (n'.2.nodes a).value = (n.2.nodes a).value
  next : ∀ a < n.2.fresh, (n'.2.nodes a).next = (n.2.nodes a).next ∨ (n'.2.nodes a).removed = false

/-- What a call knows at its position. -/
def Known (o : Op K V) (pc : Pc K V) (n : Unit × Memory K V) (past : Unit × Memory K V → Prop) : Prop :=
  match pc with
  | .idle => False
  | .first _ o' => o' = o
  | .search _ o' cur nxt => o' = o ∧ At n.2 o cur nxt
  | .readNext _ o' cur nxt => o' = o ∧ At n.2 o cur nxt ∧ o.Nothing n.2 nxt
  | .readRemoved _ o' cur nxt => o' = o ∧ At n.2 o cur nxt ∧
      ((n.2.nodes cur).removed = false → ∃ n₀, past n₀ ∧ o.Idle n₀.2.Maps)
  | .lock _ o' cur nxt => o' = o ∧ At n.2 o cur nxt ∧ o.Todo n.2 nxt

section

variable {n n' : Unit × Memory K V} {past past' : Unit × Memory K V → Prop} {m m' : Memory K V} {p : List Nat}
  {o : Op K V} {pc : Pc K V} {cur nxt op : Nat} {recorded : Bool} {locks : Nat → Bool}

omit [LinearOrder K] in
theorem Moves.refl (n : Unit × Memory K V) : Moves n n := ⟨Ext.refl n.2, fun _ _ => rfl, fun _ _ => .inl rfl⟩

omit [LinearOrder K] in
theorem Writes.moves (hw : Writes m m' cur) (hext : Ext m m') : Moves ((), m) ((), m') := by
  refine ⟨hext, fun a ha => (hw.node a ha).value, fun a ha => ?_⟩
  cases (hw.node a ha).next with
  | inl heq =>
      rw [heq]
      exact .inr hw.live
  | inr hsame => exact .inl hsame

theorem Known.weaken (hk : Known o pc n past) (hpast : ∀ n₀, past n₀ → past' n₀) : Known o pc n past' := by
  cases pc with
  | readRemoved op o' cur nxt =>
      obtain ⟨ho, hat, hseen⟩ := hk
      refine ⟨ho, hat, fun hlive => ?_⟩
      obtain ⟨n₀, hn₀, hidle⟩ := hseen hlive
      exact ⟨n₀, hpast n₀ hn₀, hidle⟩
  | _ => exact hk

/-- What a call knows survives the steps of others. -/
theorem Known.move (hk : Known o pc n past) (hmove : Moves n n') : Known o pc n' past := by
  obtain ⟨hext, -, -⟩ := hmove
  cases pc with
  | idle => exact hk
  | first op o' => exact hk
  | search op o' cur nxt => exact ⟨hk.1, hk.2.ext hext⟩
  | readNext op o' cur nxt =>
      obtain ⟨ho, hat, hnothing⟩ := hk
      refine ⟨ho, hat.ext hext, ?_⟩
      cases o with
      | insert k v | remove k =>
          simp only [Op.Nothing, hext.isEnd nxt hat.nxt_lt, hext.key nxt hat.nxt_lt]
          exact hnothing
  | readRemoved op o' cur nxt =>
      obtain ⟨ho, hat, hseen⟩ := hk
      exact ⟨ho, hat.ext hext, fun hlive => hseen (hext.removed cur hat.cur_lt hlive)⟩
  | lock op o' cur nxt =>
      obtain ⟨ho, hat, htodo⟩ := hk
      refine ⟨ho, hat.ext hext, ?_⟩
      cases o with
      | insert k v | remove k =>
          simp only [Op.Todo, hext.isEnd nxt hat.nxt_lt, hext.key nxt hat.nxt_lt]
          exact htodo

/-- One turn of the search. -/
theorem find_known (hm : MemInv m p) (hat : At m o cur nxt) : Known o (o.find op m cur nxt) ((), m) past := by
  -- a history in which only the call is
  have hr : Running [.call op o] op o := ⟨List.mem_singleton_self _, fun _ _ he => by cases List.mem_singleton.mp he⟩
  have hok := find_ok hm hr hat
  have hcases : o.find op m cur nxt = .search op o nxt (m.nodes nxt).next ∨
      o.find op m cur nxt = .readNext op o cur nxt ∨ o.find op m cur nxt = .lock op o cur nxt := by
    unfold Op.find
    dsimp only
    split
    · right
      cases o with
      | insert k v => exact ite_eq_or_eq ..
      | remove k => exact ite_eq_or_eq ..
    · exact .inl rfl
  obtain heq | heq | heq := hcases
  · rw [heq] at hok ⊢
    exact ⟨rfl, hok.2⟩
  · rw [heq] at hok ⊢
    exact ⟨rfl, hok.2⟩
  · rw [heq] at hok ⊢
    exact ⟨rfl, hok.2⟩

/-- Why an operation may return false, by the keys and by the pairs. -/
theorem MemInv.idle (hm : MemInv m p) (h : o.Refused m.content) : o.Idle m.Maps := by
  cases o with
  | insert k v => exact hm.exists_maps.mpr h
  | remove k => exact fun v hv => h (hm.exists_maps.mp ⟨v, hv⟩)

/-- A step that reads and goes on. -/
theorem outcome_move {pc' : Pc K V} (hk : Known o pc' ((), m) fun n₀ => past n₀ ∨ n₀ = ((), m)) :
    Outcome mapSpec Known (fun _ => none) o pc m ((), m) past (.inl pc') :=
  ⟨hk, .inl ⟨rfl, fun _ _ => Iff.rfl⟩⟩

/-- Every step of an update. -/
theorem step_spec {r : Pc K V ⊕ Bool} (hm : MemInv m p) (hk : Known o pc ((), m) past)
    (hstep : (machine recorded).step o m locks pc = some (m', r)) :
    (∃ p', MemInv m' p') ∧ Moves ((), m) ((), m') ∧ Outcome mapSpec Known (fun _ => none) o pc m ((), m') past r := by
  have hroot : 0 < root := by decide
  have hread : ∀ {pc' : Pc K V}, Known o pc' ((), m) (fun n₀ => past n₀ ∨ n₀ = ((), m)) →
      (∃ p', MemInv m p') ∧ Moves ((), m) ((), m) ∧
        Outcome mapSpec Known (fun _ => none) o pc m ((), m) past (.inl pc') := fun hknown =>
    ⟨⟨p, hm⟩, .refl _, outcome_move hknown⟩
  obtain ⟨⟨op, m₁, b, pc'⟩, hmove, heq⟩ := Option.map_eq_some_iff.mp hstep
  cases pc with
  | idle => cases hmove
  | first op o' =>
      cases hmove
      cases heq
      obtain rfl : o' = o := hk
      obtain ⟨h0, h1⟩ := hm.next root hroot hm.root_lt hm.start
      exact hread ⟨rfl, hroot, hm.root_lt, hm.start, .inl rfl, h0, h1⟩
  | search op o' cur nxt =>
      cases hmove
      cases heq
      obtain ⟨rfl, hat⟩ := hk
      exact hread (find_known hm hat)
  | readNext op o' cur nxt =>
      cases hmove
      cases heq
      obtain ⟨rfl, hat, hnothing⟩ := hk
      refine hread ?_
      split
      next hnext =>
          exact ⟨rfl, hat, fun hlive => ⟨((), m), .inr rfl, hm.idle (refused_of_read hm hat hnothing hlive hnext)⟩⟩
      · rfl
  | readRemoved op o' cur nxt =>
      obtain ⟨rfl, hat, hseen⟩ := hk
      simp only [stepThread] at hmove
      split at hmove
      next hlive =>
          cases hmove
          cases heq
          obtain ⟨n₀, hn₀, hidle⟩ := hseen hlive
          exact ⟨⟨p, hm⟩, .refl _, .inr ⟨rfl, .inr ⟨fun _ _ => Iff.rfl, n₀, .inl hn₀, rfl, hidle⟩⟩⟩
      · cases hmove
        cases heq
        exact @hread (.first op o') rfl
  | lock op o' cur nxt =>
      obtain ⟨rfl, hat, htodo⟩ := hk
      simp only [stepThread] at hmove
      split at hmove
      next m₂ hbody =>
          cases hmove
          cases heq
          obtain ⟨hinv, hext, -⟩ := body_ok hm hat htodo hbody
          obtain ⟨hchanges, hw⟩ := body_maps hm hat htodo hbody
          exact ⟨hinv, hw.moves hext, .inr ⟨rfl, .inl ⟨rfl, hchanges⟩⟩⟩
      · cases hmove
        cases heq
        exact @hread (.first op o') rfl

end

/-- The updates, with the pairs that they add and delete. -/
def updates (recorded : Bool) : Tracked (machine (K := K) (V := V) recorded) mapSpec Memory.Initial Unit where
  Inv n := ∃ p, MemInv n.2 p
  Ext := Moves
  Known := Known
  done _ := none
  initial _ hm := ⟨(), _, memInv_initial hm⟩
  start _ _ _ _ := rfl
  start_done _ := rfl
  weaken _ _ _ _ _ hpast hk := hk.weaken hpast
  other _ _ _ _ _ _ _ hmove hk := (hk.move hmove).weaken fun _ => .inl
  step o pc g m locks m' r hm hk hstep := by
    obtain ⟨p, hm⟩ := hm
    obtain ⟨past, hk⟩ := hk
    obtain ⟨hinv, hmoves, -⟩ := step_spec hm hk hstep
    exact ⟨(), hinv, hmoves, fun past hknown => (step_spec hm hknown hstep).2.2⟩

/-! ## Searches that do not lock -/

/-- What is written in a node when it is built, and not later. -/
def Node.header {K V : Type} (a : Node K V) : K × V × Bool := (a.key, a.value, a.isEnd)

/-- The way of a search for `k`: the nodes of the list whose key is smaller, with the next node and what it says. -/
def route (k : K) : Route (Unit × Memory K V) Nat (Nat × K × V × Bool) where
  On n a := (∃ p, MemInv n.2 p ∧ a ∈ p) ∧ (n.2.nodes a).isEnd = false ∧ (a = root ∨ (n.2.nodes a).key < k)
  Alloc n a := 0 < a ∧ a < n.2.fresh ∧ (n.2.nodes a).isEnd = false ∧ (a = root ∨ (n.2.nodes a).key < k)
  links n a :=
    let nxt := (n.2.nodes a).next
    (nxt, (n.2.nodes nxt).header)
  alloc n a hon := by
    obtain ⟨⟨p, hm, ha⟩, hnot, hkey⟩ := hon
    exact ⟨(hm.alloc a ha).1, (hm.alloc a ha).2, hnot, hkey⟩

section

variable {n n' : Unit × Memory K V} {past past' : Unit × Memory K V → Prop} {p p' : List Nat} {k : K} {a cur nxt : Nat}
  {q : Query K} {pos : QueryPos}

omit [LinearOrder K] in
theorem Moves.header (hmove : Moves n n') (ha : a < n.2.fresh) : (n'.2.nodes a).header = (n.2.nodes a).header := by
  unfold Node.header
  rw [hmove.ext.key a ha, hmove.ext.isEnd a ha, hmove.value a ha]

theorem Moves.answer (hmove : Moves n n') (ha : a < n.2.fresh) : n'.2.answer k a = n.2.answer k a := by
  unfold Memory.answer
  rw [hmove.ext.key a ha, hmove.ext.isEnd a ha, hmove.value a ha]

/-- Steps of updates write only in the list. -/
theorem Moves.keeps (hmove : Moves n n') (hm : MemInv n.2 p) (hm' : MemInv n'.2 p') : (route k).Keeps n n' := by
  intro a halloc
  obtain ⟨hpos, hlt, hnot, hkey⟩ := halloc
  have hnot' : (n'.2.nodes a).isEnd = false := (hmove.ext.isEnd a hlt).trans hnot
  have hkey' : a = root ∨ (n'.2.nodes a).key < k := by
    rw [hmove.ext.key a hlt]
    exact hkey
  have hlt' := hlt.trans_le hmove.ext.fresh
  refine ⟨⟨hpos, hlt', hnot', hkey'⟩, ?_⟩
  cases hmove.next a hlt with
  | inl hsame =>
      left
      show (_, _) = (_, _)
      rw [hsame, hmove.header (hm.next a hpos hlt hnot).2]
  | inr hlive => exact .inr ⟨⟨p', hm', hm'.live a hpos hlt' hlive⟩, hnot', hkey'⟩

/-- There was a moment at which `t` was the right answer. -/
def Told (past : Unit × Memory K V → Prop) (k : K) (t : Option V) : Prop := ∃ n₀, past n₀ ∧ Answers n₀.2.Maps k t

/-- A search that has loaded `nxt`. -/
structure Come (n : Unit × Memory K V) (past : Unit × Memory K V → Prop) (k : K) (nxt : Nat) : Prop where
  alloc : nxt < n.2.fresh
  go : (n.2.nodes nxt).isEnd = false → (n.2.nodes nxt).key < k → (route k).Search past n nxt
  stop : (n.2.nodes nxt).isEnd = true ∨ ¬ (n.2.nodes nxt).key < k → Told past k (n.2.answer k nxt)

/-- What a query knows at its position. -/
def QueryKnown (q : Query K) (pos : QueryPos) (n : Unit × Memory K V) (past : Unit × Memory K V → Prop) : Prop :=
  match pos with
  | .start => True
  | .search _ nxt => Come n past q.key nxt
  | .readNext _ nxt | .readRemoved _ nxt => nxt < n.2.fresh ∧ Told past q.key (n.2.answer q.key nxt)

omit [LinearOrder K] in
theorem Told.weaken {t : Option V} (h : Told past k t) (hpast : ∀ n₀, past n₀ → past' n₀) : Told past' k t := by
  obtain ⟨n₀, hn₀, ht⟩ := h
  exact ⟨n₀, hpast n₀ hn₀, ht⟩

theorem QueryKnown.weaken (hk : QueryKnown q pos n past) (hpast : ∀ n₀, past n₀ → past' n₀) :
    QueryKnown q pos n past' := by
  cases pos with
  | start => trivial
  | search cur nxt =>
      have hk : Come n past q.key nxt := hk
      exact ⟨hk.alloc, fun hnot hlt => (hk.go hnot hlt).weaken hpast, fun hstop => (hk.stop hstop).weaken hpast⟩
  | readNext cur nxt => exact ⟨hk.1, hk.2.weaken hpast⟩
  | readRemoved cur nxt => exact ⟨hk.1, hk.2.weaken hpast⟩

theorem Told.move (hlt : nxt < n.2.fresh) (h : Told past k (n.2.answer k nxt)) (hmove : Moves n n') :
    Told (fun n₀ => past n₀ ∨ n₀ = n') k (n'.2.answer k nxt) := by
  rw [hmove.answer hlt]
  exact h.weaken fun _ => .inl

/-- What a query knows survives the steps of others. -/
theorem QueryKnown.move (hk : QueryKnown q pos n past) (hmove : Moves n n') (hm : MemInv n.2 p)
    (hm' : MemInv n'.2 p') : QueryKnown q pos n' fun n₀ => past n₀ ∨ n₀ = n' := by
  cases pos with
  | start => trivial
  | search cur nxt =>
      have hk : Come n past q.key nxt := hk
      refine ⟨hk.alloc.trans_le hmove.ext.fresh, fun hnot hlt => ?_, fun hstop => ?_⟩
      · rw [hmove.ext.isEnd nxt hk.alloc] at hnot
        rw [hmove.ext.key nxt hk.alloc] at hlt
        exact (hk.go hnot hlt).step (hmove.keeps hm hm')
      · rw [hmove.ext.isEnd nxt hk.alloc, hmove.ext.key nxt hk.alloc] at hstop
        exact (hk.stop hstop).move hk.alloc hmove
  | readNext cur nxt => exact ⟨hk.1.trans_le hmove.ext.fresh, hk.2.move hk.1 hmove⟩
  | readRemoved cur nxt => exact ⟨hk.1.trans_le hmove.ext.fresh, hk.2.move hk.1 hmove⟩

/-- A search loads the next node. -/
theorem Come.load (hm : MemInv n.2 p) (hs : (route k).Search past n cur) : Come n past k (n.2.nodes cur).next := by
  obtain ⟨hpos, hlt, hnot, -⟩ := hs.alloc
  obtain ⟨hpos', hlt'⟩ := hm.next cur hpos hlt hnot
  refine ⟨hlt', fun hnot' hkey' => ?_, fun hstop => ?_⟩
  · refine hs.follow fun n₁ _ hon hlinks => ?_
    obtain ⟨⟨p₁, hm₁, hcur⟩, hnot₁, -⟩ := hon
    obtain ⟨hnext, hheader⟩ := Prod.mk.inj hlinks
    rw [hnext] at hheader
    obtain ⟨hkey, hrest⟩ := Prod.mk.inj hheader
    obtain ⟨-, hend⟩ := Prod.mk.inj hrest
    obtain ⟨xs, ys, rfl⟩ := hm₁.split hpos (hm₁.alloc cur hcur).2 hnot₁ (hm₁.removed cur hcur)
    refine ⟨⟨_, hm₁, ?_⟩, hend.trans hnot', .inr ?_⟩
    · rw [hnext]
      simp
    · rw [hkey]
      exact hkey'
  · -- the two nodes were neighbours when the first one was in the list
    obtain ⟨n₁, hn₁, ⟨⟨p₁, hm₁, hcur⟩, hnot₁, hkey₁⟩, hlinks⟩ := hs.moment
    obtain ⟨hnext, hheader⟩ := Prod.mk.inj hlinks
    rw [hnext] at hheader
    obtain ⟨hkey, hrest⟩ := Prod.mk.inj hheader
    obtain ⟨hvalue, hend⟩ := Prod.mk.inj hrest
    rw [← hend, ← hkey] at hstop
    have hanswers := hm₁.answers hcur hnot₁ hkey₁ hnext hstop
    unfold Memory.answer at hanswers
    rw [hkey, hvalue, hend] at hanswers
    exact ⟨n₁, hn₁, hanswers⟩

/-- The query returns an answer that was right, or goes on. -/
def QueryOk (q : Query K) (n : Unit × Memory K V) (past : Unit × Memory K V → Prop) : QueryPos ⊕ Option V → Prop
  | .inl pos => QueryKnown q pos n past
  | .inr t => Told past q.key t

/-- Every step of a query. -/
theorem queryStep_ok {next : QueryPos ⊕ Option V} (hm : MemInv n.2 p) (hk : QueryKnown q pos n past)
    (hstep : q.step n.2 pos = some next) : QueryOk q n (fun n₀ => past n₀ ∨ n₀ = n) next := by
  have hmore : QueryKnown q pos n fun n₀ => past n₀ ∨ n₀ = n := hk.weaken fun _ => .inl
  cases pos with
  | start =>
      cases hstep
      obtain ⟨ns, e, heq, -⟩ := hm.ends
      have hroot : root ∈ p := by
        rw [heq]
        simp
      have hstart : (route q.key).Search (fun n₀ => past n₀ ∨ n₀ = n) n root :=
        .start (.inr rfl) ⟨⟨p, hm, hroot⟩, hm.start, .inl rfl⟩
      exact Come.load hm hstart
  | search cur nxt =>
      cases hstep
      have hmore : Come n (fun n₀ => past n₀ ∨ n₀ = n) q.key nxt := hmore
      unfold Query.visit
      dsimp only
      split
      next hstop =>
          cases q with
          | find k => exact hmore.stop hstop
          | findLocked k => exact ⟨hmore.alloc, hmore.stop hstop⟩
      next hgo =>
          rw [not_or, not_not, Bool.not_eq_true] at hgo
          exact Come.load hm (hmore.go hgo.1 hgo.2)
  | readNext cur nxt =>
      cases hstep
      by_cases hload : (n.2.nodes cur).next = nxt
      · rw [if_pos hload]
        exact hmore
      · rw [if_neg hload]
        trivial
  | readRemoved cur nxt =>
      cases hstep
      by_cases hlive : (n.2.nodes cur).removed = false
      · rw [if_pos hlive]
        exact hmore.2
      · rw [if_neg hlive]
        trivial

end

/-- The operations that only read. -/
def queries (recorded : Bool) : Reads (updates (K := K) (V := V) recorded) reader Answer where
  Known := QueryKnown
  start _ _ _ _ := trivial
  weaken _ _ _ _ _ hpast hk := hk.weaken hpast
  other _ _ _ _ _ hm hm' hmove hk := by
    obtain ⟨p, hm⟩ := hm
    obtain ⟨p', hm'⟩ := hm'
    exact hk.move hmove hm hm'
  move _ _ _ _ _ hm hk hstep := by
    obtain ⟨p, hm⟩ := hm
    exact queryStep_ok hm hk hstep
  ret _ _ _ _ _ hm hk hstep := by
    obtain ⟨p, hm⟩ := hm
    exact queryStep_ok hm hk hstep

/-! ## Runs -/

section

variable {ι : Type} [DecidableEq ι] {recorded : Bool}
  {h : List (Machine.Event (Op K V ⊕ Query K) (Memory K V) (Bool ⊕ Option V))}
  {st : Machine.State ι (Op K V ⊕ Query K) (Memory K V) (Pc K V ⊕ QueryPos)}

/-- In every run of the list in either build, in which any number of threads call `insert`, `remove`, `find_` and
`find_locked`: every update changes the pairs of the list at most once, and exactly if it returns true, by adding or
deleting the pair of its key; an update that returns false, and every query, was right at a moment during its call. -/
theorem listMap_linearizable
    (hexec : Exec (((machine recorded).withReader reader).system Memory.Initial) h st) :
    Linear (mapSpec.withReader Answer) h :=
  (((queries recorded).tracked (fun _ _ _ => Iff.rfl) fun n _ => Moves.refl n).linear hexec).2

end

set_option synthInstance.maxSize 256 in
/-- A run of the `Recorded_Once` build: a thread that looks for 7 has loaded the node of 7 when 5 is removed, by which
this node is replaced by a copy; then 7 is removed as well, and the search still finds its value in the old node. -/
theorem listMap_linearizable_run :
    ∃ (h : List (Machine.Event (Op Nat Nat ⊕ Query Nat) (Memory Nat Nat) (Bool ⊕ Option Nat)))
      (st : Machine.State Bool (Op Nat Nat ⊕ Query Nat) (Memory Nat Nat) (Pc Nat Nat ⊕ QueryPos)),
      Exec (((machine true).withReader reader).system Memory.Initial) h st ∧ .ret 4 (.inl true) ∈ h ∧
        .ret 2 (.inr (some 70)) ∈ h ∧ Linear (mapSpec.withReader Answer) h := by
  obtain ⟨h, st, hexec, hremove, hfind⟩ :
      ∃ (h : List (Machine.Event (Op Nat Nat ⊕ Query Nat) (Memory Nat Nat) (Bool ⊕ Option Nat)))
        (st : Machine.State Bool (Op Nat Nat ⊕ Query Nat) (Memory Nat Nat) (Pc Nat Nat ⊕ QueryPos)),
        Exec (((machine true).withReader reader).system Memory.Initial) h st ∧
          h.any (Machine.Event.isRet 4 (.inl true)) = true ∧ h.any (Machine.Event.isRet 2 (.inr (some 70))) = true :=
    exists_exec_of_run _
      (s := ⟨⟨fun a => ⟨0, 0, if a = 1 then 2 else 0, a == 2, false⟩, 3⟩, fun _ => none, 0⟩)
      (List.flatten [[.call false (.inl (.insert 5 50))], List.replicate 3 (.step false fun _ => true),
        [.call false (.inl (.insert 7 70))], List.replicate 4 (.step false fun _ => true),
        [.call true (.inr (.find 7))], List.replicate 2 (.step true fun _ => true),
        [.call false (.inl (.remove 5))], List.replicate 3 (.step false fun _ => true),
        [.call false (.inl (.remove 7))], List.replicate 3 (.step false fun _ => true), [.step true fun _ => true]])
      ⟨⟨⟨rfl, rfl, rfl⟩, ⟨rfl, rfl, rfl⟩, rfl⟩, fun _ => rfl, rfl⟩ (by decide +kernel)
  exact ⟨h, st, hexec, Machine.Event.mem_of_isRet hremove, Machine.Event.mem_of_isRet hfind,
    listMap_linearizable hexec⟩

end Verlib.SortedList
