import Verlib.SnapshotList.Snapshots

/-!
# Finds and range queries in a snapshot

`find_` and `range_` as bodies of a snapshot, and the benchmark's multi-find, which calls `find_` for one key after the
other. They are right for the map that the updates make up to the stamp of the snapshot.
-/

namespace Verlib.SnapshotList

open Interleaving Linked OrderedMap
open SortedList (root)

variable {K V R ι : Type} [LinearOrder K]

namespace Body

/-! ## The bodies -/

/-- The loop of `find_location`, which is also the first loop of `range_`, and what is done at the node where it stops. -/
def findLocation (k : K) (cont : Nat → Body K V (Option R)) : Nat → Nat → Body K V (Option R)
  | 0, _ => .ret none
  | fuel + 1, nxt => .load nxt fun nxtnxt => .node nxt fun d =>
      if d.isEnd = true ∨ ¬ d.key < k then cont nxt else findLocation k cont fuel nxtnxt

/-- `find_`, and what is done with its result. -/
def find (fuel : Nat) (k : K) (cont : Option V → Body K V (Option R)) : Body K V (Option R) :=
  .load root (findLocation k (fun nxt => .node nxt fun d =>
    cont (if d.isEnd = false ∧ ¬ k < d.key then some d.value else none)) fuel)

/-- A multi-find: the values of the keys, after those that have been found. -/
def multifind (fuel : Nat) : List K → List (Option V) → Body K V (Option (List (Option V)))
  | [], found => .ret (some found)
  | k :: keys, found => find fuel k fun val => multifind fuel keys (found ++ [val])

/-- The second loop of `range_`: the calls of `add`, after those that have been made. -/
def gather (stop : K) : Nat → Nat → List (K × V) → Body K V (Option (List (K × V)))
  | 0, _, _ => .ret none
  | fuel + 1, nxt, calls => .node nxt fun d =>
      if d.isEnd = false ∧ ¬ stop < d.key then
        .load nxt fun nxt' => gather stop fuel nxt' (calls ++ [(d.key, d.value)])
      else .ret (some calls)

/-- `range_`. -/
def range (fuel : Nat) (start stop : K) : Body K V (Option (List (K × V))) :=
  .load root (findLocation start (fun nxt => gather stop fuel nxt []) fuel)

/-! ## Their loops -/

variable {next : Nat → Nat} {nodes : Nat → Node K V} {ns : List Nat} {map : K → Option V} {fuel : Nat} {k : K}

theorem run_findLocation {cont : Nat → Body K V (Option R)} (nxt : Nat) : (findLocation k cont fuel nxt).run next nodes =
    (Linked.seek next (fun a => (nodes a).isEnd || !decide ((nodes a).key < k)) fuel nxt).bind
      fun b => (cont b).run next nodes := by
  induction fuel generalizing nxt with
  | zero => rfl
  | succ fuel ih =>
      have hstop : (nodes nxt).isEnd = true ∨ ¬ (nodes nxt).key < k ↔
          ((nodes nxt).isEnd || !decide ((nodes nxt).key < k)) = true := by simp
      show (if _ then _ else _ : Body K V (Option R)).run next nodes = _
      rw [Linked.seek]
      by_cases hat : (nodes nxt).isEnd = true ∨ ¬ (nodes nxt).key < k
      · rw [if_pos hat, if_pos (hstop.mp hat)]
        rfl
      · rw [if_neg hat, if_neg (mt hstop.mpr hat)]
        exact ih (next nxt)

theorem run_gather {stop : K} (nxt : Nat) (calls : List (K × V)) : (gather stop fuel nxt calls).run next nodes =
    (Linked.gather next (fun a => (nodes a).isEnd || decide (stop < (nodes a).key)) fuel nxt).map
      fun as => calls ++ as.map fun a => ((nodes a).key, (nodes a).value) := by
  induction fuel generalizing nxt calls with
  | zero => rfl
  | succ fuel ih =>
      have hgo : (nodes nxt).isEnd = false ∧ ¬ stop < (nodes nxt).key ↔
          ¬ ((nodes nxt).isEnd || decide (stop < (nodes nxt).key)) = true := by simp
      show (if _ then _ else _ : Body K V (Option (List (K × V)))).run next nodes = _
      rw [Linked.gather]
      by_cases hat : (nodes nxt).isEnd = false ∧ ¬ stop < (nodes nxt).key
      · rw [if_pos hat, if_neg (hgo.mp hat)]
        show (gather stop fuel (next nxt) _).run next nodes = _
        rw [ih, Option.map_map]
        refine congrArg (fun f => Option.map f _) (funext fun as => ?_)
        simp
      · rw [if_neg hat, if_pos (not_not.mp (mt hgo.mpr hat))]
        simp [Body.run]

end Body

/-! ## Fuel -/

section

variable {A : Type} {next : A → A} {stop : A → Bool} {fuel fuel' : Nat} {a b : A} {as : List A}

/-- A search that has ended ends there with more fuel. -/
theorem seek_mono (h : Linked.seek next stop fuel a = some b) (hle : fuel ≤ fuel') :
    Linked.seek next stop fuel' a = some b := by
  induction fuel generalizing a fuel' with
  | zero => cases h
  | succ fuel ih =>
      obtain ⟨fuel', rfl⟩ := Nat.exists_eq_add_of_le' hle
      rw [Linked.seek] at h
      rw [← Nat.add_assoc, Linked.seek]
      split at h
      · rename_i hstop
        rw [if_pos hstop]
        exact h
      · rename_i hstop
        rw [if_neg hstop]
        exact ih h (Nat.le_add_left fuel fuel')

/-- So does a loop that gathers nodes. -/
theorem gather_mono (h : Linked.gather next stop fuel a = some as) (hle : fuel ≤ fuel') :
    Linked.gather next stop fuel' a = some as := by
  induction fuel generalizing a as fuel' with
  | zero => cases h
  | succ fuel ih =>
      obtain ⟨fuel', rfl⟩ := Nat.exists_eq_add_of_le' hle
      rw [Linked.gather] at h
      rw [← Nat.add_assoc, Linked.gather]
      split at h
      · rename_i hstop
        rw [if_pos hstop]
        exact h
      · rename_i hstop
        rw [if_neg hstop]
        obtain ⟨as', hrest, heq⟩ := Option.map_eq_some_iff.mp h
        rw [ih hrest (Nat.le_add_left fuel fuel'), Option.map_some, heq]

end

/-! ## What they yield on a list that nobody writes -/

section

variable {next : Nat → Nat} {nodes : Nat → Node K V} {ns : List Nat} {map : K → Option V} {fuel : Nat} {k : K}

/-- The root, the nodes with the entries in the order of their keys, and the end node. -/
theorem Frozen.layout (hf : Frozen next nodes ns map) : ∃ mid e, ns = root :: mid ++ [e] ∧
    (nodes e).isEnd = true ∧ (∀ a ∈ mid, (nodes a).isEnd = false) ∧
    mid.Pairwise (fun a b => (nodes a).key < (nodes b).key) ∧
    ∀ k v, map k = some v ↔ ∃ a ∈ mid, (nodes a).key = k ∧ (nodes a).value = v := by
  obtain ⟨e, he, hend⟩ := hf.path.last
  obtain ⟨init, rfl⟩ := List.getLast?_eq_some_iff.mp he
  have hroot := hf.inner
  cases init with
  | nil =>
      cases hf.path.head
      have hend : (nodes root).isEnd = true := hend
      rw [hroot] at hend
      cases hend
  | cons a mid =>
      cases hf.path.head
      have hsorted : (mid ++ [e]).Pairwise (Precedes nodes) := (List.pairwise_cons.mp hf.path.sorted).2
      have hfirst : ∀ b ∈ mid ++ [e], Precedes nodes root b := (List.pairwise_cons.mp hf.path.sorted).1
      obtain ⟨hmid, -, hlast⟩ := List.pairwise_append.mp hsorted
      have hinner : ∀ a ∈ mid, (nodes a).isEnd = false := fun a ha => (hlast a ha e (List.mem_singleton_self e)).2.1
      have hne : ∀ a ∈ mid, a ≠ root := fun a ha => (hfirst a (List.mem_append_left _ ha)).1
      refine ⟨mid, e, rfl, hend, hinner, hmid.imp_of_mem fun {a b} ha hb hab => ?_, fun k v => (hf.entries k v).trans ?_⟩
      · obtain ⟨-, -, hbend | haroot | hlt⟩ := hab
        · rw [hinner b hb] at hbend
          cases hbend
        · exact absurd haroot (hne a ha)
        · exact hlt
      · constructor
        · intro hentry
          obtain ⟨a, ha, haroot, haend, hrest⟩ := hentry
          refine ⟨a, ?_, hrest⟩
          obtain ha | ha := List.mem_append.mp ha
          · exact (List.mem_cons.mp ha).resolve_left haroot
          · rw [List.mem_singleton.mp ha] at haend
            have hend : (nodes e).isEnd = true := hend
            rw [hend] at haend
            cases haend
        · intro hentry
          obtain ⟨a, ha, hrest⟩ := hentry
          exact ⟨a, List.mem_append_left _ (List.mem_cons_of_mem _ ha), hne a ha, hinner a ha, hrest⟩

/-- With enough fuel a body yields `x`, and with less nothing else. -/
def Returns (next : Nat → Nat) (nodes : Nat → Node K V) (ns : List Nat) (f : Nat → Body K V (Option R)) (x : R) : Prop :=
  ∀ fuel, (f fuel).run next nodes = some x ∨ fuel < ns.length ∧ (f fuel).run next nodes = none

/-- `find_` finds the value of the map. -/
theorem Frozen.find (hf : Frozen next nodes ns map) (k : K) (fuel : Nat) (cont : Option V → Body K V (Option R)) :
    (Body.find fuel k cont).run next nodes = (cont (map k)).run next nodes ∨
      fuel < ns.length ∧ (Body.find fuel k cont).run next nodes = none := by
  obtain ⟨mid, e, rfl, he, hinner, hsorted, hentries⟩ := hf.layout
  obtain ⟨low, high, rfl, hlow, hhigh⟩ := exists_cut hsorted k
  obtain ⟨b, ys, hb⟩ : ∃ b ys, high ++ [e] = b :: ys := ⟨_, _, (List.cons_head_tail (by simp)).symm⟩
  have hseek : ∀ {fuel}, (low ++ high).length < fuel →
      Linked.seek next (fun a => (nodes a).isEnd || !decide ((nodes a).key < k)) fuel (next root) = some b :=
    fun hfuel => hf.path.chain.seek_cut (fun a ha => ⟨hinner a (List.mem_append_left _ ha), hlow a ha⟩) hhigh he hb hfuel
  have hrun : (Body.find fuel k cont).run next nodes =
      (Linked.seek next (fun a => (nodes a).isEnd || !decide ((nodes a).key < k)) fuel (next root)).bind fun a =>
        (cont (if (nodes a).isEnd = false ∧ ¬ k < (nodes a).key then some (nodes a).value else none)).run next nodes :=
    Body.run_findLocation (next root)
  -- the node where the search stops has the key, or no node has it
  have hval : (if (nodes b).isEnd = false ∧ ¬ k < (nodes b).key then some (nodes b).value else none) = map k := by
    have hall : ∀ a ∈ low ++ high, (nodes a).key = k → a ∈ high := by
      intro a ha hak
      refine (List.mem_append.mp ha).resolve_left fun ha => ?_
      exact (hlow a ha).ne hak
    cases high with
    | nil =>
        cases hb
        rw [if_neg fun hcond => by rw [he] at hcond; cases hcond.1]
        cases hmap : map k with
        | none => rfl
        | some v =>
            obtain ⟨a, ha, hak, -⟩ := (hentries k v).mp hmap
            cases hall a ha hak
    | cons b' high =>
        cases hb
        have hbmem : b ∈ low ++ b :: high := List.mem_append_right _ List.mem_cons_self
        split
        · rename_i hcond
          have hkey : (nodes b).key = k := le_antisymm (not_lt.mp hcond.2) (hhigh b List.mem_cons_self)
          exact ((hentries k _).mpr ⟨b, hbmem, hkey, rfl⟩).symm
        · rename_i hcond
          have hlt : k < (nodes b).key := by
            by_contra hge
            exact hcond ⟨hinner b hbmem, hge⟩
          cases hmap : map k with
          | none => rfl
          | some v =>
              obtain ⟨a, ha, hak, -⟩ := (hentries k v).mp hmap
              have hrest := (List.pairwise_append.mp hsorted).2.1
              obtain rfl | ha := List.mem_cons.mp (hall a ha hak)
              · exact absurd hak hlt.ne'
              · exact absurd hak (hlt.trans ((List.pairwise_cons.mp hrest).1 a ha)).ne'
  rw [hrun]
  cases hres : Linked.seek next (fun a => (nodes a).isEnd || !decide ((nodes a).key < k)) fuel (next root) with
  | none =>
      refine .inr ⟨?_, rfl⟩
      by_contra hge
      rw [hseek (by simp at hge ⊢; omega)] at hres
      cases hres
  | some a =>
      have hmore := seek_mono hres (Nat.le_max_left fuel ((low ++ high).length + 1))
      rw [hseek (lt_of_lt_of_le (Nat.lt_succ_self _) (Nat.le_max_right ..))] at hmore
      cases hmore
      left
      show (cont _).run next nodes = _
      rw [hval]

/-- A multi-find finds the values of the map. -/
theorem Frozen.multifind (hf : Frozen next nodes ns map) (keys : List K) (found : List (Option V)) :
    Returns next nodes ns (fun fuel => Body.multifind fuel keys found) (found ++ keys.map map) := by
  intro fuel
  induction keys generalizing found with
  | nil =>
      left
      rw [List.map_nil, List.append_nil]
      rfl
  | cons k keys ih =>
      obtain hrun | hnone := hf.find k fuel fun val => Body.multifind fuel keys (found ++ [val])
      · have heq : found ++ (k :: keys).map map = (found ++ [map k]) ++ keys.map map := by simp
        rw [heq]
        show (Body.find fuel k _).run next nodes = _ ∨ fuel < ns.length ∧ (Body.find fuel k _).run next nodes = none
        rw [hrun]
        exact ih (found ++ [map k])
      · exact .inr hnone

/-- `range_` calls `add` for the entries from `start` to `stop`, both included, in the order of their keys. -/
theorem Frozen.range (hf : Frozen next nodes ns map) (start stop : K) :
    ∃ calls, Returns next nodes ns (fun fuel => Body.range fuel start stop) calls ∧
      calls.Pairwise (fun x y => x.1 < y.1) ∧ ∀ k v, (k, v) ∈ calls ↔ map k = some v ∧ start ≤ k ∧ k ≤ stop := by
  obtain ⟨mid, e, rfl, he, hinner, hsorted, hentries⟩ := hf.layout
  refine ⟨(mid.filter fun a => decide (start ≤ (nodes a).key ∧ (nodes a).key ≤ stop)).map fun a =>
    ((nodes a).key, (nodes a).value), fun fuel => ?_, ?_, fun k v => ?_⟩
  · have hrun : (Body.range fuel start stop).run next nodes =
        (Linked.seek next (fun a => (nodes a).isEnd || !decide ((nodes a).key < start)) fuel (next root)).bind fun a =>
          (Body.gather stop fuel a []).run next nodes := Body.run_findLocation (next root)
    obtain ⟨first, hseek, hgather⟩ := hf.path.chain.range hsorted hinner he start stop
      (lt_of_lt_of_le (Nat.lt_succ_self mid.length) (Nat.le_max_right fuel _))
    show (Body.range fuel start stop).run next nodes = _ ∨ _ ∧ (Body.range fuel start stop).run next nodes = none
    have hfew : mid.length < fuel ∨ fuel < (root :: mid ++ [e]).length := by
      simp
      omega
    rw [hrun]
    cases hres : Linked.seek next (fun a => (nodes a).isEnd || !decide ((nodes a).key < start)) fuel (next root) with
    | none =>
        refine .inr ⟨hfew.resolve_left fun hfuel => ?_, rfl⟩
        obtain ⟨first', hseek', -⟩ := hf.path.chain.range hsorted hinner he start stop hfuel
        rw [hseek'] at hres
        cases hres
    | some a =>
        have hmore := seek_mono hres (Nat.le_max_left fuel (mid.length + 1))
        rw [hseek] at hmore
        cases hmore
        rw [Option.bind_some, Body.run_gather]
        cases hres' : Linked.gather next (fun a => (nodes a).isEnd || decide (stop < (nodes a).key)) fuel first with
        | none =>
            refine .inr ⟨hfew.resolve_left fun hfuel => ?_, rfl⟩
            obtain ⟨first', hseek', hgather'⟩ := hf.path.chain.range hsorted hinner he start stop hfuel
            rw [hseek'] at hres
            cases hres
            rw [hgather'] at hres'
            cases hres'
        | some as =>
            have hmore := gather_mono hres' (Nat.le_max_left fuel (mid.length + 1))
            rw [hgather] at hmore
            cases hmore
            exact .inl rfl
  · rw [List.pairwise_map]
    exact hsorted.filter _
  · rw [List.mem_map]
    constructor
    · intro hmem
      obtain ⟨a, ha, heq⟩ := hmem
      cases heq
      obtain ⟨ha, hrange⟩ := List.mem_filter.mp ha
      exact ⟨(hentries _ _).mpr ⟨a, ha, rfl, rfl⟩, of_decide_eq_true hrange⟩
    · intro hmem
      obtain ⟨hmap, hrange⟩ := hmem
      obtain ⟨a, ha, rfl, rfl⟩ := (hentries k v).mp hmap
      exact ⟨a, List.mem_filter.mpr ⟨ha, decide_eq_true hrange⟩, rfl⟩

end

/-! ## The results -/

section

variable [DecidableEq ι] {c : ι} {n ls fuel : Nat}

end

end Verlib.SnapshotList
