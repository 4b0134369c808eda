import Verlib.HashBlock.Contention

/-!
# Lookups in a node

`Node::find` looks at the first entry of a regular node and then scans the others from the second one on. The
index that this scan returns counts from the second entry, but the value is read at that index from the first
one on: the value of the entry before. `find_exact` says when the lookup is right all the same.
-/

namespace Verlib.HashBlock

open Interleaving

variable {K V : Type} {E : Keys K} {bits : Nat} {build : Build}

/-- What a lookup in a node should return: the value of the only entry with an equal key, and nothing when
`find_index` finds no entry. -/
def Node.FindsValue (E : Keys K) (n : Node K V) (k : K) : Prop :=
  (∀ i, n.findIndex E k = some (some i) → ∃ e, (∀ e' ∈ n.entries, E.keyEqual e'.key k = true ↔ e' = e) ∧
    e ∈ n.entries ∧ n.find E k = some (some e.value)) ∧
  (n.findIndex E k = some none → n.find E k = some none)

/-- The entry before the one that `find_index` finds, if there is one, has the same value. -/
def Node.PrecededByValue (E : Keys K) (n : Node K V) (k : K) : Prop :=
  ∀ i e e', n.findIndex E k = some (some (i + 1)) → n.entries[i + 1]? = some e → n.entries[i]? = some e' →
    e'.value = e.value

/-- `find_` on the table. -/
def Memory.find (E : Keys K) (bits : Nat) (m : Memory K V) (k : K) : Option (Option V) :=
  match m.buckets (getBucket E bits k) with
  | none => some none
  | some a => (m.nodes a).find E k

/-- The value of a key is the one at the first index with an equal key. -/
theorem lookup_eq_bind_findIdx (es : List (KV K V)) (k : K) :
    lookup E es k = (es.findIdx? fun e => E.keyEqual e.key k).bind fun i => es[i]?.map KV.value := by
  induction es with
  | nil => rfl
  | cons e es ih =>
      rw [lookup_cons, List.findIdx?_cons]
      split
      · rfl
      · rw [ih]
        cases es.findIdx? fun e => E.keyEqual e.key k with
        | none => rfl
        | some i => rfl

/-- An index that was found is one of the list. -/
theorem exists_of_findIdx {es : List (KV K V)} {k : K} {i : Nat}
    (hi : es.findIdx? (fun e => E.keyEqual e.key k) = some i) :
    ∃ e, es[i]? = some e ∧ E.keyEqual e.key k = true := by
  obtain ⟨hlt, hkey, _⟩ := List.findIdx?_eq_some_iff_getElem.mp hi
  exact ⟨es[i], List.getElem?_eq_getElem hlt, hkey⟩

/-- Two entries of a node with equal keys are the same. -/
theorem Distinct.eq {es : List (KV K V)} (hd : Distinct E es) {e e' : KV K V} (he : e ∈ es) (he' : e' ∈ es)
    (hkey : E.keyEqual e.key e'.key = true) : e = e' := by
  by_contra hne
  have hsymm : Std.Symm fun a b : KV K V => E.keyEqual a.key b.key = false := by
    refine ⟨fun a b hab => ?_⟩
    rw [Keys.comm]
    exact hab
  have hfalse := List.Pairwise.forall hd he he' hne
  rw [hkey] at hfalse
  cases hfalse

/-- A lookup that returns the value of the key is what it should be, and only that one. -/
theorem Node.Ok.findsValue_iff {n : Node K V} (hn : n.Ok E) (k : K) :
    n.FindsValue E k ↔ n.find E k = some (lookup E n.entries k) := by
  have hindex := hn.findIndex k
  constructor
  · intro hfinds
    cases hi : n.entries.findIdx? fun e => E.keyEqual e.key k with
    | none =>
        rw [hi] at hindex
        rw [hfinds.2 hindex, (hn.findIndex_eq_none_iff k).mp hindex]
    | some i =>
        rw [hi] at hindex
        obtain ⟨e, hunique, _, hfind⟩ := hfinds.1 i hindex
        obtain ⟨e', he', hkey⟩ := exists_of_findIdx hi
        have heq := (hunique e' (List.mem_of_getElem? he')).mp hkey
        rw [hfind, lookup_eq_bind_findIdx, hi, Option.bind_some, he', Option.map_some, heq]
  · intro hfind
    refine ⟨fun i hi => ?_, fun hnone => ?_⟩
    · rw [hindex, Option.some.injEq] at hi
      obtain ⟨e, he, hkey⟩ := exists_of_findIdx hi
      have hmem := List.mem_of_getElem? he
      refine ⟨e, fun e' he' => ⟨fun hkey' => ?_, fun heq => ?_⟩, hmem, ?_⟩
      · exact hn.distinct.eq he' hmem (Keys.euclid hkey' hkey)
      · rw [heq]
        exact hkey
      · rw [hfind, lookup_eq_bind_findIdx, hi, Option.bind_some, he, Option.map_some]
    · rw [hfind, (hn.findIndex_eq_none_iff k).mp hnone]

/-- The lookup in a big node. -/
theorem Node.Ok.find_big {n : Node K V} (hn : n.Ok E) (hcnt : 31 < n.cnt) (k : K) :
    n.find E k = some (lookup E n.entries k) := by
  unfold Node.find findInRange
  rw [if_neg (by omega), hn.big hcnt, lookup_eq_bind_findIdx]
  simp only [Option.bind_eq_bind, Option.bind_some, hn.take]
  cases hi : n.entries.findIdx? fun e => E.keyEqual e.key k with
  | none => rfl
  | some i =>
      obtain ⟨e, he, _⟩ := exists_of_findIdx hi
      simp only [he, Option.map_some, Option.bind_some]

/-- The lookup in a regular node reads the value one entry before the one that it has found. -/
theorem Node.Ok.find_regular {n : Node K V} (hn : n.Ok E) (hcnt : n.cnt ≤ 31) (k : K) :
    n.find E k = some ((n.entries.findIdx? fun e => E.keyEqual e.key k).bind fun i =>
      n.entries[i - 1]?.map KV.value) := by
  have hlen := hn.length
  have hpos := hn.pos
  unfold Node.find findInRange
  rw [if_pos hcnt, hn.regular hcnt]
  cases hes : n.entries with
  | nil =>
      rw [hes] at hlen
      have hzero : 0 = n.cnt := hlen
      omega
  | cons e es =>
      rw [hes, List.length_cons] at hlen
      have htake : es.take (n.cnt - 1) = es := by
        rw [← hlen, Nat.add_sub_cancel, List.take_length]
      simp only [Option.bind_eq_bind, Option.bind_some, List.getElem?_cons_zero, List.drop_one,
        List.tail_cons, htake, List.findIdx?_cons]
      by_cases hkey : E.keyEqual e.key k = true
      · rw [if_pos hkey, if_pos hkey]
        rfl
      · rw [if_neg hkey, if_neg hkey]
        cases hi : es.findIdx? fun e => E.keyEqual e.key k with
        | none => rfl
        | some i =>
            obtain ⟨hlt, _⟩ := List.findIdx?_eq_some_iff_getElem.mp hi
            have hbound : i < (e :: es).length := by
              rw [List.length_cons]
              omega
            have hget : (e :: es)[i]? = some (e :: es)[i] := List.getElem?_eq_getElem hbound
            simp only [Option.map_some, Option.bind_some, Nat.add_sub_cancel, hget]

/-- The lookup in a node is right for the keys of a big node, the keys that are not there, the first key, and
the keys whose entry follows one with the same value. -/
theorem Node.Ok.find_eq_iff {n : Node K V} (hn : n.Ok E) (k : K) :
    n.find E k = some (lookup E n.entries k) ↔ 31 < n.cnt ∨ n.PrecededByValue E k := by
  by_cases hcnt : 31 < n.cnt
  · exact ⟨fun _ => .inl hcnt, fun _ => hn.find_big hcnt k⟩
  rw [hn.find_regular (by omega), lookup_eq_bind_findIdx, Option.some.injEq]
  unfold Node.PrecededByValue
  rw [hn.findIndex]
  cases hi : n.entries.findIdx? fun e => E.keyEqual e.key k with
  | none =>
      refine ⟨fun _ => .inr fun i e e' hsome => ?_, fun _ => rfl⟩
      cases hsome
  | some i =>
      obtain ⟨e, he, _⟩ := exists_of_findIdx hi
      cases i with
      | zero =>
          refine ⟨fun _ => .inr fun i e e' hsome => ?_, fun _ => rfl⟩
          cases hsome
      | succ i =>
          have hlt : i + 1 < n.entries.length := (List.getElem?_eq_some_iff.mp he).1
          have hbefore : n.entries[i]? = some n.entries[i] := List.getElem?_eq_getElem (by omega)
          simp only [Option.bind_some, Nat.add_sub_cancel, he, hbefore, Option.map_some, Option.some.injEq]
          constructor
          · intro heq
            refine .inr fun j e₁ e₂ hj h₁ h₂ => ?_
            rw [Nat.add_right_cancel_iff] at hj
            subst hj
            rw [he] at h₁
            rw [hbefore] at h₂
            cases h₁
            cases h₂
            exact heq
          · intro hor
            cases hor with
            | inl hlt => exact absurd hlt hcnt
            | inr hprec => exact hprec i e n.entries[i] rfl he hbefore

/-- In every run a lookup in the node of a bucket returns the value that it should, and a lookup in the table the
value that the updates have stored, if and only if the node has more than 31 entries or the entry before that
of the key has the same value. -/
theorem find_exact {ι : Type} [DecidableEq ι] {h : List (Machine.Event (Op K V) (Memory K V) Bool)}
    {st : Machine.State ι (Op K V) (Memory K V) Pos}
    (hexec : Exec ((machine E bits build).system Initial) h st) {b a : Nat}
    (hb : st.memory.buckets b = some a) (k : K) :
    ((st.memory.nodes a).FindsValue E k ↔
      31 < (st.memory.nodes a).cnt ∨ (st.memory.nodes a).PrecededByValue E k) ∧
    (getBucket E bits k = b →
      (st.memory.find E bits k = some (st.memory.content E bits k) ↔
        31 < (st.memory.nodes a).cnt ∨ (st.memory.nodes a).PrecededByValue E k)) := by
  have hinv : Inv E bits st.memory := ((sound (V := V) E bits build).runInv hexec).mem
  have hok := hinv.nodes a (hinv.buckets b a hb)
  refine ⟨(hok.findsValue_iff k).trans (hok.find_eq_iff k), fun hbucket => ?_⟩
  unfold Memory.find Memory.content
  rw [hbucket, hb]
  exact hok.find_eq_iff k

/-- Two keys of one bucket are inserted one after the other. -/
theorem two_inserts_run :
    ∃ (h : List (Machine.Event (Op Nat Nat) (Memory Nat Nat) Bool))
      (st : Machine.State Unit (Op Nat Nat) (Memory Nat Nat) Pos),
      Exec ((machine natKeys 0 .tryLock).system Initial) h st ∧ (st.memory.buckets 0 = some 1 ∧
        st.memory.nodes 1 = ⟨.node3, 2, [⟨5, 50⟩, ⟨7, 70⟩]⟩) :=
  exists_exec_of_run _ (s := ⟨⟨fun _ => ⟨.node1, 1, []⟩, 0, fun _ => none, []⟩, fun _ => none, 0⟩)
    (List.flatten [[.call () (.insert 5 50)], List.replicate 3 (.step () true),
      [.call () (.insert 7 70)], List.replicate 3 (.step () true)])
    ⟨⟨fun _ => rfl, rfl, rfl⟩, fun _ => rfl, rfl⟩ (by decide +kernel)

/-- The first of two keys is looked up correctly. -/
theorem find_exact_first :
    ∃ (h : List (Machine.Event (Op Nat Nat) (Memory Nat Nat) Bool))
      (st : Machine.State Unit (Op Nat Nat) (Memory Nat Nat) Pos),
      Exec ((machine natKeys 0 .tryLock).system Initial) h st ∧ st.memory.buckets 0 = some 1 ∧
        (st.memory.nodes 1).FindsValue natKeys 5 := by
  obtain ⟨h, st, hexec, hb, hnode⟩ := two_inserts_run
  refine ⟨h, st, hexec, hb, (find_exact hexec hb 5).1.mpr (.inr ?_)⟩
  rw [hnode]
  intro i e e' hi
  have hzero : Node.findIndex natKeys (⟨.node3, 2, [⟨5, 50⟩, ⟨7, 70⟩]⟩ : Node Nat Nat) 5 = some (some 0) := by
    decide
  rw [hzero] at hi
  cases hi

/-- The lookup of the second of two keys returns the value of the first one. -/
theorem find_wrong_value :
    ∃ (h : List (Machine.Event (Op Nat Nat) (Memory Nat Nat) Bool))
      (st : Machine.State Unit (Op Nat Nat) (Memory Nat Nat) Pos),
      Exec ((machine natKeys 0 .tryLock).system Initial) h st ∧ st.memory.buckets 0 = some 1 ∧
        st.memory.content natKeys 0 7 = some 70 ∧ st.memory.find natKeys 0 7 = some (some 50) ∧
        ¬ (st.memory.nodes 1).FindsValue natKeys 7 := by
  obtain ⟨h, st, hexec, hb, hnode⟩ := two_inserts_run
  have hfind : (st.memory.nodes 1).find natKeys 7 = some (some 50) := by
    rw [hnode]
    decide
  refine ⟨h, st, hexec, hb, ?_, ?_, ?_⟩
  · show (st.memory.buckets 0).bind (fun a => lookup natKeys (st.memory.nodes a).entries 7) = some 70
    rw [hb, Option.bind_some, hnode]
    decide
  · have hbucket : getBucket natKeys 0 7 = 0 := rfl
    unfold Memory.find
    rw [hbucket, hb]
    exact hfind
  · intro hfinds
    have hindex : (st.memory.nodes 1).findIndex natKeys 7 = some (some 1) := by
      rw [hnode]
      decide
    obtain ⟨e, hunique, hmem, hvalue⟩ := hfinds.1 1 hindex
    rw [hfind] at hvalue
    rw [hnode] at hunique
    have heq := (hunique ⟨7, 70⟩ (by decide)).mp (by decide)
    rw [← heq] at hvalue
    cases hvalue

end Verlib.HashBlock
