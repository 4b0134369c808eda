import Verlib.DList.Stores

/-!
# Back pointers mirror forward pointers

In every run of any number of threads, the list is in order whenever no thread is inside a critical section, and whoever
writes the `prev` of a node holds the lock of the node before it.
-/

namespace Verlib.DList.Concurrent

open Interleaving Linked

variable {K V ι : Type} [LinearOrder K]

/-- The keys increase from the head on, and every other node leads back to the one node that leads to it. -/
structure Mirrored (m : Memory K V) : Prop where
  nodes : ∃ ns e, Nodes m ns e
  back : ∀ b, Listed m b → b ≠ root → Listed m (m.prev b) ∧ ∀ a, Listed m a → (m.next a = b ↔ a = m.prev b)

section

variable {m : Memory K V} {p ns ns' : List Nat} {a b e e' : Nat} {unlinked marked : Nat → Prop}
  {unpaired : Nat × Nat → Prop}

/-! ## Lists without exceptions -/

omit [LinearOrder K] in
/-- There is only one way from a node to the next end. -/
theorem way_unique (h : Chain m.next (a :: ns ++ [e])) (h' : Chain m.next (a :: ns' ++ [e'])) (he : m.isEnd e = true)
    (he' : m.isEnd e' = true) (hns : ∀ b ∈ ns, m.isEnd b = false) (hns' : ∀ b ∈ ns', m.isEnd b = false) :
    ns = ns' ∧ e = e' := by
  induction ns generalizing a ns' with
  | nil =>
      have hnext : m.next a = e := (chain_cons.mp h).1
      cases ns' with
      | nil => exact ⟨rfl, hnext.symm.trans (chain_cons.mp h').1⟩
      | cons b ns' =>
          have hnext' : m.next a = b := (chain_cons.mp h').1
          have hb := hns' b List.mem_cons_self
          rw [← hnext', hnext, he] at hb
          cases hb
  | cons b ns ih =>
      have hcons : m.next a = b ∧ Chain m.next (b :: ns ++ [e]) := chain_cons.mp h
      have hb := hns b List.mem_cons_self
      cases ns' with
      | nil =>
          have hnext' : m.next a = e' := (chain_cons.mp h').1
          rw [← hcons.1, hnext', he'] at hb
          cases hb
      | cons b' ns' =>
          have hcons' : m.next a = b' ∧ Chain m.next (b' :: ns' ++ [e']) := chain_cons.mp h'
          obtain rfl : b = b' := hcons.1.symm.trans hcons'.1
          obtain ⟨rfl, rfl⟩ := ih hcons.2 hcons'.2 (fun c hc => hns c (List.mem_cons_of_mem _ hc))
            fun c hc => hns' c (List.mem_cons_of_mem _ hc)
          exact ⟨rfl, rfl⟩

/-- The nodes on the way from the head to the tail are those of the list. -/
theorem Spine.listed_iff (h : Spine m p unlinked marked unpaired) : Listed m a ↔ a ∈ p := by
  constructor
  · intro hlisted
    obtain ⟨ns', e', hchain', he', hns', hmem⟩ := hlisted
    obtain ⟨ns, heq⟩ := h.ends
    have hchain := h.chain
    rw [heq] at hchain
    obtain ⟨rfl, rfl⟩ := way_unique hchain hchain' ((h.isEnd tail h.alloc_tail).mpr (.inr rfl)) he'
      (fun b hb => h.isEnd_inner heq hb) hns'
    rwa [heq]
  · exact h.listed

/-- A list without exceptions leads back as it leads forth. -/
theorem Spine.mirrored (h : Spine m p unlinked marked unpaired) (hmarked : ∀ a, ¬ marked a)
    (hunpaired : ∀ l, ¬ unpaired l) : Mirrored m := by
  obtain ⟨ns, hnodes⟩ := h.nodes hmarked hunpaired
  refine ⟨⟨ns, tail, hnodes⟩, fun b hb hroot => ?_⟩
  have hmem := h.listed_iff.mp hb
  have hbefore : ∃ a ∈ p, a ≠ tail ∧ m.next a = b := by
    obtain ⟨ns, heq⟩ := h.ends
    have hmap := h.chain.map
    have hafter : b ∈ p.tail := by
      rw [heq] at hmem ⊢
      exact (List.mem_cons.mp hmem).resolve_left hroot
    rw [← hmap, List.mem_map] at hafter
    obtain ⟨a, ha, hnext⟩ := hafter
    have ha := List.mem_of_mem_dropLast ha
    obtain rfl | htail := eq_or_ne a tail
    · rw [h.next_tail] at hnext
      exact absurd hnext (h.alloc b hmem).1.ne
    · exact ⟨a, ha, htail, hnext⟩
  obtain ⟨a, ha, htail, hnext⟩ := hbefore
  have hback := (h.back a ha htail).resolve_right (hunpaired _)
  rw [hnext] at hback
  rw [hback]
  refine ⟨h.listed ha, fun a' ha' => ⟨fun hnext' => ?_, fun heq => heq ▸ hnext⟩⟩
  exact h.eq_of_next (h.listed_iff.mp ha') ha (h.alloc b hmem) hnext' hnext

end

/-! ## Runs -/

section

variable [DecidableEq ι] {h : List (Event K V ι)} {st st' : State K V ι} {p : List Nat} {c : ι} {ok : Bool}
  {r : Outcome K V ι}

/-- Every load and every store keeps what holds in every state. -/
theorem Inv.step (hinv : Inv h st p) (hstep : step c ok st.memory st.locks (st.threads c) = some r) :
    ∃ p', StepOk h st p c r p' := by
  generalize hpc : st.threads c = pc at hstep
  cases pc with
  | idle =>
      cases hstep
  | first o =>
      cases hstep
      exact ⟨p, hinv.first hpc⟩
  | search o next =>
      cases hstep
      exact ⟨p, hinv.search hpc⟩
  | back o next =>
      cases hstep
      exact ⟨p, hinv.back hpc⟩
  | readNext o prev next =>
      cases hstep
      exact ⟨p, hinv.readNext hpc⟩
  | readRemoved o prev next =>
      cases hstep
      exact ⟨p, hinv.readRemoved hpc⟩
  | acquire o prev next =>
      rw [Concurrent.step] at hstep
      split at hstep
      · rename_i hfree
        cases hstep
        exact ⟨p, hinv.acquire hpc (Option.isNone_iff_eq_none.mp hfree.2)⟩
      · cases hstep
        exact ⟨p, hinv.leave hpc rfl ⟨rfl, rfl, rfl⟩ (.inr rfl)⟩
  | testRemoved o prev next =>
      cases hstep
      exact ⟨p, hinv.testRemoved hpc⟩
  | testNext o prev next =>
      cases hstep
      exact ⟨p, hinv.testNext hpc⟩
  | newNode k v prev next =>
      cases hstep
      exact ⟨p, hinv.newNode hpc⟩
  | linkNext k v prev next new =>
      cases hstep
      exact hinv.linkNext hpc
  | linkPrev k v prev next new =>
      cases hstep
      exact ⟨p, hinv.setPrev hpc (List.mem_singleton_self _) (by simp [Pc.prevs]) (by simp [Pc.links]) rfl
        ⟨prev, List.mem_singleton_self _⟩ ⟨rfl, rfl⟩⟩
  | acquireLoc k prev loc =>
      rw [Concurrent.step] at hstep
      split at hstep
      · rename_i hfree
        cases hstep
        exact ⟨p, hinv.acquireLoc hpc (Option.isNone_iff_eq_none.mp hfree.2)⟩
      · cases hstep
        exact ⟨p, hinv.giveUp hpc ⟨rfl, rfl, rfl⟩ false⟩
  | loadNext k prev loc =>
      cases hstep
      exact ⟨p, hinv.loadNext hpc⟩
  | mark k prev loc next =>
      cases hstep
      exact ⟨p, hinv.mark hpc⟩
  | unlinkNext k prev loc next =>
      cases hstep
      exact hinv.unlinkNext hpc
  | unlinkPrev k prev loc next =>
      cases hstep
      exact ⟨p, hinv.setPrev hpc (by simp [Pc.nexts]) (List.mem_singleton_self _) (List.mem_singleton_self _) rfl
        ⟨loc, List.mem_singleton_self _⟩ ⟨rfl, rfl⟩⟩
  | release o held done =>
      cases held with
      | nil =>
          cases hstep
          refine ⟨p, hinv.leave hpc rfl ⟨rfl, rfl, rfl⟩ (o := o) ?_⟩
          cases done with
          | true => exact .inl rfl
          | false => exact .inr rfl
      | cons a rest =>
          cases hstep
          exact ⟨p, hinv.release hpc⟩

omit [DecidableEq ι] in
/-- At the start the list is empty. -/
theorem Initial.inv (hinit : Initial st) : Inv [] st [root, tail] := by
  obtain ⟨m, hmemory⟩ := hinit.memory
  refine ⟨?_, fun c => ?_, fun c c' _ => ?_, fun h₁ c x hprefix => ?_⟩
  · rw [hmemory]
    exact spine_init m
  · rw [hinit.threads]
    refine ThreadOk.idle fun a ha => ?_
    rw [hinit.locks] at ha
    cases ha
  · rw [hinit.threads]
    exact ⟨fun n hn => (by cases hn), fun n hn => by cases hn⟩
  · exact absurd (List.prefix_nil.mp hprefix) (by simp)

/-- What holds in every state of every run. -/
theorem exec_inv (hexec : Exec (system : System (State K V ι) (Action K V ι) (Event K V ι)) h st) :
    ∃ p, Inv h st p := by
  refine Exec.invariant (P := fun h st => ∃ p, Inv h st p) (fun st (hinit : Initial st) => ⟨_, hinit.inv⟩)
    (fun h st a es st' _ hinv hstep => ?_) hexec
  obtain ⟨p, hinv⟩ := hinv
  have hstep : next a st = some (es, st') := hstep
  cases a with
  | step c ok =>
      rw [next, Option.map_eq_some_iff] at hstep
      obtain ⟨r, hmove, heq⟩ := hstep
      cases heq
      obtain ⟨p', hok⟩ := hinv.step hmove
      exact ⟨p', hok.inv hinv⟩
  | call c o =>
      rw [next] at hstep
      split at hstep
      · rename_i hidle
        cases hstep
        exact ⟨p, (hinv.call hidle o).inv hinv⟩
      · cases hstep

omit [DecidableEq ι] in
/-- Between critical sections the list is in order. -/
theorem Inv.mirrored (hinv : Inv h st p) (hquiet : st.Quiet) : Mirrored st.memory := by
  refine hinv.listing.mirrored (fun a ha => ?_) fun l hl => ?_
  · obtain ⟨c, ha⟩ := ha
    have hheld := Pc.held_of_written (.inr (.inr ha))
    rw [hquiet c] at hheld
    cases hheld
  · obtain ⟨c, hl⟩ := hl
    have hheld := hquiet c
    cases hpc : st.threads c with
    | linkPrev k v prev next new | unlinkPrev k prev loc next =>
        rw [hpc] at hheld
        cases hheld
    | _ =>
        rw [hpc] at hl
        cases hl

/-- In every state in which no thread is inside a critical section, the keys of the list increase and every node but the
head leads back to the one node that leads to it; and whoever writes the `prev` of a node of the list holds the lock of
the node that preceded it when this critical section began. -/
theorem dlist_mirrors (hexec : Exec (system : System (State K V ι) (Action K V ι) (Event K V ι)) h st) :
    (st.Quiet → Mirrored st.memory) ∧ ∀ h₁ c x, h₁ ++ [.setPrev c x] <+: h → ∃ w, HeldAt h₁ c w x := by
  obtain ⟨p, hinv⟩ := exec_inv hexec
  exact ⟨hinv.mirrored, hinv.writes⟩

/-- The event is a write of thread `c` to the `prev` of `x`. -/
def Event.isSetPrev (c : ι) (x : Nat) : Event K V ι → Bool
  | .setPrev c' x' => c' = c ∧ x' = x
  | _ => false

omit [LinearOrder K] in
theorem Event.exists_prefix {x : Nat} (hany : h.any (Event.isSetPrev c x) = true) :
    ∃ h₁, h₁ ++ [.setPrev c x] <+: h := by
  obtain ⟨e, he, hset⟩ := List.any_eq_true.mp hany
  cases e with
  | setPrev c' x' =>
      obtain ⟨rfl, rfl⟩ := of_decide_eq_true hset
      obtain ⟨h₁, h₂, rfl⟩ := List.append_of_mem he
      exact ⟨h₁, h₂, by simp⟩
  | acquire => cases hset
  | release => cases hset

/-- A run: while one thread removes 5, the other wants to insert 7 after it and finds it locked. In the end the other
has written the `prev` of the tail, and the list is 7. -/
theorem dlist_mirrors_run :
    ∃ (h : List (Event Nat Unit Bool)) (st : State Nat Unit Bool), Exec system h st ∧ st.Quiet ∧ Mirrored st.memory ∧
      (∃ h₁, h₁ ++ [.setPrev true tail] <+: h ∧ ∃ w, HeldAt h₁ true w tail) ∧
      st.memory.next root = 4 ∧ st.memory.next 4 = tail ∧ st.memory.key 4 = 7 := by
  obtain ⟨h, st, hexec, hquiet, hset, hnext⟩ :
      ∃ (h : List (Event Nat Unit Bool)) (st : State Nat Unit Bool), Exec system h st ∧
        ((∀ c, (st.threads c).held = []) ∧ h.any (Event.isSetPrev true tail) = true ∧ st.memory.next root = 4 ∧
          st.memory.next 4 = tail ∧ st.memory.key 4 = 7) :=
    exists_exec_of_run _
      (s := ⟨init ⟨fun _ => 0, fun _ => 0, fun _ => 0, fun _ => (), fun _ => false, fun _ => false, 1⟩, fun _ => none,
        fun _ => .idle⟩)
      (List.flatten [[.call false (.insert 5 ())], List.replicate 11 (.step false true),
        [.call true (.insert 7 ())], List.replicate 4 (.step true true),
        [.call false (.remove 5)], List.replicate 10 (.step false true), List.replicate 5 (.step true true),
        List.replicate 4 (.step false true), List.replicate 11 (.step true true)])
      ⟨⟨_, rfl⟩, fun _ => rfl, fun _ => rfl⟩ (by decide +kernel)
  obtain ⟨hmirror, hwrites⟩ := dlist_mirrors hexec
  obtain ⟨h₁, hprefix⟩ := Event.exists_prefix hset
  exact ⟨h, st, hexec, hquiet, hmirror hquiet, ⟨h₁, hprefix, hwrites h₁ true tail hprefix⟩, hnext⟩

end

end Verlib.DList.Concurrent
