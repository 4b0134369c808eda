import Verlib.SnapshotList.Reliance

/-!
# Snapshots are states of the timeline

In every run there is one order of the updates that have changed the list, which is the order of their stamps. A
snapshot with the stamp `ls` yields what its body yields on the list that these updates make up to `ls`, and both the
order and the stamps agree with real time.
-/

namespace Verlib.SnapshotList

open Interleaving Interleaving.Versions Indirect Linked
open SortedList (Op root)

variable {K V R ι : Type}

/-! ## The order of the events -/

section

variable {h h₁ h₂ : List (Event K V R ι)} {c d : ι} {n l k k' ls t : Nat} {o o' : Op K V} {f f' : Body K V R}

/-- A call is shown once. -/
theorem call_unique (hfits : Each Fits h) (he : ⟨k, .call c n o⟩ ∈ h) (he' : ⟨k', .call d n o'⟩ ∈ h) :
    k = k' ∧ c = d ∧ o = o' := by
  have heq : (⟨k, .call c n o⟩ : Event K V R ι) = ⟨k', .call d n o'⟩ :=
    hfits.unique he he' (fun _ hf hmem => hf.2 _ hmem rfl) fun _ hf hmem => hf.2 _ hmem rfl
  cases heq
  exact ⟨rfl, rfl, rfl⟩

/-- A snapshot is shown once. -/
theorem withSnapshot_unique (hfits : Each Fits h) (he : ⟨k, .withSnapshot c n f⟩ ∈ h)
    (he' : ⟨k', .withSnapshot d n f'⟩ ∈ h) : k = k' ∧ c = d ∧ f = f' := by
  have heq : (⟨k, .withSnapshot c n f⟩ : Event K V R ι) = ⟨k', .withSnapshot d n f'⟩ :=
    hfits.unique he he' (fun _ hf hmem => hf.2 _ hmem rfl) fun _ hf hmem => hf.2 _ hmem rfl
  cases heq
  exact ⟨rfl, rfl, rfl⟩

/-- It has one stamp. -/
theorem began_unique {ls' : Nat} (hfits : Each Fits h) (he : ⟨k, .began c n ls⟩ ∈ h) (he' : ⟨k', .began c n ls'⟩ ∈ h) :
    k = k' ∧ ls = ls' := by
  have heq : (⟨k, .began c n ls⟩ : Event K V R ι) = ⟨k', .began c n ls'⟩ :=
    hfits.unique he he' (fun _ hf hmem => hf.2.2.2 _ _ hmem) fun _ hf hmem => hf.2.2.2 _ _ hmem
  cases heq
  exact ⟨rfl, rfl⟩

/-- The stamp of a call came before its return. -/
theorem stamp_mem_left {b : Bool} {e : Event K V R ι} (hfits : Each Fits (h₁ ++ e :: h₂))
    (hstamp : ⟨k, .stamp c n o t⟩ ∈ h₁ ++ e :: h₂) (hret : ⟨k', .ret c n b⟩ ∈ h₁ ++ [e]) (he : e.what.thread ≠ none) :
    ⟨k, .stamp c n o t⟩ ∈ h₁ := by
  refine hfits.mem_left hstamp (fun heq => he ?_) hret fun _ hf => hf.2.2.2.1 k' b
  rw [← heq]
  rfl

/-- The stamp of a call is not larger than the clock, nor smaller than the clock at the call. -/
theorem stamp_between (hfits : Each Fits h) (hstamp : ⟨k, .stamp c n o t⟩ ∈ h) (hcall : ⟨k', .call c n o'⟩ ∈ h) :
    k' ≤ t ∧ t ≤ k ∧ o' = o := by
  obtain ⟨h₁, h₂, rfl, hf⟩ := hfits.of_mem hstamp
  obtain ⟨-, htk, ⟨k₀, hle, hcall₀⟩, -⟩ := hf
  obtain ⟨rfl, -, rfl⟩ := call_unique hfits hcall (List.mem_append_left _ hcall₀)
  exact ⟨hle, htk, rfl⟩

/-- A call that has returned before another call gets its stamp before that one, and not a larger one. -/
theorem stamps_in_order {b : Bool} {k₁ k₂ t' : Nat} (hfits : Each Fits h) (hstamp : ⟨k, .stamp c n o t⟩ ∈ h)
    (hstamp' : ⟨k', .stamp d l o' t'⟩ ∈ h) (hbefore : Before h ⟨k₁, .ret c n b⟩ ⟨k₂, .call d l o'⟩) :
    t ≤ t' ∧ [((c, n, o), t), ((d, l, o'), t')].Sublist (stamps h) := by
  obtain ⟨h₁, h₂, rfl, hret⟩ := before_iff.mp hbefore
  have hcall : (⟨k₂, .call d l o'⟩ : Event K V R ι) ∈ h₁ ++ ⟨k₂, .call d l o'⟩ :: h₂ :=
    List.mem_append_right _ List.mem_cons_self
  have hleft := stamp_mem_left hfits hstamp (List.mem_append_left _ hret) fun heq => by cases heq
  obtain ⟨hle, -, -⟩ := stamp_between hfits hstamp' hcall
  obtain ⟨hclocks, hnumbers⟩ := hfits.split
  have hright : ⟨k', .stamp d l o' t'⟩ ∈ h₂ := by
    obtain hmem | hmem := List.mem_append.mp hstamp'
    · -- its call would have been shown before
      obtain ⟨s, u, rfl⟩ := List.append_of_mem hmem
      rw [List.append_assoc] at hfits
      obtain ⟨-, -, ⟨k₀, -, hcall₀⟩, -⟩ := hfits.split
      exact absurd rfl (hnumbers _ (List.mem_append_left _ hcall₀))
    · refine (List.mem_cons.mp hmem).resolve_left fun heq => ?_
      cases heq
  have htk : t ≤ k := by
    obtain ⟨s, u, heq, -, htk, -⟩ := hfits.of_mem hstamp
    exact htk
  refine ⟨(htk.trans (hclocks _ hleft)).trans hle, ?_⟩
  rw [stamps, List.filterMap_append]
  refine (List.singleton_sublist.mpr (mem_stamps.mpr ⟨k, hleft⟩)).append (List.singleton_sublist.mpr ?_)
  exact mem_stamps.mpr ⟨k', List.mem_cons_of_mem _ hright⟩

/-- A call that has returned has got a stamp if it has returned true. -/
theorem ret_iff {b : Bool} (hfits : Each Fits h) (hret : ⟨k, .ret c n b⟩ ∈ h) :
    b = true ↔ ∃ o t, ((c, n, o), t) ∈ stamps h := by
  obtain ⟨h₁, h₂, rfl, -, -, hiff⟩ := hfits.of_mem hret
  rw [hiff]
  constructor
  · intro hst
    obtain ⟨k', o, t, hmem⟩ := hst
    exact ⟨o, t, mem_stamps.mpr ⟨k', List.mem_append_left _ hmem⟩⟩
  · intro hst
    obtain ⟨o, t, hmem⟩ := hst
    obtain ⟨k', hmem⟩ := mem_stamps.mp hmem
    exact ⟨k', o, t, stamp_mem_left hfits hmem (List.mem_append_right h₁ List.mem_cons_self) fun heq => by cases heq⟩

/-- A call gets one stamp. -/
theorem stamps_nodup (hfits : Each Fits h) : ((stamps h).map fun x => (x.1.1, x.1.2.1)).Nodup := by
  induction hfits with
  | nil => exact List.nodup_nil
  | @concat h e hh he ih =>
      obtain ⟨k, w⟩ := e
      rw [stamps, List.filterMap_append]
      cases w with
      | stamp c n o t =>
          obtain ⟨-, -, -, -, hno⟩ := he
          rw [List.map_append]
          refine List.nodup_append.mpr ⟨ih, List.nodup_singleton _, fun x hx y hy heq => ?_⟩
          obtain ⟨⟨⟨c', n', o'⟩, t'⟩, hmem, rfl⟩ := List.mem_map.mp hx
          cases List.mem_singleton.mp hy
          cases heq
          obtain ⟨k', hmem⟩ := mem_stamps.mp hmem
          exact hno k' o' t' hmem
      | _ =>
          show ((stamps h ++ []).map _).Nodup
          rw [List.append_nil]
          exact ih

end

/-! ## Runs with a snapshot -/

/-- The results that a history shows. -/
def What.shown : What K V R ι → Option (ι × Nat × (Bool ⊕ Nat ⊕ R))
  | .ret c n b => some (c, n, .inl b)
  | .began c n ls => some (c, n, .inr (.inl ls))
  | .answer c n r => some (c, n, .inr (.inr r))
  | _ => none

/-- The event that shows a result. -/
def What.showing : ι × Nat × (Bool ⊕ Nat ⊕ R) → What K V R ι
  | (c, n, .inl b) => .ret c n b
  | (c, n, .inr (.inl ls)) => .began c n ls
  | (c, n, .inr (.inr r)) => .answer c n r

theorem mem_of_shown {h : List (Event K V R ι)} {x : ι × Nat × (Bool ⊕ Nat ⊕ R)}
    (hx : x ∈ h.filterMap fun e => e.what.shown) : ∃ k, ⟨k, .showing x⟩ ∈ h := by
  obtain ⟨⟨k, w⟩, he, hw⟩ := List.mem_filterMap.mp hx
  have hw : w.shown = some x := hw
  refine ⟨k, ?_⟩
  cases w with
  | ret c n b =>
      cases hw
      exact he
  | began c n ls =>
      cases hw
      exact he
  | answer c n r =>
      cases hw
      exact he
  | _ => cases hw

/-- The empty list. -/
def empty : Memory Nat Nat (Fin 2) where
  versions := ⟨zeroStamp, fun _ => 0, fun _ _ => some zeroStamp, fun _ _ => 0, fun p _ => ⟨if p = root then 2 else 0, none⟩⟩
  nodes a := ⟨0, 0, a ≠ root⟩
  removed _ := false
  locks _ := none
  fresh := 3
  calls := 0

theorem empty_initial : empty.Initial :=
  ⟨rfl, fun _ => rfl, fun _ => rfl, fun _ => rfl, rfl, ⟨rfl, rfl⟩, rfl, fun _ => rfl, fun _ => rfl, rfl⟩

/-- Thread 1 calls a snapshot, before the rest of a schedule. -/
theorem exists_run [DecidableEq R] (f : Body Nat Nat R) (shown : List (Fin 2 × Nat × (Bool ⊕ Nat ⊕ R)))
    (rest : List (Fin 2 × Choice Nat Nat R))
    (hrun : ((Process.next process (1, .withSnapshot f) ⟨empty, fun _ => .idle⟩).bind fun x =>
      run process.next rest x.2).any (fun x => decide ((x.1.filterMap fun e => e.what.shown) = shown)) = true) :
    ∃ h st, Exec (system (ι := Fin 2)) h st ∧ (∃ k, ⟨k, .withSnapshot 1 0 f⟩ ∈ h) ∧
      ∀ x ∈ shown, ∃ k, ⟨k, .showing x⟩ ∈ h := by
  obtain ⟨⟨h, st⟩, hsome, hshown⟩ := (Option.any_eq_true _ _).mp hrun
  obtain ⟨⟨es, st₁⟩, hnext, hrest⟩ := Option.bind_eq_some_iff.mp hsome
  have hfirst : Exec (system (ι := Fin 2)) ([] ++ es) st₁ := .step (.init ⟨empty_initial, fun _ => rfl⟩) hnext
  cases hnext
  refine ⟨_, st, hfirst.append_run hrest, ⟨zeroStamp, List.mem_append_left _ List.mem_cons_self⟩, fun x hx => ?_⟩
  rw [← of_decide_eq_true hshown] at hx
  obtain ⟨k, he⟩ := mem_of_shown hx
  exact ⟨k, List.mem_append_right _ he⟩

/-! ## The results -/

/-- A list that nobody writes, with the entries of a map. -/
structure Frozen [LinearOrder K] (next : Nat → Nat) (nodes : Nat → Node K V) (ns : List Nat) (map : K → Option V) : Prop where
  path : Path next (Precedes nodes) (End nodes) root ns
  inner : (nodes root).isEnd = false
  entries : ∀ k v, map k = some v ↔ ∃ a ∈ ns, a ≠ root ∧ (nodes a).isEnd = false ∧ (nodes a).key = k ∧ (nodes a).value = v

variable {h : List (Event K V R ι)} {st : Process.State ι (Memory K V ι) (Pc K V R)}

variable [LinearOrder K] [DecidableEq ι]

/-- In every run the updates that have changed the list are a sequence in the order of their stamps, up to each of
which they all have something to do. An update that has returned is one of them, once, if it has returned true, and
none of them if it has returned false. Its stamp is a time of the clock during its call, and updates that do not
overlap keep their order. -/
theorem updates_in_timeline (hexec : Exec (system (R := R)) h st) :
    ((timeline (stamps h)).Pairwise fun a b => a.2 ≤ b.2) ∧
      (∀ ls, zeroStamp ≤ ls → ∃ map, Plays actOf (.changed true) (upTo (timeline (stamps h)) ls) (fun _ => none) map) ∧
      ((timeline (stamps h)).map fun x => (x.1.1, x.1.2.1)).Nodup ∧
      (∀ k c n b, ⟨k, .ret c n b⟩ ∈ h → (b = true ↔ ∃ o t, ((c, n, o), t) ∈ timeline (stamps h))) ∧
      (∀ c n o t, ((c, n, o), t) ∈ timeline (stamps h) → (∃ k ≤ t, ⟨k, .call c n o⟩ ∈ h) ∧
        ∀ k b, ⟨k, .ret c n b⟩ ∈ h → t ≤ k) ∧
      ∀ c n o t d l o' t', ((c, n, o), t) ∈ timeline (stamps h) → ((d, l, o'), t') ∈ timeline (stamps h) →
        (∃ k k' b, Before h ⟨k, .ret c n b⟩ ⟨k', .call d l o'⟩) →
        Before (timeline (stamps h)) ((c, n, o), t) ((d, l, o'), t') := by
  obtain ⟨⟨hinv, hrec⟩, -⟩ := reliance.holds hexec
  have hmem : ∀ {x}, x ∈ timeline (stamps h) ↔ x ∈ stamps h := (timeline_perm _).mem_iff
  refine ⟨timeline_sorted _, fun ls hls => ?_, ?_, fun k c n b hret => ?_, fun c n o t hx => ?_,
    fun c n o t d l o' t' hx hy hbefore => ?_⟩
  · obtain ⟨map, hplays, -⟩ := hrec.replay ls hls
    exact ⟨map, hplays⟩
  · exact ((timeline_perm _).map _).nodup_iff.mpr (stamps_nodup hrec.fits)
  · rw [ret_iff hrec.fits hret]
    exact exists_congr fun o => exists_congr fun t => hmem.symm
  · obtain ⟨k, he⟩ := mem_stamps.mp (hmem.mp hx)
    obtain ⟨h₁, h₂, hsplit, -, htk, ⟨k₀, hle, hcall⟩, -⟩ := hrec.fits.of_mem he
    refine ⟨⟨k₀, hle, hsplit ▸ List.mem_append_left _ hcall⟩, fun k' b hret => htk.trans ?_⟩
    obtain ⟨g₁, g₂, rfl, hclocks, -⟩ := hrec.fits.of_mem hret
    exact hclocks _ (stamp_mem_left hrec.fits he (List.mem_append_right g₁ List.mem_cons_self) fun heq => by cases heq)
  · obtain ⟨k, he⟩ := mem_stamps.mp (hmem.mp hx)
    obtain ⟨k', he'⟩ := mem_stamps.mp (hmem.mp hy)
    obtain ⟨k₁, k₂, b, hbefore⟩ := hbefore
    obtain ⟨hle, hsub⟩ := stamps_in_order hrec.fits he he' hbefore
    exact timeline_sublist hle hsub

/-- A run with an `insert` that has returned true. -/
theorem updates_in_timeline_run : ∃ (h : List (Event Nat Nat Nat (Fin 2)))
    (st : Process.State (Fin 2) (Memory Nat Nat (Fin 2)) (Pc Nat Nat Nat)),
    Exec system h st ∧ ∃ o t, ((0, 1, o), t) ∈ timeline (stamps h) := by
  obtain ⟨h, st, hexec, -, hshown⟩ := exists_run (R := Nat) (.ret 0) [(0, 1, .inl true)]
    ((0, .call (.insert 5 50)) :: List.replicate 15 (0, .step true)) (by decide +kernel)
  obtain ⟨k, hret⟩ := hshown _ List.mem_cons_self
  exact ⟨h, st, hexec, ((updates_in_timeline hexec).2.2.2.1 k 0 1 true hret).mp rfl⟩

/-- In every run a snapshot that has got the stamp `ls` yields what its body yields on a list that nobody writes, and
whose entries are made by the updates up to `ls`. These are all updates that had returned before the snapshot was
called, and none that were called after it had its stamp. -/
theorem snapshot_answers (hexec : Exec (system (R := R)) h st) {c : ι} {n ls : Nat} {f : Body K V R}
    (hcall : ∃ k, ⟨k, .withSnapshot c n f⟩ ∈ h) (hbegan : ∃ k, ⟨k, .began c n ls⟩ ∈ h) :
    (∀ k r, ⟨k, .answer c n r⟩ ∈ h → ∃ map next nodes ns,
        Plays actOf (.changed true) (upTo (timeline (stamps h)) ls) (fun _ => none) map ∧ Frozen next nodes ns map ∧
          r = f.run next nodes) ∧
      ∀ d l o t, ((d, l, o), t) ∈ timeline (stamps h) →
        ((∃ k k' b, Before h ⟨k, .ret d l b⟩ ⟨k', .withSnapshot c n f⟩) → t ≤ ls) ∧
          ((∃ k k', Before h ⟨k, .began c n ls⟩ ⟨k', .call d l o⟩) → ls < t) := by
  obtain ⟨⟨hinv, hrec⟩, -⟩ := reliance.holds hexec
  obtain ⟨kc, hcall⟩ := hcall
  obtain ⟨kb, hbegan⟩ := hbegan
  refine ⟨fun k r hanswer => ?_, fun d l o t hx => ⟨fun hbefore => ?_, fun hbefore => ?_⟩⟩
  · obtain ⟨f', ls', ⟨k₁, hf⟩, ⟨k₂, hb⟩, hls, hfollows⟩ := hrec.answers k c n r hanswer
    obtain ⟨-, -, rfl⟩ := withSnapshot_unique hrec.fits hcall hf
    obtain ⟨-, rfl⟩ := began_unique hrec.fits hbegan hb
    obtain ⟨map, hplays, hmap⟩ := hrec.replay ls hls.1
    obtain ⟨ns, hns⟩ := hinv.paths ls hls.1
    refine ⟨map, st.memory.view ls, st.memory.nodes, ns, hplays,
      ⟨hns.path, hinv.root_inner, fun k v => (hmap k v).trans ?_⟩, hfollows.run⟩
    constructor
    · intro hc
      obtain ⟨a, hon, hrest⟩ := hc
      exact ⟨a, hon.mem hns, hrest⟩
    · intro hc
      obtain ⟨a, ha, hrest⟩ := hc
      exact ⟨a, ⟨ns, hns, ha⟩, hrest⟩
  · obtain ⟨k, he⟩ := mem_stamps.mp ((timeline_perm _).mem_iff.mp hx)
    obtain ⟨k₁, k₂, b, hbefore⟩ := hbefore
    obtain ⟨h₁, h₂, rfl, hret⟩ := before_iff.mp hbefore
    have hleft := stamp_mem_left hrec.fits he (List.mem_append_left _ hret) fun heq => by cases heq
    obtain ⟨s, u, hsplit, -, htk, -⟩ := hrec.fits.of_mem he
    obtain ⟨s', u', hsplit', -, -, ⟨k₀, hle, f', hf⟩, -⟩ := hrec.fits.of_mem hbegan
    have hws : (⟨k₂, .withSnapshot c n f⟩ : Event K V R ι) ∈ h₁ ++ ⟨k₂, .withSnapshot c n f⟩ :: h₂ :=
      List.mem_append_right _ List.mem_cons_self
    obtain ⟨rfl, -⟩ := withSnapshot_unique hrec.fits hws (hsplit' ▸ List.mem_append_left _ hf)
    exact (htk.trans (hrec.fits.split.1 _ hleft)).trans hle
  · obtain ⟨k, he⟩ := mem_stamps.mp ((timeline_perm _).mem_iff.mp hx)
    obtain ⟨k₁, k₂, hbefore⟩ := hbefore
    obtain ⟨h₁, h₂, rfl, hmem⟩ := before_iff.mp hbefore
    obtain ⟨hle, -, -⟩ := stamp_between hrec.fits he (List.mem_append_right h₁ List.mem_cons_self)
    obtain ⟨s, u, hsplit, -, hlt, -⟩ := hrec.fits.of_mem (List.mem_append_left _ hmem)
    exact (hlt.trans_le (hrec.fits.split.1 _ hmem)).trans_le hle

/-- A run in which a snapshot reads the first key, after it has been removed. -/
theorem snapshot_answers_run : ∃ (h : List (Event Nat Nat Nat (Fin 2)))
    (st : Process.State (Fin 2) (Memory Nat Nat (Fin 2)) (Pc Nat Nat Nat)),
    Exec system h st ∧ ∃ map next nodes ns,
      Plays actOf (.changed true) (upTo (timeline (stamps h)) 1) (fun _ => none) map ∧ Frozen next nodes ns map ∧
        5 = Body.run next nodes (.load root fun a => .node a fun d => .ret d.key) := by
  obtain ⟨h, st, hexec, hcall, hshown⟩ := exists_run (R := Nat) (.load root fun a => .node a fun d => .ret d.key)
    [(0, 1, .inl true), (1, 0, .inr (.inl 1)), (0, 2, .inl true), (1, 0, .inr (.inr 5))]
    (List.flatten [[(0, .call (.insert 5 50))], List.replicate 15 (0, .step true), List.replicate 3 (1, .step true),
      [(0, .call (.remove 5))], List.replicate 20 (0, .step true), List.replicate 6 (1, .step true)]) (by decide +kernel)
  have hbegan : ∃ k, ⟨k, .began 1 0 1⟩ ∈ h := hshown (1, 0, .inr (.inl 1)) (by simp)
  obtain ⟨k, hanswer⟩ := hshown (1, 0, .inr (.inr 5)) (by simp)
  exact ⟨h, st, hexec, (snapshot_answers hexec hcall hbegan).1 k 5 hanswer⟩

end Verlib.SnapshotList
