import Verlib.Indirect.LazyStep
import Mathlib.Data.Fintype.Basic

/-!
# Consistency of speculative snapshots

`lazy_snapshot_consistent` says that the result of every `with_snapshot` of the `LazyStamp` build is
consistent, whether it comes from a first run that was not aborted or from the second run.
-/

namespace Verlib.Indirect.Lazy

open Interleaving

variable {P ι : Type} {G G' : Chains P} {m m' : Memory P} {h es : List (Event P)} {ops : Nat}
  {locked : P → Bool} {own own' : Nat → Option ι} {c : ι}

/-! ## Which events a step emits -/

/-- What follows `set_stamp` belongs to the same call, and a return ends it. -/
theorem resume_frame (k : After P) (m : Memory P) :
    ((k.resume m).2.op = k.op ∨ (k.resume m).2.op = none) ∧ (∀ e ∈ (k.resume m).1, k.op = some e.id) ∧
      (∀ w b, .ret w b ∈ (k.resume m).1 → (k.resume m).2.op = none) ∧ (k.resume m).2.storing = none := by
  cases k with
  | test k old =>
      simp only [After.resume]
      split
      · simp [Pc.op, After.op, Event.id, Pc.storing]
      · split
        · simp [Pc.op, After.op, Event.id, Pc.storing]
        · simp [Pc.op, After.op, Pc.storing]
  | _ => simp [After.resume, Pc.op, After.op, Event.id, Pc.storing]

/-- A step goes on with the same call or ends it, its events belong to this call, a return ends it, and it
takes no lock. -/
theorem stepThread_frame [DecidableEq P] {help : Bool} {pc : Pc P} {r : Result P} {last : P → Nat} {tag : Nat}
    (hstep : stepThread help m last tag pc = some r) :
    (r.pc.op = pc.op ∨ r.pc.op = none) ∧ (∀ e ∈ r.events, pc.op = some e.id) ∧
      (∀ w b, .ret w b ∈ r.events → r.pc.op = none) ∧ (r.pc.storing = pc.storing ∨ r.pc.storing = none) := by
  cases pc with
  | idle | inside => cases hstep
  | setStamp y x k =>
      simp only [stepThread] at hstep
      split at hstep
      · cases hstep
        refine ⟨.inl rfl, by simp, by simp, .inl ?_⟩
        cases k <;> rfl
      · rename_i m' heq
        cases hstep
        obtain ⟨hop, hes, hret, hstoring⟩ := resume_frame k m'
        exact ⟨hop, hes, hret, .inr hstoring⟩
  | cas k =>
      cases hstep
      refine ⟨.inl rfl, ?_, ?_, .inl rfl⟩
      · intro e he
        split at he
        · obtain rfl := List.mem_singleton.mp he
          rfl
        · simp at he
      · intro w b hmem
        split at hmem <;> simp at hmem
  | follow r p head =>
      simp only [stepThread, Option.map_eq_some_iff] at hstep
      obtain ⟨l, _, rfl⟩ := hstep
      simp [Pc.op, Pc.storing]
  | storeSwap | camRead | camSwap | verify | verifyStamp | walk | again =>
      cases help <;>
      · simp only [stepThread, install] at hstep
        split at hstep <;>
        · cases hstep
          simp [Pc.op, After.op, Event.id, Pc.storing]
  | store | storeNew | storeLoad | casNew | failed | load | getStamp | read | test | add =>
      cases hstep
      simp [Pc.op, After.op, Event.id, Pc.storing]

/-- Only pointers with a lock are stored into. -/
theorem PcOk.locked_of_storing {pc : Pc P} {p : P} (hpc : PcOk locked own c G m h pc)
    (hp : pc.storing = some p) : locked p = true := by
  match pc, hpc with
  | .store k, hpc =>
      cases hp
      exact Storing.locked hpc
  | .storeNew k _, hpc | .storeLoad k _, hpc | .storeSwap k _ _, hpc =>
      cases hp
      exact hpc.1.locked
  | .setStamp _ _ (.store k), hpc =>
      cases hp
      exact hpc.2.1

/-! ## The invariant of a run -/

/-- The invariant of a run: the chains, the history, what every thread knows, and the locks. -/
structure Inv (locked : P → Bool) (init : P → Option Nat) (own : Nat → Option ι) (G : Chains P)
    (h : List (Event P)) (st : State P ι) : Prop where
  chains : ChainInv G st.memory
  last : st.last = G.last
  hist : HistInv (G.versions st.memory) h st.ops
  init : ∀ p, (G.versions st.memory).value p 0 = init p
  threads : ∀ c, PcOk locked own c G st.memory h (st.threads c)
  ids : ∀ c w, (st.threads c).op = some w → w < st.ops ∧ ∀ b, .ret w b ∉ h
  distinct : ∀ c c' w, (st.threads c).op = some w → (st.threads c').op = some w → c = c'
  lock : ∀ c c' p, (st.threads c).storing = some p → (st.threads c').storing = some p → c = c'
  quiet : ∀ p, locked p = true → (∀ c, (st.threads c).storing ≠ some p) →
    (G.versions st.memory).stamp p (G.last p) ≠ none

/-- At the start every pointer has one version. -/
theorem inv_initial {init : P → Option Nat} {st : State P ι} (hinit : Initial init st) :
    ∃ own G, Inv locked init own G [] st := by
  refine ⟨fun _ => none, ⟨fun _ => 0, fun p _ => (st.memory.v p).2, fun _ _ => 0⟩, ?_⟩
  have hstamp : ∀ p, (st.memory.links (st.memory.v p).2).timeStamp = some zeroStamp := by
    intro p
    rw [hinit.link p]
  have hzero : ∀ {i : Nat}, ¬ i < 0 := Nat.not_lt_zero _
  refine ⟨⟨hinit.stamp, ⟨fun _ _ _ => Nat.zero_le _, ?_, fun _ _ _ _ _ => Nat.zero_le _, ?_,
    fun _ _ hi => absurd hi hzero⟩, fun _ => rfl, ?_, fun _ _ hi => absurd hi hzero, hstamp, ?_⟩,
    funext hinit.last, ⟨by simp, by simp, ?_, by simp, by simp, ?_, by simp⟩, ?_, ?_, ?_, ?_, ?_, ?_⟩
  · intro p i t _ ht
    obtain rfl : zeroStamp = t := Option.some.inj ((hstamp p).symm.trans ht)
    exact hinit.stamp
  · intro p i j t hij hj
    have hj : j ≤ 0 := hj
    omega
  · rintro l ⟨p, i, _, rfl⟩
    exact hinit.word p
  · intro p q i j hi hj heq
    have hi : i ≤ 0 := hi
    have hj : j ≤ 0 := hj
    exact ⟨hinit.distinct p q heq, by omega⟩
  · intro p i hpos hi
    have hi : i ≤ 0 := hi
    omega
  · intro op op' p q i j x hb
    simp at hb
  · intro p
    show (st.memory.links (st.memory.v p).2).value = init p
    rw [hinit.link p]
  · intro c
    rw [hinit.threads c]
    trivial
  · intro c w hw
    rw [hinit.threads c] at hw
    cases hw
  · intro c c' w hw
    rw [hinit.threads c] at hw
    cases hw
  · intro c c' p hp
    rw [hinit.threads c] at hp
    cases hp
  · intro p _ _
    show (st.memory.links (st.memory.v p).2).timeStamp ≠ none
    rw [hstamp p]
    exact Option.some_ne_none _

/-- Two threads that hold the same thing before one of them moves are the same. -/
theorem update_injective [DecidableEq ι] {α : Type} {threads : ι → Pc P} {f : Pc P → Option α} {pc' : Pc P}
    (hinj : ∀ c c' a, f (threads c) = some a → f (threads c') = some a → c = c')
    (hnew : ∀ a, f pc' = some a → f (threads c) = some a ∨ ∀ u, f (threads u) ≠ some a) (c₁ c₂ : ι) (a : α)
    (h₁ : f (Function.update threads c pc' c₁) = some a) (h₂ : f (Function.update threads c pc' c₂) = some a) :
    c₁ = c₂ := by
  have hother : ∀ u, u ≠ c → f pc' = some a → f (threads u) ≠ some a := by
    intro u hne ha hu
    rcases hnew a ha with hold | hno
    · exact hne (hinj u c a hu hold)
    · exact hno u hu
  rcases eq_or_ne c₁ c with rfl | hne₁
  · rcases eq_or_ne c₂ c₁ with rfl | hne₂
    · rfl
    · rw [Function.update_self] at h₁
      rw [Function.update_of_ne hne₂] at h₂
      exact absurd h₂ (hother c₂ hne₂ h₁)
  · rw [Function.update_of_ne hne₁] at h₁
    rcases eq_or_ne c₂ c with rfl | hne₂
    · rw [Function.update_self] at h₂
      exact absurd h₁ (hother c₁ hne₁ h₂)
    · rw [Function.update_of_ne hne₂] at h₂
      exact hinj c₁ c₂ a h₁ h₂

section Update

variable {init : P → Option Nat} {st : State P ι}

/-- A new call has had no effect. -/
theorem Inv.noEffect (hinv : Inv locked init own G h st) : NoEffect (h ++ [.call st.ops]) st.ops := by
  intro p i heff
  rcases effect_append.mp heff with (hk | ⟨x, hx⟩) | hk | ⟨x, hx⟩
  · exact absurd (hinv.hist.ids _ hk) (Nat.lt_irrefl _)
  · exact absurd (hinv.hist.ids _ hx) (Nat.lt_irrefl _)
  · simp at hk
  · simp at hx

/-- The call of a `store` or `cas` is added to the history. -/
theorem Inv.call (hinv : Inv locked init own G h st) :
    HistInv (G.versions st.memory) (h ++ [.call st.ops]) (st.ops + 1) :=
  hinv.hist.record (Nat.le_succ _) (Nat.lt_succ_self _) fun _ _ _ hmem =>
    absurd (hinv.hist.ids _ hmem) (Nat.lt_irrefl _)

variable [DecidableEq ι]

/-- One thread moves. Its events belong to its call or to a new one. -/
theorem Inv.update {ops' : Nat} {r : Result P} (hinv : Inv locked init own G h st)
    (hm : Moved locked own c G st.memory h ops' (st.threads c) own' G' r) (hops : st.ops ≤ ops')
    (hes : ∀ e ∈ r.events, (st.threads c).op = some e.id ∨ st.ops ≤ e.id)
    (hop' : ∀ w, r.pc.op = some w → (st.threads c).op = some w ∨ st.ops ≤ w ∧ w < ops')
    (hret : ∀ w b, .ret w b ∈ r.events → r.pc.op ≠ some w)
    (hstoring : ∀ p, r.pc.storing = some p →
      (st.threads c).storing = some p ∨ ∀ u, (st.threads u).storing ≠ some p) :
    Inv locked init own' G' (h ++ r.events)
      ⟨r.memory, Function.update st.threads c r.pc, ops', r.last⟩ := by
  have hext := hm.evolves.1
  -- The events of this step are events of no other thread.
  have hforeign : ∀ u, u ≠ c → ∀ w, (st.threads u).op = some w → ∀ e ∈ r.events, e.id ≠ w := by
    rintro u hne w hw e he rfl
    rcases hes e he with hsame | hnew
    · exact hne (hinv.distinct u c _ hw hsame)
    · exact absurd (hinv.ids u _ hw).1 (Nat.not_lt.mpr hnew)
  have hlive : ∀ op p i, Effect r.events op p i → ∀ b, .ret op b ∉ h := by
    intro op p i heff b hmem
    obtain ⟨e, he, rfl⟩ : ∃ e ∈ r.events, Event.id e = op := by
      rcases heff with hk | ⟨x, hx⟩
      · exact ⟨_, hk, rfl⟩
      · exact ⟨_, hx, rfl⟩
    rcases hes e he with hsame | hnew
    · exact (hinv.ids c _ hsame).2 b hmem
    · exact absurd (hinv.hist.ids _ hmem) (Nat.not_lt.mpr hnew)
  -- Another thread's pointer is locked, so this step installs nothing there.
  have hlast : ∀ u, u ≠ c → ∀ p, (st.threads u).storing = some p → G'.last p = G.last p := by
    intro u hne p hp
    by_contra hchanged
    rcases hm.lock p hchanged with hc | hfree
    · exact hne (hinv.lock u c p hp hc)
    · exact absurd ((hinv.threads u).locked_of_storing hp) (by simp [hfree])
  have hcases : ∀ {Q : ι → Pc P → Prop}, Q c r.pc → (∀ u, u ≠ c → Q u (st.threads u)) →
      ∀ u, Q u (Function.update st.threads c r.pc u) := by
    intro Q hself hother u
    rcases eq_or_ne u c with rfl | hne
    · rwa [Function.update_self]
    · rw [Function.update_of_ne hne]
      exact hother u hne
  refine ⟨hm.evolves.2, hm.last, hm.hist, ?_, hcases hm.pcOk ?_, ?_,
    update_injective hinv.distinct ?_, update_injective hinv.lock hstoring, ?_⟩
  · intro p
    rw [hext.grows.value p 0 (Nat.zero_le _)]
    exact hinv.init p
  · intro u hne
    refine (hinv.threads u).ext hext hlive (hforeign u hne) hm.owner ?_ (hlast u hne)
    intro l hl hin
    rcases hm.inst l hin with hold | hc
    · exact hold
    · rw [hl] at hc
      exact absurd (Option.some.inj hc) hne
  · refine hcases (Q := fun _ pc => ∀ w, pc.op = some w → w < ops' ∧ ∀ b, .ret w b ∉ h ++ r.events) ?_ ?_
    · intro w hw
      refine ⟨?_, fun b hmem => ?_⟩
      · rcases hop' w hw with hsame | hnew
        · exact (hinv.ids c w hsame).1.trans_le hops
        · exact hnew.2
      · rcases List.mem_append.mp hmem with hold | hnew
        · rcases hop' w hw with hsame | hge
          · exact (hinv.ids c w hsame).2 b hold
          · exact absurd (hinv.hist.ids _ hold) (Nat.not_lt.mpr hge.1)
        · exact hret w b hnew hw
    · intro u hne w hw
      refine ⟨(hinv.ids u w hw).1.trans_le hops, fun b => ?_⟩
      exact not_mem_append (hforeign u hne w hw) ((hinv.ids u w hw).2 b)
  · intro w hw
    rcases hop' w hw with hsame | hge
    · exact .inl hsame
    · exact .inr fun u hu => absurd (hinv.ids u w hu).1 (Nat.not_lt.mpr hge.1)
  · intro p hp hnobody
    have hself : r.pc.storing ≠ some p := by simpa using hnobody c
    by_cases hc : (st.threads c).storing = some p
    · exact (hm.head p hc).resolve_left hself
    · have hsame : G'.last p = G.last p := by
        by_contra hchanged
        rcases hm.lock p hchanged with hc' | hfree
        · exact hc hc'
        · exact absurd hp (by simp [hfree])
      rw [hsame]
      refine hext.grows.ne_none le_rfl (hinv.quiet p hp fun u => ?_)
      rcases eq_or_ne u c with rfl | hne
      · exact hc
      · simpa [hne] using hnobody u

/-- A thread starts or ends something, without touching the memory. -/
theorem Inv.goto {ops' : Nat} {pc' : Pc P} (hinv : Inv locked init own G h st)
    (hist' : HistInv (G.versions st.memory) (h ++ es) ops') (hops : st.ops ≤ ops')
    (hpc' : PcOk locked own c G st.memory (h ++ es) pc')
    (hes : ∀ e ∈ es, (st.threads c).op = some e.id ∨ st.ops ≤ e.id)
    (hop' : ∀ w, pc'.op = some w → (st.threads c).op = some w ∨ st.ops ≤ w ∧ w < ops')
    (hret : ∀ w b, Event.ret w b ∉ es) (hbefore : (st.threads c).storing = none)
    (hstoring : ∀ p, pc'.storing = some p → ∀ u, (st.threads u).storing ≠ some p) :
    Inv locked init own G (h ++ es) ⟨st.memory, Function.update st.threads c pc', ops', st.last⟩ := by
  rw [hinv.last]
  refine hinv.update (r := ⟨es, st.memory, G.last, pc'⟩) (moved_of_evolves ⟨Ext.refl G _, hinv.chains⟩ hist' hpc'
    (fun _ _ => rfl) ?_) hops hes hop' (fun w b hmem => absurd hmem (hret w b)) fun p hp => .inr (hstoring p hp)
  intro p hp
  rw [hbefore] at hp
  cases hp

variable [DecidableEq P]

/-- Every step keeps the invariant. -/
theorem Inv.step {help : Bool} {st' : State P ι} {act : Action P ι} (hinv : Inv locked init own G h st)
    (hserial : Serialised st act) (hstep : next help locked act st = some (es, st')) :
    ∃ own' G', Inv locked init own' G' (h ++ es) st' := by
  cases act with
  | step c tag =>
      simp only [next, Option.map_eq_some_iff] at hstep
      obtain ⟨r, hr, heq⟩ := hstep
      cases heq
      obtain ⟨hop, hes, hret, hstoring⟩ := stepThread_frame hr
      rw [hinv.last] at hr
      obtain ⟨own', G', hm⟩ := (hinv.threads c).step hinv.chains hinv.hist (hinv.ids c) hr
      refine ⟨own', G', hinv.update hm le_rfl (fun e he => .inl (hes e he)) ?_ ?_ ?_⟩
      · intro w hw
        rcases hop with hsame | hnone
        · exact .inl (hsame ▸ hw)
        · rw [hnone] at hw
          cases hw
      · intro w b hmem habs
        rw [hret w b hmem] at habs
        cases habs
      · intro p hp
        rcases hstoring with hsame | hnone
        · exact .inl (hsame ▸ hp)
        · rw [hnone] at hp
          cases hp
  | store c p ptr =>
      simp only [next] at hstep
      split at hstep
      · rename_i hidle hlock
        cases hstep
        have hnobody : ∀ u, (st.threads u).storing ≠ some p := hserial
        have hhead := hinv.quiet p hlock hnobody
        refine ⟨own, G, hinv.goto hinv.call (Nat.le_succ _) ⟨hlock, hinv.noEffect, hhead⟩ (by simp [Event.id])
          (by rintro w ⟨⟩; exact .inr ⟨le_rfl, Nat.lt_succ_self _⟩) (by simp) (by rw [hidle]; rfl) ?_⟩
        rintro q ⟨⟩
        exact hnobody
      · cases hstep
  | cas c p exp ptr =>
      simp only [next] at hstep
      split at hstep
      · rename_i hidle hlock
        cases hstep
        exact ⟨own, G, hinv.goto hinv.call (Nat.le_succ _) ⟨hlock, hinv.noEffect⟩ (by simp [Event.id])
          (by rintro w ⟨⟩; exact .inr ⟨le_rfl, Nat.lt_succ_self _⟩) (by simp) (by rw [hidle]; rfl)
          (by rintro q ⟨⟩)⟩
      · cases hstep
  | load c p =>
      simp only [next] at hstep
      split at hstep
      · rename_i hidle
        cases hstep
        exact ⟨own, G, hinv.goto (by simpa using hinv.hist) le_rfl trivial (by simp) (by rintro w ⟨⟩) (by simp)
          (by rw [hidle]; rfl) (by rintro q ⟨⟩)⟩
      · cases hstep
  | withSnapshot c =>
      simp only [next] at hstep
      split at hstep
      · rename_i hidle
        cases hstep
        have hno : ∀ e : Event P, e.id = st.ops → e ∉ h := by
          intro e he hmem
          exact absurd (hinv.hist.ids e hmem) (by omega)
        refine ⟨own, G, hinv.goto (hinv.hist.record (Nat.le_succ _) (Nat.lt_succ_self _) fun b => hno _ rfl)
          (Nat.le_succ _) ⟨?_, ?_⟩ (by simp [Event.id])
          (by rintro w ⟨⟩; exact .inr ⟨le_rfl, Nat.lt_succ_self _⟩) (by simp) (by rw [hidle]; rfl)
          (by rintro q ⟨⟩)⟩
        · intro b p x hmem
          exact hno (.read st.ops b p x) rfl (by simpa using hmem)
        · intro b hmem
          exact hno (.result st.ops b) rfl (by simpa using hmem)
      · cases hstep
  | read c p =>
      simp only [next] at hstep
      split at hstep
      · rename_i r hin
        cases hstep
        have hpc := hinv.threads c
        rw [hin] at hpc
        refine ⟨own, G, hinv.goto (by simpa using hinv.hist) le_rfl ?_ (by simp)
          (fun w hw => .inl (by rw [hin]; exact hw)) (by simp) (by rw [hin]; rfl) (by rintro q ⟨⟩)⟩
        rw [List.append_nil]
        exact hpc
      · cases hstep
  | finish c =>
      have hpc := hinv.threads c
      have hid := hinv.ids c
      simp only [next] at hstep
      split at hstep
      · rename_i s ls hin
        cases hstep
        rw [hin] at hpc
        obtain ⟨k, hr⟩ := hpc
        refine ⟨own, G, hinv.goto (by simpa using hinv.hist) le_rfl ⟨k, ?_⟩ (by simp)
          (fun w hw => .inl (by rw [hin]; exact hw)) (by simp) (by rw [hin]; rfl) (by rintro q ⟨⟩)⟩
        rw [List.append_nil]
        exact ⟨hr.counted, hr.zero, hr.bound, rfl, hr.second rfl, hr.unfinished⟩
      · rename_i s ls hin
        cases hstep
        rw [hin] at hpc hid
        obtain ⟨k, hr⟩ := hpc
        refine ⟨own, G, hinv.goto (hinv.hist.record le_rfl (hid s rfl).1 ⟨k, ls, ls, Nat.le_succ _, hr.bound,
          hr.counted, hr.reads (by simp)⟩) le_rfl trivial ?_ (by rintro w ⟨⟩) (by simp) (by rw [hin]; rfl)
          (by rintro q ⟨⟩)⟩
        simp [hin, Pc.op, Event.id]
      · rename_i s ls ab hin
        cases hstep
        rw [hin] at hpc hid
        obtain ⟨k, hr⟩ := hpc
        refine ⟨own, G, hinv.goto (hinv.hist.record le_rfl (hid s rfl).1 ⟨k, ls, ls + 1, le_rfl, hr.bound,
          hr.counted, hr.reads (by simp)⟩) le_rfl trivial ?_ (by rintro w ⟨⟩) (by simp) (by rw [hin]; rfl)
          (by rintro q ⟨⟩)⟩
        simp [hin, Pc.op, Event.id]
      · cases hstep

end Update

/-! ## The theorem -/

/-- `x` is the value of version `i` of `p`. -/
def IsVersion (init : P → Option Nat) (h : List (Event P)) (p : P) (i : Nat) (x : Option Nat) : Prop :=
  i = 0 ∧ x = init p ∨ ∃ op, .install op p i x ∈ h

/-- The first or the second run of the body of snapshot `s` has read `p`. -/
def Reads (h : List (Event P)) (s : Nat) (second : Bool) (p : P) : Prop :=
  ∃ x, .read s second p x ∈ h

/-- A run of the body of snapshot `s` shows of each pointer that it reads the version that `cut` says: its
reads return the value of this version, it shows every `store` and `cas` that returned true before the
snapshot began, and with an update it shows everything that returned true before that update was called. -/
structure ShowsCut (init : P → Option Nat) (h : List (Event P)) (s : Nat) (second : Bool) (cut : P → Nat) :
    Prop where
  reads : ∀ p x, .read s second p x ∈ h → IsVersion init h p (cut p) x
  repeated : ∀ p x y, .read s second p x ∈ h → .read s second p y ∈ h → x = y
  before : ∀ op p i, Reads h s second p → Before h (.ret op true) (.began s) → Effect h op p i → i ≤ cut p
  closed : ∀ op op' p q i j x, Reads h s second p → Reads h s second q →
    Before h (.ret op true) (.call op') → Effect h op p i → .install op' q j x ∈ h → j ≤ cut q → i ≤ cut p

/-- Where the reads of a pointer stopped. -/
theorem ReadsBelow.exists_cut {V : Versions P (Option Nat)} {s ls B : Nat} {second : Bool} {k : P → Nat}
    (hV : V.Ordered) (hB : B ≤ ls + 1) (hr : ReadsBelow V h s second k ls B) :
    ∃ cut : P → Nat, ∀ p x, .read s second p x ∈ h → V.CutTo k ls B p (cut p) ∧ V.value p (cut p) = x := by
  classical
  refine ⟨fun p => if hp : ∃ i, V.CutTo k ls B p i then hp.choose else 0, fun p x hmem => ?_⟩
  obtain ⟨i, hcut, hx⟩ := hr p x hmem
  have hp : ∃ i, V.CutTo k ls B p i := ⟨i, hcut⟩
  have heq : i = hp.choose := hcut.unique hV hB hp.choose_spec
  simp only [dif_pos hp]
  rw [← heq]
  exact ⟨hcut, hx⟩

variable [DecidableEq P] [DecidableEq ι]

/-- Every `with_snapshot` returns the result of a consistent run of its body, and an update that has returned
true has installed a version or found its value in one. -/
theorem lazy_snapshot_consistent {help : Bool} {init : P → Option Nat} {st : State P ι}
    (hexec : Exec (system help locked init) h st) :
    (∀ s second, .result s second ∈ h → ∃ cut, ShowsCut init h s second cut) ∧
      ∀ op, .ret op true ∈ h → ∃ p i, Effect h op p i := by
  obtain ⟨own, G, hinv⟩ : ∃ own G, Inv locked init own G h st := by
    refine Exec.invariant (P := fun h st => ∃ own G, Inv locked init own G h st) ?_ ?_ hexec
    · intro st hinit
      exact inv_initial hinit
    · rintro h st act es st' _ ⟨own, G, hinv⟩ ⟨hserial, hstep⟩
      exact hinv.step hserial hstep
  refine ⟨fun s second hres => ?_, fun op hret => (hinv.hist.ret op hret).1⟩
  have hV := hinv.chains.ordered
  obtain ⟨k, ls, B, hB, _, hcount, hreads⟩ := hinv.hist.result s second hres
  obtain ⟨cut, hcut⟩ := hreads.exists_cut hV hB
  refine ⟨cut, ⟨?_, ?_, ?_, ?_⟩⟩
  · intro p x hmem
    obtain ⟨hc, rfl⟩ := hcut p x hmem
    rcases Nat.eq_zero_or_pos (cut p) with hzero | hpos
    · refine .inl ⟨hzero, ?_⟩
      rw [hzero]
      exact hinv.init p
    · exact .inr (hinv.hist.installed p (cut p) hpos hc.le_last)
  · intro p x y hx hy
    rw [← (hcut p x hx).2, (hcut p y hy).2]
  · rintro op p i ⟨x, hx⟩ hb heff
    obtain ⟨hle, hw⟩ := hcount.before op p i hb heff
    exact (hcut p x hx).1.le_of_counted (hinv.hist.le heff) hle hw
  · rintro op op' p q i j z ⟨x, hx⟩ ⟨y, hy⟩ hb heff hmem hj
    -- The other update got its stamp before this version was installed, hence below `B`.
    obtain ⟨t, ht, hle⟩ := hinv.hist.closed op op' p q i j z hb heff hmem
    have hlt := (hcut q y hy).1.born_lt hV hj
    exact (hcut p x hx).1.le_of_lt hV hB (hinv.hist.le heff) ht (hle.trans_lt hlt)

omit [DecidableEq ι] in
/-- Whether the lock of a pointer is free is decidable for finitely many threads. -/
instance [Fintype ι] (st : State P ι) (act : Action P ι) : Decidable (Serialised st act) :=
  match act with
  | .store _ p _ => inferInstanceAs (Decidable (∀ u, (st.threads u).storing ≠ some p))
  | .step _ _ | .cas _ _ _ _ | .load _ _ | .withSnapshot _ | .read _ _ | .finish _ => isTrue trivial

/-- A run: object 5 is stored in one pointer, and the snapshot that reads it meets its own stamp and is
aborted. Before its second run object 7 is put into the other pointer, where the snapshot walks past it. The
next snapshot needs one run only. -/
theorem lazy_snapshot_consistent_run :
    ∃ h st, Exec (system (ι := Bool) true (fun p : Bool => p) fun _ => none) h st ∧
      Before h (.ret 0 true) (.began 1) ∧ .read 1 true true (some 5) ∈ h ∧ .read 1 true false none ∈ h ∧
      (∃ cut, ShowsCut (fun _ => none) h 1 true cut) ∧ ∃ cut, ShowsCut (fun _ => none) h 3 false cut := by
  obtain ⟨h, st, hexec, rfl⟩ : ∃ h st, Exec (system (ι := Bool) true (fun p : Bool => p) fun _ => none) h st ∧
      h = [.call 0, .install 0 true 1 (some 5), .ret 0 true, .began 1, .read 1 false true (some 5), .call 2,
        .install 2 false 1 (some 7), .ret 2 true, .read 1 true true (some 5), .read 1 true false none,
        .result 1 true, .began 3, .read 3 false true (some 5), .result 3 false] :=
    exists_exec_restrict_of_run
      (s := ⟨⟨1, fun p => (0, if p then 1 else 0), fun _ => ⟨some 1, none, none⟩, 2⟩, fun _ => .idle, 0, fun _ => 0⟩)
      _
        (List.flatten [[.store true true (some 5)], List.replicate 8 (.step true 0),
          [.withSnapshot false, .step false 0, .read false true], List.replicate 4 (.step false 0),
          [.finish false], List.replicate 2 (.step false 0), [.cas true false none (some 7)],
          List.replicate 10 (.step true 0), [.read false true], List.replicate 4 (.step false 0),
          [.read false false], List.replicate 6 (.step false 0),
          [.finish false, .withSnapshot false, .step false 0, .read false true],
          List.replicate 4 (.step false 0), [.finish false]])
      ⟨le_rfl, by decide, by simp [zeroStamp], by decide, fun _ => rfl, rfl, fun _ => rfl⟩ (by decide +kernel)
  exact ⟨_, st, hexec, by decide, by decide, by decide, (lazy_snapshot_consistent hexec).1 1 true (by decide),
    (lazy_snapshot_consistent hexec).1 3 false (by decide)⟩

end Verlib.Indirect.Lazy
