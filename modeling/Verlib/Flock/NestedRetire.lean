import Verlib.Flock.NestedStack

/-!
# Exactly-once reclamation

An owner hands every object on the path that it takes itself, once. What it may miss is a nested thunk
that it does not run because it finds the result in place of the descriptor: `retire_lost` is such a
run. `retired_once` says that nothing is lost or handed twice in a run where no owner finds a result.

The proof follows the progress of the owners. `P d` is the number of operations of the thunk of `d` that
its owner has been through; everything before that point has been handed once, and every nested call
before it has been run to its end.
-/

namespace Verlib.Flock.Nested

open Interleaving
open LockWord (Entry)

variable {Λ κ : Type} {h h' es : List Event} {sh sh' : Shared Λ} {P : Nat → Nat}

/-! ## What does not change any more -/

section Transport

variable (hext : Ext h sh h' sh') (hinv : SharedInv h sh) (hinv' : SharedInv h' sh')
include hext hinv hinv'

/-- A descriptor of the log was there before, if it had been allocated. -/
theorem Ext.desc_old {d i e : Nat} (he : e < sh.fresh) (hslot : (sh'.slots d i).desc = some e) :
    (sh.slots d i).desc = some e := by
  have hchild := hinv'.child d i e hslot
  obtain ⟨_, hroot, _⟩ := hext.desc_eq he
  rcases (hinv.root e he).2 with hself | ⟨d', i', hold⟩
  · have hd := hinv'.root d (hchild.lt.trans hchild.fresh)
    have hlt := hchild.lt
    have heq := hchild.root
    rw [hroot, hself] at heq
    omega
  · obtain ⟨rfl, rfl⟩ := hinv'.parent d i d' i' e hslot (hext.desc _ _ _ hold)
    exact hold

omit hinv' in
/-- A point before one that was reached had been reached. -/
theorem Ext.at_old {d i j : Nat} {s t : Thunk Λ} (hj : At h sh d j t) (hi : i < j)
    (hs : At h' sh' d i s) : At h sh d i s := by
  obtain ⟨u, hu, _⟩ := hj.before hi
  rw [(hext.at hinv.toLogInv hu).unique hs]
  exact hu

/-- A nested call that the path has gone past is not stored any more. -/
theorem Ext.stored_old {d i j e : Nat} {t : Thunk Λ} (hj : At h sh d j t) (hi : i < j)
    (hslot : (sh'.slots d i).desc = some e) (hst : Stored h' e) :
    (sh.slots d i).desc = some e ∧ Stored h e := by
  have hlt : e < sh.fresh := by
    rcases hext.store e hst with hold | hnew
    · exact (hinv.stored e hold).1
    · exact hnew.1
  have hold := hext.desc_old hinv hinv' hlt hslot
  refine ⟨hold, ?_⟩
  obtain ⟨k, hcall⟩ := (hinv.child _ _ _ hold).call
  obtain ⟨w, hw, hother, _⟩ := (hinv.child _ _ _ hold).aim
  have hnext : ∃ u, At h sh d (i + 1) u := by
    rcases Nat.lt_or_eq_of_le (Nat.succ_le_of_lt hi) with hlt | rfl
    · obtain ⟨u, hu, _⟩ := hj.before hlt
      exact ⟨u, hu⟩
    · exact ⟨t, hj⟩
  obtain ⟨u, hu⟩ := hnext
  obtain ⟨w', hw', hself | ⟨_, e', he', hs | hl⟩⟩ := hcall.call_cases hu
  · rw [hw] at hw'
    cases hw'
    rw [hother] at hself
    cases hself
  · rw [hold] at he'
    cases he'
    exact hs
  · rw [hold] at he'
    cases he'
    exact hext.stored_of_missed hl.2 hst

end Transport

/-! ## The progress of the owners -/

/-- The owner of `e` has been through the whole thunk. -/
def Full (h : List Event) (sh : Shared Λ) (P : Nat → Nat) (e : Nat) : Prop :=
  ∃ r, At h sh e (P e) (.ret r)

/-- What the owners have handed: nothing beyond their progress, everything before it once, and they
have been through the nested thunks before it. -/
structure Handed (h : List Event) (sh : Shared Λ) (P : Nat → Nat) : Prop where
  path : ∀ d, 0 < P d → ∃ t, At h sh d (P d) t
  hands : ∀ d i p, .hand d i p ∈ h → i < P d
  once : ∀ d i p k, i < P d → At h sh d i (.retire p k) → h.count (.hand d i p) = 1
  nested : ∀ d i e, i < P d → (sh.slots d i).desc = some e → Stored h e → Full h sh P e

/-- An outermost call that has returned was run to the end, or its descriptor is lost. -/
def Returned (h : List Event) (sh : Shared Λ) (P : Nat → Nat) : Prop :=
  ∀ d res, .returned d res ∈ h → d < sh.fresh ∧ (Lost h sh d ∨ Full h sh P d)

/-- A `retire` statement that was executed lies on the path of a stored descriptor. -/
def Reached (h : List Event) (sh : Shared Λ) : Prop :=
  ∀ d i p, .reach d i p ∈ h → Stored h d ∧ ∃ k, At h sh d i (.retire p k)

/-- One owner has done one more operation. -/
def advance (P : Nat → Nat) (d : Nat) : Nat → Nat :=
  Function.update P d (P d + 1)

/-- Progress does not go back. -/
theorem le_advance (P : Nat → Nat) (d e : Nat) : P e ≤ advance P d e := by
  unfold advance
  rcases eq_or_ne e d with rfl | hne
  · rw [Function.update_self]
    omega
  · rw [Function.update_of_ne hne]

/-- A thunk that its owner has been through stays that way. -/
theorem Full.advance {d e : Nat} {t : Thunk Λ} (hfull : Full h sh P e)
    (hat : At h sh d (P d) t) (ht : ¬ t.IsRet) : Full h sh (advance P d) e := by
  obtain ⟨r, hr⟩ := hfull
  have hne : e ≠ d := by
    rintro rfl
    rw [hr.unique hat] at ht
    exact ht trivial
  refine ⟨r, ?_⟩
  rw [Nested.advance, Function.update_of_ne hne]
  exact hr

/-- Paths stay, so a thunk that its owner has been through stays that way. -/
theorem Full.ext {e : Nat} (hfull : Full h sh P e) (hext : Ext h sh h' sh')
    (hinv : SharedInv h sh) : Full h' sh' P e := by
  obtain ⟨r, hr⟩ := hfull
  exact ⟨r, hext.at hinv.toLogInv hr⟩

section Handed

variable (hext : Ext h sh (h ++ es) sh') (hinv : SharedInv h sh) (hinv' : SharedInv (h ++ es) sh')
include hext hinv hinv'

/-- A step that hands nothing. -/
theorem Handed.ext (hP : Handed h sh P) (hes : ∀ d i p, Event.hand d i p ∉ es) :
    Handed (h ++ es) sh' P where
  path d hd := by
    obtain ⟨t, ht⟩ := hP.path d hd
    exact ⟨t, hext.at hinv.toLogInv ht⟩
  hands d i p hmem := by
    rcases List.mem_append.mp hmem with hold | hnew
    · exact hP.hands d i p hold
    · exact absurd hnew (hes d i p)
  once d i p k hi hk := by
    obtain ⟨t, ht⟩ := hP.path d (by omega)
    rw [List.count_append, hP.once d i p k hi (hext.at_old hinv ht hi hk),
      List.count_eq_zero_of_not_mem (hes d i p)]
  nested d i e hi hslot hst := by
    obtain ⟨t, ht⟩ := hP.path d (by omega)
    obtain ⟨hold, hst'⟩ := hext.stored_old hinv hinv' ht hi hslot hst
    exact (hP.nested d i e hi hold hst').ext hext hinv

/-- The owner of `d` does an operation. -/
theorem Handed.advance (hP : Handed h sh P) {d : Nat} {t t' : Thunk Λ} (hat : At h sh d (P d) t)
    (ht : ¬ t.IsRet) (hnext : At (h ++ es) sh' d (P d + 1) t')
    (hes : ∀ e i p, .hand e i p ∈ es → e = d ∧ i = P d)
    (honce : ∀ p k, t = .retire p k → es.count (.hand d (P d) p) = 1)
    (hnested : ∀ e, (sh'.slots d (P d)).desc = some e → Stored (h ++ es) e → Full h sh P e) :
    Handed (h ++ es) sh' (Nested.advance P d) := by
  have hat' := hext.at hinv.toLogInv hat
  have hfull : ∀ {e}, Full h sh P e → Full (h ++ es) sh' (Nested.advance P d) e :=
    fun hf => (hf.ext hext hinv).advance hat' ht
  -- A point before the new progress is the point just passed or lies before the old progress.
  have hcases : ∀ {e i}, i < Nested.advance P d e → e = d ∧ i = P d ∨ i < P e := by
    intro e i hi
    unfold Nested.advance at hi
    rcases eq_or_ne e d with rfl | hne
    · rw [Function.update_self] at hi
      omega
    · rw [Function.update_of_ne hne] at hi
      exact .inr hi
  refine ⟨?_, ?_, ?_, ?_⟩
  · intro e he
    rcases eq_or_ne e d with rfl | hne
    · refine ⟨t', ?_⟩
      rw [Nested.advance, Function.update_self]
      exact hnext
    · rw [Nested.advance, Function.update_of_ne hne] at he ⊢
      obtain ⟨u, hu⟩ := hP.path e he
      exact ⟨u, hext.at hinv.toLogInv hu⟩
  · intro e i p hmem
    rcases List.mem_append.mp hmem with hold | hnew
    · exact (hP.hands e i p hold).trans_le (le_advance P d e)
    · obtain ⟨rfl, rfl⟩ := hes e i p hnew
      rw [Nested.advance, Function.update_self]
      omega
  · intro e i p k hi hk
    rw [List.count_append]
    rcases hcases hi with ⟨rfl, rfl⟩ | hlt
    · rw [honce p k (hk.unique hat'), List.count_eq_zero_of_not_mem]
      intro hmem
      exact absurd (hP.hands _ _ _ hmem) (Nat.lt_irrefl _)
    · obtain ⟨u, hu⟩ := hP.path e (by omega)
      rw [hP.once e i p k hlt (hext.at_old hinv hu hlt hk), List.count_eq_zero_of_not_mem]
      intro hmem
      obtain ⟨rfl, rfl⟩ := hes e i p hmem
      exact Nat.lt_irrefl _ hlt
  · intro e i e' hi hslot hst
    rcases hcases hi with ⟨rfl, rfl⟩ | hlt
    · exact hfull (hnested e' hslot hst)
    · obtain ⟨u, hu⟩ := hP.path e (by omega)
      obtain ⟨hold, hst'⟩ := hext.stored_old hinv hinv' hu hlt hslot hst
      exact hfull (hP.nested e i e' hlt hold hst')

end Handed

/-! ## Where the owners stand -/

/-- The descriptors of a stack of calls, each with the operation that the call stands at. -/
def marks (frames : List (Frame Λ)) : List (Nat × Nat) :=
  (frames.filter fun f => f.phase.hasDesc).map fun f => (f.desc, f.pos)

/-- The marks of an owner; helpers have none. -/
def Context.marks (x : Context Λ) : List (Nat × Nat) :=
  if x.helping then [] else Nested.marks x.frames

/-- The marks of all owners. -/
def State.marks (st : State Λ κ) (c : κ) : List (Nat × Nat) :=
  match st.contexts c with
  | some x => x.marks
  | none => []

/-- A call that has its descriptor has a mark. -/
theorem marks_cons {f : Frame Λ} {outer : List (Frame Λ)} (hf : f.phase.hasDesc = true) :
    marks (f :: outer) = (f.desc, f.pos) :: marks outer := by
  simp [marks, hf]

/-- A call that has no descriptor yet has no mark. -/
theorem marks_cons_of_not {f : Frame Λ} {outer : List (Frame Λ)} (hf : f.phase.hasDesc = false) :
    marks (f :: outer) = marks outer := by
  simp [marks, hf]

/-- The marks of a stack belong to one outermost call, and inner descriptors are younger. -/
theorem StackOk.marks_pairwise {threadId : Nat} {helping : Bool} {frames : List (Frame Λ)}
    (hframes : StackOk h sh threadId helping frames) (hinv : SharedInv h sh) :
    (marks frames).Pairwise fun a b => b.1 < a.1 ∧ (sh.descs b.1).root = (sh.descs a.1).root := by
  induction frames with
  | nil => exact .nil
  | cons f outer ih =>
      cases outer with
      | nil =>
          cases hd : f.phase.hasDesc with
          | false =>
              rw [marks_cons_of_not hd]
              exact .nil
          | true =>
              rw [marks_cons hd]
              exact List.pairwise_singleton _ _
      | cons g gs =>
          have hrest := ih hframes.2.2
          cases hd : f.phase.hasDesc with
          | false => rwa [marks_cons_of_not hd]
          | true =>
              have hchild := hinv.child _ _ _ (hframes.1.desc hd).linked
              rw [marks_cons hd]
              refine List.pairwise_cons.mpr ⟨?_, hrest⟩
              rw [marks_cons (by rw [hframes.2.1.1]; rfl)] at hrest ⊢
              intro b hb
              rcases List.mem_cons.mp hb with rfl | hb
              · exact ⟨hchild.lt, hchild.root.symm⟩
              · obtain ⟨hlt, hroot⟩ := (List.pairwise_cons.mp hrest).1 b hb
                exact ⟨hlt.trans hchild.lt, hroot.trans hchild.root.symm⟩

/-- The owners stand where their progress says, every nested descriptor that has been started is behind
its owner or still run by it, and one owner runs everything below an outermost call. -/
structure Owned (sh : Shared Λ) (P : Nat → Nat) (m : κ → List (Nat × Nat)) : Prop where
  lt : ∀ c d i, (d, i) ∈ m c → d < sh.fresh
  here : ∀ c d i, (d, i) ∈ m c → P d = i
  started : ∀ d i e, (sh.slots d i).desc = some e → 0 < P e → i < P d ∨ ∃ c j, (e, j) ∈ m c
  roots : ∀ c d i c' d' i', (d, i) ∈ m c → (d', i') ∈ m c' →
    (sh.descs d).root = (sh.descs d').root → c = c'

section Owned

variable {m : κ → List (Nat × Nat)} {c : κ}

/-- A step that moves no owner. -/
theorem Owned.ext (ho : Owned sh P m) (hP : Handed h sh P) (hext : Ext h sh h' sh')
    (hinv : SharedInv h sh) (hinv' : SharedInv h' sh') : Owned sh' P m where
  lt c d i hm := (ho.lt c d i hm).trans_le hext.fresh
  here := ho.here
  started d i e hslot he := by
    obtain ⟨t, ht⟩ := hP.path e he
    exact ho.started d i e (hext.desc_old hinv hinv' ht.lt_fresh hslot) he
  roots c d i c' d' i' hm hm' hroot := by
    obtain ⟨_, hr, _⟩ := hext.desc_eq (ho.lt c d i hm)
    obtain ⟨_, hr', _⟩ := hext.desc_eq (ho.lt c' d' i' hm')
    rw [hr, hr'] at hroot
    exact ho.roots c d i c' d' i' hm hm' hroot

variable [DecidableEq κ]

/-- An owner does an operation of `d`, leaving the call nested in it, if there is one. -/
theorem Owned.advance (ho : Owned sh P m) (hinv : SharedInv h sh) {d i : Nat}
    {inner rest : List (Nat × Nat)} (hm : m c = inner ++ (d, i) :: rest)
    (hrest : ∀ a ∈ rest, a.1 < d)
    (hinner : ∀ a ∈ inner, (sh.slots d i).desc = some a.1) :
    Owned sh (advance P d) (Function.update m c ((d, i + 1) :: rest)) := by
  have hhere : P d = i := ho.here c d i (by simp [hm])
  -- The descriptors with a mark had one before.
  have hold : ∀ {c' d' i'}, (d', i') ∈ Function.update m c ((d, i + 1) :: rest) c' →
      (c' = c ∧ d' = d ∧ i' = i + 1) ∨ d' ≠ d ∧ (d', i') ∈ m c' := by
    intro c' d' i' hmem
    rcases eq_or_ne c' c with rfl | hne
    · rw [Function.update_self] at hmem
      rcases List.mem_cons.mp hmem with heq | hmem
      · cases heq
        exact .inl ⟨rfl, rfl, rfl⟩
      · exact .inr ⟨(hrest _ hmem).ne, by simp [hm, hmem]⟩
    · rw [Function.update_of_ne hne] at hmem
      refine .inr ⟨?_, hmem⟩
      rintro rfl
      exact hne (ho.roots c' d' i' c d' i hmem (by simp [hm]) rfl)
  have hwas : ∀ {c' d' i'}, (d', i') ∈ Function.update m c ((d, i + 1) :: rest) c' →
      ∃ j, (d', j) ∈ m c' := by
    intro c' d' i' hmem
    rcases hold hmem with ⟨rfl, rfl, _⟩ | ⟨_, hmem⟩
    · exact ⟨i, by simp [hm]⟩
    · exact ⟨i', hmem⟩
  refine ⟨?_, ?_, ?_, ?_⟩
  · intro c' d' i' hmem
    obtain ⟨j, hj⟩ := hwas hmem
    exact ho.lt c' d' j hj
  · intro c' d' i' hmem
    rcases hold hmem with ⟨_, rfl, rfl⟩ | ⟨hne, hmem⟩
    · rw [Nested.advance, Function.update_self, hhere]
    · rw [Nested.advance, Function.update_of_ne hne]
      exact ho.here c' d' i' hmem
  · intro d' i' e hslot he
    rcases eq_or_ne e d with rfl | hne
    · exact .inr ⟨c, i + 1, by simp⟩
    · rw [Nested.advance, Function.update_of_ne hne] at he
      rcases ho.started d' i' e hslot he with hlt | ⟨c', j, hj⟩
      · exact .inl (hlt.trans_le (le_advance P d d'))
      · rcases eq_or_ne c' c with rfl | hc
        · rw [hm] at hj
          rcases List.mem_append.mp hj with hin | hj
          · obtain ⟨rfl, rfl⟩ := hinv.parent _ _ _ _ _ hslot (hinner _ hin)
            left
            rw [Nested.advance, Function.update_self]
            omega
          · rcases List.mem_cons.mp hj with heq | hj
            · cases heq
              exact absurd rfl hne
            · exact .inr ⟨c', j, by simp [hj]⟩
        · exact .inr ⟨c', j, by rwa [Function.update_of_ne hc]⟩
  · intro c₁ d₁ i₁ c₂ d₂ i₂ h₁ h₂ hroot
    obtain ⟨j₁, h₁⟩ := hwas h₁
    obtain ⟨j₂, h₂⟩ := hwas h₂
    exact ho.roots c₁ d₁ j₁ c₂ d₂ j₂ h₁ h₂ hroot

/-- An owner gets the descriptor `e` of its innermost call, of which nothing has been run. -/
theorem Owned.acquire (ho : Owned sh P m) {e : Nat} (he : e < sh.fresh) (hP : P e = 0)
    (hroot : ∀ c' d i, (d, i) ∈ m c' → (sh.descs d).root = (sh.descs e).root → c' = c) :
    Owned sh P (Function.update m c ((e, 0) :: m c)) := by
  have hold : ∀ {c' d i}, (d, i) ∈ Function.update m c ((e, 0) :: m c) c' →
      (c' = c ∧ d = e ∧ i = 0) ∨ (d, i) ∈ m c' := by
    intro c' d i hmem
    rcases eq_or_ne c' c with rfl | hne
    · rw [Function.update_self] at hmem
      rcases List.mem_cons.mp hmem with heq | hmem
      · cases heq
        exact .inl ⟨rfl, rfl, rfl⟩
      · exact .inr hmem
    · rw [Function.update_of_ne hne] at hmem
      exact .inr hmem
  refine ⟨?_, ?_, ?_, ?_⟩
  · intro c' d i hmem
    rcases hold hmem with ⟨_, rfl, _⟩ | hmem
    · exact he
    · exact ho.lt c' d i hmem
  · intro c' d i hmem
    rcases hold hmem with ⟨_, rfl, rfl⟩ | hmem
    · exact hP
    · exact ho.here c' d i hmem
  · intro d i e' hslot he'
    rcases ho.started d i e' hslot he' with hlt | ⟨c', j, hj⟩
    · exact .inl hlt
    · refine .inr ⟨c', j, ?_⟩
      rcases eq_or_ne c' c with rfl | hne
      · simp [hj]
      · rwa [Function.update_of_ne hne]
  · intro c₁ d₁ i₁ c₂ d₂ i₂ h₁ h₂ heq
    rcases hold h₁ with ⟨rfl, rfl, _⟩ | hm₁
    · rcases hold h₂ with ⟨rfl, _, _⟩ | hm₂
      · rfl
      · exact (hroot c₂ d₂ i₂ hm₂ heq.symm).symm
    · rcases hold h₂ with ⟨rfl, rfl, _⟩ | hm₂
      · exact hroot c₁ d₁ i₁ hm₁ heq
      · exact ho.roots c₁ d₁ i₁ c₂ d₂ i₂ hm₁ hm₂ heq

/-- An outermost call returns. -/
theorem Owned.returns (ho : Owned sh P m) (hinv : SharedInv h sh) {d i : Nat} (hm : m c = [(d, i)])
    (hroot : (sh.descs d).root = d) : Owned sh P (Function.update m c []) := by
  have hold : ∀ {c' d' i'}, (d', i') ∈ Function.update m c [] c' → (d', i') ∈ m c' := by
    intro c' d' i' hmem
    rcases eq_or_ne c' c with rfl | hne
    · simp at hmem
    · rwa [Function.update_of_ne hne] at hmem
  refine ⟨fun c' d' i' hmem => ho.lt c' d' i' (hold hmem),
    fun c' d' i' hmem => ho.here c' d' i' (hold hmem), ?_,
    fun c₁ d₁ i₁ c₂ d₂ i₂ h₁ h₂ => ho.roots c₁ d₁ i₁ c₂ d₂ i₂ (hold h₁) (hold h₂)⟩
  intro d' i' e hslot he
  rcases ho.started d' i' e hslot he with hlt | ⟨c', j, hj⟩
  · exact .inl hlt
  · rcases eq_or_ne c' c with rfl | hne
    · -- The descriptor of an outermost call is nested in no other.
      rw [hm] at hj
      obtain ⟨rfl, rfl⟩ : e = d ∧ j = i := by simpa using hj
      have hchild := hinv.child _ _ _ hslot
      have hlt := hchild.lt
      have hle := (hinv.root d' (hchild.lt.trans hchild.fresh)).1
      rw [← hchild.root, hroot] at hle
      omega
    · exact .inr ⟨c', j, by rwa [Function.update_of_ne hne]⟩

end Owned

/-! ## Every step -/

/-- The progress of the owners, with what they have handed and returned and where they stand. -/
structure Progress (h : List Event) (sh : Shared Λ) (P : Nat → Nat) (m : κ → List (Nat × Nat)) :
    Prop where
  handed : Handed h sh P
  returned : Returned h sh P
  owned : Owned sh P m

section Progress

variable {m : κ → List (Nat × Nat)} {c : κ}

/-- The outermost calls that have returned stay as they are. -/
theorem Returned.ext (hr : Returned h sh P) (hext : Ext h sh (h ++ es) sh') (hinv : SharedInv h sh)
    (hes : ∀ d res, Event.returned d res ∉ es) : Returned (h ++ es) sh' P := by
  intro d res hmem
  rcases List.mem_append.mp hmem with hold | hnew
  · obtain ⟨hd, hcase⟩ := hr d res hold
    exact ⟨hd.trans_le hext.fresh, hcase.imp (hext.lost hd) fun hf => hf.ext hext hinv⟩
  · exact absurd hnew (hes d res)

/-- The outermost calls that have returned stay as they are when an owner goes on. -/
theorem Returned.advance {d : Nat} {t : Thunk Λ} (hr : Returned h sh P) (hat : At h sh d (P d) t)
    (ht : ¬ t.IsRet) : Returned h sh (advance P d) := by
  intro e res hmem
  obtain ⟨he, hcase⟩ := hr e res hmem
  exact ⟨he, hcase.imp_right fun hf => hf.advance hat ht⟩

/-- A step that hands nothing, returns from no outermost call and moves no owner. -/
theorem Progress.ext (hp : Progress h sh P m) (hinv : SharedInv h sh) (hevol : Evolves h sh es sh')
    (hhand : ∀ d i p, Event.hand d i p ∉ es) (hret : ∀ d res, Event.returned d res ∉ es) :
    Progress (h ++ es) sh' P m :=
  ⟨hp.handed.ext hevol.1 hinv hevol.2 hhand, hp.returned.ext hevol.1 hinv hret,
    hp.owned.ext hp.handed hevol.1 hinv hevol.2⟩

variable [DecidableEq κ]

/-- An owner does an operation of `d`, leaving the call nested in it, if there is one. -/
theorem Progress.advance (hp : Progress h sh P m) (hinv : SharedInv h sh)
    (hevol : Evolves h sh es sh') {d i : Nat} {t t' : Thunk Λ} {inner rest : List (Nat × Nat)}
    (hm : m c = inner ++ (d, i) :: rest) (hrest : ∀ a ∈ rest, a.1 < d)
    (hinner : ∀ a ∈ inner, (sh.slots d i).desc = some a.1) (hat : At h sh d i t) (ht : ¬ t.IsRet)
    (hnext : At (h ++ es) sh' d (i + 1) t')
    (hhand : ∀ e j p, .hand e j p ∈ es → e = d ∧ j = i)
    (honce : ∀ p k, t = .retire p k → es.count (.hand d i p) = 1)
    (hret : ∀ e res, Event.returned e res ∉ es)
    (hnested : ∀ e, (sh'.slots d i).desc = some e → Stored (h ++ es) e → Full h sh P e) :
    Progress (h ++ es) sh' (Nested.advance P d) (Function.update m c ((d, i + 1) :: rest)) := by
  obtain rfl : P d = i := hp.owned.here c d i (by simp [hm])
  have hat' := hevol.1.at hinv.toLogInv hat
  refine ⟨hp.handed.advance hevol.1 hinv hevol.2 hat ht hnext hhand honce hnested,
    (hp.returned.ext hevol.1 hinv hret).advance hat' ht,
    (hp.owned.ext hp.handed hevol.1 hinv hevol.2).advance hevol.2 hm hrest ?_⟩
  intro a ha
  exact hevol.1.desc _ _ _ (hinner a ha)

/-- A helper hands nothing and returns from no outermost call. -/
theorem Move.helper {f : Frame Λ} {outer frames : List (Frame Λ)}
    (hmove : Move h sh true f outer es sh' frames) :
    (∀ d i p, Event.hand d i p ∉ es) ∧ ∀ d res, Event.returned d res ∉ es := by
  cases hmove with
  | stay f' _ _ _ hes =>
      refine ⟨fun d i p hmem => ?_, fun d res hmem => ?_⟩
      · obtain ⟨e, he⟩ := hes _ hmem
        cases he
      · obtain ⟨e, he⟩ := hes _ hmem
        cases he
  | acquire | commit | push | pop | leave => simp
  | retire => simp
  | returns hh => cases hh

/-- The owner's innermost call does an operation that is not a nested call. -/
theorem Progress.operation (hp : Progress h sh P m) (hinv : SharedInv h sh) {threadId : Nat}
    {f f' : Frame Λ} {outer : List (Frame Λ)}
    (hframes : StackOk h sh threadId false (f :: outer)) (hevol : Evolves h sh es sh')
    (hstack : StackOk (h ++ es) sh' threadId false (f' :: outer)) (hrun : f.phase = .run)
    (hrun' : f'.phase = .run) (hdesc : f'.desc = f.desc) (hpos : f'.pos = f.pos + 1)
    (hret : ¬ f.rest.IsRet) (hcall : ∀ l body k, f.rest ≠ .tryLock l body k)
    (hm : m c = marks (f :: outer))
    (hhand : ∀ e j p, .hand e j p ∈ es → e = f.desc ∧ j = f.pos)
    (honce : ∀ p k, f.rest = .retire p k → es.count (.hand f.desc f.pos p) = 1)
    (hreturned : ∀ e res, Event.returned e res ∉ es) :
    ∃ P', Progress (h ++ es) sh' P' (Function.update m c (marks (f' :: outer))) := by
  have hd : f.phase.hasDesc = true := by rw [hrun]; rfl
  have hd' : f'.phase.hasDesc = true := by rw [hrun']; rfl
  have hat := (hframes.head.desc hd).phase
  rw [hrun] at hat
  have hat' := (hstack.head.desc hd').phase
  rw [hrun'] at hat'
  have hnext := hat'.2.2
  rw [hdesc, hpos] at hnext
  have hsorted := hframes.marks_pairwise hinv
  rw [marks_cons hd] at hm hsorted
  rw [marks_cons hd', hdesc, hpos]
  refine ⟨_, hp.advance hinv hevol (show m c = [] ++ _ from hm)
    (fun a ha => ((List.pairwise_cons.mp hsorted).1 a ha).1) (by simp) hat.2.2 hret hnext hhand honce
    hreturned ?_⟩
  -- The log has a descriptor only where the thunk calls `try_lock`.
  intro e hslot _
  obtain ⟨k, hk⟩ := (hevol.2.child _ _ _ hslot).call
  exact absurd (hk.unique (hevol.1.at hinv.toLogInv hat.2.2)) (hcall _ _ _)

/-- The owner gets the descriptor of its innermost call. -/
theorem Progress.acquire (hp : Progress h sh P m) (hinv : SharedInv h sh) {threadId : Nat}
    {f f' : Frame Λ} {outer : List (Frame Λ)}
    (hframes : StackOk h sh threadId false (f :: outer)) (hevol : Evolves h sh [] sh')
    (hstack : StackOk (h ++ []) sh' threadId false (f' :: outer)) (hd : f.phase.hasDesc = false)
    (hd' : f'.phase.hasDesc = true) (hpos : f'.pos = 0) (hfresh : outer = [] → f'.desc = sh.fresh)
    (hm : m c = marks (f :: outer)) :
    Progress (h ++ []) sh' P (Function.update m c (marks (f' :: outer))) := by
  have hp' := hp.ext hinv hevol (by simp) (by simp)
  have hdesc := hstack.head.desc hd'
  rw [marks_cons_of_not hd] at hm
  rw [marks_cons hd', hpos, ← hm]
  refine ⟨hp'.handed, hp'.returned, ?_⟩
  cases outer with
  | nil =>
      have hnew : f'.desc = sh.fresh := hfresh rfl
      refine hp'.owned.acquire hdesc.lt ?_ ?_
      · by_contra hne
        obtain ⟨t, ht⟩ := hp.handed.path f'.desc (by omega)
        exact absurd ht.lt_fresh (by omega)
      · intro c' d i hmem hroot
        -- The new descriptor is a root of its own, and older descriptors have older roots.
        have hlt := hp.owned.lt c' d i hmem
        have hle := (hevol.2.root d (hlt.trans_le hevol.1.fresh)).1
        have hself : (sh'.descs f'.desc).root = f'.desc := hdesc.linked.resolve_left (by simp)
        rw [hroot, hself] at hle
        omega
  | cons g gs =>
      have hslot : (sh'.slots g.desc g.pos).desc = some f'.desc := hdesc.linked
      have hchild := hevol.2.child _ _ _ hslot
      have hg : g.phase.hasDesc = true := by rw [hframes.2.1.1]; rfl
      rw [marks_cons hg] at hm
      have hmem : (g.desc, g.pos) ∈ m c := by simp [hm]
      have hsame : ∀ c' d i, (d, i) ∈ m c' → (sh'.descs d).root = (sh'.descs f'.desc).root →
          c' = c := by
        intro c' d i hmem' hroot
        rw [hchild.root] at hroot
        exact hp'.owned.roots c' d i c g.desc g.pos hmem' hmem hroot
      refine hp'.owned.acquire hdesc.lt ?_ hsame
      by_contra hne
      rcases hp'.owned.started _ _ _ hslot (by omega) with hlt | ⟨c', j, hj⟩
      · rw [hp.owned.here c g.desc g.pos hmem] at hlt
        exact Nat.lt_irrefl _ hlt
      · obtain rfl := hsame c' _ j hj rfl
        have hsorted := hstack.marks_pairwise hevol.2
        rw [marks_cons hd', marks_cons hg, ← hm] at hsorted
        exact Nat.lt_irrefl _ ((List.pairwise_cons.mp hsorted).1 _ hj).1

/-- The owner's innermost call returns to the thunk around it. -/
theorem Progress.pop (hp : Progress h sh P m) (hinv : SharedInv h sh) {threadId : Nat}
    {f g g' : Frame Λ} {gs : List (Frame Λ)}
    (hframes : StackOk h sh threadId false (f :: g :: gs)) (hevol : Evolves h sh [] sh')
    (hstack : StackOk (h ++ []) sh' threadId false (g' :: gs)) (hdesc : g'.desc = g.desc)
    (hpos : g'.pos = g.pos + 1) (hrun' : g'.phase = .run)
    (hend : ∀ e, (sh.slots g.desc g.pos).desc = some e → Stored h e →
      f.phase.hasDesc = true ∧ f.desc = e ∧ ∃ r, At h sh e f.pos (.ret r))
    (hm : m c = marks (f :: g :: gs)) :
    ∃ P', Progress (h ++ []) sh' P' (Function.update m c (marks (g' :: gs))) := by
  obtain ⟨_, k, hk, hruns⟩ := hframes.parent
  have hg : g.phase.hasDesc = true := by rw [hframes.2.1.1]; rfl
  have hg' : g'.phase.hasDesc = true := by rw [hrun']; rfl
  have hat' := (hstack.head.desc hg').phase
  rw [hrun'] at hat'
  have hnext := hat'.2.2
  rw [hdesc, hpos] at hnext
  have hsorted := hframes.2.2.marks_pairwise hinv
  rw [marks_cons hg] at hsorted
  rw [marks_cons hg', hdesc, hpos]
  -- The nested call has been run to its end if its descriptor was stored.
  have hnested : ∀ e, (sh'.slots g.desc g.pos).desc = some e → Stored (h ++ []) e →
      Full h sh P e := by
    intro e hslot hst
    rw [List.append_nil] at hst
    have hold := hevol.1.desc_old hinv hevol.2 (hinv.stored e hst).1 hslot
    obtain ⟨hf, rfl, r, hr⟩ := hend e hold hst
    refine ⟨r, ?_⟩
    rw [hp.owned.here c f.desc f.pos (by simp [hm, marks_cons hf])]
    exact hr
  have hmarks : ∃ inner, m c = inner ++ (g.desc, g.pos) :: marks gs ∧
      ∀ a ∈ inner, (sh.slots g.desc g.pos).desc = some a.1 := by
    cases hf : f.phase.hasDesc with
    | false => exact ⟨[], by rw [hm, marks_cons_of_not hf, marks_cons hg]; rfl, by simp⟩
    | true =>
        refine ⟨[(f.desc, f.pos)], by rw [hm, marks_cons hf, marks_cons hg]; rfl, ?_⟩
        intro a ha
        rw [List.mem_singleton.mp ha]
        exact (hframes.1.desc hf).linked
  obtain ⟨inner, hinner, hslots⟩ := hmarks
  exact ⟨_, hp.advance hinv hevol hinner
    (fun a ha => ((List.pairwise_cons.mp hsorted).1 a ha).1) hslots hruns.2.2 id hnext (by simp)
    (by simp) (by simp) hnested⟩

/-- The outermost call of an owner returns. -/
theorem Progress.returns (hp : Progress h sh P m) (hinv : SharedInv h sh) {threadId : Nat}
    {f : Frame Λ} {res : Option Nat} (hframes : StackOk h sh threadId false [f])
    (hevol : Evolves h sh [.returned f.desc res] sh) (hphase : f.phase = .retire res)
    (hm : m c = marks [f]) :
    Progress (h ++ [.returned f.desc res]) sh P (Function.update m c []) := by
  have hd : f.phase.hasDesc = true := by rw [hphase]; rfl
  have hdesc := hframes.head.desc hd
  rw [marks_cons hd] at hm
  have hhere := hp.owned.here c f.desc f.pos (by simp [hm])
  have hroot : (sh.descs f.desc).root = f.desc := hdesc.linked.resolve_left (by simp)
  have hphase' := hdesc.phase
  rw [hphase] at hphase'
  have hcase : Lost h sh f.desc ∨ Full h sh P f.desc := by
    cases res with
    | none => exact .inl hphase'
    | some r => exact .inr ⟨r, by rw [hhere]; exact hphase'.2.2⟩
  refine ⟨hp.handed.ext hevol.1 hinv hevol.2 (by simp), ?_, hp.owned.returns hinv hm hroot⟩
  intro d res' hmem
  have hold : d < sh.fresh ∧ (Lost h sh d ∨ Full h sh P d) := by
    rcases List.mem_append.mp hmem with hold | hnew
    · exact hp.returned d res' hold
    · cases List.mem_singleton.mp hnew
      exact ⟨hdesc.lt, hcase⟩
  exact ⟨hold.1, hold.2.imp (hevol.1.lost hold.1) fun hf => hf.ext hevol.1 hinv⟩

/-- Every step of a context keeps track of the owners' progress. -/
theorem Progress.step (hp : Progress h sh P m) (hinv : SharedInv h sh) {threadId : Nat}
    {helping : Bool} {f : Frame Λ} {outer frames : List (Frame Λ)}
    (hframes : StackOk h sh threadId helping (f :: outer))
    (hok : StepOk h sh threadId helping f outer es sh' frames)
    (hm : m c = Context.marks ⟨threadId, helping, f :: outer⟩) :
    ∃ P', Progress (h ++ es) sh' P'
      (Function.update m c (Context.marks ⟨threadId, helping, frames⟩)) := by
  obtain ⟨hevol, hstack, hmove⟩ := hok
  have hsame : (∀ d i p, Event.hand d i p ∉ es) → (∀ d res, Event.returned d res ∉ es) →
      m c = Context.marks ⟨threadId, helping, frames⟩ →
      ∃ P', Progress (h ++ es) sh' P'
        (Function.update m c (Context.marks ⟨threadId, helping, frames⟩)) := by
    intro hhand hret heq
    rw [← heq, Function.update_eq_self]
    exact ⟨P, hp.ext hinv hevol hhand hret⟩
  cases helping with
  | true => exact hsame hmove.helper.1 hmove.helper.2 hm
  | false =>
      have hm : m c = marks (f :: outer) := hm
      show ∃ P', Progress (h ++ es) sh' P' (Function.update m c (marks frames))
      cases hmove with
      | stay f' hdesc hpos hd hes =>
          refine hsame ?_ ?_ ?_
          · intro d i p hmem
            obtain ⟨e, he⟩ := hes _ hmem
            cases he
          · intro d res hmem
            obtain ⟨e, he⟩ := hes _ hmem
            cases he
          · show m c = marks (f' :: outer)
            cases hf : f.phase.hasDesc with
            | false => rw [hm, marks_cons_of_not hf, marks_cons_of_not (hd.trans hf)]
            | true => rw [hm, marks_cons hf, marks_cons (hd.trans hf), hdesc hf, hpos]
      | acquire f' hd hd' hpos hfresh hslot =>
          exact ⟨P, hp.acquire hinv hframes hevol hstack hd hd' hpos hfresh hm⟩
      | @retire _ p k hrun hrest =>
          refine hp.operation hinv hframes hevol hstack hrun hrun rfl rfl ?_ ?_ hm ?_ ?_ ?_
          · rw [hrest]
            exact id
          · rw [hrest]
            rintro _ _ _ ⟨⟩
          · intro e j p' hmem
            have heq : e = f.desc ∧ j = f.pos ∧ p' = p := by simpa using hmem
            exact ⟨heq.1, heq.2.1⟩
          · intro p' k' hk'
            rw [hrest] at hk'
            cases hk'
            simp
          · simp
      | commit hrun hrest hv =>
          refine hp.operation hinv hframes hevol hstack hrun hrun rfl rfl ?_ ?_ hm (by simp) ?_
            (by simp)
          · rw [hrest]
            exact id
          · rw [hrest]
            rintro _ _ _ ⟨⟩
          · rw [hrest]
            rintro _ _ ⟨⟩
      | push hrun hrest =>
          refine hsame (by simp) (by simp) ?_
          rw [hm]
          exact (marks_cons_of_not rfl).symm
      | pop g' hdesc hpos hend hrun' =>
          exact hp.pop hinv hframes hevol hstack hdesc hpos hrun' (hend.resolve_left (by simp)) hm
      | leave hd =>
          refine hsame (by simp) (by simp) ?_
          rw [hm, marks_cons_of_not (hd.resolve_left (by simp))]
          rfl
      | returns _ hphase => exact ⟨P, hp.returns hinv hframes hevol hphase hm⟩

end Progress

/-- A `retire` statement that is executed lies on the path of a stored descriptor. -/
theorem Reached.step (hr : Reached h sh) (hinv : SharedInv h sh) {threadId : Nat} {helping : Bool}
    {f : Frame Λ} {outer frames : List (Frame Λ)}
    (hframes : StackOk h sh threadId helping (f :: outer))
    (hok : StepOk h sh threadId helping f outer es sh' frames) : Reached (h ++ es) sh' := by
  obtain ⟨hevol, _, hmove⟩ := hok
  have hstay : ∀ {d i p}, (Stored h d ∧ ∃ k, At h sh d i (.retire p k)) →
      Stored (h ++ es) d ∧ ∃ k, At (h ++ es) sh' d i (.retire p k) := by
    rintro d i p ⟨hst, k, hk⟩
    exact ⟨hevol.1.stored hst, k, hevol.1.at hinv.toLogInv hk⟩
  intro d i p hmem
  rcases List.mem_append.mp hmem with hold | hnew
  · exact hstay (hr d i p hold)
  · cases hmove with
    | stay f' _ _ _ hes =>
        obtain ⟨e, he⟩ := hes _ hnew
        cases he
    | acquire | commit | push | pop | leave => simp at hnew
    | @retire _ q k hrun hrest =>
        have hhere := (hframes.head.desc (by rw [hrun]; rfl)).phase
        rw [hrun] at hhere
        have hruns : f.Runs h sh f.rest := hhere
        rw [hrest] at hruns
        obtain ⟨rfl, rfl, rfl⟩ : d = f.desc ∧ i = f.pos ∧ p = q := by
          cases helping <;> simpa using hnew
        exact hstay ⟨hruns.2.1, k, hruns.2.2⟩
    | returns => simp at hnew

/-- The invariant of a run in which no owner finds a result. -/
structure Inv (h : List Event) (st : State Λ κ) : Prop where
  shared : SharedInv h st.shared
  frames : ∀ c x, st.contexts c = some x → StackOk h st.shared x.threadId x.helping x.frames
  reached : Reached h st.shared
  progress : ∃ P, Progress h st.shared P st.marks

/-- At the start nothing has been stored, logged or handed. -/
theorem inv_initial (l : Λ) : Inv [] (initial l : State Λ κ) where
  shared := by
    refine ⟨⟨Nat.one_pos, ?_, ?_, ?_, ?_⟩, ⟨?_, ?_, ?_, ?_, ?_⟩⟩ <;>
      simp [initial, Stored, Shared.clock]
  frames c x hx := by cases hx
  reached := by simp [Reached]
  progress := by
    refine ⟨fun _ => 0, ⟨?_, ?_, ?_, ?_⟩, ?_, ⟨?_, ?_, ?_, ?_⟩⟩ <;>
      simp [Returned, State.marks, initial]

/-- The marks after a context has changed. -/
theorem marks_move [DecidableEq κ] (st : State Λ κ) (c : κ) (sh : Shared Λ) (x : Context Λ) :
    (st.move c sh x).marks = Function.update st.marks c x.marks := by
  funext c'
  rcases eq_or_ne c' c with rfl | hne
  · simp [State.marks, State.move]
  · simp [State.marks, State.move, Function.update_of_ne hne]

/-- The contexts after one has changed. -/
theorem contexts_move [DecidableEq κ] {st : State Λ κ} {c c' : κ} {sh : Shared Λ} {x y : Context Λ}
    (hy : (st.move c sh x).contexts c' = some y) : y = x ∨ st.contexts c' = some y := by
  rcases eq_or_ne c' c with rfl | hne
  · have heq : some x = some y := by simpa [State.move] using hy
    cases heq
    exact .inl rfl
  · exact .inr (by simpa [State.move, Function.update_of_ne hne] using hy)

/-- A new context without marks. -/
theorem Inv.enter [DecidableEq κ] {st : State Λ κ} (hinv : Inv h st) {c : κ} {x : Context Λ}
    (hnone : st.contexts c = none) (hmarks : x.marks = [])
    (hx : StackOk h st.shared x.threadId x.helping x.frames) :
    Inv h (st.move c st.shared x) where
  shared := hinv.shared
  frames c' y hy := by
    rcases contexts_move hy with rfl | hold
    · exact hx
    · exact hinv.frames c' y hold
  reached := hinv.reached
  progress := by
    have hm : st.marks c = [] := by simp [State.marks, hnone]
    rw [marks_move, hmarks, ← hm, Function.update_eq_self]
    exact hinv.progress

/-- The owners have been through every stored descriptor below an outermost call that was run to the
end: by induction from the outermost descriptor, along the path of each. -/
theorem Handed.full (hP : Handed h sh P) (hinv : SharedInv h sh) {d i : Nat} {t : Thunk Λ}
    (hst : Stored h d) (hat : At h sh d i t)
    (hroot : Full h sh P (sh.descs d).root) : Full h sh P d := by
  induction d using Nat.strong_induction_on generalizing i t with
  | _ d ih =>
      rcases (hinv.root d hat.lt_fresh).2 with hself | ⟨d', i', hslot⟩
      · rwa [hself] at hroot
      · have hchild := hinv.child _ _ _ hslot
        obtain ⟨k, hk⟩ := hchild.call
        rw [hchild.root] at hroot
        obtain ⟨r, hr⟩ := ih d' hchild.lt hchild.stored hk hroot
        exact hP.nested d' i' d (hk.lt_end id hr) hslot hst

variable [DecidableEq Λ] [DecidableEq κ]

/-- Every step in which no owner finds a result keeps the invariant. -/
theorem Inv.step {st st' : State Λ κ} {a : Action Λ κ} (hinv : Inv h st)
    (hfind : findsResult st a = false) (hstep : next a st = some (es, st')) :
    Inv (h ++ es) st' := by
  cases a with
  | start c threadId l body =>
      simp only [next] at hstep
      split at hstep
      · rename_i hnone
        cases hstep
        rw [List.append_nil]
        exact hinv.enter hnone rfl ⟨rfl, rfl⟩
      · cases hstep
  | help c l d =>
      simp only [next] at hstep
      split at hstep
      · rename_i hnone
        split at hstep
        · rename_i hlt
          cases hstep
          rw [List.append_nil]
          refine hinv.enter hnone rfl ?_
          have hdesc : DescOk h st.shared (st.shared.descs d).threadId true none
              { Frame.call l (st.shared.descs d).thunk with phase := .look, desc := d } :=
            ⟨hlt, rfl, .inl rfl, fun _ => rfl, rfl, rfl⟩
          exact hdesc.frameOk
        · cases hstep
      · cases hstep
  | step c v =>
      simp only [next] at hstep
      split at hstep
      · rename_i threadId helping f outer hc
        obtain ⟨⟨es', sh', frames⟩, hframe, heq⟩ := Option.map_eq_some_iff.mp hstep
        cases heq
        have hframes := hinv.frames c _ hc
        have hok := StackOk.step hframes hinv.shared (by
          cases helping with
          | true => exact .inl rfl
          | false =>
              refine .inr ?_
              rintro g gs rfl
              simpa [findsResult, hc] using hfind) hframe
        obtain ⟨P, hP⟩ := hinv.progress
        refine ⟨hok.evolves.2, ?_, hinv.reached.step hinv.shared hframes hok, ?_⟩
        · intro c' y hy
          rcases contexts_move hy with rfl | hold
          · exact hok.stack
          · exact hok.evolves.1.stackOk hinv.shared (hinv.frames c' y hold)
        · rw [marks_move]
          exact hP.step hinv.shared hframes hok (by simp [State.marks, hc])
      · cases hstep

end Verlib.Flock.Nested
