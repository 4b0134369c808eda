import Verlib.Interleaving.System

/-!
# Concurrent objects

A `Machine` says how the calls of a concurrent object run: each is a sequence of steps on a shared memory.
A `Spec` says what the operations should do to the content of the memory. `Sound` collects what has to be
shown of the single steps: an invariant of the memory, what a call knows at its position, and that this
knowledge survives the steps of other threads. `Sound.linear` concludes that in every run a call changes the
content in at most one step, that this step has the effect that its result says, and that a call which
changes nothing returns a result for which there was a right moment during the call.
-/

namespace Interleaving

/-- How a call starts and steps. `O` are the operations, `M` the memories, `P` the positions, `R` the results
and `X` the choices of the scheduler. A step leads to the next position or returns a result. -/
structure Machine (O M P R X : Type*) where
  start : O → P
  step : O → M → X → P → Option (M × (P ⊕ R))

namespace Machine

/-- What a run shows: the call of an operation, every step that is taken for it, and its result. -/
inductive Event (O M R : Type*) where
  | call (op : Nat) (o : O)
  | step (op : Nat) (m m' : M)
  | ret (op : Nat) (r : R)

/-- The memory, the calls that the threads execute, and the next identity of a call. -/
structure State (ι O M P : Type*) where
  memory : M
  threads : ι → Option (Nat × O × P)
  ops : Nat

/-- What the scheduler chooses: a thread calls an operation, or takes a step. -/
inductive Action (ι O X : Type*) where
  | call (c : ι) (o : O)
  | step (c : ι) (x : X)

variable {ι O M P R X : Type*}

/-- The next state, if the action is possible. -/
def next [DecidableEq ι] (mach : Machine O M P R X) :
    Action ι O X → State ι O M P → Option (List (Event O M R) × State ι O M P)
  | .call c o, st =>
      match st.threads c with
      | none => some ([.call st.ops o],
          ⟨st.memory, Function.update st.threads c (some (st.ops, o, mach.start o)), st.ops + 1⟩)
      | some _ => none
  | .step c x, st =>
      match st.threads c with
      | none => none
      | some (op, o, p) =>
          match mach.step o st.memory x p with
          | none => none
          | some (m', .inl p') => some ([.step op st.memory m'],
              ⟨m', Function.update st.threads c (some (op, o, p')), st.ops⟩)
          | some (m', .inr r) => some ([.step op st.memory m', .ret op r],
              ⟨m', Function.update st.threads c none, st.ops⟩)

/-- At the start no thread executes a call. -/
structure Initial (init : M → Prop) (st : State ι O M P) : Prop where
  memory : init st.memory
  threads : ∀ c, st.threads c = none
  ops : st.ops = 0

/-- Any number of threads that work on one object. -/
def system [DecidableEq ι] (mach : Machine O M P R X) (init : M → Prop) :
    System (State ι O M P) (Action ι O X) (Event O M R) :=
  System.ofNext (Initial init) mach.next

/-- The call to which an event belongs. -/
def Event.op : Event O M R → Nat
  | .call op _ | .step op _ _ | .ret op _ => op

/-- The event is the call `op` of operation `o`. -/
def Event.isCall [DecidableEq O] (op : Nat) (o : O) : Event O M R → Bool
  | .call op' o' => op' = op ∧ o' = o
  | _ => false

/-- The event is the return of the call `op`. -/
def Event.isRet [DecidableEq R] (op : Nat) (r : R) : Event O M R → Bool
  | .ret op' r' => op' = op ∧ r' = r
  | _ => false

theorem Event.mem_of_isCall [DecidableEq O] {op : Nat} {o : O} {h : List (Event O M R)}
    (hany : h.any (Event.isCall op o) = true) : .call op o ∈ h := by
  obtain ⟨e, he, hcall⟩ := List.any_eq_true.mp hany
  cases e with
  | call op' o' =>
      obtain ⟨rfl, rfl⟩ := of_decide_eq_true hcall
      exact he
  | step => cases hcall
  | ret => cases hcall

theorem Event.mem_of_isRet [DecidableEq R] {op : Nat} {r : R} {h : List (Event O M R)}
    (hany : h.any (Event.isRet op r) = true) : .ret op r ∈ h := by
  obtain ⟨e, he, hret⟩ := List.any_eq_true.mp hany
  cases e with
  | call => cases hret
  | step => cases hret
  | ret op' r' =>
      obtain ⟨rfl, rfl⟩ := of_decide_eq_true hret
      exact he

end Machine

open Machine

/-- What an object is for: which memories have the same content, what an operation with result `r` does to
the content, and in which memories it may return `r` without doing anything. -/
structure Spec (O M R : Type*) where
  Same : M → M → Prop
  Effect : O → R → M → M → Prop
  Refused : O → R → M → Prop

section Histories

variable {O M R : Type*} (S : Spec O M R) (h : List (Event O M R)) (op : Nat)

/-- The steps of a call do not change the content. -/
def Unchanged : Prop :=
  ∀ m m', .step op m m' ∈ h → S.Same m m'

/-- One step of a call has the effect that the result says, and no other step of it changes the content. -/
def ChangedOnce (o : O) (r : R) : Prop :=
  ∃ h₁ h₂ m m', h = h₁ ++ .step op m m' :: h₂ ∧ S.Effect o r m m' ∧ Unchanged S h₁ op ∧ Unchanged S h₂ op

/-- The memory has been there since the call. -/
def Since (o : O) (m : M) : Prop :=
  ∃ w m₀, [.call op o, .step w m₀ m].Sublist h

/-- A call changes nothing, and between its call and its return there was a moment at which the result was
right. -/
def RefusedOnce (o : O) (r : R) : Prop :=
  Unchanged S h op ∧ ∃ w m₀ m, [.call op o, .step w m₀ m, .ret op r].Sublist h ∧ S.Refused o r m

/-- Every call changes the content in at most one step, with the effect that its result says, and a call
that has returned has changed the content or was right to change nothing. -/
def Linear : Prop :=
  ∀ op o, .call op o ∈ h →
    (Unchanged S h op ∨ ∃ r, ChangedOnce S h op o r ∧ ∀ r', .ret op r' ∈ h → r' = r) ∧
      ∀ r, .ret op r ∈ h → ChangedOnce S h op o r ∨ RefusedOnce S h op o r

end Histories

/-- What has to be shown of an object. `Known o p m past` is what a call of `o` at position `p` knows when
the memory is `m` and the memories since its call are `past`, `Ext` is what a step may do to the memory, and
`done p` is the result of a call that has had its effect. -/
structure Sound {O M P R X : Type*} (mach : Machine O M P R X) (S : Spec O M R) (init : M → Prop) where
  Inv : M → Prop
  Ext : M → M → Prop
  Known : O → P → M → (M → Prop) → Prop
  done : P → Option R
  initial : ∀ m, init m → Inv m
  start : ∀ o m past, Inv m → Known o (mach.start o) m past
  start_done : ∀ o, done (mach.start o) = none
  weaken : ∀ o p m (past past' : M → Prop), (∀ m₀, past m₀ → past' m₀) → Known o p m past →
    Known o p m past'
  other : ∀ o p m m' past, Inv m → Inv m' → Ext m m' → Known o p m past →
    Known o p m' fun m₀ => past m₀ ∨ m₀ = m'
  inv : ∀ o p m x m' k past, Inv m → Known o p m past → mach.step o m x p = some (m', k) →
    Inv m' ∧ Ext m m'
  move : ∀ o p m x m' p' past, Inv m → Known o p m past → mach.step o m x p = some (m', .inl p') →
    Known o p' m' (fun m₀ => past m₀ ∨ m₀ = m') ∧
      (done p' = done p ∧ S.Same m m' ∨ done p = none ∧ ∃ r, done p' = some r ∧ S.Effect o r m m')
  ret : ∀ o p m x m' r past, Inv m → Known o p m past → mach.step o m x p = some (m', .inr r) →
    done p = some r ∧ S.Same m m' ∨
      done p = none ∧ (S.Effect o r m m' ∨ S.Same m m' ∧ ∃ m₀, (past m₀ ∨ m₀ = m') ∧ S.Refused o r m₀)

namespace Sound

variable {ι O M P R X : Type*} {mach : Machine O M P R X} {S : Spec O M R} {init : M → Prop}
  (snd : Sound mach S init) {h es : List (Event O M R)} {op : Nat} {o : O} {p : P} {r : R} {m m' : M}

/-! ## Histories that grow -/

/-- Events of other calls change nothing for a call. -/
theorem unchanged_of_op (hes : ∀ e ∈ es, e.op ≠ op) : Unchanged S es op :=
  fun _ _ he => absurd rfl (hes _ he)

/-- A call that changes nothing in either part changes nothing. -/
theorem unchanged_append (hno : Unchanged S h op) (hes : Unchanged S es op) : Unchanged S (h ++ es) op := by
  intro m m' he
  rcases List.mem_append.mp he with hold | hnew
  · exact hno m m' hold
  · exact hes m m' hnew

/-- The effect of a call stays its only one. -/
theorem changedOnce_append (hc : ChangedOnce S h op o r) (hes : Unchanged S es op) :
    ChangedOnce S (h ++ es) op o r := by
  obtain ⟨h₁, h₂, m, m', rfl, heff, hno₁, hno₂⟩ := hc
  exact ⟨h₁, h₂ ++ es, m, m', by simp, heff, hno₁, unchanged_append hno₂ hes⟩

/-- The effect of a call that has changed nothing before. -/
theorem changedOnce_step (hno : Unchanged S h op) (heff : S.Effect o r m m') (hes : Unchanged S es op) :
    ChangedOnce S (h ++ .step op m m' :: es) op o r :=
  ⟨h, es, m, m', rfl, heff, hno, hes⟩

/-- The memories since the call stay what they are. -/
theorem Since.append (hs : Since h op o m) (es : List (Event O M R)) : Since (h ++ es) op o m := by
  obtain ⟨w, m₀, hsub⟩ := hs
  exact ⟨w, m₀, hsub.trans (List.sublist_append_left h es)⟩

/-- The memory after a step is one since the call. -/
theorem since_step (hcall : .call op o ∈ h) {w : Nat} (hmem : .step w m m' ∈ es) :
    Since (h ++ es) op o m' :=
  ⟨w, m, (List.singleton_sublist.mpr hcall).append (List.singleton_sublist.mpr hmem)⟩

/-- A refusal stays one. -/
theorem refusedOnce_append (hr : RefusedOnce S h op o r) (hes : Unchanged S es op) :
    RefusedOnce S (h ++ es) op o r := by
  obtain ⟨hno, w, m₀, m, hsub, href⟩ := hr
  exact ⟨unchanged_append hno hes, w, m₀, m, hsub.trans (List.sublist_append_left h es), href⟩

/-! ## The invariant of a run -/

/-- A call that has not returned. -/
structure Active (h : List (Event O M R)) (m : M) (op : Nat) (o : O) (p : P) : Prop where
  call : .call op o ∈ h
  live : ∀ r, .ret op r ∉ h
  known : snd.Known o p m (Since h op o)
  waiting : snd.done p = none → Unchanged S h op
  changed : ∀ r, snd.done p = some r → ChangedOnce S h op o r

/-- A call that has returned. -/
def Finished (S : Spec O M R) (h : List (Event O M R)) (op : Nat) (o : O) : Prop :=
  ∃ r, (∀ r', .ret op r' ∈ h → r' = r) ∧ (ChangedOnce S h op o r ∨ RefusedOnce S h op o r)

/-- The invariant of a run: of the memory, of the history, and of every call. -/
structure RunInv (h : List (Event O M R)) (st : State ι O M P) : Prop where
  mem : snd.Inv st.memory
  op_lt : ∀ e ∈ h, e.op < st.ops
  call_unique : ∀ op o o', .call op o ∈ h → .call op o' ∈ h → o = o'
  active : ∀ c t, st.threads c = some t → snd.Active h st.memory t.1 t.2.1 t.2.2
  distinct : ∀ c c' t t', st.threads c = some t → st.threads c' = some t' → t.1 = t'.1 → c = c'
  calls : ∀ op o, .call op o ∈ h → (∃ c p, st.threads c = some (op, o, p)) ∨
    (∀ c t, st.threads c = some t → t.1 ≠ op) ∧ Finished S h op o

variable {snd}

/-- A call stays active when the history grows by events of others. -/
theorem Active.other {past : M → Prop} (ha : snd.Active h m op o p) (hes : ∀ e ∈ es, e.op ≠ op)
    (hpast : ∀ m₀, past m₀ → Since (h ++ es) op o m₀) (hknown : snd.Known o p m' past) :
    snd.Active (h ++ es) m' op o p where
  call := List.mem_append_left _ ha.call
  live r hmem := by
    cases List.mem_append.mp hmem with
    | inl hold => exact ha.live r hold
    | inr hnew => exact hes _ hnew rfl
  known := snd.weaken o p m' past _ hpast hknown
  waiting hd := unchanged_append (ha.waiting hd) (unchanged_of_op hes)
  changed r hd := changedOnce_append (ha.changed r hd) (unchanged_of_op hes)

/-- A call that has returned is not touched by others. -/
theorem Finished.append (hf : Finished S h op o) (hes : ∀ e ∈ es, e.op ≠ op) : Finished S (h ++ es) op o := by
  obtain ⟨r, hret, hdone⟩ := hf
  refine ⟨r, ?_, ?_⟩
  · intro r' hmem
    cases List.mem_append.mp hmem with
    | inl hold => exact hret r' hold
    | inr hnew => exact absurd rfl (hes _ hnew)
  · exact hdone.imp (fun hc => changedOnce_append hc (unchanged_of_op hes))
      fun hr => refusedOnce_append hr (unchanged_of_op hes)

/-- The invariant holds at the start. -/
theorem runInv_initial {st : State ι O M P} (hst : Initial init st) : snd.RunInv [] st where
  mem := snd.initial _ hst.memory
  op_lt _ he := absurd he List.not_mem_nil
  call_unique _ _ _ he := absurd he List.not_mem_nil
  active c _ hc := by
    rw [hst.threads c] at hc
    cases hc
  distinct c _ _ _ hc := by
    rw [hst.threads c] at hc
    cases hc
  calls _ _ he := absurd he List.not_mem_nil

/-- The call of an active thread is older than the next identity. -/
theorem RunInv.op_lt_of_active {st : State ι O M P} (hinv : snd.RunInv h st) {u : ι} {t : Nat × O × P}
    (hu : st.threads u = some t) : t.1 < st.ops :=
  hinv.op_lt _ (hinv.active u t hu).call

section Steps

variable [DecidableEq ι] {st : State ι O M P} {c : ι}

/-- The threads after one of them has moved. -/
theorem update_cases {threads : ι → Option (Nat × O × P)} {t : Option (Nat × O × P)} {u : ι}
    {x : Nat × O × P} (hu : Function.update threads c t u = some x) :
    u = c ∧ t = some x ∨ u ≠ c ∧ threads u = some x := by
  by_cases hne : u = c
  · subst hne
    rw [Function.update_self] at hu
    exact .inl ⟨rfl, hu⟩
  · rw [Function.update_of_ne hne] at hu
    exact .inr ⟨hne, hu⟩

/-- An operation is called. -/
theorem RunInv.call (hinv : snd.RunInv h st) (hc : st.threads c = none) (o : O) :
    snd.RunInv (h ++ [.call st.ops o])
      ⟨st.memory, Function.update st.threads c (some (st.ops, o, mach.start o)), st.ops + 1⟩ := by
  have hfresh : ∀ e ∈ h, e.op ≠ st.ops := fun e he => (hinv.op_lt e he).ne
  have hnew : ∀ op, op ≠ st.ops → ∀ e ∈ [(Event.call st.ops o : Event O M R)], e.op ≠ op := by
    intro op hop e he
    rw [List.mem_singleton.mp he]
    exact hop.symm
  refine ⟨hinv.mem, ?_, ?_, ?_, ?_, ?_⟩
  · intro e he
    show e.op < st.ops + 1
    cases List.mem_append.mp he with
    | inl hold => exact (hinv.op_lt e hold).trans (Nat.lt_succ_self _)
    | inr hlast =>
        rw [List.mem_singleton.mp hlast]
        exact Nat.lt_succ_self _
  · intro op o₁ o₂ h₁ h₂
    by_cases hop : op = st.ops
    · subst hop
      have hlast : ∀ o', .call st.ops o' ∈ h ++ [.call st.ops o] → o' = o := by
        intro o' hmem
        cases List.mem_append.mp hmem with
        | inl hold => exact absurd rfl (hfresh _ hold)
        | inr hmem =>
            cases List.mem_singleton.mp hmem
            rfl
      rw [hlast o₁ h₁, hlast o₂ h₂]
    · have hold : ∀ o', .call op o' ∈ h ++ [.call st.ops o] → .call op o' ∈ h := by
        intro o' hmem
        cases List.mem_append.mp hmem with
        | inl hold => exact hold
        | inr hmem => exact absurd rfl (hnew op hop _ hmem)
      exact hinv.call_unique op o₁ o₂ (hold o₁ h₁) (hold o₂ h₂)
  · intro u t hu
    obtain ⟨rfl, heq⟩ | ⟨_, hu⟩ := update_cases hu
    · cases heq
      refine ⟨by simp, ?_, snd.start o st.memory _ hinv.mem, fun _ => ?_, ?_⟩
      · intro r hmem
        cases List.mem_append.mp hmem with
        | inl hold => exact hfresh _ hold rfl
        | inr hlast => cases List.mem_singleton.mp hlast
      · refine unchanged_append (unchanged_of_op hfresh) fun m m' he => ?_
        cases List.mem_singleton.mp he
      · intro r hd
        rw [snd.start_done] at hd
        cases hd
    · have ha := hinv.active u t hu
      exact ha.other (hnew t.1 (hinv.op_lt_of_active hu).ne) (fun _ hs => Since.append hs _) ha.known
  · intro u u' t t' hu hu' heq
    obtain ⟨hc, hself⟩ | ⟨hne, hold⟩ := update_cases hu <;>
      obtain ⟨hc', hself'⟩ | ⟨hne', hold'⟩ := update_cases hu'
    · rw [hc, hc']
    · cases hself
      exact absurd heq.symm (hinv.op_lt_of_active hold').ne
    · cases hself'
      exact absurd heq (hinv.op_lt_of_active hold).ne
    · exact hinv.distinct u u' t t' hold hold' heq
  · intro op o' hmem
    have hkeep : ∀ {u t}, st.threads u = some t → u ≠ c := by
      intro u t hu heq
      rw [heq, hc] at hu
      cases hu
    cases List.mem_append.mp hmem with
    | inl hold =>
        have hop : op ≠ st.ops := hfresh _ hold
        obtain ⟨u, p, hu⟩ | ⟨hquiet, hfin⟩ := hinv.calls op o' hold
        · refine .inl ⟨u, p, ?_⟩
          show Function.update st.threads c _ u = _
          rw [Function.update_of_ne (hkeep hu)]
          exact hu
        · refine .inr ⟨?_, hfin.append (hnew op hop)⟩
          intro u t hu heq
          obtain ⟨rfl, hself⟩ | ⟨_, hu⟩ := update_cases hu
          · cases hself
            exact hop heq.symm
          · exact hquiet u t hu heq
    | inr hlast =>
        cases List.mem_singleton.mp hlast
        refine .inl ⟨c, mach.start o, ?_⟩
        show Function.update st.threads c _ c = _
        rw [Function.update_self]

/-- What a step of thread `c`, which executes `(op, o, p)`, leaves of the other calls; `t` is what the thread
executes afterwards. -/
theorem RunInv.step (hinv : snd.RunInv h st) (hc : st.threads c = some (op, o, p))
    (hm' : snd.Inv m') (hext : snd.Ext st.memory m') (hstep : .step op st.memory m' ∈ es)
    (hes : ∀ e ∈ es, e.op = op) (hcall : ∀ op' o', .call op' o' ∉ es) {t : Option (Nat × O × P)}
    (hself : (∃ p', t = some (op, o, p') ∧ snd.Active (h ++ es) m' op o p') ∨
      t = none ∧ Finished S (h ++ es) op o) :
    snd.RunInv (h ++ es) ⟨m', Function.update st.threads c t, st.ops⟩ := by
  have ha := hinv.active c _ hc
  have hold : ∀ {op' o'}, .call op' o' ∈ h ++ es → .call op' o' ∈ h := by
    intro op' o' hmem
    cases List.mem_append.mp hmem with
    | inl hmem => exact hmem
    | inr hmem => exact absurd hmem (hcall op' o')
  have hother : ∀ {op'}, op' ≠ op → ∀ e ∈ es, e.op ≠ op' := by
    intro op' hne e he heq
    exact hne (heq.symm.trans (hes e he))
  have hdiff : ∀ {u t'}, u ≠ c → st.threads u = some t' → t'.1 ≠ op := by
    intro u t' hne hu heq
    exact hne (hinv.distinct u c t' _ hu hc heq)
  have hsame : ∀ {t'}, t = some t' → t'.1 = op := by
    intro t' ht
    obtain ⟨p', heq, _⟩ | ⟨heq, _⟩ := hself
    · rw [heq] at ht
      cases ht
      rfl
    · rw [heq] at ht
      cases ht
  refine ⟨hm', ?_, ?_, ?_, ?_, ?_⟩
  · intro e he
    cases List.mem_append.mp he with
    | inl hmem => exact hinv.op_lt e hmem
    | inr hmem =>
        show e.op < st.ops
        rw [hes e hmem]
        exact hinv.op_lt _ ha.call
  · intro op' o₁ o₂ h₁ h₂
    exact hinv.call_unique op' o₁ o₂ (hold h₁) (hold h₂)
  · intro u t' hu
    obtain ⟨rfl, ht⟩ | ⟨hne, hu⟩ := update_cases hu
    · obtain ⟨p', heq, hactive⟩ | ⟨heq, _⟩ := hself
      · rw [heq] at ht
        cases ht
        exact hactive
      · rw [heq] at ht
        cases ht
    · have hu' := hinv.active u t' hu
      refine hu'.other (hother (hdiff hne hu)) (fun m₀ hm₀ => ?_)
        (snd.other _ _ _ _ _ hinv.mem hm' hext hu'.known)
      cases hm₀ with
      | inl hs => exact Since.append hs es
      | inr heq =>
          rw [heq]
          exact since_step hu'.call hstep
  · intro u u' t₁ t₂ hu hu' heq
    obtain ⟨hself, ht⟩ | ⟨hne, hold⟩ := update_cases hu <;>
      obtain ⟨hself', ht'⟩ | ⟨hne', hold'⟩ := update_cases hu'
    · rw [hself, hself']
    · exact absurd (heq.symm.trans (hsame ht)) (hdiff hne' hold')
    · exact absurd (heq.trans (hsame ht')) (hdiff hne hold)
    · exact hinv.distinct u u' t₁ t₂ hold hold' heq
  · intro op' o' hmem
    by_cases hop : op' = op
    · subst hop
      have ho := hinv.call_unique op' o' o (hold hmem) ha.call
      subst ho
      obtain ⟨p', heq, hactive⟩ | ⟨heq, hfin⟩ := hself
      · refine .inl ⟨c, p', ?_⟩
        show Function.update st.threads c t c = _
        rw [Function.update_self]
        exact heq
      · refine .inr ⟨?_, hfin⟩
        intro u t' hu
        obtain ⟨rfl, ht⟩ | ⟨hne, hu⟩ := update_cases hu
        · rw [heq] at ht
          cases ht
        · exact hdiff hne hu
    · obtain ⟨u, p', hu⟩ | ⟨hquiet, hfin⟩ := hinv.calls op' o' (hold hmem)
      · have hne : u ≠ c := by
          intro heq
          rw [heq, hc] at hu
          cases hu
          exact hop rfl
        refine .inl ⟨u, p', ?_⟩
        show Function.update st.threads c t u = _
        rw [Function.update_of_ne hne]
        exact hu
      · refine .inr ⟨?_, hfin.append (hother hop)⟩
        intro u t' hu
        obtain ⟨rfl, ht⟩ | ⟨_, hu⟩ := update_cases hu
        · rw [hsame ht]
          exact fun heq => hop heq.symm
        · exact hquiet u t' hu

/-- A thread that goes on. -/
theorem RunInv.move (hinv : snd.RunInv h st) (hc : st.threads c = some (op, o, p)) {x : X} {p' : P}
    (hstep : mach.step o st.memory x p = some (m', .inl p')) :
    snd.RunInv (h ++ [.step op st.memory m'])
      ⟨m', Function.update st.threads c (some (op, o, p')), st.ops⟩ := by
  have ha := hinv.active c _ hc
  obtain ⟨hm', hext⟩ := snd.inv o p _ x m' _ _ hinv.mem ha.known hstep
  obtain ⟨hknown, hdone⟩ := snd.move o p _ x m' p' _ hinv.mem ha.known hstep
  have hquiet : S.Same st.memory m' → Unchanged S [.step op st.memory m'] op := by
    intro hsame m₁ m₂ he
    cases List.mem_singleton.mp he
    exact hsame
  refine hinv.step hc hm' hext (List.mem_singleton_self _) ?_ ?_ (.inl ⟨p', rfl, ?_⟩)
  · intro e he
    rw [List.mem_singleton.mp he]
    rfl
  · intro op' o' he
    cases List.mem_singleton.mp he
  · refine ⟨List.mem_append_left _ ha.call, ?_, snd.weaken _ _ _ _ _ ?_ hknown, ?_, ?_⟩
    · intro r hmem
      cases List.mem_append.mp hmem with
      | inl hold => exact ha.live r hold
      | inr hlast => cases List.mem_singleton.mp hlast
    · intro m₀ hm₀
      cases hm₀ with
      | inl hs => exact Since.append hs _
      | inr heq =>
          rw [heq]
          exact since_step ha.call (List.mem_singleton_self _)
    · intro hnone
      obtain ⟨heq, hsame⟩ | ⟨_, r, hr, _⟩ := hdone
      · exact unchanged_append (ha.waiting (heq.symm.trans hnone)) (hquiet hsame)
      · rw [hr] at hnone
        cases hnone
    · intro r hr
      obtain ⟨heq, hsame⟩ | ⟨hnone, r', hr', heff⟩ := hdone
      · exact changedOnce_append (ha.changed r (heq.symm.trans hr)) (hquiet hsame)
      · rw [hr] at hr'
        cases hr'
        exact changedOnce_step (ha.waiting hnone) heff fun _ _ he => absurd he List.not_mem_nil

/-- A thread that returns. -/
theorem RunInv.ret (hinv : snd.RunInv h st) (hc : st.threads c = some (op, o, p)) {x : X}
    (hstep : mach.step o st.memory x p = some (m', .inr r)) :
    snd.RunInv (h ++ [.step op st.memory m', .ret op r])
      ⟨m', Function.update st.threads c none, st.ops⟩ := by
  have ha := hinv.active c _ hc
  obtain ⟨hm', hext⟩ := snd.inv o p _ x m' _ _ hinv.mem ha.known hstep
  have hquiet : S.Same st.memory m' → Unchanged S [.step op st.memory m', .ret op r] op := by
    intro hsame m₁ m₂ he
    cases List.mem_cons.mp he with
    | inl heq =>
        cases heq
        exact hsame
    | inr hlast => cases List.mem_singleton.mp hlast
  refine hinv.step hc hm' hext List.mem_cons_self ?_ ?_ (.inr ⟨rfl, r, ?_, ?_⟩)
  · intro e he
    cases List.mem_cons.mp he with
    | inl heq =>
        rw [heq]
        rfl
    | inr hlast =>
        rw [List.mem_singleton.mp hlast]
        rfl
  · intro op' o' he
    cases List.mem_cons.mp he with
    | inl heq => cases heq
    | inr hlast => cases List.mem_singleton.mp hlast
  · intro r' hmem
    cases List.mem_append.mp hmem with
    | inl hold => exact absurd hold (ha.live r')
    | inr hnew =>
        cases List.mem_cons.mp hnew with
        | inl heq => cases heq
        | inr hlast =>
            cases List.mem_singleton.mp hlast
            rfl
  · obtain ⟨hr, hsame⟩ | ⟨hnone, heff | ⟨hsame, m₀, hm₀, href⟩⟩ :=
      snd.ret o p _ x m' r _ hinv.mem ha.known hstep
    · exact .inl (changedOnce_append (ha.changed r hr) (hquiet hsame))
    · refine .inl (changedOnce_step (ha.waiting hnone) heff fun _ _ he => ?_)
      cases List.mem_singleton.mp he
    · refine .inr ⟨unchanged_append (ha.waiting hnone) (hquiet hsame), ?_⟩
      -- The moment lies before this step, or it is the memory after it.
      have hlast : ∀ {l : List (Event O M R)} {e : Event O M R}, [e].Sublist [.ret op r] →
          l.Sublist (h ++ [.step op st.memory m']) →
            (l ++ [e]).Sublist (h ++ [.step op st.memory m', .ret op r]) := by
        intro l e he hl
        have hsub := hl.append he
        rwa [List.append_assoc] at hsub
      have hsince : Since (h ++ [.step op st.memory m']) op o m₀ := by
        cases hm₀ with
        | inl hs => exact Since.append hs _
        | inr heq =>
            rw [heq]
            exact since_step ha.call (List.mem_singleton_self _)
      obtain ⟨w, m₁, hsub⟩ := hsince
      exact ⟨w, m₁, m₀, hlast (List.Sublist.refl _) hsub, href⟩

/-- Every action preserves the invariant. -/
theorem RunInv.next (hinv : snd.RunInv h st) {act : Action ι O X} {st' : State ι O M P}
    (hnext : mach.next act st = some (es, st')) : snd.RunInv (h ++ es) st' := by
  cases act with
  | call c o =>
      simp only [Machine.next] at hnext
      split at hnext
      · rename_i hc
        cases hnext
        exact hinv.call hc o
      · cases hnext
  | step c x =>
      simp only [Machine.next] at hnext
      split at hnext
      · cases hnext
      · rename_i op o p hc
        split at hnext
        · cases hnext
        · rename_i m' p' hstep
          cases hnext
          exact hinv.move hc hstep
        · rename_i m' r hstep
          cases hnext
          exact hinv.ret hc hstep

end Steps

/-! ## The rule -/

variable [DecidableEq ι] {st : State ι O M P}

/-- The invariant holds in every run. -/
theorem runInv (snd : Sound mach S init) (hexec : Exec (mach.system init) h st) : snd.RunInv h st := by
  induction hexec with
  | init hst => exact runInv_initial hst
  | step _ hnext ih => exact ih.next hnext

/-- In every run the memory keeps its invariant, and every call changes the content in at most one step, with
the effect that its result says, or was right to change nothing. -/
theorem linear (snd : Sound mach S init) (hexec : Exec (mach.system init) h st) :
    snd.Inv st.memory ∧ Linear S h := by
  have hinv := snd.runInv hexec
  refine ⟨hinv.mem, fun op o hcall => ?_⟩
  obtain ⟨c, p, hc⟩ | ⟨_, r, hret, hdone⟩ := hinv.calls op o hcall
  · have ha := hinv.active c _ hc
    refine ⟨?_, fun r hr => absurd hr (ha.live r)⟩
    cases hd : snd.done p with
    | none => exact .inl (ha.waiting hd)
    | some r => exact .inr ⟨r, ha.changed r hd, fun r' hr' => absurd hr' (ha.live r')⟩
  · refine ⟨?_, fun r' hr' => ?_⟩
    · cases hdone with
      | inl hc => exact .inr ⟨r, hc, hret⟩
      | inr hr => exact .inl hr.1
    · rw [hret r' hr']
      exact hdone

end Sound

end Interleaving
