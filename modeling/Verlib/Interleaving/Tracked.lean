import Verlib.Interleaving.Object

/-!
# Objects with a ghost state and a past

In `Sound` the invariant speaks about the memory only. `Tracked` lets it speak about a ghost state as well, which
the machine does not have: a step has to find the next one. The rule for `Tracked` is the rule for `Sound` of another
machine, in which the scheduler chooses the ghost states, and of which every run of the given machine is an image.
-/

namespace Interleaving

open Machine

section

variable {ι O M N P R X : Type*}

/-! ## Images of histories -/

/-- The same event with the images of its memories. -/
def Machine.Event.map (f : N → M) : Event O N R → Event O M R
  | .call op o => .call op o
  | .step op n n' => .step op (f n) (f n')
  | .ret op r => .ret op r

/-- A specification of the images of the memories. -/
def Spec.comap (S : Spec O M R) (f : N → M) : Spec O N R where
  Same n n' := S.Same (f n) (f n')
  Effect o r n n' := S.Effect o r (f n) (f n')
  Refused o r n := S.Refused o r (f n)

variable {S : Spec O M R} {f : N → M} {h : List (Event O N R)} {op : Nat} {o : O} {r : R} {m m' : M}

theorem Machine.Event.mem_map_call : .call op o ∈ h.map (Event.map f) ↔ .call op o ∈ h := by
  constructor
  · intro hmem
    obtain ⟨e, he, heq⟩ := List.mem_map.mp hmem
    cases e with
    | call op' o' =>
        cases heq
        exact he
    | step => cases heq
    | ret => cases heq
  · exact fun hmem => List.mem_map_of_mem (f := Event.map f) hmem

theorem Machine.Event.mem_map_ret : .ret op r ∈ h.map (Event.map f) ↔ .ret op r ∈ h := by
  constructor
  · intro hmem
    obtain ⟨e, he, heq⟩ := List.mem_map.mp hmem
    cases e with
    | call => cases heq
    | step => cases heq
    | ret op' r' =>
        cases heq
        exact he
  · exact fun hmem => List.mem_map_of_mem (f := Event.map f) hmem

theorem Unchanged.map (hno : Unchanged (S.comap f) h op) : Unchanged S (h.map (Event.map f)) op := by
  intro m m' hmem
  obtain ⟨e, he, heq⟩ := List.mem_map.mp hmem
  cases e with
  | call => cases heq
  | step op' n n' =>
      cases heq
      exact hno n n' he
  | ret => cases heq

theorem ChangedOnce.map (hc : ChangedOnce (S.comap f) h op o r) : ChangedOnce S (h.map (Event.map f)) op o r := by
  obtain ⟨h₁, h₂, n, n', rfl, heff, hno₁, hno₂⟩ := hc
  exact ⟨h₁.map (Event.map f), h₂.map (Event.map f), f n, f n', by simp [Event.map], heff, hno₁.map, hno₂.map⟩

theorem RefusedOnce.map (hr : RefusedOnce (S.comap f) h op o r) : RefusedOnce S (h.map (Event.map f)) op o r := by
  obtain ⟨hno, w, n₀, n, hsub, href⟩ := hr
  exact ⟨hno.map, w, f n₀, f n, hsub.map (Event.map f), href⟩

/-- What holds of the memories holds of their images. -/
theorem Linear.map (hlin : Linear (S.comap f) h) : Linear S (h.map (Event.map f)) := by
  intro op o hcall
  obtain ⟨hfirst, hsecond⟩ := hlin op o (Event.mem_map_call.mp hcall)
  refine ⟨hfirst.imp (fun hno => hno.map) fun hch => ?_, fun r hret => ?_⟩
  · obtain ⟨r, hch, hr⟩ := hch
    exact ⟨r, hch.map, fun r' hret => hr r' (Event.mem_map_ret.mp hret)⟩
  · exact (hsecond r (Event.mem_map_ret.mp hret)).imp (fun hch => hch.map) fun hr => hr.map

end

/-! ## The rule -/

section

variable {O M P R X G : Type*}

/-- What a step of a call makes of what it knows: `past` are the memories since the call, with their ghost states. -/
def Outcome (S : Spec O M R) (Known : O → P → G × M → (G × M → Prop) → Prop) (done : P → Option R) (o : O) (p : P)
    (m : M) (n' : G × M) (past : G × M → Prop) : P ⊕ R → Prop
  | .inl p' => Known o p' n' (fun n₀ => past n₀ ∨ n₀ = n') ∧
      (done p' = done p ∧ S.Same m n'.2 ∨ done p = none ∧ ∃ r, done p' = some r ∧ S.Effect o r m n'.2)
  | .inr r => done p = some r ∧ S.Same m n'.2 ∨ done p = none ∧
      (S.Effect o r m n'.2 ∨ S.Same m n'.2 ∧ ∃ n₀, (past n₀ ∨ n₀ = n') ∧ S.Refused o r n₀.2)

/-- What has to be shown of an object with a ghost state. -/
structure Tracked (mach : Machine O M P R X) (S : Spec O M R) (init : M → Prop) (G : Type*) where
  Inv : G × M → Prop
  Ext : G × M → G × M → Prop
  Known : O → P → G × M → (G × M → Prop) → Prop
  done : P → Option R
  initial : ∀ m, init m → ∃ g, Inv (g, m)
  start : ∀ o n past, Inv n → Known o (mach.start o) n past
  start_done : ∀ o, done (mach.start o) = none
  weaken : ∀ o p n (past past' : G × M → Prop), (∀ n₀, past n₀ → past' n₀) → Known o p n past → Known o p n past'
  other : ∀ o p n n' past, Inv n → Inv n' → Ext n n' → Known o p n past →
    Known o p n' fun n₀ => past n₀ ∨ n₀ = n'
  step : ∀ o p g m x m' k, Inv (g, m) → (∃ past, Known o p (g, m) past) → mach.step o m x p = some (m', k) →
    ∃ g', Inv (g', m') ∧ Ext (g, m) (g', m') ∧
      ∀ past, Known o p (g, m) past → Outcome S Known done o p m (g', m') past k

namespace Tracked

variable {mach : Machine O M P R X} {S : Spec O M R} {init : M → Prop} (trk : Tracked mach S init G)

/-- The next ghost state is the right one for a step. -/
def Good (o : O) (p : P) (n : G × M) (x : X) (g' : G) : Prop :=
  ∀ m' k, mach.step o n.2 x p = some (m', k) → trk.Inv (g', m') ∧ trk.Ext n (g', m') ∧
    ∀ past, trk.Known o p n past → Outcome S trk.Known trk.done o p n.2 (g', m') past k

open Classical in
/-- The machine with the ghost state, which the scheduler chooses. -/
noncomputable def machine : Machine O (G × M) P R (X × G) where
  start := mach.start
  step o n x p := if trk.Good o p n x.1 x.2 then (mach.step o n.2 x.1 p).map fun r => ((x.2, r.1), r.2) else none

/-- The initial memories with the right ghost states. -/
def Starts (n : G × M) : Prop := init n.2 ∧ trk.Inv n

variable {trk} {o : O} {p : P} {n n' : G × M} {x : X × G} {k : P ⊕ R}

/-- A step of the machine with the ghost state. -/
theorem machine_step (hstep : trk.machine.step o n x p = some (n', k)) :
    trk.Good o p n x.1 x.2 ∧ mach.step o n.2 x.1 p = some (n'.2, k) ∧ n'.1 = x.2 := by
  unfold machine at hstep
  dsimp only at hstep
  split at hstep
  · rename_i hgood
    obtain ⟨r, hr, heq⟩ := Option.map_eq_some_iff.mp hstep
    cases heq
    exact ⟨hgood, hr, rfl⟩
  · cases hstep

/-- What a step of the machine with the ghost state does. -/
theorem machine_good (hstep : trk.machine.step o n x p = some (n', k)) :
    trk.Inv n' ∧ trk.Ext n n' ∧
      ∀ past, trk.Known o p n past → Outcome S trk.Known trk.done o p n.2 n' past k := by
  obtain ⟨hgood, hmove, hg⟩ := machine_step hstep
  obtain ⟨hinv, hext, hout⟩ := hgood _ _ hmove
  have hn : (x.2, n'.2) = n' := by rw [← hg]
  rw [hn] at hinv hext hout
  exact ⟨hinv, hext, hout⟩

/-- The machine with the ghost state is sound. -/
def sound (trk : Tracked mach S init G) : Sound trk.machine (S.comap Prod.snd) trk.Starts where
  Inv := trk.Inv
  Ext := trk.Ext
  Known := trk.Known
  done := trk.done
  initial _ hn := hn.2
  start := trk.start
  start_done := trk.start_done
  weaken := trk.weaken
  other := trk.other
  inv _ _ _ _ _ _ _ _ _ hstep := ⟨(machine_good hstep).1, (machine_good hstep).2.1⟩
  move _ _ _ _ _ _ past _ hk hstep := (machine_good hstep).2.2 past hk
  ret _ _ _ _ _ _ past _ hk hstep := (machine_good hstep).2.2 past hk

/-! ## Runs -/

variable {ι : Type*}

/-- A state without the ghost state. -/
def forget (st : State ι O (G × M) P) : State ι O M P := ⟨st.memory.2, st.threads, st.ops⟩

variable [DecidableEq ι] {st : State ι O M P} {h : List (Event O M R)}

/-- A step of the machine is one of the machine with the ghost state. -/
theorem exists_next {sg : State ι O (G × M) P} {hg : List (Event O (G × M) R)} (hinv : trk.sound.RunInv hg sg)
    {act : Action ι O X} {es : List (Event O M R)} {st' : State ι O M P}
    (hnext : mach.next act (forget sg) = some (es, st')) :
    ∃ act' es' sg', trk.machine.next act' sg = some (es', sg') ∧ es = es'.map (Event.map Prod.snd) ∧
      st' = forget sg' := by
  cases act with
  | call c o =>
      simp only [Machine.next, forget] at hnext
      split at hnext
      next hc =>
          cases hnext
          exact ⟨.call c o, [.call sg.ops o], ⟨sg.memory, Function.update sg.threads c
            (some (sg.ops, o, mach.start o)), sg.ops + 1⟩, by simp only [Machine.next, hc]; rfl, rfl, rfl⟩
      · cases hnext
  | step c x =>
      simp only [Machine.next, forget] at hnext
      split at hnext
      · cases hnext
      next op o p hc =>
          have hknown := (hinv.active c _ hc).known
          split at hnext
          · cases hnext
          next m' p' hstep =>
              cases hnext
              obtain ⟨g', hi, he, ho⟩ := trk.step o p sg.memory.1 sg.memory.2 x m' _ hinv.mem ⟨_, hknown⟩ hstep
              have hgood : trk.Good o p sg.memory x g' := by
                intro m₁ k₁ hstep₁
                rw [hstep] at hstep₁
                cases hstep₁
                exact ⟨hi, he, ho⟩
              exact ⟨.step c (x, g'), [.step op sg.memory (g', m')], ⟨(g', m'), Function.update sg.threads c
                (some (op, o, p')), sg.ops⟩, by simp only [Machine.next, hc, machine, if_pos hgood, hstep,
                Option.map_some], rfl, rfl⟩
          next m' r hstep =>
              cases hnext
              obtain ⟨g', hi, he, ho⟩ := trk.step o p sg.memory.1 sg.memory.2 x m' _ hinv.mem ⟨_, hknown⟩ hstep
              have hgood : trk.Good o p sg.memory x g' := by
                intro m₁ k₁ hstep₁
                rw [hstep] at hstep₁
                cases hstep₁
                exact ⟨hi, he, ho⟩
              exact ⟨.step c (x, g'), [.step op sg.memory (g', m'), .ret op r], ⟨(g', m'), Function.update sg.threads c
                none, sg.ops⟩, by simp only [Machine.next, hc, machine, if_pos hgood, hstep, Option.map_some], rfl, rfl⟩

/-- Every run of the machine is the image of one with the ghost state. -/
theorem exists_exec (trk : Tracked mach S init G) (hexec : Exec (mach.system init) h st) :
    ∃ hg sg, Exec (trk.machine.system trk.Starts) hg sg ∧ h = hg.map (Event.map Prod.snd) ∧
      st = forget (ι := ι) sg := by
  induction hexec with
  | @init st hst =>
      obtain ⟨g, hg⟩ := trk.initial _ hst.memory
      exact ⟨[], ⟨(g, st.memory), st.threads, st.ops⟩, .init ⟨⟨hst.memory, hg⟩, hst.threads, hst.ops⟩, rfl, rfl⟩
  | @step h st act es st' _ hnext ih =>
      obtain ⟨hg, sg, hexec, rfl, rfl⟩ := ih
      obtain ⟨act', es', sg', hnext', rfl, rfl⟩ := exists_next (trk.sound.runInv hexec) hnext
      exact ⟨hg ++ es', sg', .step hexec hnext', by rw [List.map_append], rfl⟩

/-- In every run there is a ghost state with the invariant and with what the calls know. -/
theorem known (trk : Tracked mach S init G) (hexec : Exec (mach.system init) h st) :
    ∃ g, trk.Inv (g, st.memory) ∧
      ∀ c op o p, st.threads c = some (op, o, p) → ∃ past, trk.Known o p (g, st.memory) past := by
  obtain ⟨hg, sg, hexec', rfl, rfl⟩ := trk.exists_exec hexec
  have hinv := trk.sound.runInv hexec'
  exact ⟨sg.memory.1, hinv.mem, fun c op o p hc => ⟨_, (hinv.active c _ hc).known⟩⟩

/-- In every run there is a ghost state with the invariant, and every call changes the content in at most one step,
with the effect that its result says, or was right to change nothing. -/
theorem linear (trk : Tracked mach S init G) (hexec : Exec (mach.system init) h st) :
    (∃ g, trk.Inv (g, st.memory)) ∧ Linear S h := by
  obtain ⟨hg, sg, hexec', rfl, rfl⟩ := trk.exists_exec hexec
  obtain ⟨hinv, hlin⟩ := trk.sound.linear hexec'
  exact ⟨⟨sg.memory.1, hinv⟩, hlin.map⟩

end Tracked

end

end Interleaving
