import Verlib.Hybrid.Retire

/-!
# Every link is retired once

A link leaves the pointer in two ways: the `cas` of a `shortcut` replaces it by its value, or the first `cam`
of the next `store` replaces it by a new version. The thread whose swap succeeds owes its retirement. After
its first `cam` a `store` reads the pointer again to find out which of the two has happened: the pointer shows
the value of the old link if a `shortcut` was first, and another pointer if the `cam` has succeeded, since the
stored pointer differs from the old value. So exactly one thread owes a link that was replaced.
-/

namespace Verlib.Hybrid.Retire

open Interleaving

variable {h es : List Event} {m m' : Memory} {pc pc' : Pc} {ι : Type} {init : Option Nat}

/-- The pointer after a write. -/
@[simp] theorem ptr_write (m : Memory) (y : Versioned) : ptr (write m y) = y := by
  show (Function.update m.v () (0, y) ()).2 = y
  rw [Function.update_self]

/-! ## What a thread knows -/

/-- The link that a thread has replaced and has not retired yet. -/
def Pc.owes : Pc → Option Nat
  | .shortcut l .retire _ | .recheck _ l _ true | .retireOld _ l _ => some l
  | _ => none

/-- A version that has not been installed: an object, or a new link to `p`. -/
def NewOk (h : List Event) (m : Memory) (p : Option Nat) (new : Versioned) : Prop :=
  new = .direct p ∨ ∃ l, new = .indirect l ∧ m.value l = p ∧ l < m.fresh ∧ .install l ∉ h

/-- A `store` has loaded `old`, which is still there, or has been replaced by its value. -/
structure Loaded (h : List Event) (m : Memory) (p : Option Nat) (old : Versioned) : Prop where
  ne : m.getPtr (ptr m) ≠ p
  word : ptr m = old ∨ ∃ l, old = .indirect l ∧ ptr m = .direct (m.value l)
  installed : ∀ l, old = .indirect l → .install l ∈ h

/-- A `store` has installed its new version. -/
structure Stored (h : List Event) (m : Memory) (p : Option Nat) (new : Versioned) : Prop where
  value : m.getPtr (ptr m) = p
  installed : ∀ l, new = .indirect l → .install l ∈ h

/-- A `store` has found the value of the old link `l` in the place of the link. -/
structure Replaced (h : List Event) (m : Memory) (p : Option Nat) (l : Nat) (new : Versioned) : Prop where
  link : .install l ∈ h
  ne : m.value l ≠ p
  word : ptr m = .direct (m.value l)
  new : NewOk h m p new

/-- A `store` has replaced the link `l`. -/
structure Removed (h : List Event) (m : Memory) (p : Option Nat) (l : Nat) (new : Versioned) : Prop where
  link : .install l ∈ h
  ne : m.value l ≠ p
  stored : Stored h m p new

/-- What a thread knows at each position. -/
def PcOk (h : List Event) (m : Memory) : Pc → Prop
  | .setStamp _ _ (.store p new) => Stored h m p new
  | .setStamp _ _ (.load head) => ∀ l, head = .indirect l → .install l ∈ h
  | .shortcut l _ (some p) => .install l ∈ h ∧ m.getPtr (ptr m) = p
  | .shortcut l _ none => .install l ∈ h
  | .store p => m.getPtr (ptr m) ≠ p
  | .useIndirect p old | .newLink p old | .setNext p old => Loaded h m p old
  | .camRead p old new | .camSwap p old new => Loaded h m p old ∧ NewOk h m p new
  | .recheck p l new false | .againRead p l new | .againSwap p l new => Replaced h m p l new
  | .recheck p l new true | .retireOld p l new => Removed h m p l new
  | _ => True

/-- What a thread that stores nothing knows only depends on the links that have been installed. -/
theorem PcOk.reader (hpc : PcOk h m pc) (hread : pc.storing = false) : PcOk (h ++ es) m' pc := by
  cases pc with
  | setStamp y x k =>
      cases k with
      | store p new => cases hread
      | load head => exact fun l hl => List.mem_append_left _ (hpc l hl)
      | walk ls head => trivial
  | shortcut l x ret =>
      cases ret with
      | none => exact List.mem_append_left _ hpc
      | some p => cases hread
  | idle | load | read | readSnapshot | walk | follow => trivial
  | store | useIndirect | newLink | setNext | camRead | camSwap | recheck | retireOld | againRead
    | againSwap => cases hread

/-- What a step of a thread that stores nothing leaves of the memory: the pointer, or the value of the link
that it held. -/
structure Calm (m m' : Memory) : Prop where
  word : ptr m' = ptr m ∨ ∃ l, ptr m = .indirect l ∧ ptr m' = .direct (m.value l)
  value : m'.value = m.value
  fresh : m'.fresh = m.fresh

/-- The pointer keeps its value. -/
theorem Calm.getPtr (hcalm : Calm m m') : m'.getPtr (ptr m') = m.getPtr (ptr m) := by
  have hsame : ∀ y, m'.getPtr y = m.getPtr y := by
    intro y
    cases y with
    | direct p => rfl
    | indirect l =>
        show m'.value l = m.value l
        rw [hcalm.value]
  rw [hsame]
  cases hcalm.word with
  | inl heq => rw [heq]
  | inr hex =>
      obtain ⟨l, hl, hl'⟩ := hex
      rw [hl, hl']
      rfl

/-- A value that the pointer shows stays there. -/
theorem Calm.direct (hcalm : Calm m m') {p : Option Nat} (hp : ptr m = .direct p) : ptr m' = .direct p := by
  cases hcalm.word with
  | inl heq => exact heq.trans hp
  | inr hex =>
      obtain ⟨l, hl, _⟩ := hex
      rw [hp] at hl
      cases hl

/-- What a thread knows survives the steps of the threads that store nothing. -/
theorem PcOk.calm (hpc : PcOk h m pc) (hcalm : Calm m m') (hes : ∀ l, .install l ∉ es) :
    PcOk (h ++ es) m' pc := by
  have hmem : ∀ {l}, .install l ∈ h → .install l ∈ h ++ es := List.mem_append_left es
  have hnew : ∀ {p new}, NewOk h m p new → NewOk (h ++ es) m' p new := by
    intro p new hnew
    cases hnew with
    | inl heq => exact .inl heq
    | inr hex =>
        obtain ⟨l, hl, hvalue, hlt, hno⟩ := hex
        refine .inr ⟨l, hl, ?_, ?_, ?_⟩
        · rw [hcalm.value]
          exact hvalue
        · rw [hcalm.fresh]
          exact hlt
        · intro hin
          cases List.mem_append.mp hin with
          | inl hold => exact hno hold
          | inr hnew => exact hes l hnew
  have hloaded : ∀ {p old}, Loaded h m p old → Loaded (h ++ es) m' p old := by
    intro p old hold
    refine ⟨?_, ?_, fun l hl => hmem (hold.installed l hl)⟩
    · rw [hcalm.getPtr]
      exact hold.ne
    · cases hold.word with
      | inl heq =>
          cases hcalm.word with
          | inl heq' => exact .inl (heq'.trans heq)
          | inr hex =>
              obtain ⟨l, hl, hl'⟩ := hex
              refine .inr ⟨l, heq.symm.trans hl, ?_⟩
              rw [hcalm.value]
              exact hl'
      | inr hex =>
          obtain ⟨l, hl, hl'⟩ := hex
          refine .inr ⟨l, hl, ?_⟩
          rw [hcalm.value]
          exact hcalm.direct hl'
  have hstored : ∀ {p new}, Stored h m p new → Stored (h ++ es) m' p new := by
    intro p new hs
    exact ⟨hcalm.getPtr.trans hs.value, fun l hl => hmem (hs.installed l hl)⟩
  have hreplaced : ∀ {p l new}, Replaced h m p l new → Replaced (h ++ es) m' p l new := by
    intro p l new hr
    refine ⟨hmem hr.link, ?_, ?_, hnew hr.new⟩
    · rw [hcalm.value]
      exact hr.ne
    · rw [hcalm.value]
      exact hcalm.direct hr.word
  have hremoved : ∀ {p l new}, Removed h m p l new → Removed (h ++ es) m' p l new := by
    intro p l new hr
    refine ⟨hmem hr.link, ?_, hstored hr.stored⟩
    rw [hcalm.value]
    exact hr.ne
  cases pc with
  | setStamp y x k =>
      cases k with
      | store p new => exact hstored hpc
      | load head => exact fun l hl => hmem (hpc l hl)
      | walk ls head => trivial
  | shortcut l x ret =>
      cases ret with
      | none => exact hmem hpc
      | some p => exact ⟨hmem hpc.1, hcalm.getPtr.trans hpc.2⟩
  | store p =>
      show m'.getPtr (ptr m') ≠ p
      rw [hcalm.getPtr]
      exact hpc
  | useIndirect | newLink | setNext => exact hloaded hpc
  | camRead | camSwap => exact ⟨hloaded hpc.1, hnew hpc.2⟩
  | recheck p l new installed =>
      cases installed with
      | false => exact hreplaced hpc
      | true => exact hremoved hpc
  | retireOld => exact hremoved hpc
  | againRead | againSwap => exact hreplaced hpc
  | idle | load | read | readSnapshot | walk | follow => trivial

/-! ## Who owes a link -/

/-- A link has not been installed or is in the pointer; or one thread owes its retirement; or it has been
retired once. -/
inductive Settled (h : List Event) (m : Memory) (threads : ι → Pc) (l : Nat) : Prop where
  | kept (hno : ∀ t, (threads t).owes ≠ some l) (hcount : h.count (.retire l) = 0)
      (hword : .install l ∈ h → ptr m = .indirect l)
  | owed (t : ι) (ht : (threads t).owes = some l) (hone : ∀ u, (threads u).owes = some l → u = t)
      (hcount : h.count (.retire l) = 0) (hin : .install l ∈ h) (hword : ptr m ≠ .indirect l)
  | retired (hno : ∀ t, (threads t).owes ≠ some l) (hcount : h.count (.retire l) = 1)
      (hin : .install l ∈ h) (hword : ptr m ≠ .indirect l)

/-- What a step does to the pointer and to the links that are owed. -/
inductive Change (h : List Event) (m : Memory) (pc : Pc) (r : Result) : Prop where
  | quiet (hword : ptr r.memory = ptr m) (hes : ∀ l, .install l ∉ r.events ∧ .retire l ∉ r.events)
      (howes : r.pc.owes = pc.owes)
  | cut (l : Nat) (hold : ptr m = .indirect l) (hword : ptr r.memory = .direct (m.value l))
      (hes : r.events = []) (hnone : pc.owes = none) (howes : r.pc.owes = some l)
  | install (new : Versioned) (hne : ∀ l, new = .indirect l → .install l ∉ h) (hword : ptr r.memory = new)
      (hes : r.events = installs new) (hnone : pc.owes = none)
      (howes : ∀ l, r.pc.owes = some l ↔ ptr m = .indirect l)
  | retire (l : Nat) (hword : ptr r.memory = ptr m) (hins : ∀ l', .install l' ∉ r.events)
      (hone : r.events.count (.retire l) = 1) (hes : ∀ l', .retire l' ∈ r.events → l' = l)
      (howed : pc.owes = some l) (hnone : r.pc.owes = none)

section Settling

variable [DecidableEq ι] {threads : ι → Pc} {t : ι} {l : Nat}

/-- What the threads owe after one of them has moved. -/
theorem owes_update_iff {u : ι} : (Function.update threads t pc' u).owes = some l ↔
    u = t ∧ pc'.owes = some l ∨ u ≠ t ∧ (threads u).owes = some l := by
  by_cases hu : u = t
  · subst hu
    rw [Function.update_self]
    simp
  · rw [Function.update_of_ne hu]
    simp [hu]

/-- Nothing changes for a link that neither enters nor leaves the pointer and is not retired. -/
theorem Settled.keep (hs : Settled h m threads l) (hword : ptr m' = .indirect l ↔ ptr m = .indirect l)
    (hins : .install l ∉ es) (hret : .retire l ∉ es)
    (howes : pc'.owes = some l ↔ (threads t).owes = some l) :
    Settled (h ++ es) m' (Function.update threads t pc') l := by
  have hcount : (h ++ es).count (.retire l) = h.count (.retire l) := by
    rw [List.count_append, List.count_eq_zero_of_not_mem hret, Nat.add_zero]
  have hmem : .install l ∈ h ++ es ↔ .install l ∈ h := by
    rw [List.mem_append]
    simp [hins]
  have hsame : ∀ u, (Function.update threads t pc' u).owes = some l ↔ (threads u).owes = some l := by
    intro u
    rw [owes_update_iff]
    by_cases hu : u = t
    · subst hu
      simp [howes]
    · simp [hu]
  cases hs with
  | kept hno h0 hw =>
      refine .kept (fun u hu => hno u ((hsame u).mp hu)) (hcount.trans h0) fun hin => ?_
      exact hword.mpr (hw (hmem.mp hin))
  | owed u hu hone h0 hin hw =>
      refine .owed u ((hsame u).mpr hu) (fun w hw' => hone w ((hsame w).mp hw')) (hcount.trans h0)
        (hmem.mpr hin) fun heq => hw (hword.mp heq)
  | retired hno h1 hin hw =>
      exact .retired (fun u hu => hno u ((hsame u).mp hu)) (hcount.trans h1) (hmem.mpr hin)
        fun heq => hw (hword.mp heq)

/-- A link that leaves the pointer is owed by the thread that has replaced it. -/
theorem Settled.leave (hs : Settled h m threads l) (hold : ptr m = .indirect l) (hin : .install l ∈ h)
    (hword : ptr m' ≠ .indirect l) (hret : .retire l ∉ es) (howes : pc'.owes = some l) :
    Settled (h ++ es) m' (Function.update threads t pc') l := by
  cases hs with
  | kept hno h0 hw =>
      refine .owed t ?_ (fun u hu => ?_) ?_ (List.mem_append_left _ hin) hword
      · rw [Function.update_self]
        exact howes
      · obtain ⟨heq, _⟩ | ⟨_, hu⟩ := owes_update_iff.mp hu
        · exact heq
        · exact absurd hu (hno u)
      · rw [List.count_append, List.count_eq_zero_of_not_mem hret, h0]
  | owed u hu hone h0 hin' hw => exact absurd hold hw
  | retired hno h1 hin' hw => exact absurd hold hw

/-- Every step settles every link. -/
theorem Change.settled {r : Result} (hc : Change h m (threads t) r)
    (hinstalled : ∀ l, ptr m = .indirect l → .install l ∈ h) (hall : ∀ l, Settled h m threads l) (l : Nat) :
    Settled (h ++ r.events) r.memory (Function.update threads t r.pc) l := by
  cases hc with
  | quiet hword hes howes =>
      refine (hall l).keep ?_ (hes l).1 (hes l).2 ?_
      · rw [hword]
      · rw [howes]
  | cut l₀ hold hword hes hnone howes =>
      have hret : ∀ l', .retire l' ∉ r.events := by
        intro l'
        rw [hes]
        exact List.not_mem_nil
      by_cases hl : l = l₀
      · subst hl
        refine (hall l).leave hold (hinstalled l hold) ?_ (hret l) howes
        rw [hword]
        exact fun heq => by cases heq
      · refine (hall l).keep ?_ ?_ (hret l) ?_
        · rw [hword, hold]
          constructor
          · intro heq
            cases heq
          · intro heq
            cases heq
            exact absurd rfl hl
        · rw [hes]
          exact List.not_mem_nil
        · rw [howes, hnone]
          constructor
          · intro heq
            cases heq
            exact absurd rfl hl
          · intro heq
            cases heq
  | install new hne hword hes hnone howes =>
      have hret : ∀ l', .retire l' ∉ r.events := by
        intro l'
        rw [hes]
        cases new with
        | direct p => exact List.not_mem_nil
        | indirect k =>
            intro hmem
            cases List.mem_singleton.mp hmem
      by_cases hnew : new = .indirect l
      · -- The new link enters the pointer; nobody has owed it before.
        have hfresh := hne l hnew
        have hmem : .install l ∈ h ++ r.events := by
          refine List.mem_append_right _ ?_
          rw [hes, hnew]
          exact List.mem_singleton_self _
        have hold : ptr m ≠ .indirect l := fun heq => hfresh (hinstalled l heq)
        cases hall l with
        | kept hno h0 hw =>
            refine .kept (fun u hu => ?_) ?_ fun _ => hword.trans hnew
            · obtain ⟨_, ho⟩ | ⟨_, ho⟩ := owes_update_iff.mp hu
              · exact hold ((howes l).mp ho)
              · exact hno u ho
            · rw [List.count_append, List.count_eq_zero_of_not_mem (hret l), h0]
        | owed u hu hone h0 hin hw => exact absurd hin hfresh
        | retired hno h1 hin hw => exact absurd hin hfresh
      · have hword' : ptr r.memory ≠ .indirect l := fun heq => hnew (hword.symm.trans heq)
        by_cases hold : ptr m = .indirect l
        · exact (hall l).leave hold (hinstalled l hold) hword' (hret l) ((howes l).mpr hold)
        · refine (hall l).keep (iff_of_false hword' hold) ?_ (hret l) ?_
          · rw [hes]
            cases new with
            | direct p => exact List.not_mem_nil
            | indirect k =>
                intro hmem
                cases List.mem_singleton.mp hmem
                exact hnew rfl
          · rw [howes, hnone]
            exact iff_of_false hold fun heq => by cases heq
  | retire l₀ hword hins hone hes howed hnone =>
      by_cases hl : l = l₀
      · subst hl
        cases hall l with
        | kept hno h0 hw => exact absurd howed (hno t)
        | owed u hu huniq h0 hin hw =>
            refine .retired (fun w hw' => ?_) ?_ (List.mem_append_left _ hin) ?_
            · obtain ⟨_, ho⟩ | ⟨hne, ho⟩ := owes_update_iff.mp hw'
              · rw [hnone] at ho
                cases ho
              · exact hne ((huniq w ho).trans (huniq t howed).symm)
            · rw [List.count_append, h0, hone]
            · rw [hword]
              exact hw
        | retired hno h1 hin hw => exact absurd howed (hno t)
      · refine (hall l).keep ?_ (hins l) (fun hmem => hl (hes l hmem)) ?_
        · rw [hword]
        · rw [hnone, howed]
          constructor
          · intro heq
            cases heq
          · intro heq
            cases heq
            exact absurd rfl hl

end Settling

/-! ## The steps of a thread -/

/-- What a step of a thread does. -/
structure StepOk (h : List Event) (m : Memory) (pc : Pc) (r : Result) : Prop where
  value : ∀ l, l < m.fresh → r.memory.value l = m.value l
  fresh : m.fresh ≤ r.memory.fresh
  installs : ∀ l, .install l ∈ r.events → l < r.memory.fresh
  word : ∀ l, ptr r.memory = .indirect l → .install l ∈ h ++ r.events
  storing : r.pc.storing = true → pc.storing = true
  ok : PcOk (h ++ r.events) r.memory r.pc
  calm : pc.storing = false → Calm m r.memory ∧ ∀ l, .install l ∉ r.events
  silent : pc.storing = false ∨ r.pc.storing = true → ∀ x, lastStored x r.events = x
  done : pc.storing = true → r.pc.storing = false →
    ∀ x, lastStored x r.events = r.memory.getPtr (ptr r.memory)
  change : Change h m pc r

/-- The pointer holds a link that has been installed, if it holds one. -/
def WordOk (h : List Event) (m : Memory) : Prop :=
  ∀ l, ptr m = .indirect l → .install l ∈ h

/-- A memory that differs in stamps and older versions only. -/
theorem Calm.of_eq (hv : m'.v = m.v) (hvalue : m'.value = m.value) (hfresh : m'.fresh = m.fresh) :
    Calm m m' := by
  refine ⟨.inl ?_, hvalue, hfresh⟩
  unfold ptr
  rw [hv]

/-- A step that leaves the pointer alone and shows nothing. -/
theorem StepOk.still (hword : WordOk h m) (hcalm : Calm m m') (hptr : ptr m' = ptr m) (hok : PcOk h m pc')
    (hstoring : pc'.storing = pc.storing) (howes : pc'.owes = pc.owes) : StepOk h m pc ⟨[], m', pc'⟩ where
  value l _ := by rw [hcalm.value]
  fresh := hcalm.fresh.ge
  installs l hl := absurd hl List.not_mem_nil
  word l hl := List.mem_append_left _ (hword l (hptr.symm.trans hl))
  storing hs := hstoring.symm.trans hs
  ok := hok.calm hcalm fun _ => List.not_mem_nil
  calm _ := ⟨hcalm, fun _ => List.not_mem_nil⟩
  silent _ _ := rfl
  done hs hn := by
    have heq := (hstoring.symm.trans hn).symm.trans hs
    cases heq
  change := .quiet hptr (fun _ => ⟨List.not_mem_nil, List.not_mem_nil⟩) howes

/-- A call ends; a `store` has stored its pointer. -/
theorem StepOk.ends (hword : WordOk h m) (hcalm : Calm m m') (hptr : ptr m' = ptr m) (ret : Option (Option Nat))
    (hret : ∀ p, ret = some p → m.getPtr (ptr m) = p) (hstoring : pc.storing = ret.isSome)
    (howes : pc.owes = none) : StepOk h m pc ⟨returns ret, m', .idle⟩ := by
  cases ret with
  | none => exact .still hword hcalm hptr trivial hstoring.symm howes.symm
  | some p =>
      have hins : ∀ l, .install l ∉ returns (some p) := by
        intro l hl
        cases List.mem_singleton.mp hl
      refine ⟨fun l _ => (by rw [hcalm.value]), hcalm.fresh.ge, fun l hl => absurd hl (hins l), fun l hl => ?_,
        fun hs => (by cases hs), trivial, fun hs => ?_, fun hs => ?_, fun _ _ x => ?_, ?_⟩
      · exact List.mem_append_left _ (hword l (hptr.symm.trans hl))
      · rw [hstoring] at hs
        cases hs
      · rw [hstoring] at hs
        obtain hs | hs := hs
        · cases hs
        · cases hs
      · show p = _
        rw [hcalm.getPtr]
        exact (hret p rfl).symm
      · refine .quiet hptr (fun l => ⟨hins l, fun hl => ?_⟩) howes.symm
        cases List.mem_singleton.mp hl

/-- `set_stamp` writes nothing but a stamp. -/
theorem setStamp_calm (m : Memory) (y : Versioned) (x : SetStamp) :
    Calm m (Hybrid.setStamp m y x).1 ∧ ptr (Hybrid.setStamp m y x).1 = ptr m := by
  cases x with
  | load => exact ⟨.of_eq rfl rfl rfl, rfl⟩
  | clock => exact ⟨.of_eq rfl rfl rfl, rfl⟩
  | again t => exact ⟨.of_eq rfl rfl rfl, rfl⟩
  | swap t =>
      unfold Hybrid.setStamp
      dsimp only
      split
      · exact ⟨.of_eq rfl rfl rfl, rfl⟩
      · exact ⟨.of_eq rfl rfl rfl, rfl⟩

/-- `set_stamp`, and what follows. -/
theorem PcOk.step_setStamp (hword : WordOk h m) {y : Versioned} {x : SetStamp} {k : After}
    (hpc : PcOk h m (.setStamp y x k)) {r : Result} (hstep : stepThread m (.setStamp y x k) = some r) :
    StepOk h m (.setStamp y x k) r := by
  obtain ⟨hcalm, hptr⟩ := setStamp_calm m y x
  simp only [stepThread] at hstep
  split at hstep
  · rename_i m' x' heq
    cases hstep
    rw [heq] at hcalm hptr
    refine .still hword hcalm hptr ?_ ?_ rfl
    · cases k with
      | store p new => exact hpc
      | load head => exact hpc
      | walk ls head => trivial
    · cases k with
      | store p new => rfl
      | load head => rfl
      | walk ls head => rfl
  · rename_i m' heq
    cases hstep
    rw [heq] at hcalm hptr
    cases k with
    | store p new =>
        have hs : Stored h m p new := hpc
        cases new with
        | direct q =>
            refine StepOk.ends hword hcalm hptr (some p) ?_ rfl rfl
            intro p' hp'
            cases hp'
            exact hs.value
        | indirect l =>
            exact .still hword hcalm hptr ⟨hs.installed l rfl, hs.value⟩ rfl rfl
    | load head =>
        cases head with
        | direct q => exact .still hword hcalm hptr trivial rfl rfl
        | indirect l => exact .still hword hcalm hptr (hpc l rfl) rfl rfl
    | walk ls head => exact .still hword hcalm hptr trivial rfl rfl

/-- The steps of `shortcut`. -/
theorem PcOk.step_shortcut (hword : WordOk h m) {l : Nat} {x : Cut} {ret : Option (Option Nat)}
    (hpc : PcOk h m (.shortcut l x ret)) : StepOk h m (.shortcut l x ret) (stepShortcut m l ret x) := by
  have hrefl : Calm m m := .of_eq rfl rfl rfl
  have hin : .install l ∈ h := by
    cases ret with
    | none => exact hpc
    | some p => exact hpc.1
  have hret : ∀ p, ret = some p → m.getPtr (ptr m) = p := by
    intro p hp
    rw [hp] at hpc
    exact hpc.2
  have hstoring : ∀ x', (Pc.shortcut l x' ret).storing = ret.isSome := by
    intro x'
    cases ret with
    | none => rfl
    | some p => rfl
  have hmove : ∀ x', (Pc.shortcut l x' ret).owes = (Pc.shortcut l x ret).owes →
      StepOk h m (.shortcut l x ret) ⟨[], m, .shortcut l x' ret⟩ := by
    intro x' howes
    refine .still hword hrefl rfl ?_ ((hstoring x').trans (hstoring x).symm) howes
    cases ret with
    | none => exact hpc
    | some p => exact hpc
  have hend : (Pc.shortcut l x ret).owes = none →
      StepOk h m (.shortcut l x ret) ⟨returns ret, m, .idle⟩ :=
    fun howes => .ends hword hrefl rfl _ hret (hstoring x) howes
  cases x with
  | load => exact hmove _ rfl
  | test t =>
      cases t with
      | none => exact hend rfl
      | some t =>
          unfold stepShortcut
          dsimp only
          split
          · exact hmove _ rfl
          · exact hend rfl
  | read =>
      unfold stepShortcut
      dsimp only
      split
      · exact hmove _ rfl
      · exact hend rfl
  | swap =>
      unfold stepShortcut
      dsimp only
      split
      · rename_i hptr
        have hptr' : ptr (write m (.direct (m.value l))) = .direct (m.value l) := ptr_write m _
        have hcalm : Calm m (write m (.direct (m.value l))) := ⟨.inr ⟨l, hptr, hptr'⟩, rfl, rfl⟩
        refine ⟨fun _ _ => rfl, le_rfl, fun l' hl' => absurd hl' List.not_mem_nil, fun l' hl' => ?_,
          fun hs => (hstoring _).trans ((hstoring _).symm.trans hs), ?_,
          fun _ => ⟨hcalm, fun _ => List.not_mem_nil⟩, fun _ _ => rfl, fun hs hn => ?_, ?_⟩
        · rw [hptr'] at hl'
          cases hl'
        · have hok : PcOk h m (.shortcut l .retire ret) := by
            cases ret with
            | none => exact hpc
            | some p => exact hpc
          exact hok.calm hcalm fun _ => List.not_mem_nil
        · have heq := (((hstoring _).symm.trans hs).symm.trans (hstoring _).symm).trans hn
          cases heq
        · exact .cut l hptr hptr' rfl rfl rfl
      · exact hend rfl
  | retire =>
      show StepOk h m (.shortcut l .retire ret) ⟨.retire l :: returns ret, m, .idle⟩
      have hcases : ∀ e ∈ Event.retire l :: returns ret, e = .retire l ∨ ∃ p, e = .ret p := by
        intro e he
        cases List.mem_cons.mp he with
        | inl heq => exact .inl heq
        | inr hmem =>
            cases ret with
            | none => exact absurd hmem List.not_mem_nil
            | some p => exact .inr ⟨p, List.mem_singleton.mp hmem⟩
      have hins : ∀ l', .install l' ∉ Event.retire l :: returns ret := by
        intro l' hmem
        obtain heq | ⟨p, heq⟩ := hcases _ hmem
        · cases heq
        · cases heq
      refine ⟨fun _ _ => rfl, le_rfl, fun l' hl' => absurd hl' (hins l'),
        fun l' hl' => List.mem_append_left _ (hword l' hl'), fun hs => (by cases hs), trivial,
        fun _ => ⟨hrefl, hins⟩, fun hs x => ?_, fun hs _ x => ?_, ?_⟩
      · cases ret with
        | none => rfl
        | some p =>
            obtain hs | hs := hs
            · cases hs
            · cases hs
      · cases ret with
        | none => cases hs
        | some p => exact (hret p rfl).symm
      · refine .retire l rfl hins ?_ (fun l' hmem => ?_) rfl rfl
        · cases ret with
          | none => simp [returns]
          | some p => simp [returns]
        · obtain heq | ⟨p, heq⟩ := hcases _ hmem
          · cases heq
            rfl
          · cases heq

/-- The first steps of a `store`, up to the allocation of the new version. -/
theorem PcOk.step_prepare (hlt : ∀ l, .install l ∈ h → l < m.fresh) (hword : WordOk h m) {p : Option Nat}
    {old : Versioned} (hpc : Loaded h m p old) :
    StepOk h m (.newLink p old) ⟨[], m.newLink old p, .camRead p old (.indirect m.fresh)⟩ := by
  have hvalue : ∀ l, l < m.fresh → (m.newLink old p).value l = m.value l :=
    fun l hl => Function.update_of_ne hl.ne _ _
  have hptr : ptr (m.newLink old p) = ptr m := rfl
  have hgetPtr : (m.newLink old p).getPtr (ptr m) = m.getPtr (ptr m) := by
    cases hm : ptr m with
    | direct q => rfl
    | indirect l => exact hvalue l (hlt l (hword l hm))
  refine ⟨hvalue, Nat.le_succ _, fun l hl => absurd hl List.not_mem_nil,
    fun l hl => List.mem_append_left _ (hword l hl), fun _ => rfl, ?_, fun hs => (by cases hs), fun _ _ => rfl,
    fun _ hn => (by cases hn), .quiet rfl (fun _ => ⟨List.not_mem_nil, List.not_mem_nil⟩) rfl⟩
  show PcOk (h ++ []) _ _
  rw [List.append_nil]
  refine ⟨⟨?_, ?_, hpc.installed⟩, .inr ⟨m.fresh, rfl, Function.update_self _ _ _, Nat.lt_succ_self _, ?_⟩⟩
  · rw [hptr, hgetPtr]
    exact hpc.ne
  · cases hpc.word with
    | inl heq => exact .inl heq
    | inr hex =>
        obtain ⟨l, hl, hl'⟩ := hex
        refine .inr ⟨l, hl, ?_⟩
        rw [hptr, hvalue l (hlt l (hpc.installed l hl))]
        exact hl'
  · intro hin
    exact absurd (hlt _ hin) (Nat.lt_irrefl _)

/-- The first `cam` fails: the old link has been replaced by its value. -/
theorem Loaded.replaced {p : Option Nat} {old new : Versioned} (hpc : Loaded h m p old)
    (hnew : NewOk h m p new) (hne : ptr m ≠ old) : ∃ l, old = .indirect l ∧ Replaced h m p l new := by
  cases hpc.word with
  | inl heq => exact absurd heq hne
  | inr hex =>
      obtain ⟨l, hl, hl'⟩ := hex
      refine ⟨l, hl, hpc.installed l hl, ?_, hl', hnew⟩
      have hne' := hpc.ne
      rw [hl'] at hne'
      exact hne'

/-- A `cam` succeeds: the new version is in the pointer. -/
theorem NewOk.stored {p : Option Nat} {new : Versioned} (hnew : NewOk h m p new) :
    Stored (h ++ installs new) (write m new) p new ∧ ptr (write m new) = new ∧
      (∀ l, new = .indirect l → .install l ∉ h) ∧ ∀ l, .install l ∈ installs new → l < m.fresh := by
  have hptr : ptr (write m new) = new := ptr_write m new
  cases hnew with
  | inl heq =>
      subst heq
      refine ⟨⟨?_, fun l hl => by cases hl⟩, hptr, fun l hl => (by cases hl),
        fun l hl => absurd hl List.not_mem_nil⟩
      rw [hptr]
      rfl
  | inr hex =>
      obtain ⟨l, rfl, hvalue, hlt, hno⟩ := hex
      refine ⟨⟨?_, fun l' hl' => ?_⟩, hptr, fun l' hl' => ?_, fun l' hl' => ?_⟩
      · rw [hptr]
        exact hvalue
      · cases hl'
        exact List.mem_append_right _ (List.mem_singleton_self _)
      · cases hl'
        exact hno
      · cases List.mem_singleton.mp hl'
        exact hlt

/-- A `store` installs its new version. -/
theorem NewOk.step_install {p : Option Nat} {new : Versioned} (hnew : NewOk h m p new)
    (hstoring : pc.storing = true) (hstoring' : pc'.storing = true) (hnone : pc.owes = none)
    (howes : ∀ l, pc'.owes = some l ↔ ptr m = .indirect l)
    (hok : Stored (h ++ installs new) (write m new) p new → PcOk (h ++ installs new) (write m new) pc') :
    StepOk h m pc ⟨installs new, write m new, pc'⟩ := by
  obtain ⟨hs, hptr, hno, hlt⟩ := hnew.stored
  refine ⟨fun _ _ => rfl, le_rfl, hlt, fun l hl => ?_, fun _ => hstoring, hok hs, fun hn => ?_, fun _ x => ?_,
    fun _ hn => ?_, .install new hno hptr rfl hnone howes⟩
  · exact hs.installed l (hptr.symm.trans hl)
  · rw [hstoring] at hn
    cases hn
  · cases new with
    | direct q => rfl
    | indirect l => rfl
  · exact absurd (hn.symm.trans hstoring') Bool.false_ne_true

/-- The two steps of the first `cam`. -/
theorem PcOk.step_cam (hword : WordOk h m) {p : Option Nat} {old new : Versioned} {r : Result}
    (hpc : Loaded h m p old ∧ NewOk h m p new)
    (hstep : stepThread m (.camRead p old new) = some r ∧ pc = .camRead p old new ∨
      stepThread m (.camSwap p old new) = some r ∧ pc = .camSwap p old new) : StepOk h m pc r := by
  have hrefl : Calm m m := .of_eq rfl rfl rfl
  have hfail : ptr m ≠ old → pc.storing = true → pc.owes = none →
      StepOk h m pc ⟨[], m, afterCam p old new false⟩ := by
    intro hne hstoring howes
    obtain ⟨l, rfl, hreplaced⟩ := hpc.1.replaced hpc.2 hne
    exact .still hword hrefl rfl hreplaced hstoring.symm howes.symm
  obtain ⟨hstep, rfl⟩ | ⟨hstep, rfl⟩ := hstep
  · simp only [stepThread] at hstep
    split at hstep
    · cases hstep
      exact .still hword hrefl rfl hpc rfl rfl
    · rename_i hne
      cases hstep
      exact hfail hne rfl rfl
  · simp only [stepThread] at hstep
    split at hstep
    · rename_i heq
      cases hstep
      cases old with
      | direct q =>
          refine hpc.2.step_install rfl rfl rfl (fun l => ?_) id
          rw [heq]
          exact iff_of_false (fun h => by cases h) fun h => by cases h
      | indirect l =>
          have hne := hpc.1.ne
          rw [heq] at hne
          refine hpc.2.step_install rfl rfl rfl (fun l' => ?_) fun hs => ?_
          · rw [heq]
            show some l = some l' ↔ _
            rw [Option.some.injEq, Versioned.indirect.injEq]
          · exact ⟨List.mem_append_left _ (hpc.1.installed l rfl), hne, hs⟩
    · rename_i hne
      cases hstep
      exact hfail hne rfl rfl

/-- The second look at the pointer, and what follows. -/
theorem PcOk.step_recheck (hword : WordOk h m) {p : Option Nat} {l : Nat} {new : Versioned} {r : Result}
    {installed : Bool} (hpc : PcOk h m (.recheck p l new installed))
    (hstep : stepThread m (.recheck p l new installed) = some r) :
    StepOk h m (.recheck p l new installed) r := by
  have hrefl : Calm m m := .of_eq rfl rfl rfl
  cases installed with
  | false =>
      have hr : Replaced h m p l new := hpc
      simp only [stepThread, hr.word, ne_eq, not_true_eq_false, if_false, Option.some.injEq] at hstep
      cases hstep
      exact .still hword hrefl rfl hr rfl rfl
  | true =>
      have hr : Removed h m p l new := hpc
      have hne : ptr m ≠ .direct (m.value l) := by
        intro heq
        have hvalue := hr.stored.value
        rw [heq] at hvalue
        exact hr.ne hvalue
      simp only [stepThread, ne_eq, hne, not_false_eq_true, if_true, Option.some.injEq] at hstep
      cases hstep
      exact .still hword hrefl rfl hr rfl rfl

/-- The second `cam` finds what the second look has found. -/
theorem PcOk.step_again (hword : WordOk h m) {p : Option Nat} {l : Nat} {new : Versioned} {r : Result}
    (hpc : Replaced h m p l new)
    (hstep : stepThread m (.againRead p l new) = some r ∧ pc = .againRead p l new ∨
      stepThread m (.againSwap p l new) = some r ∧ pc = .againSwap p l new) : StepOk h m pc r := by
  have hrefl : Calm m m := .of_eq rfl rfl rfl
  obtain ⟨hstep, rfl⟩ | ⟨hstep, rfl⟩ := hstep
  · simp only [stepThread, hpc.word, if_true, Option.some.injEq] at hstep
    cases hstep
    exact .still hword hrefl rfl hpc rfl rfl
  · simp only [stepThread, hpc.word, if_true, Option.some.injEq] at hstep
    cases hstep
    refine hpc.new.step_install rfl rfl rfl (fun l' => ?_) id
    rw [hpc.word]
    exact iff_of_false (fun h => by cases h) fun h => by cases h

/-- Every step of a thread. -/
theorem PcOk.step (hlt : ∀ l, .install l ∈ h → l < m.fresh) (hword : WordOk h m) (hpc : PcOk h m pc)
    {r : Result} (hstep : stepThread m pc = some r) : StepOk h m pc r := by
  have hrefl : Calm m m := .of_eq rfl rfl rfl
  cases pc with
  | idle => cases hstep
  | setStamp y x k => exact hpc.step_setStamp hword hstep
  | shortcut l x ret =>
      cases hstep
      exact hpc.step_shortcut hword
  | store p =>
      cases hstep
      exact .still hword hrefl rfl ⟨hpc, .inl rfl, hword⟩ rfl rfl
  | useIndirect p old =>
      simp only [stepThread] at hstep
      split at hstep
      · cases hstep
        exact .still hword hrefl rfl hpc rfl rfl
      · cases hstep
        exact .still hword hrefl rfl hpc rfl rfl
  | newLink p old =>
      cases hstep
      exact PcOk.step_prepare hlt hword hpc
  | setNext p old =>
      cases hstep
      exact .still hword (.of_eq rfl rfl rfl) rfl ⟨hpc, .inl rfl⟩ rfl rfl
  | camRead p old new => exact PcOk.step_cam hword hpc (.inl ⟨hstep, rfl⟩)
  | camSwap p old new => exact PcOk.step_cam hword hpc (.inr ⟨hstep, rfl⟩)
  | recheck p l new installed => exact hpc.step_recheck hword hstep
  | retireOld p l new =>
      have hr : Removed h m p l new := hpc
      cases hstep
      have hins : ∀ l', .install l' ∉ [Event.retire l] := by
        intro l' hl'
        cases List.mem_singleton.mp hl'
      refine ⟨fun _ _ => rfl, le_rfl, fun l' hl' => absurd hl' (hins l'),
        fun l' hl' => List.mem_append_left _ (hword l' hl'), fun _ => rfl, ?_, fun hs => (by cases hs),
        fun _ _ => rfl, fun _ hn => (by cases hn), .retire l rfl hins (by simp) (fun l' hl' => ?_) rfl rfl⟩
      · exact ⟨hr.stored.value, fun l' hl' => List.mem_append_left _ (hr.stored.installed l' hl')⟩
      · cases List.mem_singleton.mp hl'
        rfl
  | againRead p l new => exact PcOk.step_again hword hpc (.inl ⟨hstep, rfl⟩)
  | againSwap p l new => exact PcOk.step_again hword hpc (.inr ⟨hstep, rfl⟩)
  | load =>
      cases hstep
      exact .still hword hrefl rfl hword rfl rfl
  | read =>
      cases hstep
      cases hm : ptr m with
      | direct q => exact .still hword hrefl rfl trivial rfl rfl
      | indirect l => exact .still hword hrefl rfl (hword l hm) rfl rfl
  | readSnapshot ls =>
      cases hstep
      exact .still hword hrefl rfl trivial rfl rfl
  | walk ls head =>
      simp only [stepThread] at hstep
      split at hstep
      · cases hstep
        exact .still hword hrefl rfl trivial rfl rfl
      · cases hstep
        exact .still hword hrefl rfl trivial rfl rfl
  | follow ls head =>
      cases hstep
      exact .still hword hrefl rfl trivial rfl rfl

/-! ## Every run -/

/-- The invariant: links that have been installed are allocated, at most one thread is in a `store`, every
thread knows what it should, every link is settled, and between two stores the pointer has the value that was
stored last. -/
structure Inv (init : Option Nat) (h : List Event) (st : State ι) : Prop where
  fresh : ∀ l, .install l ∈ h → l < st.memory.fresh
  word : WordOk h st.memory
  single : ∀ t u, (st.threads t).storing = true → (st.threads u).storing = true → t = u
  pcs : ∀ t, PcOk h st.memory (st.threads t)
  value : (∀ t, (st.threads t).storing = false) → st.memory.getPtr (ptr st.memory) = lastStored init h
  settled : ∀ l, Settled h st.memory st.threads l

/-- What was stored last in a history that grows. -/
theorem lastStored_append (h es : List Event) (x : Option Nat) :
    lastStored x (h ++ es) = lastStored (lastStored x h) es := by
  induction h generalizing x with
  | nil => rfl
  | cons e h ih =>
      cases e with
      | install l => exact ih x
      | retire l => exact ih x
      | ret p => exact ih p

/-- The invariant holds at the start. -/
theorem inv_initial {st : State ι} (hst : Initial init st) : Inv init [] st where
  fresh l hl := absurd hl List.not_mem_nil
  word l hl := by
    rw [hst.ptr] at hl
    cases hl
  single t u ht := by
    rw [hst.threads t] at ht
    cases ht
  pcs t := by
    rw [hst.threads t]
    trivial
  value _ := by
    rw [hst.ptr]
    rfl
  settled l := by
    refine .kept (fun t ht => ?_) rfl fun hin => absurd hin List.not_mem_nil
    rw [hst.threads t] at ht
    cases ht

section Runs

variable [DecidableEq ι] {st : State ι} {t : ι}

/-- A thread takes a step. -/
theorem Inv.step (hinv : Inv init h st) {r : Result} (hr : StepOk h st.memory (st.threads t) r) :
    Inv init (h ++ r.events) ⟨r.memory, Function.update st.threads t r.pc⟩ := by
  have hother : ∀ {u}, u ≠ t → Function.update st.threads t r.pc u = st.threads u :=
    fun hu => Function.update_of_ne hu _ _
  have hself : Function.update st.threads t r.pc t = r.pc := Function.update_self _ _ _
  have hstoring : ∀ u, (Function.update st.threads t r.pc u).storing = true →
      (st.threads u).storing = true := by
    intro u hu
    by_cases heq : u = t
    · rw [heq, hself] at hu
      rw [heq]
      exact hr.storing hu
    · rw [hother heq] at hu
      exact hu
  refine ⟨fun l hl => ?_, hr.word, fun a b ha hb => hinv.single a b (hstoring a ha) (hstoring b hb),
    fun u => ?_, fun hnone => ?_, hr.change.settled hinv.word hinv.settled⟩
  · cases List.mem_append.mp hl with
    | inl hold => exact (hinv.fresh l hold).trans_le hr.fresh
    | inr hnew => exact hr.installs l hnew
  · by_cases heq : u = t
    · rw [heq]
      show PcOk _ _ (Function.update st.threads t r.pc t)
      rw [hself]
      exact hr.ok
    · show PcOk _ _ (Function.update st.threads t r.pc u)
      rw [hother heq]
      cases hs : (st.threads t).storing with
      | false =>
          obtain ⟨hcalm, hins⟩ := hr.calm hs
          exact (hinv.pcs u).calm hcalm hins
      | true =>
          refine (hinv.pcs u).reader ?_
          cases hu : (st.threads u).storing with
          | false => rfl
          | true => exact absurd (hinv.single u t hu hs) heq
  · rw [lastStored_append]
    have hpc : r.pc.storing = false := by
      rw [← hself]
      exact hnone t
    cases hs : (st.threads t).storing with
    | true => exact (hr.done hs hpc _).symm
    | false =>
        rw [hr.silent (.inl hs)]
        refine (hr.calm hs).1.getPtr.trans (hinv.value fun u => ?_)
        by_cases heq : u = t
        · rw [heq]
          exact hs
        · rw [← hother heq]
          exact hnone u

/-- A thread calls an operation. -/
theorem Inv.start (hinv : Inv init h st) (hidle : (st.threads t).isIdle = true) {pc : Pc}
    (hpc : PcOk h st.memory pc) (howes : pc.owes = none)
    (hstoring : pc.storing = true → ∀ u, (st.threads u).storing = false) : Inv init h (st.goto t pc) := by
  have hpc₀ : st.threads t = .idle := by
    cases heq : st.threads t with
    | idle => rfl
    | _ =>
        rw [heq] at hidle
        cases hidle
  have hother : ∀ {u}, u ≠ t → Function.update st.threads t pc u = st.threads u :=
    fun hu => Function.update_of_ne hu _ _
  have hself : Function.update st.threads t pc t = pc := Function.update_self _ _ _
  refine ⟨hinv.fresh, hinv.word, fun a b ha hb => ?_, fun u => ?_, fun hnone => ?_, fun l => ?_⟩
  · change (Function.update st.threads t pc a).storing = true at ha
    change (Function.update st.threads t pc b).storing = true at hb
    by_cases heq : a = t
    · by_cases heq' : b = t
      · rw [heq, heq']
      · rw [heq, hself] at ha
        rw [hother heq', hstoring ha b] at hb
        cases hb
    · by_cases heq' : b = t
      · rw [heq', hself] at hb
        rw [hother heq, hstoring hb a] at ha
        cases ha
      · rw [hother heq] at ha
        rw [hother heq'] at hb
        exact hinv.single a b ha hb
  · show PcOk h st.memory (Function.update st.threads t pc u)
    by_cases heq : u = t
    · rw [heq, hself]
      exact hpc
    · rw [hother heq]
      exact hinv.pcs u
  · refine hinv.value fun u => ?_
    by_cases heq : u = t
    · rw [heq, hpc₀]
      rfl
    · rw [← hother heq]
      exact hnone u
  · have hs : Settled (h ++ []) st.memory (Function.update st.threads t pc) l := by
      refine (hinv.settled l).keep Iff.rfl List.not_mem_nil List.not_mem_nil ?_
      rw [howes, hpc₀]
      exact Iff.rfl
    rw [List.append_nil] at hs
    exact hs

omit [DecidableEq ι] in
/-- The clock and `done_stamp` rise. -/
theorem Inv.tick (hinv : Inv init h st) {m' : Memory} (hcalm : Calm st.memory m')
    (hptr : ptr m' = ptr st.memory) : Inv init h { st with memory := m' } := by
  refine ⟨fun l hl => ?_, fun l hl => hinv.word l (hptr.symm.trans hl), hinv.single, fun u => ?_,
    fun hnone => hcalm.getPtr.trans (hinv.value hnone), fun l => ?_⟩
  · show l < m'.fresh
    rw [hcalm.fresh]
    exact hinv.fresh l hl
  · have hpc : PcOk (h ++ []) m' (st.threads u) := (hinv.pcs u).calm hcalm fun _ => List.not_mem_nil
    rw [List.append_nil] at hpc
    exact hpc
  · show Settled h m' st.threads l
    cases hinv.settled l with
    | kept hno h0 hw => exact .kept hno h0 fun hin => hptr.trans (hw hin)
    | owed u hu hone h0 hin hw => exact .owed u hu hone h0 hin fun heq => hw (hptr.symm.trans heq)
    | retired hno h1 hin hw => exact .retired hno h1 hin fun heq => hw (hptr.symm.trans heq)

/-- Every action preserves the invariant. -/
theorem Inv.next (hinv : Inv init h st) {act : Action ι} (hser : Serialised st act) {st' : State ι}
    (hnext : next act st = some (es, st')) : Inv init (h ++ es) st' := by
  cases act with
  | step t =>
      simp only [Retire.next, Option.map_eq_some_iff] at hnext
      obtain ⟨r, hr, heq⟩ := hnext
      cases heq
      exact hinv.step ((hinv.pcs t).step hinv.fresh hinv.word hr)
  | store t p =>
      simp only [Retire.next] at hnext
      split at hnext
      · rename_i hidle
        cases hnext
        rw [List.append_nil]
        exact hinv.start hidle hser.2 rfl fun _ => hser.1
      · cases hnext
  | load t =>
      simp only [Retire.next] at hnext
      split at hnext
      · rename_i hidle
        cases hnext
        rw [List.append_nil]
        exact hinv.start hidle trivial rfl fun hs => by cases hs
      · cases hnext
  | read t =>
      simp only [Retire.next] at hnext
      split at hnext
      · rename_i hidle
        cases hnext
        rw [List.append_nil]
        exact hinv.start hidle trivial rfl fun hs => by cases hs
      · cases hnext
  | readSnapshot t ls =>
      simp only [Retire.next] at hnext
      split at hnext
      · rename_i hidle
        cases hnext
        rw [List.append_nil]
        exact hinv.start hidle trivial rfl fun hs => by cases hs
      · cases hnext
  | tick n =>
      cases hnext
      rw [List.append_nil]
      exact hinv.tick (.of_eq rfl rfl rfl) rfl
  | raise n =>
      cases hnext
      rw [List.append_nil]
      exact hinv.tick (.of_eq rfl rfl rfl) rfl

/-- The invariant holds in every run. -/
theorem exec_inv (hexec : Exec (system init) h st) : Inv init h st := by
  induction hexec with
  | init hst => exact inv_initial hst
  | step _ hnext ih => exact ih.next hnext.1 hnext.2

/-- In every run: between two stores the pointer has the value that was stored last; when no call is in
progress, every link that has been installed and is not in the pointer has been retired exactly once; and a link
that has been retired is not in the pointer, then or later, and is not retired again. -/
theorem link_retired_once (hexec : Exec (system init) h st) :
    ((∀ t, (st.threads t).storing = false) → st.memory.getPtr (ptr st.memory) = lastStored init h) ∧
    ((∀ t, st.threads t = .idle) → ∀ l, .install l ∈ h → ptr st.memory ≠ .indirect l →
      h.count (.retire l) = 1) ∧
    (∀ l, .retire l ∈ h → .install l ∈ h ∧ ptr st.memory ≠ .indirect l ∧ h.count (.retire l) = 1) := by
  have hinv := exec_inv hexec
  refine ⟨hinv.value, fun hidle l hin hne => ?_, fun l hret => ?_⟩
  · cases hinv.settled l with
    | kept hno h0 hw => exact absurd (hw hin) hne
    | owed u hu hone h0 _ hw =>
        rw [hidle u] at hu
        cases hu
    | retired hno h1 _ hw => exact h1
  · have hpos : h.count (.retire l) ≠ 0 := fun h0 => List.count_eq_zero.mp h0 hret
    cases hinv.settled l with
    | kept hno h0 hw => exact absurd h0 hpos
    | owed u hu hone h0 hin hw => exact absurd h0 hpos
    | retired hno h1 hin hw => exact ⟨hin, hw, h1⟩

/-- A run: null is stored through link 0. While object 7 is stored through link 1, a reader replaces link 0 by
null, so the `store` finds null in its place and leaves the retirement to the reader; it replaces its own link
at the end. -/
theorem link_retired_once_run :
    ∃ (h : List Event) (st : State Bool), Exec (system (some 0)) h st ∧
      h = [.install 0, .ret none, .install 1, .retire 1, .ret (some 7), .retire 0] ∧
      st.memory.getPtr (ptr st.memory) = some 7 ∧ ptr st.memory ≠ .indirect 0 ∧ h.count (.retire 0) = 1 := by
  obtain ⟨h, st, hexec, rfl, hfalse, htrue⟩ : ∃ (h : List Event) (st : State Bool),
      Exec (system (some 0)) h st ∧
        (h = [.install 0, .ret none, .install 1, .retire 1, .ret (some 7), .retire 0] ∧
          (st.threads false).isIdle = true ∧ (st.threads true).isIdle = true) :=
    exists_exec_restrict_of_run _
      (s := ⟨⟨1, 0, fun _ => (0, .direct (some 0)), fun y => if y = .direct (some 7) then some 0 else none,
        fun _ => .null, fun _ => none, 0⟩, fun _ => .idle⟩)
      (List.flatten [[.store true none], List.replicate 11 (.step true), [.raise 5, .store true (some 7)],
        List.replicate 3 (.step true), [.load false], List.replicate 6 (.step false),
        List.replicate 13 (.step true), [.step false]])
      ⟨rfl, fun _ => rfl, fun _ => rfl⟩ (by decide +kernel)
  have hidle : ∀ t, (st.threads t).storing = false := by
    intro t
    have ht : (st.threads t).isIdle = true := by
      cases t with
      | false => exact hfalse
      | true => exact htrue
    cases hpc : st.threads t with
    | idle => rfl
    | _ =>
        rw [hpc] at ht
        cases ht
  obtain ⟨hvalue, _, hretired⟩ := link_retired_once hexec
  obtain ⟨_, hne, hcount⟩ := hretired 0 (by simp)
  exact ⟨_, st, hexec, rfl, hvalue hidle, hne, hcount⟩

end Runs

end Verlib.Hybrid.Retire
