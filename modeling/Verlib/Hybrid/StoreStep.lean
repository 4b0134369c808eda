import Verlib.Hybrid.StoreThread

/-!
# The steps of `store` and speculative snapshots

`PcOk.step` says that every step of a worker keeps the chain invariant, the invariant of the history and
what the worker knows, and that it leaves the pointers that others store into to them.
-/

namespace Verlib.Hybrid.Store

open Interleaving

variable {P : Type} {n : Nat} {G G' : Chains P} {m m' : Memory P} {a y : Versioned}
  {h es : List (Event P)} {ops ops' : Nat} {own own' : Versioned → Option (Fin n)} {t : Fin n}

/-- What a step of worker `t` from position `pc` establishes. -/
structure Moved (own : Versioned → Option (Fin n)) (t : Fin n) (G : Chains P) (m : Memory P)
    (h : List (Event P)) (ops : Nat) (pc : Pc P) (r : Result P) (own' : Versioned → Option (Fin n))
    (G' : Chains P) (a : Versioned) : Prop where
  evolves : Evolves a G m G' r.memory
  last : r.last = G'.last
  events : EventsOk G h r.events
  hist : HistInv G' r.memory (h ++ r.events) ops
  pcOk : PcOk own' t G' r.memory (h ++ r.events) r.pc
  agree : ∀ y, m.Allocated y → own' y = own y
  alone : ∀ u y, u ≠ t → own y = some u → m.Allocated y → y ≠ a
  kept : ∀ p, pc.storing ≠ some p → Kept G m G' r.memory p
  rest : ∀ p, pc.storing = some p → r.pc.storing = some p ∨ Stamped G' r.memory p
  short : ∀ l, G'.short l → G.short l ∨ ∃ p w op, pc = .shortcut p l (.swap w) op ∧ m.v p = w

/-- A step of worker `t` from position `pc` is right. -/
def StepOk (own : Versioned → Option (Fin n)) (t : Fin n) (G : Chains P) (m : Memory P)
    (h : List (Event P)) (ops : Nat) (pc : Pc P) (r : Result P) : Prop :=
  ∃ own' G' a, Moved own t G m h ops pc r own' G' a

/-! ## The history of a step -/

/-- No events. -/
theorem eventsOk_nil : EventsOk G h [] :=
  ⟨by simp, by simp, by simp⟩

/-- A step without events that installs nothing. -/
theorem HistInv.silent (hist : HistInv G m h ops) (hext : Ext a G m G' m') (hinv : ChainInv G m)
    (hlast : G'.last = G.last) : HistInv G' m' (h ++ []) ops := by
  refine hist.step hext hinv eventsOk_nil le_rfl (by simp) (by simp) ?_ (by simp) (by simp) (by simp)
  intro p i hlt hle
  rw [hlast] at hle
  omega

/-- A `store` returns whose version has its stamp. -/
theorem HistInv.ret_stored {op : Nat} {p : P} (hist : HistInv G m h ops) (hinv : ChainInv G m)
    (hop : op < ops) (hs : Stamped G m p) (hstored : StoredLast own t G h op p) :
    HistInv G m (h ++ [.ret op]) ops := by
  obtain ⟨_, ⟨x, hx⟩, honly⟩ := hstored
  refine hist.step (Ext.refl .null G m) hinv ⟨by simp, by simp, by simp⟩ le_rfl
    (by simpa [Event.id] using hop) (by simp) (fun p i hlt hle => absurd hle (Nat.not_le.mpr hlt)) ?_
    (by simp) (by simp)
  intro op' hmem
  obtain rfl : op' = op := by simpa using hmem
  refine ⟨⟨p, _, x, hx⟩, fun q j x hi => ?_⟩
  obtain ⟨rfl, rfl⟩ := honly q j x (by simpa using hi)
  exact hs

section Steps

variable {pc pc' : Pc P} (hinv : ChainInv G m) (hist : HistInv G m h ops) (hnull : own .null = none)

include hnull in
/-- A step that installs nothing. -/
theorem stepOk_of_ext (hevol : Evolves .null G m G' m') (hlast : G'.last = G.last)
    (hes : EventsOk G h es) (hist' : HistInv G' m' (h ++ es) ops)
    (hpc' : PcOk own t G' m' (h ++ es) pc') (hkept : ∀ p, pc.storing ≠ some p → Kept G m G' m' p)
    (hrest : ∀ p, pc.storing = some p → pc'.storing = some p ∨ Stamped G' m' p)
    (hshort : ∀ l, G'.short l → G.short l ∨
      ∃ p w op, pc = .shortcut p l (.swap w) op ∧ m.v p = w) :
    StepOk own t G m h ops pc ⟨es, m', G.last, pc'⟩ := by
  refine ⟨own, G', .null, hevol, hlast.symm, hes, hist', hpc', fun _ _ => rfl, ?_, hkept, hrest,
    hshort⟩
  rintro u y _ ho _ rfl
  rw [hnull] at ho
  cases ho

include hinv hnull in
/-- A step that does not change the memory. -/
theorem stepOk_of_events (hes : EventsOk G h es) (hist' : HistInv G m (h ++ es) ops)
    (hpc' : PcOk own t G m (h ++ es) pc')
    (hrest : ∀ p, pc.storing = some p → pc'.storing = some p ∨ Stamped G m p) :
    StepOk own t G m h ops pc ⟨es, m, G.last, pc'⟩ :=
  stepOk_of_ext hnull ⟨Ext.refl _ G m, hinv⟩ rfl hes hist' hpc' (fun _ _ => ⟨rfl, .inl rfl⟩) hrest
    fun _ => .inl

include hinv hist hnull in
/-- A step that neither changes the memory nor emits an event. -/
theorem stepOk_silent (hpc' : PcOk own t G m h pc')
    (hrest : ∀ p, pc.storing = some p → pc'.storing = some p ∨ Stamped G m p) :
    StepOk own t G m h ops pc ⟨[], m, G.last, pc'⟩ := by
  refine stepOk_of_events hinv hnull eventsOk_nil ?_ ?_ hrest
  · rwa [List.append_nil]
  · rwa [List.append_nil]

/-! ## `set_stamp` and `shortcut` -/

/-- What follows `set_stamp`, when the node has its stamp. -/
theorem AfterOk.resume {k : After P} (hist : HistInv G m h ops) (hinv : ChainInv G m)
    (hts : m.timeStamp y ≠ none) (hid : ∀ w, k.op = some w → w < ops) (hk : AfterOk own t G m h y k) :
    EventsOk G h k.resume.1 ∧ HistInv G m (h ++ k.resume.1) ops ∧
      PcOk own t G m (h ++ k.resume.1) k.resume.2 ∧
      ∀ p, (Pc.setStamp y .load k).storing = some p → k.resume.2.storing = some p ∨ Stamped G m p := by
  have hsilent : ∀ pc' : Pc P, PcOk own t G m h pc' →
      EventsOk G h [] ∧ HistInv G m (h ++ []) ops ∧ PcOk own t G m (h ++ []) pc' := by
    intro pc' hpc'
    rw [List.append_nil]
    exact ⟨eventsOk_nil, hist, hpc'⟩
  match k, hk with
  | .store c new, hk =>
      obtain ⟨rfl, hent, hstored⟩ := hk
      have hs : Stamped G m c.p := by
        unfold Stamped
        rw [hent]
        exact hts
      have hrest : ∀ p, some c.p = some p → Stamped G m p := by
        rintro p ⟨⟩
        exact hs
      cases y with
      | direct ptr =>
          exact ⟨⟨by simp [After.resume], by simp [After.resume], by simp [After.resume]⟩,
            hist.ret_stored hinv (hid c.op rfl) hs hstored, trivial, fun p hp => .inr (hrest p hp)⟩
      | indirect l =>
          obtain ⟨hes, hist', hpc'⟩ := hsilent (.shortcut c.p l .load (some c.op))
            ⟨trivial, by rintro w ⟨⟩; exact ⟨hs, hstored⟩⟩
          exact ⟨hes, hist', hpc', fun p hp => .inl hp⟩
  | .load p (.indirect l), _ =>
      obtain ⟨hes, hist', hpc'⟩ := hsilent (.shortcut p l .load none)
        ⟨trivial, by rintro w ⟨⟩⟩
      exact ⟨hes, hist', hpc', by rintro p ⟨⟩⟩
  | .load p (.direct _), _ =>
      obtain ⟨hes, hist', hpc'⟩ := hsilent .idle trivial
      exact ⟨hes, hist', hpc', by rintro p ⟨⟩⟩
  | .walk r p head, hk =>
      obtain ⟨rfl, hwalk⟩ := hk
      obtain ⟨hes, hist', hpc'⟩ := hsilent (.walk r p y) fun hspec => ⟨hts, hwalk hspec⟩
      exact ⟨hes, hist', hpc', by rintro p ⟨⟩⟩

/-- `set_stamp` leaves the pointers alone. -/
theorem setStamp_word (m : Memory P) (y : Versioned) (x : SetStamp) : (setStamp m y x).1.v = m.v := by
  cases x with
  | swap s =>
      simp only [setStamp]
      split <;> rfl
  | load | clock | again => rfl

variable [DecidableEq P] {r : Result P} {tag : Nat}

include hinv hist hnull in
/-- A step of `set_stamp`. -/
theorem step_setStamp {x : SetStamp} {k : After P} (hpc : PcOk own t G m h (.setStamp y x k))
    (hid : ∀ w, k.op = some w → w < ops)
    (hstep : stepThread m G.last tag (.setStamp y x k) = some r) :
    StepOk own t G m h ops (.setStamp y x k) r := by
  obtain ⟨hevol, hnext, hret⟩ := hinv.setStamp_step .null hpc.1
  have hist' : HistInv G (setStamp m y x).1 (h ++ []) ops := hist.silent hevol.1 hinv rfl
  have hafter : AfterOk own t G (setStamp m y x).1 (h ++ []) y k :=
    hpc.2.ext hevol.1 hinv (fun _ _ => rfl) hevol.2 eventsOk_nil (by simp) (fun _ _ => rfl)
      fun _ => .inl
  have hkept : ∀ p, (Pc.setStamp y x k).storing ≠ some p → Kept G m G (setStamp m y x).1 p :=
    fun p _ => ⟨rfl, .inl (by rw [setStamp_word])⟩
  have hstoring : ∀ x', (Pc.setStamp y x' k).storing = (Pc.setStamp y x k).storing := by
    intro x'
    cases k <;> rfl
  simp only [stepThread] at hstep
  split at hstep
  · rename_i m' x' heq
    cases hstep
    rw [heq] at hevol hnext hist' hafter hkept
    refine stepOk_of_ext hnull hevol rfl eventsOk_nil hist' ⟨hnext x' rfl, hafter⟩ hkept ?_
      fun _ => .inl
    intro p hp
    exact .inl ((hstoring x').trans hp)
  · rename_i m' heq
    cases hstep
    rw [heq] at hevol hret hist' hafter hkept
    rw [List.append_nil] at hist' hafter
    obtain ⟨hes, hrec, hres, hrest⟩ := hafter.resume hist' hevol.2 (hret rfl) hid
    refine stepOk_of_ext hnull hevol rfl hes hrec hres hkept ?_ fun _ => .inl
    intro p hp
    exact hrest p ((hstoring .load).trans hp)

omit [DecidableEq P] in
/-- `shortcut` changes a word only by replacing a link by its value. -/
theorem shortcut_kept [DecidableEq P] {p : P} {l : Nat} {x : Shortcut} (hx : ShortcutOk G m l x)
    (tag : Nat) (q : P) : (shortcut m p l tag x).1.v q = m.v q ∨
      ∃ k, (m.v q).2 = .indirect k ∧ ((shortcut m p l tag x).1.v q).2 = .direct (m.value k) := by
  match x, hx with
  | .load, _ | .test none, _ | .test (some _), _ | .read, _ => exact .inl rfl
  | .swap w, hx =>
      by_cases hw : m.v p = w
      · simp only [shortcut, if_pos hw]
        rcases eq_or_ne q p with rfl | hne
        · exact .inr ⟨l, by rw [hw, hx.1], by simp [Memory.setWord]⟩
        · exact .inl (Function.update_of_ne hne _ _)
      · simp only [shortcut, if_neg hw]
        exact .inl trivial

include hinv hist hnull in
/-- A step of `shortcut`. -/
theorem step_shortcut {p : P} {l : Nat} {x : Shortcut} {op : Option Nat}
    (hpc : PcOk own t G m h (.shortcut p l x op)) (hid : ∀ w, op = some w → w < ops)
    (hstep : stepThread m G.last tag (.shortcut p l x op) = some r) :
    StepOk own t G m h ops (.shortcut p l x op) r := by
  obtain ⟨G', hevol, hnext, hcase⟩ := hinv.shortcut_step .null p tag hpc.1
  obtain ⟨hlast, hent⟩ : G'.last = G.last ∧ G'.ent = G.ent := by
    rcases hcase with rfl | ⟨rfl, _⟩ <;> exact ⟨rfl, rfl⟩
  have hist' : HistInv G' (shortcut m p l tag x).1 (h ++ []) ops := hist.silent hevol.1 hinv hlast
  have hkept : ∀ q, (Pc.shortcut p l x op).storing ≠ some q →
      Kept G m G' (shortcut m p l tag x).1 q :=
    fun q _ => ⟨by rw [hlast], shortcut_kept hpc.1 tag q⟩
  have hshort : ∀ k, G'.short k → G.short k ∨
      ∃ q w op', Pc.shortcut p l x op = .shortcut q k (.swap w) op' ∧ m.v q = w := by
    intro k hk
    rcases hcase with rfl | ⟨rfl, _, w, rfl, hw⟩
    · exact .inl hk
    · rcases hk with hk | rfl
      · exact .inl hk
      · exact .inr ⟨p, w, op, rfl, hw⟩
  have hstored : ∀ w, op = some w → Stamped G' (shortcut m p l tag x).1 p ∧
      StoredLast own t G' h w p := by
    intro w hw
    obtain ⟨hs, hsl⟩ := hpc.2 w hw
    refine ⟨hs.ext hevol.1 (by rw [hlast]), ?_⟩
    unfold StoredLast
    rw [hlast, hent]
    exact hsl
  simp only [stepThread] at hstep
  split at hstep
  · rename_i m' x' heq
    cases hstep
    rw [heq] at hevol hnext hist' hkept hstored
    refine stepOk_of_ext hnull hevol hlast eventsOk_nil hist' ?_ hkept (fun q hq => .inl ?_) hshort
    · rw [List.append_nil]
      exact ⟨hnext x' rfl, hstored⟩
    · cases op <;> exact hq
  · rename_i m' heq
    cases hstep
    rw [heq] at hevol hist' hkept hstored
    cases op with
    | none =>
        exact stepOk_of_ext hnull hevol hlast eventsOk_nil hist' trivial hkept (by rintro q ⟨⟩) hshort
    | some w =>
        obtain ⟨hs, hsl⟩ := hstored w rfl
        rw [List.append_nil] at hist'
        refine stepOk_of_ext hnull hevol hlast ⟨by simp, by simp, by simp⟩
          (hist'.ret_stored hevol.2 (hid w rfl) hs hsl) trivial hkept ?_ hshort
        rintro q ⟨⟩
        exact .inr hs

/-! ## `store` -/

include hinv hist hnull in
/-- The load of `store`, the choice between an object and a link, and the preparation of the node. -/
theorem step_prepare {c : Call P} {old : Versioned}
    (hphase : pc = .store c ∨ pc = .useIndirect c old ∨ pc = .newLink c old ∨ pc = .setNext c old)
    (hpc : PcOk own t G m h pc)
    (hquiet : ∀ y, own y = some t → G.Inst y → m.timeStamp y = none →
      ∃ p, pc.storing = some p ∧ y = G.ent p (G.last p))
    (hstep : stepThread m G.last tag pc = some r) : StepOk own t G m h ops pc r := by
  rcases hphase with rfl | rfl | rfl | rfl
  · obtain ⟨hno, hs, hpass⟩ := hpc
    cases hstep
    refine stepOk_silent hinv hist hnull
      ⟨hno, hs, hpass, ⟨?_, wasHead_word hinv c.p⟩, .inl rfl⟩ fun p hp => .inl hp
    rcases hinv.head c.p with heq | ⟨_, _, _, _, _, _, _, _, hts, _⟩
    · rw [heq]
      exact hs
    · simp [hts]
  · obtain ⟨hno, hs, hpass, hold, hh⟩ := hpc
    simp only [stepThread] at hstep
    split at hstep
    · rename_i hcond
      cases hstep
      refine stepOk_silent hinv hist hnull ⟨hno, hs, ?_, hold, hh⟩ fun p hp => .inl hp
      rcases hcond with hnone | hts
      · rw [hnone]
        exact (by simp [hinv.null] : m.timeStamp .null ≠ none)
      · exact hts
    · rename_i hcond
      cases hstep
      have hnone : m.timeStamp (.direct c.ptr) = none := by
        by_contra hne
        exact hcond (.inr hne)
      refine stepOk_silent hinv hist hnull ⟨hno, hs, ⟨hpass hnone, ?_, ?_, hnone⟩, hold, hh⟩
        fun p hp => .inl hp
      · rintro l ⟨⟩
      · -- A version of the worker without a stamp is the last one of the pointer that it stores into.
        intro hinst
        obtain ⟨p, hp, heq⟩ := hquiet _ (hpass hnone) hinst hnone
        cases hp
        rw [heq] at hnone
        exact hs hnone
  · obtain ⟨hno, hs, hts, hold, hh⟩ := hpc
    cases hstep
    have hevol := hinv.newLink old c.ptr
    have hkept : ∀ p, Kept G m G (m.newLink old c.ptr) p := fun p => ⟨rfl, .inl rfl⟩
    refine ⟨Function.update own (.indirect m.fresh) (some t), G, _, hevol, rfl, eventsOk_nil,
      hist.silent hevol.1 hinv rfl, ?_, ?_, ?_, fun p _ => hkept p, fun p hp => .inl hp, fun _ => .inl⟩
    · rw [List.append_nil]
      exact ⟨⟨hno, hs.ext hevol.1 rfl, hold.newLink hinv hts t own⟩,
        hh.ext hevol.1 hinv (hkept c.p) hold.2⟩
    · intro y halloc
      refine Function.update_of_ne ?_ _ _
      rintro rfl
      exact absurd (halloc _ rfl) (Nat.lt_irrefl _)
    · rintro u y _ _ halloc rfl
      exact absurd (halloc _ rfl) (Nat.lt_irrefl _)
  · obtain ⟨hno, hs, hpriv, hold, hh⟩ := hpc
    cases hstep
    have hevol := hinv.setNext (z := old) hpriv.2.2.1
    have hkept : ∀ p, Kept G m G (m.setNext (.direct c.ptr) old) p := fun p => ⟨rfl, .inl rfl⟩
    refine ⟨own, G, _, hevol, rfl, eventsOk_nil, hist.silent hevol.1 hinv rfl, ?_, fun _ _ => rfl, ?_,
      fun p _ => hkept p, fun p hp => .inl hp, fun _ => .inl⟩
    · rw [List.append_nil]
      exact ⟨⟨hno, hs.ext hevol.1 rfl, hold.setNext hinv hpriv⟩,
        hh.ext hevol.1 hinv (hkept c.p) hold.2⟩
    · rintro u y hu ho _ rfl
      rw [hpriv.1] at ho
      cases ho
      exact hu rfl

omit [DecidableEq P] in
/-- After the installation `store` goes on to set the stamp. -/
theorem Stored.setStamp {c : Call P} {new : Versioned} (hs : Stored own t G h c new) :
    PcOk own t G m h (.setStamp new .load (.store c new)) :=
  ⟨.inl ⟨c.p, _, le_rfl, hs.1⟩, rfl, hs⟩

omit [DecidableEq P] in
/-- After the installation `store` may test `old_v` again. -/
theorem Stored.afterCam {c : Call P} {new : Versioned} (hs : Stored own t G h c new)
    (old : Versioned) : PcOk own t G m h (.afterCam c old new true) := by
  cases old with
  | direct ptr => exact hs.setStamp
  | indirect l => exact hs

omit [DecidableEq P] in
/-- `store` holds the lock until it has set the stamp. -/
theorem afterCam_storing (c : Call P) (old new : Versioned) (b : Bool) :
    (Pc.afterCam c old new b).storing = some c.p := by
  cases old <;> rfl

omit [DecidableEq P] in
include hinv hist hnull in
/-- An attempt that has failed because the link has been replaced by its value. -/
theorem Ready.failed {c : Call P} {old new : Versioned} (hr : Ready own t G m h c old new)
    (hpc : pc.storing = some c.p)
    (hl : ∃ l, old = .indirect l ∧ (m.v c.p).2 = .direct (m.value l)) :
    StepOk own t G m h ops pc ⟨[], m, G.last, .afterCam c old new false⟩ := by
  obtain ⟨l, rfl, hv⟩ := hl
  refine stepOk_silent hinv hist hnull ⟨hr, hv⟩ fun p hp => .inl ?_
  rw [← hp, hpc]
  rfl

include hinv hist in
/-- A version is installed. -/
theorem step_install {c : Call P} {old new : Versioned} {w : Nat × Versioned}
    (hr : Ready own t G m h c old new) (hw : w.2 = old) (hword : m.v c.p = w)
    (hid : c.op < ops ∧ .ret c.op ∉ h) :
    StepOk own t G m h ops (.camSwap c old new false w)
      ⟨[.install c.op c.p (G.last c.p + 1) c.ptr], m.setWord c.p (tag, new),
        Function.update G.last c.p (G.last c.p + 1), .afterCam c old new true⟩ := by
  obtain ⟨hno, _, hprep⟩ := hr
  have hpriv := hprep.1
  have hevol := hprep.install hinv (by rw [hword, hw]) tag
  have hlast : (G.push c.p new m.stamp).last c.p = G.last c.p + 1 := by simp [Chains.push]
  have hes : EventsOk G h [.install c.op c.p (G.last c.p + 1) c.ptr] := by
    refine ⟨?_, by simp, by simp⟩
    intro op p i x hmem
    simp only [List.mem_singleton, Event.install.injEq] at hmem
    obtain ⟨rfl, rfl, rfl, rfl⟩ := hmem
    exact ⟨Nat.lt_succ_self _, hid.2⟩
  have hstored : Stored own t (G.push c.p new m.stamp)
      (h ++ [.install c.op c.p (G.last c.p + 1) c.ptr]) c new := by
    unfold Stored StoredLast
    rw [hlast, push_ent]
    refine ⟨rfl, hpriv.1, ⟨c.ptr, by simp⟩, fun q j x hmem => ?_⟩
    rcases List.mem_append.mp hmem with hold | hnew
    · exact absurd hold (hno q j x)
    · simp only [List.mem_singleton, Event.install.injEq] at hnew
      exact ⟨hnew.2.1, hnew.2.2.1⟩
  refine ⟨own, _, new, hevol, rfl, hes, ?_, hstored.afterCam old, fun _ _ => rfl, ?_, ?_,
    fun p hp => .inl ((afterCam_storing c old new true).trans hp), fun _ => .inl⟩
  · refine hist.step hevol.1 hinv hes le_rfl (by simpa [Event.id] using hid.1) ?_ ?_ (by simp) (by simp)
      (by simp)
    · intro op p i x hmem
      simp only [List.mem_singleton, Event.install.injEq] at hmem
      obtain ⟨rfl, rfl, rfl, rfl⟩ := hmem
      exact ⟨Nat.succ_pos _, hlast.ge, by rw [push_ent]; exact hprep.2.1⟩
    · intro p i hlt hle
      rcases push_cases hle with ⟨habs, _⟩ | ⟨rfl, rfl, hent, _⟩
      · omega
      · refine ⟨c.op, ?_⟩
        have hptr : (m.setWord c.p (tag, new)).getPtr new = c.ptr := hprep.2.1
        rw [hent, hptr]
        exact List.mem_singleton.mpr rfl
  · rintro u y hu ho _ rfl
    rw [hpriv.1] at ho
    cases ho
    exact hu rfl
  · intro p hp
    have hne : p ≠ c.p := fun heq => hp (by rw [heq]; rfl)
    exact ⟨by simp [Chains.push, hne], .inl (Function.update_of_ne hne _ _)⟩

include hinv hist hnull in
/-- The load and the compare-and-swap of `cam`. -/
theorem step_cam {c : Call P} {old new : Versioned} {b : Bool}
    (hphase : pc = .camRead c old new b ∨ ∃ w, pc = .camSwap c old new b w)
    (hpc : PcOk own t G m h pc) (hid : c.op < ops ∧ .ret c.op ∉ h)
    (hstep : stepThread m G.last tag pc = some r) : StepOk own t G m h ops pc r := by
  rcases hphase with rfl | ⟨w, rfl⟩
  · simp only [stepThread] at hstep
    split at hstep
    · rename_i hold
      cases hstep
      refine stepOk_silent hinv hist hnull ?_ fun p hp => .inl hp
      cases b with
      | false => exact ⟨hpc.1, hold, .inl rfl⟩
      | true => exact hpc
    · rename_i hold
      cases hstep
      cases b with
      | false => exact hpc.1.failed hinv hist hnull rfl (hpc.2.resolve_left hold)
      | true =>
          exact stepOk_silent hinv hist hnull (Stored.afterCam hpc old)
            fun p hp => .inl ((afterCam_storing c old new true).trans hp)
  · simp only [stepThread] at hstep
    split at hstep
    · rename_i hword
      cases b with
      | false =>
          cases hstep
          exact step_install hinv hist hpc.1 hpc.2.1 hword hid
      | true =>
          -- The version is in place already, and its pointer may hold its value.
          cases hstep
          have hs : Stored own t G h c new := hpc
          have hevol := hinv.expose .null c.p tag
          rw [hs.1] at hevol
          refine stepOk_of_ext hnull hevol rfl eventsOk_nil (hist.silent hevol.1 hinv rfl) ?_ ?_
            (fun p hp => .inl ((afterCam_storing c old new true).trans hp)) fun _ => .inl
          · rw [List.append_nil]
            exact hs.afterCam old
          · intro p hp
            have hne : p ≠ c.p := fun heq => hp (by rw [heq]; rfl)
            exact ⟨rfl, .inl (Function.update_of_ne hne _ _)⟩
    · rename_i hword
      cases hstep
      cases b with
      | false => exact hpc.1.failed hinv hist hnull rfl (hpc.2.2.resolve_left hword)
      | true =>
          exact stepOk_silent hinv hist hnull (Stored.afterCam hpc old)
            fun p hp => .inl ((afterCam_storing c old new true).trans hp)

include hinv hist hnull in
/-- The test whether `old_v` has been replaced by its value. -/
theorem step_recheck {c : Call P} {l : Nat} {new : Versioned} {b : Bool}
    (hpc : PcOk own t G m h (.recheck c l new b))
    (hstep : stepThread m G.last tag (.recheck c l new b) = some r) :
    StepOk own t G m h ops (.recheck c l new b) r := by
  simp only [stepThread] at hstep
  split at hstep
  · rename_i hv
    cases hstep
    refine stepOk_silent hinv hist hnull ?_ fun p hp => .inl hp
    cases b with
    | true => exact hpc
    | false =>
        obtain ⟨⟨hno, hs, hpriv, hptr, hlink, haim⟩, _⟩ := hpc
        refine ⟨⟨hno, hs, hpriv, hptr, hlink, .inr ⟨l, rfl, ?_⟩⟩, .inl hv⟩
        rcases haim with haim | ⟨_, habs, _⟩
        · exact haim
        · cases habs
  · rename_i hv
    cases hstep
    cases b with
    | false => exact absurd hpc.2 hv
    | true => exact stepOk_silent hinv hist hnull (Stored.setStamp hpc) fun p hp => .inl hp

/-! ## Speculative snapshots -/

omit [DecidableEq P] in
include hinv hist in
/-- An execution that starts knows the last versions. -/
theorem readerOk_start {s : Nat} (hno : ∀ p x, .read s p x ∉ h) :
    ReaderOk G m h ⟨s, m.stamp, true, false⟩ G.last := by
  refine ⟨hinv.stamp_pos, le_rfl, fun p i hlt hle => absurd hle (Nat.not_le.mpr hlt), ?_,
    ⟨fun _ => le_rfl, ?_⟩, fun _ p x hmem => absurd hmem (hno p x)⟩
  · intro p i l hi _ hl
    obtain ⟨_, s', hs', _⟩ := hinv.short l hl
    exact ⟨hi, s', hs', hinv.le_stamp _ s' hs'⟩
  · intro op op' p q i j x x' hb hi _ _
    obtain ⟨s', hs'⟩ := Option.ne_none_iff_exists'.mp ((hist.ret op hb.left_mem).2 p i x hi)
    exact ⟨(hist.install op p i x hi).2.1, s', hs', hinv.le_stamp _ s' hs'⟩

omit [DecidableEq P] in
/-- A worker without a pointer to store into keeps no one waiting. -/
theorem rest_of_none (hpc : pc.storing = none) (p : P) (hp : pc.storing = some p) :
    pc'.storing = some p ∨ Stamped G m p := by
  rw [hpc] at hp
  cases hp

omit [DecidableEq P] in
include hinv in
/-- A node that is younger than the execution is a version, and not the first one. -/
theorem Walking.younger {rd : Reader} {p : P} {i s : Nat} {head : Versioned}
    (hw : Walking G m h rd p i) (hrep : Rep G m p i head) (hs : m.timeStamp head = some s)
    (hlt : rd.ls < s) : head = G.ent p i ∧ i ≠ 0 := by
  obtain ⟨hi, k, hr, _⟩ := hw
  have hpos := hr.pos
  have heq : head = G.ent p i := by
    rcases hrep with heq | ⟨l, s', s₀, hl, hs', hshort, _, _, hs₀, hle₀⟩
    · exact heq
    · -- A link that has been replaced is not younger than the execution.
      obtain ⟨_, s₁, hs₁, hle⟩ := hr.short p i l hi hl hshort
      rw [hs'] at hs₁
      rw [hs] at hs₀
      cases hs₁
      cases hs₀
      omega
  refine ⟨heq, ?_⟩
  rintro rfl
  obtain ⟨s₁, hs₁, hle₁⟩ := hinv.first p
  rw [← heq, hs] at hs₁
  cases hs₁
  omega

omit [DecidableEq P] in
include hinv in
/-- An execution that meets a node older than its `local_stamp` has found the version that it shows. -/
theorem Walking.cutTo {rd : Reader} {p : P} {i s : Nat} {head : Versioned}
    (hw : Walking G m h rd p i) (hrep : Rep G m p i head) (hs : m.timeStamp head = some s)
    (hlt : s < rd.ls) : ∃ k, ReaderOk G m h rd k ∧ CutTo G m k rd.ls p i := by
  obtain ⟨hi, k, hr, hpast⟩ := hw
  refine ⟨k, hr, ?_⟩
  rcases hrep with rfl | ⟨l, _, _, hl, _, hshort, _⟩
  · refine ⟨?_, ⟨s, hs, hlt.le⟩, hpast⟩
    by_contra hk
    have hyoung := hr.young p i (by omega) hi
    have hborn := hinv.born_le_stamp p i s hi hs
    omega
  · obtain ⟨hk, s', hs', hle⟩ := hr.short p i l hi hl hshort
    exact ⟨hk, ⟨s', by rw [hl, hs'], hle⟩, hpast⟩

include hinv hist hnull in
/-- A step of the walk of `read_snapshot` along the chain. -/
theorem step_walk {rd : Reader} {p : P} {head : Versioned}
    (hphase : pc = .walk rd p head ∨ pc = .follow rd p head) (hpc : PcOk own t G m h pc)
    (hstep : stepThread m G.last tag pc = some r) : StepOk own t G m h ops pc r := by
  rcases hphase with rfl | rfl
  · simp only [stepThread] at hstep
    split at hstep
    · rename_i hcond
      cases hstep
      refine stepOk_silent hinv hist hnull (fun hspec => ?_) (rest_of_none rfl)
      obtain ⟨hts, i, hw, hrep⟩ := hpc hspec
      obtain ⟨s, hs⟩ := Option.ne_none_iff_exists'.mp hts
      have hlt : rd.ls < s := by simpa [hs, less] using hcond.2
      obtain ⟨heq, hpos⟩ := hw.younger hinv hrep hs hlt
      obtain ⟨i, rfl⟩ := Nat.exists_eq_succ_of_ne_zero hpos
      obtain ⟨hi, k, hr, hpast⟩ := hw
      refine ⟨i, ⟨Nat.le_of_succ_le hi, k, hr, fun j hij hj => ?_⟩, hi, heq⟩
      rcases Nat.lt_or_eq_of_le (Nat.succ_le_of_lt hij) with hnext | rfl
      · exact hpast j hnext hj
      · exact ⟨s, by rw [← hs, heq], hlt⟩
    · rename_i hcond
      cases hstep
      refine stepOk_silent hinv hist hnull (fun hspec => ?_) (rest_of_none rfl)
      obtain ⟨hts, i, hw, hrep⟩ := hpc hspec
      obtain ⟨s, hs⟩ := Option.ne_none_iff_exists'.mp hts
      refine ⟨i, hw, hrep, s, hs, ?_⟩
      by_contra hlt
      refine hcond ⟨?_, by simpa [hs, less] using hlt⟩
      rintro rfl
      rw [hinv.null] at hs
      cases hs
      omega
  · cases hstep
    refine stepOk_silent hinv hist hnull (fun hspec => ?_) (rest_of_none rfl)
    obtain ⟨i, hw, hi, rfl⟩ := hpc hspec
    have hrep := hinv.next p i hi
    refine ⟨?_, i, hw, hrep⟩
    rcases hrep with heq | ⟨_, _, _, _, _, _, _, _, hts, _⟩
    · rw [heq]
      exact hinv.stamped p i hi
    · simp [hts]

include hinv hist hnull in
/-- The end of `read_snapshot`: the execution aborts if the version has its `local_stamp`. -/
theorem step_test {rd : Reader} {p : P} {head : Versioned} (hpc : PcOk own t G m h (.test rd p head))
    (hid : rd.s < ops ∧ .consistent rd.s ∉ h)
    (hstep : stepThread m G.last tag (.test rd p head) = some r) :
    StepOk own t G m h ops (.test rd p head) r := by
  cases hstep
  cases hspec : rd.speculative with
  | false =>
      simp only [Bool.false_eq_true, if_false]
      exact stepOk_silent hinv hist hnull (fun habs => absurd habs (by simp)) (rest_of_none rfl)
  | true =>
      simp only [if_true, Bool.true_and]
      obtain ⟨i, hw, hrep, s, hs, hle⟩ := hpc hspec
      have hes : EventsOk G h [.read rd.s p (m.getPtr head)] := ⟨by simp, by simp, by simp⟩
      have hist' : HistInv G m (h ++ [.read rd.s p (m.getPtr head)]) ops := by
        refine hist.step (Ext.refl .null G m) hinv hes le_rfl (by simpa [Event.id] using hid.1)
          (by simp) (fun p i hlt hle => absurd hle (Nat.not_le.mpr hlt)) (by simp) ?_ (by simp)
        intro s' p' x hmem
        simp only [List.mem_singleton, Event.read.injEq] at hmem
        rw [hmem.1]
        exact hid.2
      refine stepOk_of_events hinv hnull hes hist' (fun _ => ?_) (rest_of_none rfl)
      have ⟨_, k, hr, _⟩ := hw
      -- Either the execution aborts now, or the version is older than its `local_stamp`.
      by_cases hab : head ≠ .null ∧ s = rd.ls
      · refine ⟨k, hr.pos, hr.le_stamp, hr.young, hr.short, hr.closed.ext (Ext.refl .null G m) hes, ?_⟩
        intro hfalse
        simp [hs, hab] at hfalse
      · have hlt : s < rd.ls := by
          rcases eq_or_ne head .null with rfl | hne
          · rw [hinv.null] at hs
            cases hs
            exact hr.pos
          · exact Nat.lt_of_le_of_ne hle fun heq => hab ⟨hne, heq⟩
        obtain ⟨k, hr, hcut⟩ := hw.cutTo hinv hrep hs hlt
        refine ⟨k, hr.pos, hr.le_stamp, hr.young, hr.short, hr.closed.ext (Ext.refl .null G m) hes, ?_⟩
        intro hfalse q x hmem
        rcases List.mem_append.mp hmem with hold | hnew
        · refine hr.reads ?_ q x hold
          cases hra : rd.aborted with
          | false => rfl
          | true => simp [hra] at hfalse
        · simp only [List.mem_singleton, Event.read.injEq] at hnew
          obtain ⟨_, rfl, rfl⟩ := hnew
          exact ⟨i, hcut, hrep.getPtr.symm⟩

include hinv hist hnull in
/-- Every step of a worker. -/
theorem PcOk.step (hpc : PcOk own t G m h pc)
    (hid : ∀ w, pc.op = some w → w < ops ∧ .ret w ∉ h ∧ .consistent w ∉ h)
    (hquiet : ∀ y, own y = some t → G.Inst y → m.timeStamp y = none →
      ∃ p, pc.storing = some p ∧ y = G.ent p (G.last p))
    (hstep : stepThread m G.last tag pc = some r) : StepOk own t G m h ops pc r := by
  match pc with
  | .idle | .inside _ => cases hstep
  | .setStamp y x k => exact step_setStamp hinv hist hnull hpc (fun w hw => (hid w hw).1) hstep
  | .shortcut p l x op => exact step_shortcut hinv hist hnull hpc (fun w hw => (hid w hw).1) hstep
  | .store c =>
      have hphase : Pc.store c = .store c ∨ Pc.store c = .useIndirect c .null ∨
          Pc.store c = .newLink c .null ∨ Pc.store c = .setNext c .null := .inl rfl
      exact step_prepare hinv hist hnull hphase hpc hquiet hstep
  | .useIndirect c old => exact step_prepare hinv hist hnull (.inr (.inl rfl)) hpc hquiet hstep
  | .newLink c old =>
      exact step_prepare hinv hist hnull (.inr (.inr (.inl rfl))) hpc hquiet hstep
  | .setNext c old =>
      exact step_prepare hinv hist hnull (.inr (.inr (.inr rfl))) hpc hquiet hstep
  | .camRead c old new b =>
      have ⟨hlt, hret, _⟩ := hid c.op rfl
      exact step_cam hinv hist hnull (.inl rfl) hpc ⟨hlt, hret⟩ hstep
  | .camSwap c old new b w =>
      have ⟨hlt, hret, _⟩ := hid c.op rfl
      exact step_cam hinv hist hnull (.inr ⟨w, rfl⟩) hpc ⟨hlt, hret⟩ hstep
  | .recheck c l new b => exact step_recheck hinv hist hnull hpc hstep
  | .load p =>
      cases hstep
      exact stepOk_silent hinv hist hnull ⟨setStampOk_word hinv p, trivial⟩ (rest_of_none rfl)
  | .getStamp s =>
      cases hstep
      exact stepOk_silent hinv hist hnull (fun _ => ⟨G.last, readerOk_start hinv hist hpc⟩)
        (rest_of_none rfl)
  | .read rd p =>
      cases hstep
      refine stepOk_silent hinv hist hnull ⟨setStampOk_word hinv p, rfl, fun hspec => ?_⟩
        (rest_of_none rfl)
      obtain ⟨k, hr⟩ := hpc hspec
      refine ⟨G.last p, ⟨le_rfl, k, hr, fun j hlt hle => ?_⟩, hinv.head p⟩
      have hk := hr.closed.1 p
      omega
  | .walk rd p head => exact step_walk hinv hist hnull (.inl rfl) hpc hstep
  | .follow rd p head => exact step_walk hinv hist hnull (.inr rfl) hpc hstep
  | .test rd p head =>
      have ⟨hlt, _, hcons⟩ := hid rd.s rfl
      exact step_test hinv hist hnull hpc ⟨hlt, hcons⟩ hstep
  | .again rd =>
      have hspec : rd.speculative = false := hpc
      simp only [stepThread] at hstep
      split at hstep
      · cases hstep
        exact stepOk_silent hinv hist hnull hspec (rest_of_none rfl)
      · cases hstep
        refine stepOk_silent hinv hist hnull (fun habs => ?_) (rest_of_none rfl)
        exact absurd (hspec.symm.trans habs) (by simp)
  | .add rd =>
      have hspec : rd.speculative = false := hpc
      cases hstep
      have hevol := hinv.tick .null
      refine stepOk_of_ext hnull hevol rfl eventsOk_nil (hist.silent hevol.1 hinv rfl) (fun habs => ?_)
        (fun p _ => ⟨rfl, .inl rfl⟩) (rest_of_none rfl) fun _ => .inl
      exact absurd (hspec.symm.trans habs) (by simp)

end Steps

end Verlib.Hybrid.Store
