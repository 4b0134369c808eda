import Verlib.Hybrid.StoreStep
import Mathlib.Data.Fintype.Basic
import Mathlib.Data.Nat.Find

/-!
# Consistency of speculative snapshots

`speculative_consistent` says that a speculative execution that does not abort shows a consistent cut
through the versions of all pointers, in every run in which no `shortcut` replaces a link whose stamp is
not below the `local_stamp` of a speculative execution. `done_stamp` can be equal to a `local_stamp`, and
`shortcut` replaces links with a stamp of at most `done_stamp`, so there are runs in which a version whose
stamp would abort a reader is hidden from it (`shortcut_hides_version`).
-/

namespace Verlib.Hybrid.Store

open Interleaving

variable {P : Type} {n : Nat} {G G' : Chains P} {m m' : Memory P} {a : Versioned}
  {h es : List (Event P)} {own own' : Versioned → Option (Fin n)} {t : Fin n}

/-! ## What a step leaves alone -/

/-- What follows `set_stamp` belongs to the same call. -/
theorem resume_frame (y : Versioned) (k : After P) :
    (k.resume.2.op = k.op ∨ k.resume.2.op = none) ∧ (∀ e ∈ k.resume.1, k.op = some e.id) ∧
      (∀ w, .ret w ∈ k.resume.1 → k.resume.2.op = none) ∧ (∀ s, .consistent s ∉ k.resume.1) ∧
      ∀ p, k.resume.2.storing = some p → (Pc.setStamp y .load k).storing = some p := by
  match k with
  | .store _ (.direct _) | .store _ (.indirect _) | .load _ (.direct _) | .load _ (.indirect _)
  | .walk _ _ _ => simp [After.resume, Pc.op, After.op, Event.id, Pc.storing]

/-- A step of a worker emits events of its call only, ends the call with its return, does not end an
execution of a snapshot's body, and takes no lock. -/
theorem stepThread_frame [DecidableEq P] {pc : Pc P} {r : Result P} {last : P → Nat} {tag : Nat}
    (hstep : stepThread m last tag pc = some r) :
    (r.pc.op = pc.op ∨ r.pc.op = none) ∧ (∀ e ∈ r.events, pc.op = some e.id) ∧
      (∀ w, .ret w ∈ r.events → r.pc.op = none) ∧ (∀ s, .consistent s ∉ r.events) ∧
      ∀ p, r.pc.storing = some p → pc.storing = some p := by
  cases pc with
  | idle | inside => cases hstep
  | setStamp y x k =>
      simp only [stepThread] at hstep
      split at hstep
      · cases hstep
        refine ⟨.inl rfl, by simp, by simp, by simp, fun p hp => ?_⟩
        cases k <;> exact hp
      · cases hstep
        obtain ⟨hop, hes, hret, hcons, hstoring⟩ := resume_frame y k
        refine ⟨hop, hes, hret, hcons, fun p hp => ?_⟩
        have hp' := hstoring p hp
        cases k <;> exact hp'
  | shortcut p l x op =>
      simp only [stepThread] at hstep
      split at hstep
      · cases hstep
        refine ⟨.inl rfl, by simp, by simp, by simp, fun p hp => ?_⟩
        cases op <;> exact hp
      · cases hstep
        refine ⟨.inr rfl, ?_, fun _ _ => rfl, by simp, by rintro p ⟨⟩⟩
        intro e he
        cases op with
        | none => simp at he
        | some w =>
            obtain rfl : e = .ret w := by simpa using he
            rfl
  | test rd p head =>
      cases hstep
      refine ⟨.inl rfl, ?_, ?_, ?_, by rintro p ⟨⟩⟩
      · intro e he
        split at he
        · obtain rfl := List.mem_singleton.mp he
          rfl
        · simp at he
      · intro w hmem
        split at hmem <;> simp at hmem
      · intro s hmem
        split at hmem <;> simp at hmem
  | camRead c old new b | camSwap c old new b w =>
      simp only [stepThread] at hstep
      repeat' split at hstep
      all_goals
        cases hstep
        cases old <;> simp [Pc.afterCam, Pc.op, After.op, Event.id, Pc.storing]
  | useIndirect | recheck | walk | again =>
      simp only [stepThread] at hstep
      split at hstep <;>
        cases hstep <;>
        simp [Pc.op, After.op, Pc.storing]
  | store | newLink | setNext | load | getStamp | read | follow | add =>
      cases hstep
      simp [Pc.op, After.op, Pc.storing]

/-! ## The invariant of a run -/

/-- The invariant of a run: the chains, the history, what every worker knows, and the locks. -/
structure Inv (owner : Nat → Fin n) (init : P → Option Nat) (own : Versioned → Option (Fin n))
    (G : Chains P) (h : List (Event P)) (st : State P n) : Prop where
  chains : ChainInv G st.memory
  last : st.last = G.last
  hist : HistInv G st.memory h st.ops
  init : ∀ p, G.ent p 0 = .direct (init p)
  null : own .null = none
  object : ∀ o, own (.direct (some o)) = some (owner o)
  threads : ∀ t, PcOk own t G st.memory h (st.threads t)
  ids : ∀ t w, (st.threads t).op = some w → w < st.ops ∧ .ret w ∉ h ∧ .consistent w ∉ h
  distinct : ∀ t u w, (st.threads t).op = some w → (st.threads u).op = some w → t = u
  locks : ∀ t u p, (st.threads t).storing = some p → (st.threads u).storing = some p → t = u
  rest : ∀ p, (∀ t, (st.threads t).storing ≠ some p) → Stamped G st.memory p

/-- At the start every pointer has one version. -/
theorem inv_initial (owner : Nat → Fin n) {init : P → Option Nat} {stamped : Nat → Bool}
    {tag : P → Nat} {older : Versioned → Versioned}
    (hinit : ∀ p o, init p = some o → stamped o = true) :
    ∃ own G, Inv owner init own G [] (initial (.initial init stamped tag older) : State P n) := by
  refine ⟨Versioned.owned owner, .initial init,
    ⟨chainInv_initial tag older hinit, rfl, ⟨by simp, by simp, ?_, by simp, by simp⟩,
      fun _ => rfl, rfl, fun _ => rfl, fun _ => trivial, ?_, ?_, ?_, ?_⟩⟩
  · intro p i hpos hi
    have hi : i ≤ 0 := hi
    omega
  · rintro t w ⟨⟩
  · rintro t u w ⟨⟩
  · rintro t u p ⟨⟩
  · intro p _ hnone
    obtain ⟨s, hs, _⟩ := initial_stamp tag older hinit p
    exact absurd (hnone.symm.trans hs) (by simp)

/-- While a pointer is stored into, its last version has its stamp or belongs to the worker. -/
theorem PcOk.stamped_or_own {pc : Pc P} {p : P} (hpc : PcOk own t G m h pc)
    (hp : pc.storing = some p) : Stamped G m p ∨ own (G.ent p (G.last p)) = some t := by
  match pc, hpc with
  | .store c, hpc | .useIndirect c _, hpc | .newLink c _, hpc | .setNext c _, hpc =>
      cases hp
      exact .inl hpc.2.1
  | .camRead c _ _ false, hpc | .camSwap c _ _ false _, hpc | .recheck c _ _ false, hpc =>
      cases hp
      exact .inl hpc.1.2.1
  | .camRead c _ _ true, hpc | .camSwap c _ _ true _, hpc | .recheck c _ _ true, hpc =>
      cases hp
      exact .inr hpc.2.1
  | .setStamp _ _ (.store c new), hpc =>
      cases hp
      exact .inr hpc.2.2.2.1
  | .shortcut _ _ _ (some w), hpc =>
      cases hp
      exact .inl (hpc.2 w rfl).1

section Update

variable {owner : Nat → Fin n} {init : P → Option Nat} {st st' : State P n}

/-- A version of a worker without a stamp is the last one of the pointer that it stores into. -/
theorem Inv.quiet (hinv : Inv owner init own G h st) {y : Versioned} (ho : own y = some t)
    (hy : G.Inst y) (hnone : st.memory.timeStamp y = none) :
    ∃ p, (st.threads t).storing = some p ∧ y = G.ent p (G.last p) := by
  obtain ⟨p, i, hi, rfl⟩ := hy
  have hlast : i = G.last p := by
    rcases Nat.lt_or_eq_of_le hi with hlt | heq
    · exact absurd hnone (hinv.chains.stamped p i hlt)
    · exact heq
  rw [hlast] at ho hnone
  obtain ⟨u, hu⟩ : ∃ u, (st.threads u).storing = some p := by
    by_contra hno
    exact hinv.rest p (fun u hu => hno ⟨u, hu⟩) hnone
  rcases (hinv.threads u).stamped_or_own hu with hs | hown
  · exact absurd hnone hs
  · rw [ho] at hown
    cases hown
    exact ⟨p, hu, by rw [hlast]⟩

/-- One worker moves. Its events belong to its call or to a new one. -/
theorem Inv.update {r : Result P} (hinv : Inv owner init own G h st)
    (hmoved : Moved own t G st.memory h st'.ops (st.threads t) r own' G' a)
    (hmemory : st'.memory = r.memory) (hlast : st'.last = r.last)
    (hthreads : st'.threads = Function.update st.threads t r.pc) (hops : st.ops ≤ st'.ops)
    (hes : ∀ e ∈ r.events, (st.threads t).op = some e.id ∨ st.ops ≤ e.id)
    (hop' : ∀ w, r.pc.op = some w → (st.threads t).op = some w ∨ st.ops ≤ w ∧ w < st'.ops)
    (hend : ∀ w, .ret w ∈ r.events ∨ .consistent w ∈ r.events → r.pc.op ≠ some w)
    (hstoring : ∀ p, r.pc.storing = some p →
      (st.threads t).storing = some p ∨ ∀ u, (st.threads u).storing ≠ some p)
    (hhidden : ∀ l, G'.short l → G.short l ∨ ∀ u ls, (st.threads u).speculating = some ls →
      ∃ s, st.memory.timeStamp (.indirect l) = some s ∧ s < ls) :
    Inv owner init own' G' (h ++ r.events) st' := by
  have hdirect : ∀ ptr, st.memory.Allocated (.direct ptr) := by
    rintro ptr l ⟨⟩
  have hext := hmoved.evolves.1
  -- The events of this step are events of no other worker.
  have hforeign : ∀ u, u ≠ t → ∀ w, (st.threads u).op = some w → ∀ e ∈ r.events, e.id ≠ w := by
    rintro u hne w hw e he rfl
    rcases hes e he with hsame | hnew
    · exact hne (hinv.distinct u t _ hw hsame)
    · exact absurd (hinv.ids u _ hw).1 (Nat.not_lt.mpr hnew)
  have hkept : ∀ u, u ≠ t → ∀ p, (st.threads u).storing = some p →
      Kept G st.memory G' r.memory p :=
    fun u hne p hp => hmoved.kept p fun hp' => hne (hinv.locks u t p hp hp')
  have hcases : ∀ {Q : Fin n → Pc P → Prop}, Q t r.pc → (∀ u, u ≠ t → Q u (st.threads u)) →
      ∀ u, Q u (st'.threads u) := by
    intro Q hself hother u
    rw [hthreads]
    rcases eq_or_ne u t with rfl | hne
    · rwa [Function.update_self]
    · rw [Function.update_of_ne hne]
      exact hother u hne
  -- What belongs to this worker belongs to no other one.
  have hdistinct : ∀ {β : Type} (f : Pc P → Option β),
      (∀ u v b, f (st.threads u) = some b → f (st.threads v) = some b → u = v) →
      (∀ u, u ≠ t → ∀ b, f r.pc = some b → f (st.threads u) ≠ some b) →
      ∀ u v b, f (st'.threads u) = some b → f (st'.threads v) = some b → u = v := by
    intro β f hold hnew u v b hu hv
    rw [hthreads] at hu hv
    rcases eq_or_ne u t with rfl | hneu
    · rcases eq_or_ne v u with rfl | hnev
      · rfl
      · rw [Function.update_self] at hu
        rw [Function.update_of_ne hnev] at hv
        exact absurd hv (hnew v hnev b hu)
    · rw [Function.update_of_ne hneu] at hu
      rcases eq_or_ne v t with rfl | hnev
      · rw [Function.update_self] at hv
        exact absurd hu (hnew u hneu b hv)
      · rw [Function.update_of_ne hnev] at hv
        exact hold u v b hu hv
  refine ⟨hmemory ▸ hmoved.evolves.2, hlast.trans hmoved.last, hmemory ▸ hmoved.hist, ?_, ?_, ?_,
    hcases (hmemory ▸ hmoved.pcOk) ?_, ?_, hdistinct Pc.op hinv.distinct ?_,
    hdistinct Pc.storing hinv.locks ?_, ?_⟩
  · intro p
    rw [hext.ent p 0 (Nat.zero_le _)]
    exact hinv.init p
  · exact (hmoved.agree _ (hdirect none)).trans hinv.null
  · intro o
    rw [hmoved.agree _ (hdirect _)]
    exact hinv.object o
  · intro u hne
    rw [hmemory]
    refine (hinv.threads u).ext hext hinv.chains hmoved.agree (fun y => hmoved.alone u y hne)
      hmoved.evolves.2 hmoved.events (hforeign u hne) (hkept u hne) ?_
    exact fun l hl => (hhidden l hl).imp_right fun hall => hall u
  · refine hcases (Q := fun _ pc => ∀ w, pc.op = some w →
      w < st'.ops ∧ .ret w ∉ h ++ r.events ∧ .consistent w ∉ h ++ r.events) ?_ ?_
    · intro w hw
      have hold : w < st'.ops ∧ .ret w ∉ h ∧ .consistent w ∉ h := by
        rcases hop' w hw with hsame | hge
        · obtain ⟨hlt, hids⟩ := hinv.ids t w hsame
          exact ⟨hlt.trans_le hops, hids⟩
        · exact ⟨hge.2, fun hmem => absurd (hinv.hist.ids _ hmem) (Nat.not_lt.mpr hge.1),
            fun hmem => absurd (hinv.hist.ids _ hmem) (Nat.not_lt.mpr hge.1)⟩
      refine ⟨hold.1, fun hmem => ?_, fun hmem => ?_⟩
      · exact (List.mem_append.mp hmem).elim hold.2.1 fun hnew => hend w (.inl hnew) hw
      · exact (List.mem_append.mp hmem).elim hold.2.2 fun hnew => hend w (.inr hnew) hw
    · intro u hne w hw
      obtain ⟨hlt, hret, hcons⟩ := hinv.ids u w hw
      refine ⟨hlt.trans_le hops, fun hmem => ?_, fun hmem => ?_⟩
      · exact (List.mem_append.mp hmem).elim hret fun hnew => hforeign u hne w hw _ hnew rfl
      · exact (List.mem_append.mp hmem).elim hcons fun hnew => hforeign u hne w hw _ hnew rfl
  · intro u hne w hw hw'
    rcases hop' w hw with hsame | hge
    · exact hne (hinv.distinct u t w hw' hsame)
    · exact absurd (hinv.ids u w hw').1 (Nat.not_lt.mpr hge.1)
  · intro u hne p hp hp'
    rcases hstoring p hp with hsame | hfree
    · exact hne (hinv.locks u t p hp' hsame)
    · exact hfree u hp'
  · intro p hfree
    rw [hmemory]
    have hother : ∀ u, u ≠ t → (st.threads u).storing ≠ some p := by
      intro u hne
      have hu := hfree u
      rwa [hthreads, Function.update_of_ne hne] at hu
    have hself := hfree t
    rw [hthreads, Function.update_self] at hself
    by_cases hp : (st.threads t).storing = some p
    · exact (hmoved.rest p hp).resolve_left hself
    · refine (hinv.rest p fun u => ?_).ext hext (hmoved.kept p hp).last
      rcases eq_or_ne u t with rfl | hne
      · exact hp
      · exact hother u hne

/-- Only the memory, the positions of the workers and the numbers of calls and versions matter. -/
theorem Inv.congr (hinv : Inv owner init own G h st) (hmemory : st'.memory = st.memory)
    (hthreads : st'.threads = st.threads) (hops : st'.ops = st.ops) (hlast : st'.last = st.last) :
    Inv owner init own G (h ++ []) st' := by
  obtain ⟨memory', core', prev', current', threads', ops', last'⟩ := st'
  dsimp only at hmemory hthreads hops hlast
  subst hmemory hthreads hops hlast
  rw [List.append_nil]
  exact ⟨hinv.chains, hinv.last, hinv.hist, hinv.init, hinv.null, hinv.object, hinv.threads, hinv.ids,
    hinv.distinct, hinv.locks, hinv.rest⟩

/-- A worker starts or ends something, without touching the memory. -/
theorem Inv.goto (hinv : Inv owner init own G h st) (t : Fin n) (pc' : Pc P) (hes : EventsOk G h es)
    (hist' : HistInv G st.memory (h ++ es) st'.ops) (hpc' : PcOk own t G st.memory (h ++ es) pc')
    (hidle : (st.threads t).storing = none)
    (hmemory : st'.memory = st.memory) (hlast : st'.last = st.last)
    (hthreads : st'.threads = Function.update st.threads t pc') (hops : st.ops ≤ st'.ops)
    (hids : ∀ e ∈ es, (st.threads t).op = some e.id ∨ st.ops ≤ e.id)
    (hop' : ∀ w, pc'.op = some w → (st.threads t).op = some w ∨ st.ops ≤ w ∧ w < st'.ops)
    (hend : ∀ w, .ret w ∈ es ∨ .consistent w ∈ es → pc'.op ≠ some w)
    (hstoring : ∀ p, pc'.storing = some p → ∀ u, (st.threads u).storing ≠ some p) :
    Inv owner init own G (h ++ es) st' := by
  refine hinv.update (r := ⟨es, st.memory, st.last, pc'⟩) (a := .null)
    ⟨⟨Ext.refl _ G _, hinv.chains⟩, hinv.last, hes, hist', hpc', fun _ _ => rfl, ?_,
      fun _ _ => ⟨rfl, .inl rfl⟩, ?_, fun _ => .inl⟩
    hmemory hlast hthreads hops hids hop' hend (fun p hp => .inr (hstoring p hp)) fun _ => .inl
  · rintro u y _ ho _ rfl
    rw [hinv.null] at ho
    cases ho
  · intro p hp
    rw [hidle] at hp
    cases hp

/-- `done_stamp` is written. -/
theorem Inv.setDone (hinv : Inv owner init own G h st) (t : Fin n) (d : Nat)
    (hmemory : st'.memory = { st.memory with done := d }) (hthreads : st'.threads = st.threads)
    (hops : st'.ops = st.ops) (hlast : st'.last = st.last) :
    Inv owner init own { G with limit := max G.limit d } (h ++ []) st' := by
  have hevol := hinv.chains.setDone .null d
  have hne : ∀ u y, own y = some u → st.memory.Allocated y → y ≠ .null := by
    rintro u y ho _ rfl
    rw [hinv.null] at ho
    cases ho
  have hkept : ∀ p, Kept G st.memory { G with limit := max G.limit d }
      { st.memory with done := d } p := fun p => ⟨rfl, .inl rfl⟩
  refine hinv.update (t := t) (r := ⟨[], { st.memory with done := d }, st.last, st.threads t⟩)
    ⟨hevol, hinv.last, eventsOk_nil, ?_, ?_, fun _ _ => rfl, fun u y _ => hne u y, fun p _ => hkept p,
      fun _ => .inl, fun _ => .inl⟩
    hmemory hlast ?_ hops.ge (by simp) (fun w hw => .inl hw) (by simp) (fun p hp => .inl hp)
    fun _ => .inl
  · rw [hops]
    exact hinv.hist.silent hevol.1 hinv.chains rfl
  · exact (hinv.threads t).ext hevol.1 hinv.chains (fun _ _ => rfl) (hne t) hevol.2 eventsOk_nil
      (by simp) (fun p _ => hkept p) fun _ => .inl
  · rw [hthreads, Function.update_eq_self]

/-- A worker that may start an operation is idle. -/
theorem free_idle (hfree : st.free t = true) : st.threads t = .idle := by
  unfold State.free at hfree
  split at hfree
  · assumption
  · cases hfree

/-- The end of an execution of a snapshot's body. -/
theorem Inv.finish [DecidableEq P] (hinv : Inv owner init own G h st)
    (hstep : next (.finish t) st = some (es, st')) : Inv owner init own G (h ++ es) st' := by
  simp only [next] at hstep
  split at hstep
  · rename_i s ls hin
    cases hstep
    refine hinv.goto t (.again ⟨s, ls, false, false⟩) eventsOk_nil
      (by rw [List.append_nil]; exact hinv.hist) rfl (by rw [hin]; rfl) rfl rfl rfl le_rfl (by simp) (fun w hw => .inl ?_) (by simp) (by rintro p ⟨⟩)
    rw [hin]
    exact hw
  · rename_i s ls hin
    cases hstep
    have hpc := hinv.threads t
    rw [hin] at hpc
    obtain ⟨k, hr⟩ := hpc rfl
    have hid := hinv.ids t s (by rw [hin]; rfl)
    have hes : EventsOk G h [.consistent s] := ⟨by simp, by simp, by simp⟩
    refine hinv.goto t .idle hes ?_ trivial (by rw [hin]; rfl) rfl rfl rfl le_rfl ?_ (by rintro w ⟨⟩)
      (by rintro w _ ⟨⟩) (by rintro p ⟨⟩)
    · refine hinv.hist.step (Ext.refl .null G _) hinv.chains hes le_rfl
        (fun e he => by obtain rfl := List.mem_singleton.mp he; exact hid.1) (by simp)
        (fun p i hlt hle => absurd hle (Nat.not_le.mpr hlt)) (by simp) (by simp) ?_
      intro s' hmem
      obtain rfl : s' = s := by simpa using hmem
      exact ⟨ls, k, hr.pos, hr.closed.ext (Ext.refl .null G _) hes,
        (hr.reads rfl).ext (Ext.refl .null G _) hinv.chains hr.closed.1 (by simp)⟩
    · intro e he
      obtain rfl := List.mem_singleton.mp he
      exact .inl (by rw [hin]; rfl)
  · rename_i s ls b hin
    cases hstep
    exact hinv.goto t .idle eventsOk_nil (by rw [List.append_nil]; exact hinv.hist) trivial
      (by rw [hin]; rfl) rfl rfl rfl le_rfl (by simp) (by rintro w ⟨⟩) (by simp) (by rintro p ⟨⟩)
  · cases hstep

/-- A step of `update_epoch`. -/
theorem Inv.updateEpoch (hinv : Inv owner init own G h st) (t : Fin n) :
    ∃ G', Inv owner init own G' (h ++ []) (Store.updateEpoch st t) := by
  unfold Store.updateEpoch
  dsimp only
  split
  · exact ⟨G, hinv.congr rfl rfl rfl rfl⟩
  · exact ⟨_, hinv.setDone t st.prevStamp rfl rfl rfl rfl⟩
  · exact ⟨G, hinv.congr rfl rfl rfl rfl⟩
  · exact ⟨G, hinv.congr rfl rfl rfl rfl⟩

variable [DecidableEq P]

/-- A step of a worker that hides no version. -/
theorem Inv.stepThread {tag : Nat} (hinv : Inv owner init own G h st)
    (hhides : ¬ hidesVersion st (.step t tag)) (hstep : next (.step t tag) st = some (es, st')) :
    ∃ own' G', Inv owner init own' G' (h ++ es) st' := by
  simp only [next, Option.map_eq_some_iff] at hstep
  obtain ⟨r, hr, heq⟩ := hstep
  cases heq
  obtain ⟨hop, hes, hret, hcons, hstoring⟩ := stepThread_frame hr
  rw [hinv.last] at hr
  obtain ⟨own', G', a, hmoved⟩ := (hinv.threads t).step hinv.chains hinv.hist hinv.null (hinv.ids t)
    (fun y => hinv.quiet) hr
  refine ⟨own', G', hinv.update hmoved rfl rfl rfl le_rfl (fun e he => .inl (hes e he)) ?_ ?_
    (fun p hp => .inl (hstoring p hp)) ?_⟩
  · intro w hw
    rcases hop with hsame | hnone
    · exact .inl (hsame ▸ hw)
    · rw [hnone] at hw
      cases hw
  · intro w hmem habs
    rcases hmem with hmem | hmem
    · rw [hret w hmem] at habs
      cases habs
    · exact hcons w hmem
  · intro l hl
    refine (hmoved.short l hl).imp_right ?_
    rintro ⟨p, w, op, hpc, hw⟩ u ls hls
    have hok := hinv.threads t
    rw [hpc] at hok
    obtain ⟨_, s, hs, _⟩ := hok.1
    refine ⟨s, hs, ?_⟩
    by_contra hle
    simp only [hidesVersion, hpc] at hhides
    exact hhides ⟨hw, u, ls, hls, s, hs, Nat.le_of_not_lt hle⟩

/-- Every step that hides no version keeps the invariant. -/
theorem Inv.step {act : Action P n} (hinv : Inv owner init own G h st)
    (hallowed : Allowed owner st act) (hhides : ¬ hidesVersion st act)
    (hstep : next act st = some (es, st')) : ∃ own' G', Inv owner init own' G' (h ++ es) st' := by
  have hsilent : HistInv G st.memory (h ++ []) st.ops := by
    rw [List.append_nil]
    exact hinv.hist
  cases act with
  | step t tag => exact hinv.stepThread hhides hstep
  | store t p ptr =>
      simp only [next] at hstep
      split at hstep
      · rename_i hcond
        cases hstep
        have hidle := free_idle hcond.1
        have hfresh : ∀ q i x, .install st.ops q i x ∉ h := fun q i x hmem =>
          absurd (hinv.hist.ids _ hmem) (Nat.lt_irrefl _)
        have hes : EventsOk G h [.call st.ops] := by
          refine ⟨by simp, fun op hmem q i x => ?_, by simp⟩
          obtain rfl : op = st.ops := by simpa using hmem
          simpa using hfresh q i x
        refine ⟨own, G, hinv.goto t (.store ⟨st.ops, p, ptr⟩) hes ?_ ⟨?_, hinv.rest p hcond.2, ?_⟩
          (by rw [hidle]; rfl) rfl rfl rfl (Nat.le_succ _) ?_ ?_ (by simp) ?_⟩
        · exact hinv.hist.step (Ext.refl .null G _) hinv.chains hes (Nat.le_succ _)
            (by simp [Event.id]) (by simp) (fun p i hlt hle => absurd hle (Nat.not_le.mpr hlt))
            (by simp) (by simp) (by simp)
        · intro q i x hmem
          exact hfresh q i x (by simpa using hmem)
        · intro hnone
          cases ptr with
          | none => exact absurd (hinv.chains.null.symm.trans hnone) (by simp)
          | some o =>
              have ho : owner o = t := hallowed hnone
              rw [← ho]
              exact hinv.object o
        · intro e he
          obtain rfl := List.mem_singleton.mp he
          exact .inr le_rfl
        · rintro w ⟨⟩
          exact .inr ⟨le_rfl, Nat.lt_succ_self _⟩
        · rintro q ⟨⟩
          exact hcond.2
      · cases hstep
  | load t p =>
      simp only [next] at hstep
      split at hstep
      · rename_i hfree
        cases hstep
        exact ⟨own, G, hinv.goto t (.load p) eventsOk_nil hsilent trivial
          (by rw [free_idle hfree]; rfl) rfl rfl rfl le_rfl (by simp) (by rintro w ⟨⟩) (by simp) (by rintro p ⟨⟩)⟩
      · cases hstep
  | withSnapshot t =>
      simp only [next] at hstep
      split at hstep
      · rename_i hfree
        cases hstep
        have hext := Ext.refl .null G st.memory
        refine ⟨own, G, hinv.goto t (.getStamp st.ops) eventsOk_nil ?_ ?_
          (by rw [free_idle hfree]; rfl) rfl rfl rfl (Nat.le_succ _) (by simp) ?_ (by simp) (by rintro p ⟨⟩)⟩
        · exact hinv.hist.step hext hinv.chains eventsOk_nil (Nat.le_succ _) (by simp) (by simp)
            (fun p i hlt hle => absurd hle (Nat.not_le.mpr hlt)) (by simp) (by simp) (by simp)
        · intro p x hmem
          rw [List.append_nil] at hmem
          exact absurd (hinv.hist.ids _ hmem) (Nat.lt_irrefl _)
        · rintro w ⟨⟩
          exact .inr ⟨le_rfl, Nat.lt_succ_self _⟩
      · cases hstep
  | read t p =>
      simp only [next] at hstep
      split at hstep
      · rename_i r hin
        cases hstep
        have hpc := hinv.threads t
        rw [hin] at hpc
        refine ⟨own, G, hinv.goto t (.read r p) eventsOk_nil hsilent ?_ (by rw [hin]; rfl) rfl rfl rfl le_rfl
          (by simp) (fun w hw => .inl (by rw [hin]; exact hw)) (by simp) (by rintro p ⟨⟩)⟩
        rw [List.append_nil]
        exact hpc
      · cases hstep
  | finish t => exact ⟨own, G, hinv.finish hstep⟩
  | announce t =>
      simp only [next, Option.map_eq_some_iff] at hstep
      obtain ⟨core, _, heq⟩ := hstep
      cases heq
      exact ⟨own, G, hinv.congr rfl rfl rfl rfl⟩
  | unannounce t =>
      simp only [next] at hstep
      split at hstep
      · simp only [Option.map_eq_some_iff] at hstep
        obtain ⟨core, _, heq⟩ := hstep
        cases heq
        exact ⟨own, G, hinv.congr rfl rfl rfl rfl⟩
      · cases hstep
  | updateEpoch t =>
      simp only [next] at hstep
      split at hstep
      · cases hstep
        obtain ⟨G', hinv'⟩ := hinv.updateEpoch t
        exact ⟨own, G', hinv'⟩
      · cases hstep

end Update

/-! ## The theorem -/

/-- `x` is the value of version `i` of `p`. -/
def IsVersion (init : P → Option Nat) (h : List (Event P)) (p : P) (i : Nat) (x : Option Nat) : Prop :=
  i = 0 ∧ x = init p ∨ ∃ op, .install op p i x ∈ h

/-- The speculative execution of snapshot `s` shows of each pointer the version that `cut` says: its reads
return the values of these versions, and with a store it shows everything that completed before that
store was called. -/
structure ShowsCut (init : P → Option Nat) (h : List (Event P)) (s : Nat) (cut : P → Nat) : Prop where
  reads : ∀ p x, .read s p x ∈ h → IsVersion init h p (cut p) x
  repeated : ∀ p x y, .read s p x ∈ h → .read s p y ∈ h → x = y
  closed : ∀ op op' p q i j x x', Before h (.ret op) (.call op') → .install op p i x ∈ h →
    .install op' q j x' ∈ h → j ≤ cut q → i ≤ cut p

/-- The youngest version of each pointer up to `k` with a stamp of at most `ls`. -/
def newest (G : Chains P) (m : Memory P) (ls : Nat) (k : P → Nat) (p : P) : Nat :=
  Nat.findGreatest (fun i => Within G m ls p i) (k p)

/-- The youngest version lies in the range. -/
theorem newest_le (ls : Nat) (k : P → Nat) (p : P) : newest G m ls k p ≤ k p := by
  exact Nat.findGreatest_le _

/-- Versions in the range with a stamp of at most `ls` are not younger. -/
theorem le_newest {k : P → Nat} {ls i : Nat} {p : P} (hi : i ≤ k p) (hw : Within G m ls p i) :
    i ≤ newest G m ls k p := by
  exact Nat.le_findGreatest hi hw

/-- The version that a read has found is the youngest one. -/
theorem CutTo.eq_newest {k : P → Nat} {ls i : Nat} {p : P} (hc : CutTo G m k ls p i) :
    i = newest G m ls k p := by
  refine le_antisymm (le_newest hc.1 hc.2.1) ?_
  by_contra hlt
  have hw : Within G m ls p (newest G m ls k p) :=
    Nat.findGreatest_spec (P := fun i => Within G m ls p i) hc.1 hc.2.1
  obtain ⟨s, hs, hle⟩ := hw
  obtain ⟨s', hs', hlt'⟩ := hc.2.2 _ (Nat.lt_of_not_le hlt) (newest_le ls k p)
  rw [hs] at hs'
  cases hs'
  omega

variable [DecidableEq P]

/-- Consistency of speculative snapshots: in every run in which no `shortcut` hides a version, every
speculative execution that ends with `aborted = false` shows a consistent cut, and a `store` that has
returned has installed a version. -/
theorem speculative_consistent {owner : Nat → Fin n} {init : P → Option Nat} {h : List (Event P)}
    {st : State P n}
    (hexec : Exec ((system owner init).restrict fun st act => ¬ hidesVersion st act) h st) :
    (∀ s, .consistent s ∈ h → ∃ cut, ShowsCut init h s cut) ∧
      ∀ op, .ret op ∈ h → ∃ p i x, .install op p i x ∈ h := by
  obtain ⟨own, G, hinv⟩ : ∃ own G, Inv owner init own G h st := by
    refine Exec.invariant (P := fun h st => ∃ own G, Inv owner init own G h st) ?_ ?_ hexec
    · rintro _ ⟨stamped, tag, older, hinit, rfl⟩
      exact inv_initial owner hinit
    · rintro h st act es st' _ ⟨own, G, hinv⟩ ⟨hhides, hallowed, hstep⟩
      exact hinv.step hallowed hhides hstep
  refine ⟨fun s hs => ?_, fun op hret => (hinv.hist.ret op hret).1⟩
  obtain ⟨ls, k, hls, hclosed, hreads⟩ := hinv.hist.consistent s hs
  have hread : ∀ p x, .read s p x ∈ h →
      x = st.memory.getPtr (G.ent p (newest G st.memory ls k p)) := by
    intro p x hmem
    obtain ⟨i, hcut, rfl⟩ := hreads p x hmem
    rw [← hcut.eq_newest]
  refine ⟨newest G st.memory ls k, ⟨?_, ?_, ?_⟩⟩
  · intro p x hmem
    have hle : newest G st.memory ls k p ≤ G.last p := (newest_le ls k p).trans (hclosed.1 p)
    rw [hread p x hmem]
    rcases Nat.eq_zero_or_pos (newest G st.memory ls k p) with hzero | hpos
    · refine .inl ⟨hzero, ?_⟩
      rw [hzero, hinv.init p]
      rfl
    · exact .inr (hinv.hist.installed p _ hpos hle)
  · intro p x y hx hy
    rw [hread p x hx, hread p y hy]
  · intro op op' p q i j x x' hb hi hj hjq
    obtain ⟨hik, hw⟩ := hclosed.2 op op' p q i j x x' hb hi hj (hjq.trans (newest_le ls k q))
    exact le_newest hik hw

/-- The assumption on objects is decidable. -/
instance (owner : Nat → Fin n) (st : State P n) (act : Action P n) : Decidable (Allowed owner st act) :=
  match act with
  | .store t _ (some o) =>
      inferInstanceAs (Decidable (st.memory.timeStamp (.direct (some o)) = none → owner o = t))
  | .store _ _ none | .step _ _ | .load _ _ | .withSnapshot _ | .read _ _ | .finish _ | .announce _
  | .unannounce _ | .updateEpoch _ => isTrue trivial

/-- Whether an action hides a version is decidable. -/
instance (st : State P n) (act : Action P n) : Decidable (hidesVersion st act) :=
  match act with
  | .step t _ =>
      match hpc : st.threads t with
      | .shortcut p l (.swap w) _ =>
          decidable_of_iff (st.memory.v p = w ∧ ∃ u, ∃ ls ∈ (st.threads u).speculating,
            ∃ s ∈ st.memory.timeStamp (.indirect l), ls ≤ s) (by simp [hidesVersion, hpc])
      | .shortcut _ _ .load _ | .shortcut _ _ (.test _) _ | .shortcut _ _ .read _ | .idle
      | .setStamp _ _ _ | .store _ | .useIndirect _ _ | .newLink _ _ | .setNext _ _ | .camRead _ _ _ _
      | .camSwap _ _ _ _ _ | .recheck _ _ _ _ | .load _ | .getStamp _ | .inside _ | .read _ _
      | .walk _ _ _ | .follow _ _ _ | .test _ _ _ | .again _ | .add _ =>
          isFalse (by simp [hidesVersion, hpc])
  | .store _ _ _ | .load _ _ | .withSnapshot _ | .read _ _ | .finish _ | .announce _ | .unannounce _
  | .updateEpoch _ => isFalse id

/-- Both pointers hold an object. -/
def twoPointers (p : Bool) : Option Nat :=
  if p then some 0 else some 1

/-- Worker 1 runs a snapshot that aborts, so that the clock moves. -/
def clockMoves : List (Action Bool 2) :=
  List.replicate 3 (.announce 1) ++ .withSnapshot 1 :: .step 1 0 :: .read 1 true ::
    List.replicate 4 (.step 1 0) ++ .finish 1 :: List.replicate 2 (.step 1 0) ++ [.finish 1]

/-- Worker 0 starts a snapshot and reads the first pointer. -/
def readerStarts : List (Action Bool 2) :=
  List.replicate 3 (.announce 0) ++ .withSnapshot 0 :: .step 0 0 :: .read 0 true ::
    List.replicate 4 (.step 0 0)

/-- A run: a store completes while the reader is in its body, and the reader goes on to the other
pointer. -/
theorem speculative_consistent_run :
    ∃ h st, Exec ((system (fun _ => (1 : Fin 2)) twoPointers).restrict
        fun st act => ¬ hidesVersion st act) h st ∧
      Before h (.read 1 true (some 0)) (.call 2) ∧ Before h (.ret 2) (.read 1 false (some 1)) ∧
      .consistent 1 ∈ h ∧ ∃ cut, ShowsCut twoPointers h 1 cut := by
  obtain ⟨st, hexec⟩ : ∃ st, Exec ((system (fun _ => (1 : Fin 2)) twoPointers).restrict
      fun st act => ¬ hidesVersion st act)
      [.read 0 true (some 0), .read 1 true (some 0), .call 2, .install 2 true 1 (some 1), .ret 2,
        .read 1 false (some 1), .consistent 1] st :=
    ⟨_, Exec.restrict_restrict (exec_restrict_of_run
      (List.flatten [clockMoves, readerStarts, [.store 1 true (some 1)], List.replicate 11 (.step 1 0),
        [.read 0 false], List.replicate 4 (.step 0 0), [.finish 0]])
      ⟨fun o => decide (o < 2), fun _ => 0, id, by decide, rfl⟩ rfl)⟩
  exact ⟨_, st, hexec, by decide, by decide, by simp, (speculative_consistent hexec).1 1 (by simp)⟩

/-- The epoch moves twice, so that `done_stamp` reaches the clock. The store is then shortcut at once: the
reader finds the object itself, whose stamp is old, in place of the link that would abort it, and its two
reads of one pointer differ. -/
theorem shortcut_hides_version :
    ∃ h st, Exec (system (fun _ => (1 : Fin 2)) twoPointers) h st ∧ .consistent 1 ∈ h ∧
      .read 1 true (some 0) ∈ h ∧ .read 1 true (some 1) ∈ h ∧
      ¬ ∃ cut, ShowsCut twoPointers h 1 cut := by
  obtain ⟨h, st, hexec, rfl⟩ : ∃ h st, Exec (system (fun _ => (1 : Fin 2)) twoPointers) h st ∧
      h = [.read 0 true (some 0), .read 1 true (some 0), .call 2, .install 2 true 1 (some 1), .ret 2,
        .read 1 true (some 1), .consistent 1] :=
    exists_exec_restrict_of_run _
      (List.flatten [clockMoves, List.replicate 9 (.updateEpoch 1), [.unannounce 1],
        List.replicate 3 (.announce 1), List.replicate 9 (.updateEpoch 1), readerStarts,
        [.store 1 true (some 1)], List.replicate 13 (.step 1 0), [.read 0 true],
        List.replicate 4 (.step 0 0), [.finish 0]])
      ⟨fun o => decide (o < 2), fun _ => 0, id, by decide, rfl⟩ (by decide +kernel)
  refine ⟨_, st, hexec, by simp, by simp, by simp, ?_⟩
  rintro ⟨cut, hcut⟩
  have heq := hcut.repeated true (some 0) (some 1) (by simp) (by simp)
  cases heq

end Verlib.Hybrid.Store
