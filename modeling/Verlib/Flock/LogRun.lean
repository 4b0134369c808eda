import Verlib.Flock.LogAgreement

/-!
# Runs on the log

Every step of a process keeps the invariant of the log, what the processes know and what the history
says; so do runs. Two processes at the same entry have the same cursor, the calls of `commit_value` for
an entry return the value of the one call that won, and a block is passed to the same entry whether it
was run or skipped.
-/

namespace Verlib.Flock.LogArray

open Interleaving

variable {ι : Type} {head : Nat} {code : Code} {c : Chain} {m : Memory} {ends : Nat → Nat}
  {h : List (Event ι)} {p : Process}

/-! ## `next_entry` at the end of an array -/

/-- A process allocates an array. -/
theorem AtEnd.step_new {o : Op} {a : Nat} (hinv : LogInv head code c m ends)
    (hist : HistOk code c m ends h) (hend : AtEnd c (codeAt (c.log m) code) p o)
    (ha : 0 < a ∧ a < 2 ^ 48) (hfree : m.allocated a = false) :
    StepOk head code c m ends h p [] c (m.newArray a) ends { p with pc := .link o a } := by
  obtain ⟨hchain, hlog⟩ := hinv.chain.newArray hfree
  have hout := hinv.chain.outside hfree
  refine .of_log hinv hist hchain le_rfl (fun _ _ => rfl) hlog hend ?_ ?_
  · intro b hb
    obtain rfl : a = b := Option.some.inj hb
    refine ⟨⟨?_, ?_, ?_, ha, hout⟩, .inr hfree⟩
    · simp [Memory.newArray]
    · simp [Memory.newArray]
    · simp [Memory.newArray]
  · intro b hb _
    have hne : b ≠ a := by
      rintro rfl
      rw [hb.allocated] at hfree
      cases hfree
    refine ⟨?_, ?_, ?_, hb.address, hb.outside⟩
    · show Function.update m.allocated a true b = true
      rw [Function.update_of_ne hne, hb.allocated]
    · show Function.update m.next a 0 b = 0
      rw [Function.update_of_ne hne, hb.next]
    · show ∀ j, Function.update m.entries a (fun _ => 0) b j = 0
      rw [Function.update_of_ne hne]
      exact hb.entries

/-- A process links its array. -/
theorem AtEnd.step_link {o : Op} {a : Nat} (hinv : LogInv head code c m ends)
    (hist : HistOk code c m ends h) (hend : AtEnd c (codeAt (c.log m) code) p o)
    (hnew : p.pc.new = some a) (ha : Private c m a) (hnext : m.next p.vals = 0) :
    StepOk head code c m ends h p [] (c.extend a) (m.setNext p.vals a) ends (p.takeEntry o a 0) := by
  obtain ⟨_, _, _, _, j, hj, hpos, hvals⟩ := id hend
  have hlast : j = c.len - 1 := by
    rcases hinv.chain.next_cases hj with ⟨_, _, hne⟩ | ⟨hlast, _⟩
    · rw [← hvals] at hne
      exact absurd hnext hne
    · exact hlast
  rw [hlast] at hvals
  rw [hvals]
  have hlen : j + 1 = c.len := by
    have := hinv.chain.pos
    omega
  obtain ⟨hchain, hlog⟩ := hinv.chain.link ha
  have hext : Ext c m ends (c.extend a) (m.setNext (c.arr (c.len - 1)) a) ends :=
    ⟨Nat.le_succ _, fun i hi => extend_arr hi a, fun i _ => by rw [hlog], fun _ _ => rfl⟩
  have hend' : AtEnd (c.extend a) (codeAt (c.log m) code) { p with pc := .loadNext o } o := by
    have hproc : ProcOk c (codeAt (c.log m) code) { p with pc := .loadNext o } := hend
    have hproc' := hext.procOk hinv.chain.pos hproc
    rw [hlog] at hproc'
    exact hproc'
  have htake := hend'.take hpos (show j + 1 < c.len + 1 by omega)
  rw [hlen, extend_last] at htake
  refine .of_log hinv hist hchain hext.len hext.arr hlog htake ?_ ?_
  · intro b hb
    cases hb
  · intro b hb hne
    have hab : a ≠ b := fun heq => hne (by rw [hnew, heq])
    refine hext.private hb rfl ?_ rfl fun i hge hi => ?_
    · show Function.update m.next _ a b = m.next b
      rw [Function.update_of_ne (Ne.symm (hb.outside _ (Nat.sub_lt hinv.chain.pos Nat.one_pos)))]
    · have hi' : i < c.len + 1 := hi
      obtain rfl : i = c.len := by omega
      rw [extend_last]
      exact hab

/-- A process adopts the array that another one has linked, and destructs its own if it has one. -/
theorem AtEnd.step_adopt {o : Op} {m' : Memory} (hinv : LogInv head code c m ends)
    (hist : HistOk code c m ends h) (hend : AtEnd c (codeAt (c.log m) code) p o)
    (hnext : m.next p.vals ≠ 0) (hchain : ChainInv head c m') (hlog : c.log m' = c.log m)
    (hkept : ∀ a, Private c m a → p.pc.new ≠ some a → Private c m' a) :
    StepOk head code c m ends h p [] c m' ends (p.takeEntry o (m.next p.vals) 0) := by
  obtain ⟨_, _, _, _, j, hj, hpos, hvals⟩ := id hend
  rw [hvals] at hnext ⊢
  rcases hinv.chain.next_cases hj with ⟨hlt, heq, _⟩ | ⟨_, hzero⟩
  · rw [heq]
    refine .of_log hinv hist hchain le_rfl (fun _ _ => rfl) hlog (hend.take hpos hlt) ?_ hkept
    intro b hb
    cases hb
  · exact absurd hzero hnext

/-! ## Steps -/

variable [DecidableEq ι]

/-- The invariant of the system, for the chain of arrays that have been linked. -/
structure Inv (head : Nat) (code : Code) (c : Chain) (h : List (Event ι)) (st : State ι) : Prop where
  log : LogInv head code c st.memory st.ends
  hist : HistOk code c st.memory st.ends h
  procs : ∀ p, ProcOk c (codeAt (c.log st.memory) code) (st.procs p)
  new : ∀ p a, (st.procs p).pc.new = some a → Private c st.memory a
  distinct : ∀ p q a, (st.procs p).pc.new = some a → (st.procs q).pc.new = some a → p = q

/-- Each step of a process is one of those above. -/
theorem step_ok {st st' : State ι} {i : ι} {x : Nat} {es : List (Event ι)} (hinv : Inv head code c h st)
    (hstep : step i x st = some (es, st')) :
    ∃ c' p', StepOk head code c st.memory st.ends h (st.procs i) es c' st'.memory st'.ends p' ∧
      st'.procs = Function.update st.procs i p' := by
  obtain ⟨hlog, hist, hprocs, hnew, _⟩ := hinv
  have hp := hprocs i
  have hp0 := hp
  have hempty : HistOk code c st.memory st.ends (h ++ []) := by rwa [List.append_nil]
  unfold step at hstep
  dsimp only at hstep
  unfold ProcOk at hp0
  split at hstep
  · rename_i hready
    split at hstep
    · rename_i k hcode
      split at hstep
      · cases hstep
      · rename_i hx
        cases hstep
        have hfits : (Op.commit x).Fits (st.procs i).code := by
          rw [hcode]
          exact hx
        obtain ⟨hok, hnone⟩ := nextEntry_ok hlog.chain.pos hp hready hfits
        exact ⟨c, _, .of_proc hlog hempty hok hnone, rfl⟩
    · rename_i body k hcode
      cases hstep
      have hfits : Op.skip.Fits (st.procs i).code := by
        rw [hcode]
        trivial
      obtain ⟨hok, hnone⟩ := nextEntry_ok hlog.chain.pos hp hready hfits
      exact ⟨c, _, .of_proc hlog hempty hok hnone, rfl⟩
    · rename_i b bs hcode hblocks
      cases hstep
      exact ⟨c, _, step_store hlog hist hp hready hcode hblocks, rfl⟩
    · cases hstep
  · rename_i o hpc
    rw [hpc] at hp0
    have hend : AtEnd c _ (st.procs i) o := hp0
    split at hstep
    · rename_i hnext
      cases hstep
      exact ⟨c, _, hend.step_adopt hlog hist hnext hlog.chain rfl fun a ha _ => ha, rfl⟩
    · split at hstep
      · rename_i hx
        cases hstep
        exact ⟨c, _, hend.step_new hlog hist ⟨hx.1, hx.2.1⟩ hx.2.2, rfl⟩
      · cases hstep
  · rename_i o a hpc
    rw [hpc] at hp0
    have hend : AtEnd c _ (st.procs i) o := hp0
    have hsome : (st.procs i).pc.new = some a := by
      rw [hpc]
      rfl
    have ha := hnew i a hsome
    split at hstep
    · rename_i hnext
      cases hstep
      exact ⟨c.extend a, _, hend.step_link hlog hist hsome ha hnext, rfl⟩
    · rename_i hnext
      cases hstep
      obtain ⟨hchain, hsame⟩ := hlog.chain.destruct ha.outside
      refine ⟨c, _, hend.step_adopt hlog hist hnext hchain hsame fun b hb hne => ?_, rfl⟩
      have hba : b ≠ a := by
        rintro rfl
        exact hne hsome
      refine ⟨?_, hb.next, hb.entries, hb.address, hb.outside⟩
      show Function.update st.memory.allocated a false b = true
      rw [Function.update_of_ne hba, hb.allocated]
  · rename_i newv l hpc
    rw [hpc] at hp0
    have ht : Taken c _ (st.procs i) (.commit newv) l := hp0
    split at hstep
    · cases hstep
      have hok : ProcOk c _ { st.procs i with pc := .swap newv l } := ht
      exact ⟨c, _, .of_proc hlog hempty hok rfl, rfl⟩
    · rename_i hne
      cases hstep
      exact ⟨c, _, ht.step_found hlog hist hne, rfl⟩
  · rename_i newv l hpc
    rw [hpc] at hp0
    have ht : Taken c _ (st.procs i) (.commit newv) l := hp0
    split at hstep
    · rename_i hzero
      cases hstep
      exact ⟨c, _, ht.step_wins hlog hist hzero, rfl⟩
    · rename_i hne
      cases hstep
      exact ⟨c, _, ht.step_found hlog hist hne, rfl⟩
  · rename_i l hpc
    rw [hpc] at hp0
    have ht : Taken c _ (st.procs i) .skip l := hp0
    split at hstep
    · cases hstep
      exact ⟨c, _, ht.step_enter hlog hist, rfl⟩
    · rename_i hne
      cases hstep
      exact ⟨c, _, ht.step_skip hlog hist hne, rfl⟩

/-- A step keeps the invariant. -/
theorem Inv.step {st st' : State ι} {i : ι} {x : Nat} {es : List (Event ι)} (hinv : Inv head code c h st)
    (hstep : step i x st = some (es, st')) : ∃ c', Inv head code c' (h ++ es) st' := by
  obtain ⟨c', p', ⟨hext, hlog, hist, hproc, hnew, hkept⟩, hprocs⟩ := step_ok hinv hstep
  have hself : st'.procs i = p' := by rw [hprocs, Function.update_self]
  have hother : ∀ q, q ≠ i → st'.procs q = st.procs q := fun q hq => by
    rw [hprocs, Function.update_of_ne hq]
  -- The array that process `i` has now is not one of another process.
  have hfresh : ∀ q a, q ≠ i → (st.procs q).pc.new = some a → p'.pc.new ≠ some a := by
    intro q a hq ha hp'
    rcases (hnew a hp').2 with hold | hfree
    · exact hq (hinv.distinct q i a ha hold)
    · rw [(hinv.new q a ha).allocated] at hfree
      cases hfree
  refine ⟨c', hlog, hist, fun q => ?_, fun q a ha => ?_, fun q r a hq hr => ?_⟩
  · rcases eq_or_ne q i with rfl | hne
    · rw [hself]
      exact hproc
    · rw [hother q hne]
      exact hext.procOk hinv.log.chain.pos (hinv.procs q)
  · rcases eq_or_ne q i with rfl | hne
    · rw [hself] at ha
      exact (hnew a ha).1
    · rw [hother q hne] at ha
      refine hkept a (hinv.new q a ha) fun hold => hne (hinv.distinct q i a ha hold)
  · rcases eq_or_ne q i with rfl | hqi
    · rcases eq_or_ne r q with rfl | hri
      · rfl
      · rw [hself] at hq
        rw [hother r hri] at hr
        exact absurd hq (hfresh r a hri hr)
    · rw [hother q hqi] at hq
      rcases eq_or_ne r i with rfl | hri
      · rw [hself] at hr
        exact absurd hr (hfresh q a hqi hq)
      · rw [hother r hri] at hr
        exact hinv.distinct q r a hq hr

omit [DecidableEq ι] in
/-- The log of a new descriptor. -/
theorem inv_initial (hhead : 0 < head ∧ head < 2 ^ 48) (halloc : m.allocated head = true)
    (hnext : m.next head = 0) (hnull : ∀ j, m.entries head j = 0) :
    Inv head code ⟨1, fun _ => head⟩ [] (initial head code m : State ι) := by
  have hlog : ∀ i, Chain.log ⟨1, fun _ => head⟩ m i = 0 := by
    intro i
    unfold Chain.log
    split
    · exact hnull _
    · rfl
  refine ⟨⟨?_, fun i hi => absurd (hlog i) hi, fun i _ _ _ _ hi => absurd (hlog i) hi⟩, ?_,
    fun p => ?_, fun p a ha => ?_, fun p q a ha _ => ?_⟩
  · refine ⟨Nat.one_pos, rfl, fun i j hi hj _ => ?_, fun i hi => ?_, hnext, fun _ _ => halloc,
      fun _ _ => hhead⟩
    · have hi : i < 1 := hi
      have hj : j < 1 := hj
      omega
    · have hi : i + 1 < 1 := hi
      omega
  · exact ⟨by simp, by simp, fun i k s _ hi => absurd (hlog i) hi, by simp⟩
  · exact ⟨rfl, Nat.zero_le _, rfl, trivial⟩
  · cases ha
  · cases ha

/-! ## Agreement -/

/-- The process has left one array and not yet come to the next. -/
def Pc.between : Pc → Bool
  | .loadNext _ | .link _ _ => true
  | _ => false

omit [DecidableEq ι] in
/-- The cursor of a process is the one of its entry. -/
theorem ProcOk.cursor {K : Nat → Option Config} (hp : ProcOk c K p) (hpc : p.pc.between = false) :
    (p.vals, p.count) = c.cursor p.pos := by
  have htaken : ∀ {o l}, Taken c K p o l → (p.vals, p.count) = c.cursor p.pos := by
    rintro o l ⟨_, i, hi, _, _, hcur, _⟩
    rw [hi]
    exact hcur
  unfold ProcOk at hp
  split at hp
  · exact hp.1
  · rename_i heq
    rw [heq] at hpc
    cases hpc
  · rename_i heq
    rw [heq] at hpc
    cases hpc
  · exact htaken hp
  · exact htaken hp

/-- Every run keeps the invariant. -/
theorem exec_log_inv {st : State ι} (hexec : Exec (system head code) h st) :
    ∃ c, Inv head code c h st := by
  refine hexec.invariant (P := fun h st => ∃ c, Inv head code c h st) ?_ ?_
  · rintro st ⟨m, hpos, hlt, halloc, hnext, hnull, rfl⟩
    exact ⟨_, inv_initial ⟨hpos, hlt⟩ halloc hnext hnull⟩
  · rintro h st a es st' _ ⟨c, hinv⟩ hstep
    exact hinv.step hstep

/-- Processes on one log that have come to the same entry have the same cursor, and a block ends at the
same entry for those that run it and those that skip it. The calls of `commit_value` for an entry return
one value, which is not null, and it is the argument of the one call that got the flag true. -/
theorem log_agreement {st : State ι} (hexec : Exec (system head code) h st) :
    (∀ p q, (st.procs p).pc.between = false → (st.procs q).pc.between = false →
      (st.procs p).pos = (st.procs q).pos →
        (st.procs p).vals = (st.procs q).vals ∧ (st.procs p).count = (st.procs q).count) ∧
      (∀ p q i e e', .passed p i e ∈ h → .passed q i e' ∈ h → e = e') ∧
      (∀ p i v r b, .committed p i v r b ∈ h → r ≠ 0 ∧ (b = true → v = r) ∧
        (∃ q, .committed q i r r true ∈ h) ∧
        ∀ q v' r' b', .committed q i v' r' b' ∈ h → r' = r) ∧
      ∀ i, h.countP (Event.wins i) ≤ 1 := by
  obtain ⟨c, hinv⟩ := exec_log_inv hexec
  refine ⟨fun p q hp hq heq => ?_, fun p q i e e' he he' => ?_, fun p i v r b hmem => ?_,
    hinv.hist.once⟩
  · have hcp := (hinv.procs p).cursor hp
    have hcq := (hinv.procs q).cursor hq
    rw [heq, ← hcq] at hcp
    exact Prod.mk.inj hcp
  · rw [← (hinv.hist.passed p i e he).2, ← (hinv.hist.passed q i e' he').2]
  · obtain ⟨hr, hne, hb, k, s, hK⟩ := hinv.hist.committed p i v r b hmem
    refine ⟨hne, hb, ?_, fun q v' r' b' hmem' => ?_⟩
    · obtain ⟨q, hq⟩ := hinv.hist.won i k s hK (by rwa [hr])
      rw [hr] at hq
      exact ⟨q, hq⟩
    · rw [← hr, ← (hinv.hist.committed q i v' r' b' hmem').1]

/-- Commit `n` times. -/
def commitTimes : Nat → Code → Code
  | 0, k => k
  | n + 1, k => .commit fun _ => commitTimes n k

/-- Two processes commit seven values and enter a block, whose one commit is for the first entry of the
next array. Both allocate that array; the second one loses the race and adopts the array of the first. -/
theorem log_agreement_run :
    ∃ (h : List (Event Bool)) (st : State Bool),
      Exec (system 1 (commitTimes 7 (.skip (commitTimes 1 .done) .done))) h st ∧
      .committed false 8 6 6 true ∈ h ∧ .committed true 8 9 6 false ∈ h ∧
      .passed false 7 9 ∈ h ∧ .passed true 7 9 ∈ h ∧ (st.procs false).vals = 2 ∧
      (st.procs true).vals = (st.procs false).vals ∧ (st.procs true).count = (st.procs false).count := by
  have hrun : (run (fun a : Bool × Nat => step a.1 a.2)
      (List.flatten [List.replicate 21 (false, 5), [(false, 0), (false, 0), (false, 6), (false, 2)],
        List.replicate 14 (true, 5), [(true, 0), (true, 0), (true, 9), (true, 3)],
        [(false, 0), (true, 0), (false, 0), (false, 0), (true, 0), (false, 0), (true, 0)]])
      (initial 1 (commitTimes 7 (.skip (commitTimes 1 .done) .done))
        ⟨fun _ _ => 0, fun _ => 0, fun a => a == 1⟩)).any (fun (h, st) => decide
          ((.committed false 8 6 6 true ∈ h ∧ .committed true 8 9 6 false ∈ h ∧
            .passed false 7 9 ∈ h ∧ .passed true 7 9 ∈ h) ∧ (st.procs false).vals = 2 ∧
          (st.procs true).pc.between = false ∧ (st.procs false).pc.between = false ∧
          (st.procs true).pos = (st.procs false).pos)) = true := by
    decide +kernel
  obtain ⟨⟨h, st⟩, hsome, hfacts⟩ := (Option.any_eq_true _ _).mp hrun
  obtain ⟨⟨hwon, hlost, hends, hends'⟩, hvals, hp, hq, hpos⟩ := of_decide_eq_true hfacts
  have hexec : Exec (system 1 (commitTimes 7 (.skip (commitTimes 1 .done) .done))) h st :=
    exec_of_run _ ⟨_, by decide, by decide, rfl, rfl, fun _ => rfl, rfl⟩ hsome
  exact ⟨h, st, hexec, hwon, hlost, hends, hends', hvals, (log_agreement hexec).1 _ _ hp hq hpos⟩

end Verlib.Flock.LogArray
