import Verlib.Indirect.LazyThread

/-!
# The steps of a thread of the `LazyStamp` build

One lemma for `set_stamp`, one for what follows it, one for an installation, and from them `PcOk.step`, which
says what any step of a thread does to the chains, the history and its own position.
-/

namespace Verlib.Indirect.Lazy

open Interleaving

variable {P ι : Type} {G G' : Chains P} {m m' : Memory P} {h es : List (Event P)} {ops : Nat}
  {locked : P → Bool} {own own' : Nat → Option ι} {c : ι}

/-- What a step of thread `c` from position `pc` does. -/
structure Moved (locked : P → Bool) (own : Nat → Option ι) (c : ι) (G : Chains P) (m : Memory P)
    (h : List (Event P)) (ops : Nat) (pc : Pc P) (own' : Nat → Option ι) (G' : Chains P) (r : Result P) :
    Prop where
  evolves : Evolves G m G' r.memory
  last : r.last = G'.last
  hist : HistInv (G'.versions r.memory) (h ++ r.events) ops
  pcOk : PcOk locked own' c G' r.memory (h ++ r.events) r.pc
  owner : ∀ l, l < m.fresh → own' l = own l
  inst : ∀ l, G'.Inst l → G.Inst l ∨ own l = some c
  lock : ∀ p, G'.last p ≠ G.last p → pc.storing = some p ∨ locked p = false
  head : ∀ p, pc.storing = some p → r.pc.storing = some p ∨ (G'.versions r.memory).stamp p (G'.last p) ≠ none

section Steps

variable {pc pc' : Pc P} (hinv : ChainInv G m) (hist : HistInv (G.versions m) h ops)

/-- A step that installs nothing. -/
theorem moved_of_evolves (hevol : Evolves G m G m') (hist' : HistInv (G.versions m') (h ++ es) ops)
    (hpc' : PcOk locked own' c G m' (h ++ es) pc') (hown : ∀ l, l < m.fresh → own' l = own l)
    (hhead : ∀ p, pc.storing = some p → pc'.storing = some p ∨ (G.versions m').stamp p (G.last p) ≠ none) :
    Moved locked own c G m h ops pc own' G ⟨es, m', G.last, pc'⟩ where
  evolves := hevol
  last := rfl
  hist := hist'
  pcOk := hpc'
  owner := hown
  inst _ hl := .inl hl
  lock _ hne := absurd rfl hne
  head := hhead

include hinv hist in
/-- A step that neither changes the memory nor emits an event. -/
theorem moved_silent (hpc' : PcOk locked own c G m h pc') (hstoring : pc'.storing = pc.storing) :
    Moved locked own c G m h ops pc own G ⟨[], m, G.last, pc'⟩ := by
  refine moved_of_evolves ⟨Ext.refl G m, hinv⟩ ?_ ?_ (fun _ _ => rfl) fun p hp => .inl (hstoring.trans hp)
  · rwa [List.append_nil]
  · rwa [List.append_nil]

include hinv hist in
/-- A step that allocates a link. -/
theorem moved_newLink {d : Link} (hstoring : pc'.storing = pc.storing)
    (hpc' : PcOk locked (Function.update own m.fresh (some c)) c G (m.newLink d) h pc') :
    Moved locked own c G m h ops pc (Function.update own m.fresh (some c)) G
      ⟨[], m.newLink d, G.last, pc'⟩ := by
  have hevol := hinv.newLink d
  refine moved_of_evolves hevol ?_ ?_ ?_ fun p hp => .inl (hstoring.trans hp)
  · rw [List.append_nil]
    exact hist.grows hevol.1.grows rfl
  · rwa [List.append_nil]
  · intro l hl
    exact Function.update_of_ne (Nat.ne_of_lt hl) _ _

include hinv in
/-- One step of `set_stamp`: the link keeps the place in its chain, and has a stamp when the call returns. -/
theorem SetStampOk.step [DecidableEq P] {l : Nat} {x : SetStamp} (hx : SetStampOk G m l x) :
    Evolves G m G (setStamp m l x).1 ∧
      (∀ y, (setStamp m l x).2 = some y → SetStampOk G (setStamp m l x).1 l y) ∧
      ((setStamp m l x).2 = none → ((setStamp m l x).1.links l).timeStamp ≠ none) := by
  obtain ⟨p, i, hi, rfl, hx⟩ := hx
  match x, hx with
  | .load, _ =>
      refine ⟨⟨Ext.refl G m, hinv⟩, ?_, ?_⟩
      · intro y hy
        obtain ⟨_, rfl⟩ : _ ∧ SetStamp.clock = y := by simpa [setStamp] using hy
        exact ⟨p, i, hi, rfl, trivial⟩
      · simp [setStamp]
  | .clock, _ =>
      refine ⟨⟨Ext.refl G m, hinv⟩, ?_, by simp [setStamp]⟩
      intro y hy
      obtain rfl : SetStamp.again m.stamp = y := by simpa [setStamp] using hy
      exact ⟨p, i, hi, rfl, hinv.ordered.born_le p i hi, le_rfl⟩
  | .again t, hx =>
      refine ⟨⟨Ext.refl G m, hinv⟩, ?_, ?_⟩
      · intro y hy
        obtain ⟨_, rfl⟩ : _ ∧ SetStamp.swap t = y := by simpa [setStamp] using hy
        exact ⟨p, i, hi, rfl, hx⟩
      · simp [setStamp]
  | .swap t, hx =>
      simp only [setStamp]
      split
      · rename_i hnone
        refine ⟨hinv.setTimeStamp hi hnone hx.1 hx.2, by simp, fun _ => ?_⟩
        simp [Memory.setTimeStamp]
      · rename_i hsome
        exact ⟨⟨Ext.refl G m, hinv⟩, by simp, fun _ => hsome⟩

/-- What follows `set_stamp`, when the link has its stamp. -/
theorem AfterOk.resume {k : After P} {l : Nat} (hk : AfterOk locked G m h l k)
    (hist : HistInv (G.versions m) h ops) (hl : (m.links l).timeStamp ≠ none)
    (hid : ∀ w, k.op = some w → w < ops) (own : Nat → Option ι) (c : ι) :
    HistInv (G.versions m) (h ++ (k.resume m).1) ops ∧
      PcOk locked own c G m (h ++ (k.resume m).1) (k.resume m).2 := by
  have hstamped : ∀ {op p i}, OnlyAt G h op p l i → ∀ q j, Effect h op q j →
      (G.versions m).stamp q j ≠ none := by
    intro op p i ho q j heff
    obtain ⟨rfl, rfl⟩ := ho.only q j heff
    show (m.links (G.ent q j)).timeStamp ≠ none
    rwa [ho.ent]
  have hreturn : ∀ {k : Call P}, k.op < ops → Installed G h k l →
      HistInv (G.versions m) (h ++ [.ret k.op true]) ops := by
    intro k hop hi
    obtain ⟨i, ho, heff⟩ := hi
    exact hist.record le_rfl hop fun _ => ⟨⟨_, _, heff⟩, hstamped ho⟩
  match k, hk with
  | .store k, hk => exact ⟨hreturn (hid _ rfl) hk.2.1, trivial⟩
  | .finish k, hk => exact ⟨hreturn (hid _ rfl) hk, trivial⟩
  | .fail k, _ => exact ⟨hist.record le_rfl (hid _ rfl) (by rintro ⟨⟩), trivial⟩
  | .load, _ =>
      refine ⟨?_, trivial⟩
      simpa [After.resume] using hist
  | .test k old, hk =>
      obtain ⟨rfl, hlock, i, ho, heff⟩ := hk
      have hvalue : (m.links l).value = (G.versions m).value k.p i := by
        show _ = (m.links (G.ent k.p i)).value
        rw [ho.ent]
      simp only [After.resume]
      rw [hvalue]
      split
      · exact ⟨hist.record le_rfl (hid _ rfl) (by rintro ⟨⟩), trivial⟩
      · rename_i hexp
        rw [not_not] at hexp
        split
        · rename_i hsame
          refine ⟨hist.record le_rfl (hid _ rfl) fun _ => ⟨⟨k.p, i, heff.mpr ⟨hexp, hsame⟩⟩, ?_⟩, trivial⟩
          exact hstamped ho
        · rename_i hne
          rw [List.append_nil]
          refine ⟨hist, hlock, ?_, i, ho.le_last, ho.ent, ?_⟩
          · intro q j hj
            obtain ⟨rfl, rfl⟩ := ho.only q j hj
            exact hne (heff.mp hj).2
          · show (m.links (G.ent k.p i)).timeStamp ≠ none
            rwa [ho.ent]
  | .walk r p head, hk =>
      obtain ⟨rfl, k, hr, i, hent, hw⟩ := hk
      refine ⟨?_, ?_⟩
      · simpa [After.resume] using hist
      · simp only [After.resume, List.append_nil]
        refine ⟨k, hr, i, hent, hw, ?_⟩
        show (m.links (G.ent p i)).timeStamp ≠ none
        rwa [hent]

section Install

variable [DecidableEq P] {k : Call P} {new tag : Nat}
  (hpriv : Private own c G m new (G.ent k.p (G.last k.p)) k.ptr)
  (hhead : (m.links (G.ent k.p (G.last k.p))).timeStamp ≠ none) (hop : k.op < ops)
  (hlive : ∀ b, .ret k.op b ∉ h)

/-- The installation is the only effect of the call. -/
theorem installed_push (G : Chains P) (m : Memory P) (new : Nat) (hno : NoEffect h k.op) :
    Installed (G.push k.p new m.stamp) (h ++ [.install k.op k.p (G.last k.p + 1) k.ptr]) k new := by
  obtain ⟨hlast, hent, _⟩ := push_new G k.p new m.stamp
  refine ⟨G.last k.p + 1, ⟨hlast.ge, hent, ?_⟩, .inr ⟨k.ptr, by simp⟩⟩
  intro q j heff
  rcases effect_append.mp heff with hold | hk | ⟨x, hx⟩
  · exact absurd hold (hno q j)
  · simp at hk
  · simp only [List.mem_singleton, Event.install.injEq, true_and] at hx
    exact ⟨hx.1, hx.2.1⟩

include hinv hist hpriv hhead hop hlive in
/-- A step that installs a private link. -/
theorem moved_install (hallowed : pc.storing = some k.p ∨ locked k.p = false)
    (hstoring : pc'.storing = pc.storing)
    (hpc' : PcOk locked own c (G.push k.p new m.stamp) (m.setWord k.p (tag, new))
      (h ++ [.install k.op k.p (G.last k.p + 1) k.ptr]) pc') :
    Moved locked own c G m h ops pc own (G.push k.p new m.stamp) (install m G.last k tag new pc') := by
  have hevol : Evolves G m (G.push k.p new m.stamp) (m.setWord k.p (tag, new)) := hinv.install hpriv hhead
  refine ⟨hevol, rfl, ?_, hpc', fun _ _ => rfl, ?_, ?_, fun p hp => .inl (hstoring.trans hp)⟩
  · refine hist.push hinv.ordered hevol.1.grows rfl ?_ hop hlive
    show (m.links ((G.push k.p new m.stamp).ent k.p (G.last k.p + 1))).value = k.ptr
    rw [(push_new G k.p new m.stamp).2.1, hpriv.link]
  · intro l hl
    rcases inst_push.mp hl with hold | rfl
    · exact .inl hold
    · exact .inr hpriv.own
  · intro q hq
    obtain rfl : q = k.p := by
      by_contra hne
      exact hq (Function.update_of_ne hne _ _)
    exact hallowed

end Install

/-! ## Readers -/

/-- A read starts at the last version. -/
theorem Walking.start {r : Reader} {k : P → Nat} (p : P) : Walking G m r k p (G.last p) :=
  ⟨le_rfl, (G.versions m).above_last k r.ls r.bound p⟩

include hinv hist in
/-- The walk goes on to the next version, or stops. -/
theorem moved_walk {r : Reader} {p : P} {head : Nat} (hpc : PcOk locked own c G m h (.walk r p head)) :
    Moved locked own c G m h ops (.walk r p head) own G
      ⟨[], m, G.last, if less r.ls (m.links head).timeStamp then .follow r p head else .test r p head⟩ := by
  obtain ⟨k, hr, i, rfl, hw, hs⟩ := hpc
  obtain ⟨t, ht⟩ := Option.ne_none_iff_exists'.mp hs
  have ht' : (m.links (G.ent p i)).timeStamp = some t := ht
  rw [ht']
  split
  · rename_i hless
    have hlt : r.ls < t := by simpa [less] using hless
    refine moved_silent hinv hist ⟨k, hr, ?_⟩ rfl
    -- The first version has the zero stamp, so this is another one.
    cases i with
    | zero =>
        have hzero : some t = some zeroStamp := ht'.symm.trans (hinv.first p)
        have hle := hr.zero
        cases hzero
        omega
    | succ i => exact ⟨i, hw.le_last, rfl, Nat.le_of_succ_le hw.le_last, hw.above.pred ht hlt⟩
  · rename_i hless
    have hle : t ≤ r.ls := by simpa [less] using hless
    exact moved_silent hinv hist ⟨k, hr, i, rfl, hw, t, ht, hle⟩ rfl

/-- The reads of a run with one more read. -/
theorem ReadsBelow.append {V : Versions P (Option Nat)} {s : Nat} {second : Bool} {k : P → Nat} {ls B i : Nat}
    {p : P} (hr : ReadsBelow V h s second k ls B) (hcut : V.CutTo k ls B p i) :
    ReadsBelow V (h ++ [.read s second p (V.value p i)]) s second k ls B := by
  intro q x hmem
  rcases List.mem_append.mp hmem with hold | hnew
  · exact hr q x hold
  · simp only [List.mem_singleton, Event.read.injEq, true_and] at hnew
    obtain ⟨rfl, rfl⟩ := hnew
    exact ⟨i, hcut, rfl⟩

include hinv hist in
/-- The end of a read: a speculative reader that meets its own stamp is aborted. -/
theorem moved_test {r : Reader} {p : P} {head : Nat} (hpc : PcOk locked own c G m h (.test r p head))
    (hid : r.s < ops) :
    Moved locked own c G m h ops (.test r p head) own G
      ⟨[.read r.s (!r.speculative) p (m.links head).value], m, G.last, .inside { r with
        aborted := r.aborted || ((m.links head).timeStamp = some r.ls && r.speculative) }⟩ := by
  obtain ⟨k, hr, i, rfl, hw, t, ht, hle⟩ := hpc
  have ht' : (m.links (G.ent p i)).timeStamp = some t := ht
  refine moved_of_evolves ⟨Ext.refl G m, hinv⟩ (hist.record le_rfl hid hr.unfinished) ⟨k, ?_⟩
    (fun _ _ => rfl) (by rintro q ⟨⟩)
  refine ⟨hr.counted.grows (.refl _) (by simp [Effect]) (by simp), hr.zero, hr.bound, ?_, ?_, ?_⟩
  · intro hno
    rw [ht'] at hno
    simp only [Bool.or_eq_true, Bool.and_eq_true, decide_eq_true_eq, Option.some.injEq, not_and, not_or]
      at hno
    refine (hr.reads fun hab => (hno hab.1).1 hab.2).append ⟨hw.le_last, ⟨t, ht, ?_⟩, hw.above⟩
    show t < r.bound
    unfold Reader.bound
    split
    · rename_i hs
      have hne := (hno hs).2
      have : t ≠ r.ls := fun heq => hne heq hs
      omega
    · omega
  · intro hs q x hmem
    have hs : r.speculative = true := hs
    rcases List.mem_append.mp hmem with hold | hnew
    · exact hr.second hs q x hold
    · simp [hs] at hnew
  · intro b hmem
    exact hr.unfinished b (by simpa using hmem)

/-- After the clock has passed `local_stamp` the second run can start. -/
theorem Pending.reader {r : Reader} {k : P → Nat} (hp : Pending G m h r k) (hlt : r.ls < m.stamp) :
    ReaderOk G m h r k where
  counted := hp.counted
  zero := hp.zero
  bound := by
    simp only [Reader.bound, hp.first]
    exact hlt
  reads _ := by
    intro p x hmem
    rw [hp.first] at hmem
    exact absurd hmem (hp.second p x)
  second hs := by
    rw [hp.first] at hs
    cases hs
  unfinished := hp.unfinished

include hinv hist in
/-- `get_stamp`: the snapshot counts the versions that are there. -/
theorem moved_getStamp {s : Nat} (hpc : PcOk locked own c G m h (.getStamp s)) :
    Moved locked own c G m h ops (.getStamp s) own G
      ⟨[], m, G.last, .inside ⟨s, m.stamp, true, false⟩⟩ := by
  refine moved_silent hinv hist ⟨G.last, ⟨fun _ => le_rfl, ?_⟩, hinv.zero, le_rfl, ?_, ?_, hpc.2⟩ rfl
  · intro op p i hb heff
    obtain ⟨t, ht⟩ := Option.ne_none_iff_exists'.mp ((hist.ret op hb.left_mem).2 p i heff)
    exact ⟨hist.le heff, t, ht, hinv.ordered.le_clock p i t (hist.le heff) ht⟩
  · intro _ p x hmem
    exact absurd hmem (hpc.1 false p x)
  · intro _ p x
    exact hpc.1 true p x

/-! ## Every step -/

/-- A stamp that `set_stamp` has set is the one of the version that was stored. -/
theorem AfterOk.storing {k : After P} {l : Nat} (hk : AfterOk locked G m h l k)
    (hl : (m.links l).timeStamp ≠ none) {x : SetStamp} {p : P}
    (hp : (Pc.setStamp l x k).storing = some p) : (G.versions m).stamp p (G.last p) ≠ none := by
  match k, hk with
  | .store k, hk =>
      cases hp
      show (m.links (G.ent k.p (G.last k.p))).timeStamp ≠ none
      rwa [← hk.2.2]

variable [DecidableEq P] {tag : Nat} {help : Bool} {r : Result P}

include hinv hist in
/-- A step in `set_stamp`. -/
theorem moved_setStamp {l : Nat} {x : SetStamp} {k : After P}
    (hpc : PcOk locked own c G m h (.setStamp l x k)) (hid : ∀ w, k.op = some w → w < ops)
    (hstep : stepThread help m G.last tag (.setStamp l x k) = some r) :
    Moved locked own c G m h ops (.setStamp l x k) own G r := by
  obtain ⟨hx, hk⟩ := hpc
  obtain ⟨hevol, hnext, hdone⟩ := hx.step hinv
  have hist' := hist.grows hevol.1.grows rfl
  have hk' : AfterOk locked G (setStamp m l x).1 h l k := by
    have hk' : AfterOk locked G (setStamp m l x).1 (h ++ []) l k :=
      hk.ext hevol.1 (by simp [Effect]) (by simp) fun _ _ => rfl
    rwa [List.append_nil] at hk'
  simp only [stepThread] at hstep
  split at hstep
  · rename_i m' x' heq
    cases hstep
    rw [heq] at hevol hnext hist' hk'
    refine moved_of_evolves hevol ?_ ?_ (fun _ _ => rfl) fun p hp => .inl ?_
    · rwa [List.append_nil]
    · rw [List.append_nil]
      exact ⟨hnext x' rfl, hk'⟩
    · cases k <;> exact hp
  · rename_i m' heq
    cases hstep
    rw [heq] at hevol hist' hk' hdone
    have hresume := hk'.resume hist' (hdone rfl) hid own c
    exact moved_of_evolves hevol hresume.1 hresume.2 (fun _ _ => rfl) fun p hp => .inr (hk'.storing (hdone rfl) hp)

include hinv hist in
/-- Every step of a thread. -/
theorem PcOk.step (hpc : PcOk locked own c G m h pc)
    (hid : ∀ w, pc.op = some w → w < ops ∧ ∀ b, .ret w b ∉ h)
    (hstep : stepThread help m G.last tag pc = some r) :
    ∃ own' G', Moved locked own c G m h ops pc own' G' r := by
  have hhead : ∀ p, (m.v p).2 = G.ent p (G.last p) := hinv.head
  have hinst : ∀ p, SetStampOk G m (m.v p).2 .load := fun p => ⟨p, _, le_rfl, (hhead p).symm, trivial⟩
  match pc, hpc with
  | .setStamp l x k, hpc =>
      exact ⟨own, G, moved_setStamp hinv hist hpc (fun w hw => (hid w hw).1) hstep⟩
  | .store k, hpc =>
      cases hstep
      exact ⟨own, G, moved_silent hinv hist ⟨hpc, hhead k.p⟩ rfl⟩
  | .storeNew k old, hpc =>
      cases hstep
      obtain ⟨hs, rfl⟩ := hpc
      have hs' : Storing locked G (m.newLink ⟨none, some (G.ent k.p (G.last k.p)), k.ptr⟩) (h ++ []) k :=
        hs.ext (hinv.newLink _).1 (by simp) rfl
      rw [List.append_nil] at hs'
      exact ⟨_, G, moved_newLink hinv hist rfl ⟨hs', hinv.private_newLink own c _ k.ptr⟩⟩
  | .storeLoad k new, hpc =>
      cases hstep
      exact ⟨own, G, moved_silent hinv hist ⟨hpc.1, hpc.2, rfl⟩ rfl⟩
  | .storeSwap k new w, hpc =>
      obtain ⟨hs, hpriv, hw⟩ := hpc
      obtain ⟨hop, hlive⟩ := hid k.op rfl
      simp only [stepThread, hw, if_true] at hstep
      cases hstep
      have hnew := installed_push G m new hs.noEffect
      obtain ⟨hlast, hent, _⟩ := push_new G k.p new m.stamp
      refine ⟨own, _, moved_install hinv hist hpriv hs.head hop hlive (.inl rfl) rfl ⟨?_, hs.locked, hnew, ?_⟩⟩
      · exact ⟨k.p, G.last k.p + 1, hlast.ge, hent, trivial⟩
      · rw [hlast, hent]
  | .cas k, hpc =>
      obtain ⟨hlock, hno⟩ := hpc
      obtain ⟨hop, hlive⟩ := hid k.op rfl
      cases hstep
      refine ⟨own, G, moved_of_evolves ⟨Ext.refl G m, hinv⟩ ?_ ⟨hinst k.p, rfl, hlock, G.last k.p, ?_, ?_⟩
        (fun _ _ => rfl) (by rintro p ⟨⟩)⟩
      · split
        · exact hist.record le_rfl hop ⟨le_rfl, hlive⟩
        · rwa [List.append_nil]
      · refine ⟨le_rfl, (hhead k.p).symm, ?_⟩
        intro q j heff
        split at heff
        · rcases effect_append.mp heff with hold | hk | ⟨x, hx⟩
          · exact absurd hold (hno q j)
          · simp only [List.mem_singleton, Event.keep.injEq, true_and] at hk
            exact hk
          · simp at hx
        · rw [List.append_nil] at heff
          exact absurd heff (hno q j)
      · have hvalue : (G.versions m).value k.p (G.last k.p) = (m.links (m.v k.p).2).value := by
          rw [hhead k.p]
          rfl
        rw [hvalue]
        split
        · rename_i hcond
          exact ⟨fun _ => hcond, fun _ => .inl (by simp)⟩
        · rename_i hcond
          rw [List.append_nil]
          exact ⟨fun heff => absurd heff (hno _ _), fun h => absurd h hcond⟩
  | .casNew k old, hpc =>
      cases hstep
      obtain ⟨hlock, hno, hold⟩ := hpc
      exact ⟨_, G, moved_newLink hinv hist rfl ⟨hlock, hno, hold.ext (hinv.newLink _).1,
        hinv.private_newLink own c old k.ptr⟩⟩
  | .camRead k old new, hpc =>
      obtain ⟨hlock, hno, hold, hpriv⟩ := hpc
      simp only [stepThread] at hstep
      split at hstep
      · rename_i heq
        cases hstep
        refine ⟨own, G, moved_silent hinv hist ⟨hlock, hno, ?_, ?_⟩ rfl⟩
        · rwa [heq]
        · rwa [heq]
      · cases hstep
        refine ⟨own, G, moved_silent hinv hist ?_ (by split <;> rfl)⟩
        split
        · exact .inl ⟨old, hpriv⟩
        · trivial
  | .camSwap k new w, hpc =>
      obtain ⟨hlock, hno, hold, hpriv⟩ := hpc
      obtain ⟨hop, hlive⟩ := hid k.op rfl
      simp only [stepThread] at hstep
      split at hstep
      · rename_i heq
        cases hstep
        subst heq
        rw [hhead k.p] at hpriv hold
        obtain ⟨i, hi, hent, hs⟩ := hold
        obtain ⟨_, rfl⟩ := hinv.distinct k.p k.p i (G.last k.p) hi le_rfl hent
        have hnew := installed_push G m new hno
        obtain ⟨hlast, hent, _⟩ := push_new G k.p new m.stamp
        refine ⟨own, _, moved_install hinv hist hpriv hs hop hlive (.inr hlock) (by split <;> rfl) ?_⟩
        split
        · exact .inr hnew
        · exact ⟨⟨k.p, G.last k.p + 1, hlast.ge, hent, trivial⟩, hnew⟩
      · cases hstep
        refine ⟨own, G, moved_silent hinv hist ?_ (by split <;> rfl)⟩
        split
        · exact .inl ⟨w.2, hpriv⟩
        · trivial
  | .verify k new, hpc =>
      simp only [stepThread] at hstep
      split at hstep
      · rename_i heq
        cases hstep
        refine ⟨own, G, moved_silent hinv hist ⟨heq ▸ hinst k.p, ?_⟩ rfl⟩
        rcases hpc with ⟨old, hpriv⟩ | hi
        · exact absurd ⟨k.p, _, le_rfl, (hhead k.p).symm.trans heq⟩ hpriv.out
        · exact hi
      · cases hstep
        exact ⟨own, G, moved_silent hinv hist hpc rfl⟩
  | .verifyStamp k new, hpc =>
      simp only [stepThread] at hstep
      split at hstep
      · rename_i hts
        cases hstep
        rcases hpc with ⟨old, hpriv⟩ | hi
        · rw [hpriv.link] at hts
          exact absurd rfl hts
        · obtain ⟨i, ho, heff⟩ := hi
          exact ⟨own, G, moved_silent hinv hist ⟨⟨k.p, i, ho.le_last, ho.ent, trivial⟩, i, ho, heff⟩ rfl⟩
      · cases hstep
        exact ⟨own, G, moved_silent hinv hist trivial rfl⟩
  | .failed k, _ =>
      cases hstep
      exact ⟨own, G, moved_silent hinv hist ⟨hinst k.p, trivial⟩ rfl⟩
  | .load p, _ =>
      cases hstep
      exact ⟨own, G, moved_silent hinv hist ⟨hinst p, trivial⟩ rfl⟩
  | .getStamp s, hpc =>
      cases hstep
      exact ⟨own, G, moved_getStamp hinv hist hpc⟩
  | .read q p, hpc =>
      cases hstep
      obtain ⟨k, hr⟩ := hpc
      exact ⟨own, G, moved_silent hinv hist
        ⟨hinst p, rfl, k, hr, G.last p, (hhead p).symm, Walking.start p⟩ rfl⟩
  | .walk q p head, hpc =>
      have hr : r = ⟨[], m, G.last, if less q.ls (m.links head).timeStamp then .follow q p head
          else .test q p head⟩ := by
        simp only [stepThread] at hstep
        split at hstep <;> (cases hstep; simp [*])
      rw [hr]
      exact ⟨own, G, moved_walk hinv hist hpc⟩
  | .follow q p head, hpc =>
      obtain ⟨k, hr, i, hi, rfl, hw⟩ := hpc
      simp only [stepThread, hinv.next p i hi, Option.map_some, Option.some.injEq] at hstep
      cases hstep
      exact ⟨own, G, moved_silent hinv hist ⟨k, hr, i, rfl, hw, hinv.ordered.stamped p i hi⟩ rfl⟩
  | .test q p head, hpc =>
      cases hstep
      exact ⟨own, G, moved_test hinv hist hpc (hid q.s rfl).1⟩
  | .again q, hpc =>
      obtain ⟨k, hp⟩ := hpc
      simp only [stepThread] at hstep
      split at hstep
      · cases hstep
        exact ⟨own, G, moved_silent hinv hist ⟨k, hp⟩ rfl⟩
      · rename_i hne
        cases hstep
        refine ⟨own, G, moved_silent hinv hist ⟨k, hp.reader ?_⟩ rfl⟩
        have hle := hp.le_clock
        omega
  | .add q, hpc =>
      obtain ⟨k, hp⟩ := hpc
      cases hstep
      have hevol := hinv.tick
      have hp' : Pending G { m with stamp := m.stamp + 1 } (h ++ []) q k :=
        hp.ext hevol.1 (by simp [Effect]) (by simp)
      refine ⟨own, G, moved_of_evolves hevol ?_ ⟨k, hp'.reader ?_⟩ (fun _ _ => rfl) (by rintro p ⟨⟩)⟩
      · rw [List.append_nil]
        exact hist.grows hevol.1.grows rfl
      · exact Nat.lt_succ_of_le hp.le_clock

end Steps

end Verlib.Indirect.Lazy
