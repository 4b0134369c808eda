import Verlib.Hybrid.History

/-!
# The threads of `cas` and `with_snapshot`

What a thread knows at its position: a `cas` knows the node that it is about to install and how that
node leads on, and a `read_snapshot` knows that it has not walked past the version that its
`local_stamp` selects. `PcOk.step` says that every step keeps the chain invariant, the invariant of the
history and what the thread knows.
-/

namespace Verlib.Hybrid.Cas

open Interleaving

variable {P ι : Type} {G G' : Chains P} {m m' : Memory P} {a y : Versioned} {h es : List (Event P)}
  {ops : Nat} {own own' : Versioned → Option ι} {c : ι}

/-! ## What a thread knows -/

/-- The call has had no effect yet. -/
def NoEffect (h : List (Event P)) (op : Nat) : Prop :=
  ∀ p i, ¬ Effect h op p i

/-- A `cas` that is ready to install `new` in place of `old`. -/
def Ready (own : Versioned → Option ι) (c : ι) (G : Chains P) (m : Memory P) (h : List (Event P))
    (k : Call P) (old new : Versioned) : Prop :=
  NoEffect h k.op ∧ Prepared own c G m k.p k.ptr old new

/-- A `cas` that has installed `new`. -/
def Installed (G : Chains P) (h : List (Event P)) (k : Call P) (new : Versioned) : Prop :=
  ∃ i ≤ G.last k.p, G.ent k.p i = new ∧ Effect h k.op k.p i ∧
    ∀ q j, Effect h k.op q j → q = k.p ∧ j = i

/-- The object passed to `cas` belongs to the thread unless it has a stamp. -/
def Passed (own : Versioned → Option ι) (c : ι) (m : Memory P) (k : Call P) : Prop :=
  m.timeStamp (.direct k.ptr) = none → own (.direct k.ptr) = some c

/-- What is known in `set_stamp(y)` of what follows it. -/
def AfterOk (own : Versioned → Option ι) (c : ι) (G : Chains P) (m : Memory P) (h : List (Event P))
    (y : Versioned) : After P → Prop
  | .test k old => y = old ∧ WasHead G k.p old ∧ m.Allocated old ∧ Passed own c m k ∧
      (m.getPtr old = k.exp ∧ k.exp = k.ptr → ∃ j, Effect h k.op k.p j) ∧
      ∀ q j, Effect h k.op q j →
        (m.getPtr old = k.exp ∧ k.exp = k.ptr) ∧ j ≤ G.last q ∧ Rep G m q j old
  | .finish k new => y = new ∧ Installed G h k new
  | .fail _ | .load _ _ | .validate => True
  | .walk s ls p head => y = head ∧ .stamped s ls ∈ h ∧
      ∃ i ≤ G.last p, Rep G m p i head ∧ Beyond G m ls p i

/-- What is known in `get_read_stamp` once the clock has been read. -/
def Reading (G : Chains P) (m : Memory P) (h : List (Event P)) (s ts : Nat) : Prop :=
  (∀ ls, .stamped s ls ∉ h) ∧ 1 ≤ ts ∧ ts ≤ m.stamp ∧
    ∀ op p i, Before h (.ret op true) (.began s) → Effect h op p i → Within G m ts p i

/-- What a thread knows at its position. -/
def PcOk (own : Versioned → Option ι) (c : ι) (G : Chains P) (m : Memory P) (h : List (Event P)) :
    Pc P → Prop
  | .idle | .load _ | .validate _ | .failed _ => True
  | .setStamp y x k => SetStampOk G m y x ∧ AfterOk own c G m h y k
  | .shortcut _ l x op => ShortcutOk G m l x ∧ ∀ w, op = some w → (∃ p i, Effect h w p i) ∧
      ∀ p i, Effect h w p i → i ≤ G.last p ∧ m.timeStamp (G.ent p i) ≠ none
  | .cas k => NoEffect h k.op ∧ Passed own c m k
  | .useIndirect k old => NoEffect h k.op ∧ Old G m k.p old ∧ Passed own c m k
  | .newLink k old => NoEffect h k.op ∧ Old G m k.p old ∧ m.timeStamp (.direct k.ptr) ≠ none
  | .setNext k old => NoEffect h k.op ∧ Old G m k.p old ∧ Private own c G m (.direct k.ptr)
  | .camRead k old new => Ready own c G m h k old new
  | .camSwap k old new w => Ready own c G m h k old new ∧ w.2 = old
  | .verify k old new => Ready own c G m h k old new ∨ Installed G h k new
  | .verifyStamp k old new =>
      Ready own c G m h k old new ∨ Installed G h k new ∧ m.timeStamp new ≠ none
  | .retry k l new => Ready own c G m h k (.indirect l) new
  | .getReadStamp s .load => ∀ ls, .stamped s ls ∉ h
  | .getReadStamp s (.again ts) | .getReadStamp s (.add ts) => Reading G m h s ts
  | .enter s ls | .inside s ls | .read s ls _ => .stamped s ls ∈ h
  | .walk s ls p head => .stamped s ls ∈ h ∧ m.timeStamp head ≠ none ∧
      ∃ i ≤ G.last p, Rep G m p i head ∧ Beyond G m ls p i
  | .follow s ls p head => .stamped s ls ∈ h ∧
      ∃ i, i < G.last p ∧ head = G.ent p (i + 1) ∧ Beyond G m ls p i

/-- The call or snapshot that follows `set_stamp`. -/
def After.op : After P → Option Nat
  | .test k _ | .finish k _ | .fail k => some k.op
  | .load _ _ | .validate => none
  | .walk s _ _ _ => some s

/-- The call or snapshot that a thread executes. -/
def Pc.op : Pc P → Option Nat
  | .idle | .load _ | .validate _ => none
  | .setStamp _ _ k => k.op
  | .shortcut _ _ _ op => op
  | .cas k | .useIndirect k _ | .newLink k _ | .setNext k _ | .camRead k _ _ | .camSwap k _ _ _
  | .verify k _ _ | .verifyStamp k _ _ | .retry k _ _ | .failed k => some k.op
  | .getReadStamp s _ | .enter s _ | .inside s _ | .read s _ _ | .walk s _ _ _
  | .follow s _ _ _ => some s

section Transport

variable (hext : Ext a G m G' m') (hinv : ChainInv G m)
  (hown : ∀ y, m.Allocated y → own' y = own y)
  (hne : ∀ y, own y = some c → m.Allocated y → y ≠ a)

/-- Other calls' events are no effects of a call. -/
theorem NoEffect.append {op : Nat} (hop : ∀ e ∈ es, e.id ≠ op) (hno : NoEffect h op) :
    NoEffect (h ++ es) op := by
  intro p i heff
  rcases effect_append.mp heff with hold | hk | ⟨x, hx⟩
  · exact hno p i hold
  · exact hop _ hk rfl
  · exact hop _ hx rfl

/-- Other calls' events do not change the effects of a call. -/
theorem effect_append_of_ne {op : Nat} (hop : ∀ e ∈ es, e.id ≠ op) {p : P} {i : Nat} :
    Effect (h ++ es) op p i ↔ Effect h op p i := by
  rw [effect_append]
  constructor
  · rintro (hold | hk | ⟨x, hx⟩)
    · exact hold
    · exact absurd rfl (hop _ hk)
    · exact absurd rfl (hop _ hx)
  · exact .inl

include hext

/-- An installed version stays installed. -/
theorem Installed.ext {k : Call P} {new : Versioned} (hop : ∀ e ∈ es, e.id ≠ k.op)
    (hi : Installed G h k new) : Installed G' (h ++ es) k new := by
  obtain ⟨i, hle, hent, heff, honly⟩ := hi
  refine ⟨i, hle.trans (hext.last _), (hext.ent _ _ hle).trans hent,
    (effect_append_of_ne hop).mpr heff, fun q j hj => honly q j ?_⟩
  exact (effect_append_of_ne hop).mp hj

/-- An object without a stamp belonged to the thread before. -/
theorem Passed.ext {k : Call P} (hown : ∀ y, m.Allocated y → own' y = own y)
    (hp : Passed own c m k) : Passed own' c m' k := by
  intro hnone
  rw [hown _ (by rintro _ ⟨⟩)]
  refine hp ?_
  by_contra hne
  exact hext.ne_none hne hnone

include hinv hown hne

/-- A `cas` that is ready to install stays ready. -/
theorem Ready.ext {k : Call P} {old new : Versioned} (hop : ∀ e ∈ es, e.id ≠ k.op)
    (hr : Ready own c G m h k old new) : Ready own' c G' m' (h ++ es) k old new :=
  ⟨hr.1.append hop, hr.2.ext hext hown hne hinv⟩

omit hne in
/-- What is known of what follows `set_stamp` stays known. -/
theorem AfterOk.ext {k : After P} (hist : HistInv G m h ops)
    (hop : ∀ w, k.op = some w → ∀ e ∈ es, e.id ≠ w)
    (hk : AfterOk own c G m h y k) : AfterOk own' c G' m' (h ++ es) y k := by
  match k, hk with
  | .test k old, hk =>
      obtain ⟨rfl, hwas, halloc, hpass, hkeep, heff⟩ := hk
      have hsame := fun {q : P} {j : Nat} =>
        effect_append_of_ne (h := h) (p := q) (i := j) (hop k.op rfl)
      refine ⟨rfl, hwas.ext hext, hext.allocated halloc, hpass.ext hext hown, ?_, ?_⟩
      · rw [hext.getPtr halloc]
        intro hcond
        obtain ⟨j, hj⟩ := hkeep hcond
        exact ⟨j, hsame.mpr hj⟩
      · rw [hext.getPtr halloc]
        intro q j hj
        obtain ⟨hcond, hle, hrep⟩ := heff q j (hsame.mp hj)
        exact ⟨hcond, hle.trans (hext.last q), hext.rep hinv hle hrep⟩
  | .finish k new, hk => exact ⟨hk.1, hk.2.ext hext (hop k.op rfl)⟩
  | .fail _, _ | .load _ _, _ | .validate, _ => trivial
  | .walk s ls p head, hk =>
      obtain ⟨rfl, hst, i, hi, hrep, hbeyond⟩ := hk
      exact ⟨rfl, List.mem_append_left _ hst, i, hi.trans (hext.last p), hext.rep hinv hi hrep,
        hext.beyond (hist.stamped s ls hst).2 hbeyond⟩

omit hinv hown hne in
/-- What is known in `get_read_stamp` stays known. -/
theorem Reading.ext {s ts : Nat} (hist : HistInv G m h ops) (hop : ∀ e ∈ es, e.id ≠ s)
    (hlive : ∀ op p i, Effect es op p i → ∀ b, .ret op b ∉ h) (hr : Reading G m h s ts) :
    Reading G' m' (h ++ es) s ts := by
  obtain ⟨hno, hpos, hle, hbefore⟩ := hr
  refine ⟨?_, hpos, hle.trans hext.stamp, ?_⟩
  · intro ls hmem
    rcases List.mem_append.mp hmem with hold | hnew
    · exact hno ls hold
    · exact hop _ hnew rfl
  · intro op p i hb heff
    have hold := (before_append_of_not_mem fun hmem => hop _ hmem rfl).mp hb
    rcases effect_append.mp heff with heff | hnew
    · exact hext.within (hist.le heff) (hbefore op p i hold heff)
    · exact absurd hold.left_mem (hlive op p i hnew true)

/-- What a thread knows stays known when another thread, or the thread itself in a step that does not
touch its node, changes the memory. -/
theorem PcOk.ext {pc : Pc P} (hist : HistInv G m h ops)
    (hop : ∀ w, pc.op = some w → ∀ e ∈ es, e.id ≠ w)
    (hlive : ∀ op p i, Effect es op p i → ∀ b, .ret op b ∉ h)
    (hpc : PcOk own c G m h pc) : PcOk own' c G' m' (h ++ es) pc := by
  match pc, hpc with
  | .idle, _ | .load _, _ | .validate _, _ | .failed _, _ => trivial
  | .setStamp y x k, hpc =>
      exact ⟨hext.setStampOk hpc.1, hpc.2.ext hext hinv hown hist hop⟩
  | .shortcut p l x op, hpc =>
      refine ⟨hext.shortcutOk hpc.1, ?_⟩
      rintro w rfl
      obtain ⟨⟨q, j, hj⟩, hall⟩ := hpc.2 w rfl
      have hsame := fun {q : P} {j : Nat} =>
        effect_append_of_ne (h := h) (p := q) (i := j) (hop w rfl)
      refine ⟨⟨q, j, hsame.mpr hj⟩, fun q j hj => ?_⟩
      obtain ⟨hle, hts⟩ := hall q j (hsame.mp hj)
      rw [hext.ent q j hle]
      exact ⟨hle.trans (hext.last q), hext.ne_none hts⟩
  | .cas k, hpc => exact ⟨hpc.1.append (hop k.op rfl), hpc.2.ext hext hown⟩
  | .useIndirect k old, hpc =>
      exact ⟨hpc.1.append (hop k.op rfl), hpc.2.1.ext hext, hpc.2.2.ext hext hown⟩
  | .newLink k old, hpc =>
      exact ⟨hpc.1.append (hop k.op rfl), hpc.2.1.ext hext, hext.ne_none hpc.2.2⟩
  | .setNext k old, hpc =>
      exact ⟨hpc.1.append (hop k.op rfl), hpc.2.1.ext hext, hpc.2.2.ext hext hown hne⟩
  | .camRead k old new, hpc => exact Ready.ext hext hinv hown hne (hop k.op rfl) hpc
  | .camSwap k old new w, hpc =>
      exact ⟨hpc.1.ext hext hinv hown hne (hop k.op rfl), hpc.2⟩
  | .verify k old new, hpc =>
      exact hpc.imp (fun hr => hr.ext hext hinv hown hne (hop k.op rfl))
        fun hi => hi.ext hext (hop k.op rfl)
  | .verifyStamp k old new, hpc =>
      exact hpc.imp (fun hr => hr.ext hext hinv hown hne (hop k.op rfl))
        fun hi => ⟨hi.1.ext hext (hop k.op rfl), hext.ne_none hi.2⟩
  | .retry k l new, hpc => exact Ready.ext hext hinv hown hne (hop k.op rfl) hpc
  | .getReadStamp s .load, hpc =>
      intro ls hmem
      rcases List.mem_append.mp hmem with hold | hnew
      · exact hpc ls hold
      · exact hop s rfl _ hnew rfl
  | .getReadStamp s (.again ts), hpc => exact Reading.ext hext hist (hop s rfl) hlive hpc
  | .getReadStamp s (.add ts), hpc => exact Reading.ext hext hist (hop s rfl) hlive hpc
  | .enter s ls, hpc | .inside s ls, hpc | .read s ls _, hpc => exact List.mem_append_left _ hpc
  | .walk s ls p head, hpc =>
      obtain ⟨hst, hts, i, hi, hrep, hbeyond⟩ := hpc
      exact ⟨List.mem_append_left _ hst, hext.ne_none hts, i, hi.trans (hext.last p),
        hext.rep hinv hi hrep, hext.beyond (hist.stamped s ls hst).2 hbeyond⟩
  | .follow s ls p head, hpc =>
      obtain ⟨hst, i, hi, rfl, hbeyond⟩ := hpc
      exact ⟨List.mem_append_left _ hst, i, hi.trans_le (hext.last p), (hext.ent p (i + 1) hi).symm,
        hext.beyond (hist.stamped s ls hst).2 hbeyond⟩

end Transport

/-! ## The steps of a thread -/

/-- The node that a `cas` has installed and not yet stamped. -/
def Pc.Holds : Pc P → Versioned → Prop
  | .verify _ _ new, y | .setStamp _ _ (.finish _ new), y => new = y
  | _, _ => False

/-- A version of the thread without a stamp is the one that it is installing. -/
def Quiet (own : Versioned → Option ι) (c : ι) (G : Chains P) (m : Memory P) (pc : Pc P) : Prop :=
  ∀ y, own y = some c → G.Inst y → m.timeStamp y = none → pc.Holds y

/-- What a step of thread `c` establishes. -/
def StepOk (own : Versioned → Option ι) (c : ι) (G : Chains P) (m : Memory P) (h : List (Event P))
    (ops : Nat) (r : Result P) : Prop :=
  ∃ own' G' a, Evolves a G m G' r.memory ∧ r.last = G'.last ∧ G'.limit = G.limit ∧
    HistInv G' r.memory (h ++ r.events) ops ∧ PcOk own' c G' r.memory (h ++ r.events) r.pc ∧
    Quiet own' c G' r.memory r.pc ∧ (∀ y, m.Allocated y → own' y = own y) ∧
    (∀ c' y, c' ≠ c → own y = some c' → m.Allocated y → y ≠ a) ∧
    ∀ y, G'.Inst y → ¬ G.Inst y → own' y = some c

/-- A thread that installs nothing holds what it held before. -/
theorem Quiet.ext {pc pc' : Pc P} (hquiet : Quiet own c G m pc) (hext : Ext a G m G' m')
    (hinst : ∀ y, G'.Inst y → G.Inst y)
    (hholds : ∀ y, G.Inst y → pc.Holds y → m'.timeStamp y = none → pc'.Holds y) :
    Quiet own c G' m' pc' := by
  intro y ho hy hnone
  refine hholds y (hinst y hy) (hquiet y ho (hinst y hy) ?_) hnone
  by_contra hne
  exact hext.ne_none hne hnone

section Steps

variable {pc pc' : Pc P} (hinv : ChainInv G m) (hist : HistInv G m h ops)
  (hquiet : Quiet own c G m pc) (hnull : own .null = none)

include hquiet hnull in
/-- A step that installs nothing. -/
theorem stepOk_of_ext (hevol : Evolves .null G m G' m') (hlast : G'.last = G.last)
    (hlimit : G'.limit = G.limit) (hinst : ∀ y, G'.Inst y → G.Inst y)
    (hist' : HistInv G' m' (h ++ es) ops) (hpc' : PcOk own c G' m' (h ++ es) pc')
    (hholds : ∀ y, G.Inst y → pc.Holds y → m'.timeStamp y = none → pc'.Holds y) :
    StepOk own c G m h ops ⟨es, m', G.last, pc'⟩ := by
  refine ⟨own, G', .null, hevol, hlast.symm, hlimit, hist', hpc', hquiet.ext hevol.1 hinst hholds,
    fun _ _ => rfl, ?_, fun y hy hno => absurd (hinst y hy) hno⟩
  rintro c' y _ ho _ rfl
  rw [hnull] at ho
  cases ho

include hinv hist hquiet hnull in
/-- A step that neither changes the memory nor emits an event. -/
theorem stepOk_silent (hpc' : PcOk own c G m h pc')
    (hholds : ∀ y, G.Inst y → pc.Holds y → m.timeStamp y = none → pc'.Holds y) :
    StepOk own c G m h ops ⟨[], m, G.last, pc'⟩ := by
  refine stepOk_of_ext hquiet hnull ⟨Ext.refl _ G m, hinv⟩ rfl rfl (fun _ => id) ?_ ?_ hholds
  · rwa [List.append_nil]
  · rwa [List.append_nil]

/-- What follows `set_stamp`, when the node has its stamp. -/
theorem AfterOk.resume {k : After P} (hist : HistInv G m h ops) (hts : m.timeStamp y ≠ none)
    (hid : ∀ w, k.op = some w → w < ops) (hk : AfterOk own c G m h y k) :
    HistInv G m (h ++ (k.resume m).1) ops ∧
      PcOk own c G m (h ++ (k.resume m).1) (k.resume m).2 := by
  have hsilent : ∀ {pc' : Pc P}, PcOk own c G m h pc' →
      HistInv G m (h ++ []) ops ∧ PcOk own c G m (h ++ []) pc' := by
    intro pc' hpc'
    rw [List.append_nil]
    exact ⟨hist, hpc'⟩
  match k, hk with
  | .test k old, hk =>
      obtain ⟨rfl, hwas, halloc, hpass, hkeep, heff⟩ := hk
      simp only [After.resume]
      split
      · exact ⟨hist.record le_rfl (hid k.op rfl) (by rintro ⟨⟩), trivial⟩
      · rename_i hexp
        rw [not_not] at hexp
        split
        · rename_i hsame
          refine ⟨hist.record le_rfl (hid k.op rfl) fun _ => ⟨?_, ?_⟩, trivial⟩
          · obtain ⟨j, hj⟩ := hkeep ⟨hexp, hsame⟩
            exact ⟨k.p, j, hj⟩
          · intro q j hj
            obtain ⟨t, ht⟩ := (heff q j hj).2.2.stamped hts
            simp [ht]
        · rename_i hdiff
          refine hsilent ⟨fun q j hj => hdiff (heff q j hj).1.2, ⟨hts, hwas⟩, hpass⟩
  | .finish k new, hk =>
      obtain ⟨rfl, i, hi, rfl, heff, honly⟩ := hk
      have hall : ∀ q j, Effect h k.op q j → j ≤ G.last q ∧ m.timeStamp (G.ent q j) ≠ none := by
        intro q j hj
        obtain ⟨rfl, rfl⟩ := honly q j hj
        exact ⟨hi, hts⟩
      cases hnew : G.ent k.p i with
      | direct ptr =>
          simp only [After.resume]
          exact ⟨hist.record le_rfl (hid k.op rfl) fun _ =>
            ⟨⟨k.p, i, heff⟩, fun q j hj => (hall q j hj).2⟩, trivial⟩
      | indirect l =>
          simp only [After.resume]
          refine hsilent ⟨trivial, ?_⟩
          rintro w ⟨⟩
          exact ⟨⟨k.p, i, heff⟩, hall⟩
  | .fail k, _ => exact ⟨hist.record le_rfl (hid k.op rfl) (by rintro ⟨⟩), trivial⟩
  | .load p (.indirect l), _ => exact hsilent ⟨trivial, by rintro w ⟨⟩⟩
  | .load p (.direct _), _ => exact hsilent trivial
  | .validate, _ => exact hsilent trivial
  | .walk s ls p head, hk =>
      obtain ⟨rfl, hst, hwalk⟩ := hk
      exact hsilent ⟨hst, hts, hwalk⟩

variable [DecidableEq P] {r : Result P} {tag : Nat}

include hinv hist hnull in
/-- A step of `set_stamp`. -/
theorem step_setStamp {x : SetStamp} {k : After P}
    (hquiet : Quiet own c G m (.setStamp y x k))
    (hpc : PcOk own c G m h (.setStamp y x k)) (hid : ∀ w, k.op = some w → w < ops)
    (hstep : stepThread m G.last tag (.setStamp y x k) = some r) :
    StepOk own c G m h ops r := by
  obtain ⟨hevol, hnext, hret⟩ := hinv.setStamp_step .null hpc.1
  have hist' : HistInv G (setStamp m y x).1 h ops := hist.ext hinv hevol.1 rfl
  have hafter : AfterOk own c G (setStamp m y x).1 (h ++ []) y k :=
    hpc.2.ext hevol.1 hinv (fun _ _ => rfl) hist (by simp)
  simp only [stepThread] at hstep
  split at hstep
  · rename_i m' x' heq
    cases hstep
    rw [heq] at hevol hnext hist' hafter
    refine stepOk_of_ext hquiet hnull hevol rfl rfl (fun _ => id) (by rwa [List.append_nil]) ?_ ?_
    · rw [List.append_nil] at hafter ⊢
      exact ⟨hnext x' rfl, hafter⟩
    · intro z _ hz _
      cases k <;> exact hz
  · rename_i m' heq
    cases hstep
    rw [heq] at hevol hret hist' hafter
    rw [List.append_nil] at hafter
    obtain ⟨hrec, hres⟩ := hafter.resume hist' (hret rfl) hid
    refine stepOk_of_ext hquiet hnull hevol rfl rfl (fun _ => id) hrec hres ?_
    -- The node that was held is the one that now has its stamp.
    intro z _ hz hnone
    cases k with
    | finish k new =>
        obtain rfl : new = z := hz
        rw [hafter.1] at hret
        exact absurd hnone (hret rfl)
    | test | fail | load | validate | walk => exact absurd hz id

include hinv hist hnull in
/-- A step of `shortcut`. -/
theorem step_shortcut {p : P} {l : Nat} {x : Shortcut} {op : Option Nat}
    (hquiet : Quiet own c G m (.shortcut p l x op))
    (hpc : PcOk own c G m h (.shortcut p l x op)) (hid : ∀ w, op = some w → w < ops)
    (hstep : stepThread m G.last tag (.shortcut p l x op) = some r) :
    StepOk own c G m h ops r := by
  obtain ⟨G', hevol, hnext, hcase⟩ := hinv.shortcut_step .null p tag hpc.1
  obtain ⟨hlast, hent, hlimit, hinst⟩ : G'.last = G.last ∧ G'.ent = G.ent ∧ G'.limit = G.limit ∧
      ∀ y, G'.Inst y → G.Inst y := by
    rcases hcase with rfl | ⟨rfl, _⟩
    · exact ⟨rfl, rfl, rfl, fun _ => id⟩
    · exact ⟨rfl, rfl, rfl, fun _ => id⟩
  have hist' : HistInv G' (shortcut m p l tag x).1 h ops := hist.ext hinv hevol.1 hlast
  have heff : ∀ w, op = some w → (∃ q i, Effect h w q i) ∧ ∀ q i, Effect h w q i →
      i ≤ G'.last q ∧ (shortcut m p l tag x).1.timeStamp (G'.ent q i) ≠ none := by
    intro w hw
    obtain ⟨hex, hall⟩ := hpc.2 w hw
    rw [hlast, hent]
    exact ⟨hex, fun q i hi => ⟨(hall q i hi).1, hevol.1.ne_none (hall q i hi).2⟩⟩
  simp only [stepThread] at hstep
  split at hstep
  · rename_i m' x' heq
    cases hstep
    rw [heq] at hevol hnext hist' heff
    refine stepOk_of_ext hquiet hnull hevol hlast hlimit hinst (by rwa [List.append_nil]) ?_
      fun z _ hz _ => absurd hz id
    rw [List.append_nil]
    exact ⟨hnext x' rfl, heff⟩
  · rename_i m' heq
    cases hstep
    rw [heq] at hevol hist' heff
    refine stepOk_of_ext hquiet hnull hevol hlast hlimit hinst ?_ trivial fun z _ hz _ => absurd hz id
    cases op with
    | none => rwa [Option.toList_none, List.map_nil, List.append_nil]
    | some w =>
        obtain ⟨hex, hall⟩ := heff w rfl
        exact hist'.record le_rfl (hid w rfl) fun _ => ⟨hex, fun q i hi => (hall q i hi).2⟩

include hinv hist hnull in
/-- The load of `cas`. -/
theorem step_cas {k : Call P} (hquiet : Quiet own c G m (.cas k)) (hpc : PcOk own c G m h (.cas k))
    (hid : k.op < ops ∧ ∀ b, .ret k.op b ∉ h)
    (hstep : stepThread m G.last tag (.cas k) = some r) : StepOk own c G m h ops r := by
  simp only [stepThread] at hstep
  cases hstep
  have hrep := hinv.head k.p
  have halloc := hrep.allocated hinv le_rfl
  refine stepOk_of_ext hquiet hnull ⟨Ext.refl _ G m, hinv⟩ rfl rfl (fun _ => id) ?_ ?_ fun z _ hz _ => absurd hz id
  · split
    · exact hist.record le_rfl hid.1 ⟨le_rfl, hid.2⟩
    · rwa [List.append_nil]
  · refine ⟨setStampOk_word hinv k.p, rfl, wasHead_word hinv k.p, halloc, hpc.2, ?_, ?_⟩
    · intro hcond
      exact ⟨G.last k.p, effect_append.mpr (.inr (.inl (by simp [hcond])))⟩
    · intro q j heff
      rcases effect_append.mp heff with hold | hnew
      · exact absurd hold (hpc.1 q j)
      · split at hnew
        · rename_i hcond
          obtain ⟨rfl, rfl⟩ : q = k.p ∧ j = G.last k.p := by simpa [Effect] using hnew
          exact ⟨hcond, le_rfl, hrep⟩
        · simp [Effect] at hnew

include hinv hist hnull in
/-- The choice between an object and a link, and the preparation of the new node. -/
theorem step_prepare {k : Call P} {old : Versioned}
    (hphase : pc = .useIndirect k old ∨ pc = .newLink k old ∨ pc = .setNext k old)
    (hquiet : Quiet own c G m pc) (hpc : PcOk own c G m h pc)
    (hstep : stepThread m G.last tag pc = some r) : StepOk own c G m h ops r := by
  rcases hphase with rfl | rfl | rfl
  · obtain ⟨hno, hold, hpass⟩ := hpc
    simp only [stepThread] at hstep
    split at hstep
    · rename_i hcond
      cases hstep
      refine stepOk_silent hinv hist hquiet hnull ⟨hno, hold, ?_⟩ fun z _ hz _ => absurd hz id
      rcases hcond with hnone | hts
      · rw [hnone]
        exact (by simp [hinv.null] : m.timeStamp .null ≠ none)
      · exact hts
    · rename_i hcond
      cases hstep
      have hnone : m.timeStamp (.direct k.ptr) = none := by
        by_contra hne
        exact hcond (.inr hne)
      refine stepOk_silent hinv hist hquiet hnull ⟨hno, hold, hpass hnone, ?_, ?_, hnone⟩
        fun z _ hz _ => absurd hz id
      · rintro l ⟨⟩
      · intro hinst
        exact hquiet _ (hpass hnone) hinst hnone
  · obtain ⟨hno, hold, hts⟩ := hpc
    simp only [stepThread] at hstep
    cases hstep
    have hevol := hinv.newLink old k.ptr
    refine ⟨Function.update own (.indirect m.fresh) (some c), G, _, hevol, rfl, rfl, ?_, ?_, ?_, ?_, ?_,
      fun y hy hn => absurd hy hn⟩
    · rw [List.append_nil]
      exact hist.ext hinv hevol.1 rfl
    · rw [List.append_nil]
      exact ⟨hno, hold.newLink hinv hts c own⟩
    · intro y ho hinst hnone
      rw [Function.update_of_ne (by rintro rfl; exact not_inst_fresh hinv hinst)] at ho
      exact absurd (hquiet y ho hinst hnone) id
    · intro y halloc
      refine Function.update_of_ne ?_ _ _
      rintro rfl
      exact absurd (halloc _ rfl) (Nat.lt_irrefl _)
    · rintro c' y _ _ halloc rfl
      exact absurd (halloc _ rfl) (Nat.lt_irrefl _)
  · obtain ⟨hno, hold, hpriv⟩ := hpc
    simp only [stepThread] at hstep
    cases hstep
    have hevol := hinv.setNext (z := old) hpriv.2.2.1
    refine ⟨own, G, _, hevol, rfl, rfl, ?_, ?_, ?_, fun _ _ => rfl, ?_, fun y hy hn => absurd hy hn⟩
    · rw [List.append_nil]
      exact hist.ext hinv hevol.1 rfl
    · rw [List.append_nil]
      exact ⟨hno, hold.setNext hinv hpriv⟩
    · exact hquiet.ext hevol.1 (fun _ => id) fun z _ hz _ => absurd hz id
    · rintro c' y hc ho _ rfl
      rw [hpriv.1] at ho
      cases ho
      exact hc rfl

include hinv hist hnull in
/-- The load and the compare-and-swap of `cam`. -/
theorem step_cam {k : Call P} {old new : Versioned}
    (hphase : pc = .camRead k old new ∨ ∃ w, pc = .camSwap k old new w)
    (hquiet : Quiet own c G m pc) (hpc : PcOk own c G m h pc)
    (hid : k.op < ops ∧ ∀ b, .ret k.op b ∉ h)
    (hstep : stepThread m G.last tag pc = some r) : StepOk own c G m h ops r := by
  rcases hphase with rfl | ⟨w, rfl⟩
  · have hready : Ready own c G m h k old new := hpc
    simp only [stepThread] at hstep
    split at hstep
    · rename_i hold
      cases hstep
      exact stepOk_silent hinv hist hquiet hnull ⟨hready, hold⟩ fun z _ hz _ => absurd hz id
    · cases hstep
      exact stepOk_silent hinv hist hquiet hnull (.inl hready) fun z _ hz _ => absurd hz id
  · obtain ⟨hready, hw⟩ := hpc
    simp only [stepThread] at hstep
    split at hstep
    · rename_i hword
      cases hstep
      obtain ⟨hno, hprep⟩ := hready
      have hpriv := hprep.1
      have hevol := hprep.install hinv (by rw [hword, hw]) tag
      refine ⟨own, G.push k.p new m.stamp, new, hevol, rfl, rfl,
        hist.push hinv hevol.1 hid.1 hid.2 hprep.2.1, .inr ?_, ?_, fun _ _ => rfl, ?_, ?_⟩
      · refine ⟨G.last k.p + 1, by simp [Chains.push], push_ent G k.p new m.stamp, ?_, ?_⟩
        · exact effect_append.mpr (.inr (.inr ⟨k.ptr, by simp⟩))
        · intro q j heff
          rcases effect_append.mp heff with hold | hnew
          · exact absurd hold (hno q j)
          · simpa [Effect] using hnew
      · intro y ho hinst hnone
        by_cases hy : G.Inst y
        · exact absurd (hquiet y ho hy hnone) id
        · by_contra hne
          exact hevol.1.not_inst hy (Ne.symm hne) hinst
      · rintro c' y hc ho _ rfl
        rw [hpriv.1] at ho
        cases ho
        exact hc rfl
      · intro y hinst hy
        have heq : y = new := by
          by_contra hne
          exact hevol.1.not_inst hy hne hinst
        rw [heq]
        exact hpriv.1
    · cases hstep
      exact stepOk_silent hinv hist hquiet hnull (.inl hready) fun z _ hz _ => absurd hz id

omit [DecidableEq P] in
include hinv in
/-- A version that is no longer in its pointer has a stamp. -/
theorem Installed.stamped {k : Call P} {new : Versioned} (hi : Installed G h k new)
    (hv : (m.v k.p).2 ≠ new) : m.timeStamp new ≠ none := by
  obtain ⟨i, hle, rfl, _⟩ := hi
  exact stamped_of_ne_word hinv hle hv

include hinv hist hnull in
/-- The tests after `cam`, and the choice of a second attempt. -/
theorem step_verify {k : Call P} {old new : Versioned}
    (hphase : pc = .verify k old new ∨ pc = .verifyStamp k old new ∨
      ∃ l, old = .indirect l ∧ pc = .retry k l new)
    (hquiet : Quiet own c G m pc) (hpc : PcOk own c G m h pc)
    (hstep : stepThread m G.last tag pc = some r) : StepOk own c G m h ops r := by
  have hfinish : Installed G h k new →
      PcOk own c G m h (.setStamp new .load (.finish k new)) := by
    intro hi
    have ⟨i, hle, hent, _⟩ := hi
    exact ⟨.inl ⟨k.p, i, hle, hent⟩, rfl, hi⟩
  rcases hphase with rfl | rfl | ⟨l, rfl, rfl⟩
  · simp only [stepThread] at hstep
    split at hstep
    · rename_i hv
      cases hstep
      refine stepOk_silent hinv hist hquiet hnull (hfinish ?_) fun z _ hz _ => hz
      exact hpc.resolve_left fun hready => hready.2.1.ne_word hinv k.p hv
    · rename_i hv
      cases hstep
      refine stepOk_silent hinv hist hquiet hnull
        (hpc.imp_right fun hi => ⟨hi, hi.stamped hinv hv⟩) ?_
      rintro z hinst rfl hnone
      rcases hpc with hready | hi
      · exact hready.2.1.2.2.1 hinst
      · exact hi.stamped hinv hv hnone
  · simp only [stepThread] at hstep
    split at hstep
    · rename_i hts
      cases hstep
      refine stepOk_silent hinv hist hquiet hnull (hfinish ?_) fun z _ hz _ => absurd hz id
      exact (hpc.resolve_left fun hready => hts hready.2.1.2.2.2).1
    · rename_i hts
      rw [not_not] at hts
      have hready : Ready own c G m h k old new := hpc.resolve_right fun hi => hi.2 hts
      split at hstep
      · cases hstep
        exact stepOk_silent hinv hist hquiet hnull hready fun z _ hz _ => absurd hz id
      · cases hstep
        exact stepOk_silent hinv hist hquiet hnull trivial fun z _ hz _ => absurd hz id
  · have hready : Ready own c G m h k (.indirect l) new := hpc
    simp only [stepThread] at hstep
    split at hstep
    · cases hstep
      refine stepOk_silent hinv hist hquiet hnull ?_ fun z _ hz _ => absurd hz id
      obtain ⟨hno, hpriv, hptr, hlink, haim⟩ := hready
      refine ⟨hno, hpriv, hptr, hlink, .inr ⟨l, rfl, ?_⟩⟩
      rcases haim with haim | ⟨_, habs, _⟩
      · exact haim
      · cases habs
    · cases hstep
      exact stepOk_silent hinv hist hquiet hnull trivial fun z _ hz _ => absurd hz id

omit [DecidableEq P] in
include hinv hist hquiet hnull in
/-- The load of `load`, of `validate`, and of a `cas` that has failed. -/
theorem step_load {p : P} {k : After P} (hk : AfterOk own c G m h (m.v p).2 k)
    (hholds : ∀ y, ¬ pc.Holds y) :
    StepOk own c G m h ops ⟨[], m, G.last, .setStamp (m.v p).2 .load k⟩ :=
  stepOk_silent hinv hist hquiet hnull ⟨setStampOk_word hinv p, hk⟩
    fun z _ hz _ => absurd hz (hholds z)

include hinv hist hnull in
/-- A step of `get_read_stamp`. -/
theorem step_getReadStamp {s : Nat} {x : ReadStamp}
    (hquiet : Quiet own c G m (.getReadStamp s x)) (hpc : PcOk own c G m h (.getReadStamp s x))
    (hid : s < ops) (hstep : stepThread m G.last tag (.getReadStamp s x) = some r) :
    StepOk own c G m h ops r := by
  match x, hpc with
  | .load, hpc =>
      cases hstep
      refine stepOk_silent hinv hist hquiet hnull ⟨hpc, hinv.stamp_pos, le_rfl, ?_⟩
        fun z _ hz _ => absurd hz id
      intro op p i hb heff
      obtain ⟨t, ht⟩ := Option.ne_none_iff_exists'.mp ((hist.ret op hb.left_mem).2 p i heff)
      exact ⟨t, ht, hinv.le_stamp _ t ht⟩
  | .again ts, hpc =>
      obtain ⟨hno, hpos, hle, hbefore⟩ := hpc
      simp only [stepThread, getReadStamp] at hstep
      split at hstep
      · rename_i heq
        simp only [Prod.mk.injEq] at heq
        obtain ⟨rfl, hx⟩ := heq
        split at hx
        · cases hx
          cases hstep
          exact stepOk_silent hinv hist hquiet hnull ⟨hno, hpos, hle, hbefore⟩
            fun z _ hz _ => absurd hz id
        · cases hx
      · rename_i heq
        simp only [Prod.mk.injEq] at heq
        obtain ⟨rfl, hx⟩ := heq
        split at hx
        · cases hx
        · rename_i hne
          cases hx
          cases hstep
          have hlt : ts < m.stamp := by omega
          refine stepOk_of_ext hquiet hnull ⟨Ext.refl _ G m, hinv⟩ rfl rfl (fun _ => id)
            (hist.record le_rfl hid ⟨hno, hpos, hlt, hbefore⟩) ?_ fun z _ hz _ => absurd hz id
          exact List.mem_append_right _ (List.mem_singleton.mpr rfl)
  | .add ts, hpc =>
      obtain ⟨hno, hpos, hle, hbefore⟩ := hpc
      cases hstep
      have hevol := hinv.tick .null
      refine stepOk_of_ext hquiet hnull hevol rfl rfl (fun _ => id) ?_ ?_ fun z _ hz _ => absurd hz id
      · refine (hist.ext hinv hevol.1 rfl).record le_rfl hid
          ⟨hno, hpos, Nat.lt_succ_of_le hle, fun op p i hb heff => ?_⟩
        exact hevol.1.within (hist.le heff) (hbefore op p i hb heff)
      · exact List.mem_append_right _ (List.mem_singleton.mpr rfl)

include hinv hist hnull in
/-- A step of the walk of `read_snapshot` along the chain. -/
theorem step_walk {s ls : Nat} {p : P} {head : Versioned}
    (hphase : pc = .walk s ls p head ∨ pc = .follow s ls p head) (hquiet : Quiet own c G m pc)
    (hpc : PcOk own c G m h pc) (hdone : G.limit ≤ ls) (hid : s < ops)
    (hstep : stepThread m G.last tag pc = some r) : StepOk own c G m h ops r := by
  rcases hphase with rfl | rfl
  · obtain ⟨hst, hts, i, hi, hrep, hbeyond⟩ := hpc
    obtain ⟨t, ht⟩ := Option.ne_none_iff_exists'.mp hts
    have hls := (hist.stamped s ls hst).1
    simp only [stepThread, ht, less, decide_eq_true_eq] at hstep
    split at hstep
    · rename_i hcond
      cases hstep
      refine stepOk_silent hinv hist hquiet hnull ?_ fun z _ hz _ => absurd hz id
      -- A younger node is the version itself, since a replaced link is not younger than the snapshot.
      have heq : head = G.ent p i := by
        rcases hrep with heq | ⟨l, t', t₀, _, ht', hshort, _, _, ht₀, hle₀⟩
        · exact heq
        · obtain ⟨_, t₁, ht₁, hle⟩ := hinv.short l hshort
          rw [ht'] at ht₁
          rw [ht] at ht₀
          cases ht₁
          cases ht₀
          omega
      have hpos : i ≠ 0 := by
        rintro rfl
        obtain ⟨t₁, ht₁, hle₁⟩ := hinv.first p
        rw [← heq, ht] at ht₁
        cases ht₁
        omega
      obtain ⟨i, rfl⟩ := Nat.exists_eq_succ_of_ne_zero hpos
      refine ⟨hst, i, hi, heq, fun j hij hj => ?_⟩
      rcases Nat.lt_or_eq_of_le (Nat.succ_le_of_lt hij) with hlt | rfl
      · exact hbeyond j hlt hj
      · exact .inr ⟨t, by rw [← ht, heq], hcond.2⟩
    · rename_i hcond
      cases hstep
      have hle : t ≤ ls := by
        by_contra hlt
        refine hcond ⟨?_, by omega⟩
        rintro rfl
        rw [hinv.null] at ht
        cases ht
        omega
      have hwithin : Within G m ls p i := by
        rcases hrep with rfl | ⟨l, _, _, hl, _, hshort, _⟩
        · exact ⟨t, ht, hle⟩
        · obtain ⟨_, t', ht', hle'⟩ := hinv.short l hshort
          exact ⟨t', by rw [hl, ht'], hle'.trans hdone⟩
      refine stepOk_of_ext hquiet hnull ⟨Ext.refl _ G m, hinv⟩ rfl rfl (fun _ => id) (hist.record le_rfl hid
        ⟨ls, i, hst, ⟨hi, hwithin, hbeyond⟩, hrep.getPtr.symm⟩) ?_ fun z _ hz _ => absurd hz id
      exact List.mem_append_left _ hst
  · obtain ⟨hst, i, hi, rfl, hbeyond⟩ := hpc
    cases hstep
    have hrep := hinv.next p i hi
    refine stepOk_silent hinv hist hquiet hnull ⟨hst, ?_, i, hi.le, hrep, hbeyond⟩
      fun z _ hz _ => absurd hz id
    rcases hrep with heq | ⟨_, _, _, _, _, _, _, _, hts, _⟩
    · rw [heq]
      exact hinv.stamped p i hi
    · simp [hts]

include hinv hist hquiet hnull in
/-- Every step of a thread. -/
theorem PcOk.step (hpc : PcOk own c G m h pc)
    (hid : ∀ w, pc.op = some w → w < ops ∧ ∀ b, .ret w b ∉ h)
    (hdone : ∀ ls, pc.localStamp = some ls → G.limit ≤ ls)
    (hstep : stepThread m G.last tag pc = some r) : StepOk own c G m h ops r := by
  match pc with
  | .idle | .inside _ _ => cases hstep
  | .setStamp y x k =>
      exact step_setStamp hinv hist hnull hquiet hpc (fun w hw => (hid w hw).1) hstep
  | .shortcut p l x op =>
      exact step_shortcut hinv hist hnull hquiet hpc (fun w hw => (hid w hw).1) hstep
  | .cas k => exact step_cas hinv hist hnull hquiet hpc (hid k.op rfl) hstep
  | .useIndirect k old => exact step_prepare hinv hist hnull (.inl rfl) hquiet hpc hstep
  | .newLink k old => exact step_prepare hinv hist hnull (.inr (.inl rfl)) hquiet hpc hstep
  | .setNext k old => exact step_prepare hinv hist hnull (.inr (.inr rfl)) hquiet hpc hstep
  | .camRead k old new =>
      exact step_cam hinv hist hnull (.inl rfl) hquiet hpc (hid k.op rfl) hstep
  | .camSwap k old new w =>
      exact step_cam hinv hist hnull (.inr ⟨w, rfl⟩) hquiet hpc (hid k.op rfl) hstep
  | .verify k old new => exact step_verify hinv hist hnull (.inl rfl) hquiet hpc hstep
  | .verifyStamp k old new => exact step_verify hinv hist hnull (.inr (.inl rfl)) hquiet hpc hstep
  | .retry k l new =>
      exact step_verify hinv hist hnull (.inr (.inr ⟨l, rfl, rfl⟩)) hquiet hpc hstep
  | .failed k =>
      cases hstep
      exact step_load hinv hist hquiet hnull (k := .fail k) trivial fun _ => id
  | .load p =>
      cases hstep
      exact step_load hinv hist hquiet hnull (k := .load p (m.v p).2) trivial fun _ => id
  | .validate p =>
      cases hstep
      exact step_load hinv hist hquiet hnull (k := .validate) trivial fun _ => id
  | .getReadStamp s x => exact step_getReadStamp hinv hist hnull hquiet hpc (hid s rfl).1 hstep
  | .enter s ts =>
      cases hstep
      exact stepOk_silent hinv hist hquiet hnull hpc fun z _ hz _ => absurd hz id
  | .read s ls p =>
      cases hstep
      refine step_load hinv hist hquiet hnull (k := .walk s ls p (m.v p).2) ?_ fun _ => id
      refine ⟨rfl, hpc, G.last p, le_rfl, hinv.head p, fun j hlt hle => ?_⟩
      exact absurd hle (Nat.not_le.mpr hlt)
  | .walk s ls p head =>
      exact step_walk hinv hist hnull (.inl rfl) hquiet hpc (hdone ls rfl) (hid s rfl).1 hstep
  | .follow s ls p head =>
      exact step_walk hinv hist hnull (.inr rfl) hquiet hpc (hdone ls rfl) (hid s rfl).1 hstep

end Steps

/-! ## What a step leaves alone -/

/-- `set_stamp` does not change `done_stamp`. -/
theorem setStamp_done (m : Memory P) (y : Versioned) (x : SetStamp) :
    (setStamp m y x).1.done = m.done := by
  cases x with
  | swap t =>
      simp only [setStamp]
      split <;> rfl
  | load | clock | again => rfl

/-- `shortcut` does not change `done_stamp`. -/
theorem shortcut_done [DecidableEq P] (m : Memory P) (p : P) (l tag : Nat) (x : Shortcut) :
    (shortcut m p l tag x).1.done = m.done := by
  match x with
  | .swap w =>
      simp only [shortcut]
      split <;> rfl
  | .load | .test none | .test (some _) | .read => rfl

/-- What follows `set_stamp` belongs to the same call. -/
theorem resume_frame (k : After P) (m : Memory P) :
    ((k.resume m).2.op = k.op ∨ (k.resume m).2.op = none) ∧
      (∀ e ∈ (k.resume m).1, k.op = some e.id) ∧
      (∀ w b, .ret w b ∈ (k.resume m).1 → (k.resume m).2.op = none) ∧
      ∀ ls, (k.resume m).2.localStamp = some ls → (Pc.setStamp .null .load k).localStamp = some ls := by
  match k with
  | .test k old =>
      simp only [After.resume]
      split
      · simp [Pc.op, After.op, Event.id, Pc.localStamp]
      · split <;> simp [Pc.op, After.op, Event.id, Pc.localStamp]
  | .finish _ (.direct _) | .finish _ (.indirect _) | .fail _ | .load _ (.direct _)
  | .load _ (.indirect _) | .validate | .walk _ _ _ _ =>
      simp [After.resume, Pc.op, After.op, Event.id, Pc.localStamp]

/-- A step of a thread emits events of its call only, ends the call with its return, and leaves
`done_stamp` alone; a thread enters `with_snapshot` only in the step for it. -/
theorem stepThread_frame [DecidableEq P] {pc : Pc P} {r : Result P} {last : P → Nat} {tag : Nat}
    (hstep : stepThread m last tag pc = some r) :
    (r.pc.op = pc.op ∨ r.pc.op = none) ∧ (∀ e ∈ r.events, pc.op = some e.id) ∧
      (∀ w b, .ret w b ∈ r.events → r.pc.op = none) ∧ r.memory.done = m.done ∧
      ∀ ls, r.pc.localStamp = some ls → pc.localStamp = some ls ∨ pc.enters = some ls := by
  cases pc with
  | idle | inside => cases hstep
  | setStamp y x k =>
      have hdone := setStamp_done m y x
      simp only [stepThread] at hstep
      split at hstep
      · rename_i m' x' heq
        cases hstep
        rw [heq] at hdone
        refine ⟨.inl rfl, by simp, by simp, hdone, fun ls hls => .inl ?_⟩
        cases k <;> exact hls
      · rename_i m' heq
        cases hstep
        rw [heq] at hdone
        obtain ⟨hop, hes, hret, hls⟩ := resume_frame k m'
        refine ⟨hop, hes, hret, hdone, fun ls h => .inl ?_⟩
        have hls := hls ls h
        cases k <;> exact hls
  | shortcut p l x op =>
      have hdone := shortcut_done m p l tag x
      simp only [stepThread] at hstep
      split at hstep
      · rename_i m' x' heq
        cases hstep
        rw [heq] at hdone
        exact ⟨.inl rfl, by simp, by simp, hdone, fun ls hls => .inl hls⟩
      · rename_i m' heq
        cases hstep
        rw [heq] at hdone
        refine ⟨.inr rfl, ?_, fun _ _ _ => rfl, hdone, by rintro ls ⟨⟩⟩
        intro e he
        cases op with
        | none => simp at he
        | some w =>
            obtain rfl : e = .ret w true := by simpa using he
            rfl
  | getReadStamp s x =>
      cases x with
      | load =>
          cases hstep
          exact ⟨.inl rfl, by simp, by simp, rfl, by rintro ls ⟨⟩⟩
      | again ts =>
          simp only [stepThread, getReadStamp] at hstep
          split at hstep <;>
            simp only [Prod.mk.injEq] at * <;>
            cases hstep <;>
            simp_all [Pc.op, Event.id, Pc.localStamp]
      | add ts =>
          cases hstep
          simp [Pc.op, Event.id, Pc.localStamp]
  | cas k =>
      cases hstep
      refine ⟨.inl rfl, ?_, ?_, rfl, by rintro ls ⟨⟩⟩
      · intro e he
        split at he
        · obtain rfl := List.mem_singleton.mp he
          rfl
        · simp at he
      · intro w b hmem
        split at hmem <;> simp at hmem
  | useIndirect | camRead | camSwap | verify | verifyStamp | retry | walk =>
      simp only [stepThread] at hstep
      repeat' split at hstep
      all_goals
        cases hstep
        simp [Pc.op, After.op, Event.id, Pc.localStamp, Memory.setWord]
  | newLink | setNext | failed | load | validate | enter | read | follow =>
      cases hstep
      simp [Pc.op, After.op, Event.id, Pc.localStamp, Pc.enters, Memory.newLink, Memory.setNext]

end Verlib.Hybrid.Cas
