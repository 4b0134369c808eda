import Verlib.Hybrid.Builds

/-!
# `cas` takes effect once

A node is installed once and only the last installed node can be without a stamp, so a `cas` finds its
node in the pointer or stamped exactly when it has installed it. A word that is no longer the one that a
`cas` expects has been replaced: by `shortcut`, which keeps the value, or by a `cas`, which changes it;
so a `cas` that fails has seen another value.
-/

namespace Verlib.Hybrid.Builds

open Interleaving

/-- The event is a step of call `op` that changes the value. -/
def Event.changes (op : Nat) : Event → Bool
  | .step (some op') _ x y _ => op' = op && x ≠ y
  | _ => false

/-- The call to which an event belongs. -/
def Event.op : Event → Option Nat
  | .call op _ _ | .alloc op _ | .ret op _ => some op
  | .step op _ _ _ _ => op

/-- The call has changed nothing. -/
def NoChange (h : List Event) (op : Nat) : Prop :=
  h.filter (Event.changes op) = []

/-- The call has changed the value once, as it should. -/
def Changed (h : List Event) (k : Call) : Prop :=
  ∃ w, h.filter (Event.changes k.op) = [.step (some k.op) false k.exp k.ptr w]

/-- The value has differed from the expected one since the call. -/
def Differed (h : List Event) (k : Call) : Prop :=
  ∃ op b x y w, [.call k.op k.exp k.ptr, .step op b x y w].Sublist h ∧ y ≠ k.exp

/-- Whatever link the call has allocated has not been installed. -/
def Hidden (inst : Versioned → Prop) (h : List Event) (op : Nat) : Prop :=
  ∀ l, .alloc op l ∈ h → ¬ inst (.indirect l)

/-- The events neither change the value on behalf of the call nor allocate a link for it. -/
def Silent (es : List Event) (op : Nat) : Prop :=
  (∀ e ∈ es, e.changes op = false) ∧ ∀ l, .alloc op l ∉ es

section Histories

variable {h es : List Event} {op : Nat} {k : Call} {inst : Versioned → Prop}

/-- Events of other calls are silent. -/
theorem silent_of_op (hop : ∀ e ∈ es, e.op ≠ some op) : Silent es op := by
  refine ⟨fun e he => ?_, fun l hl => hop _ hl rfl⟩
  match e, he with
  | .step (some op') b x y w, he =>
      have hne : op' ≠ op := fun heq => hop _ he (by rw [heq]; rfl)
      simp [Event.changes, hne]
  | .step none _ _ _ _, _ | .call _ _ _, _ | .alloc _ _, _ | .ret _ _, _ => rfl

/-- Silent events add no change. -/
theorem Silent.filter (hes : Silent es op) :
    (h ++ es).filter (Event.changes op) = h.filter (Event.changes op) := by
  have hnil : es.filter (Event.changes op) = [] :=
    List.filter_eq_nil_iff.mpr fun e he => by simp [hes.1 e he]
  rw [List.filter_append, hnil, List.append_nil]

/-- A link of the call has been allocated before. -/
theorem Silent.alloc (hes : Silent es op) {l : Nat} (hl : .alloc op l ∈ h ++ es) : .alloc op l ∈ h :=
  (List.mem_append.mp hl).resolve_right (hes.2 l)

/-- The value has differed and goes on having done so. -/
theorem Differed.append (hd : Differed h k) (es : List Event) : Differed (h ++ es) k := by
  obtain ⟨op, b, x, y, w, hsub, hy⟩ := hd
  exact ⟨op, b, x, y, w, hsub.trans (List.sublist_append_left h es), hy⟩

/-- A step after the call shows a value that differs. -/
theorem differed_of_step {o : Option Nat} {b : Bool} {x y : Option Nat} {w : Versioned}
    (hcall : .call k.op k.exp k.ptr ∈ h) (he : .step o b x y w ∈ es) (hy : y ≠ k.exp) :
    Differed (h ++ es) k :=
  ⟨o, b, x, y, w, (List.singleton_sublist.mpr hcall).append (List.singleton_sublist.mpr he), hy⟩

end Histories

/-! ## The memory -/

/-- The invariant of the memory, where `inst` are the nodes that have been installed. -/
structure MemInv (inst : Versioned → Prop) (m : Memory Unit) : Prop where
  null : m.timeStamp .null ≠ none
  fresh : ∀ l, m.fresh ≤ l → m.timeStamp (.indirect l) = none ∧ ¬ inst (.indirect l)
  word : inst (m.v ()).2 ∨ ∃ ptr, (m.v ()).2 = .direct ptr ∧ m.timeStamp (.direct ptr) ≠ none
  stamped : ∀ y, inst y → m.timeStamp y = none → (m.v ()).2 = y
  value : ∀ l, inst (.indirect l) → m.timeStamp (.direct (m.value l)) ≠ none

/-- How a step may change the memory: stamps are written on installed nodes only. -/
structure Ext (inst : Versioned → Prop) (m : Memory Unit) (inst' : Versioned → Prop)
    (m' : Memory Unit) : Prop where
  timeStamp : ∀ y, m.timeStamp y ≠ none → m'.timeStamp y ≠ none
  written : ∀ y, m.timeStamp y = none → m'.timeStamp y ≠ none → inst y
  fresh : m.fresh ≤ m'.fresh
  value : ∀ l, l < m.fresh → m'.value l = m.value l
  inst : ∀ y, inst y → inst' y

/-- How a step may change the word: not at all, as `shortcut` does, or with a new value that the step
shows. -/
def WordStep (m m' : Memory Unit) (es : List Event) : Prop :=
  m'.v () = m.v () ∨ (∃ l, (m.v ()).2 = .indirect l ∧ (m'.v ()).2 = .direct (m.value l)) ∨
    value m' ≠ value m ∧ ∃ op b x w, .step op b x (value m') w ∈ es

/-- The nodes that a thread may install in a call: the objects that it owns and the link of the call. -/
def Mine {ι : Type} (owner : Nat → ι) (c : ι) (h : List Event) (op : Nat) : Versioned → Prop
  | .direct (some o) => owner o = c
  | .direct none => False
  | .indirect l => .alloc op l ∈ h

section Memory

variable {ι : Type} {inst inst' : Versioned → Prop} {m m' : Memory Unit} {y : Versioned}

/-- Nothing changes. -/
theorem Ext.refl (inst : Versioned → Prop) (m : Memory Unit) : Ext inst m inst m :=
  ⟨fun _ => id, fun _ hy hne => absurd hy hne, le_rfl, fun _ _ => rfl, fun _ => id⟩

/-- An installed link has been allocated. -/
theorem MemInv.lt_fresh (hm : MemInv inst m) {l : Nat} (hl : inst (.indirect l)) : l < m.fresh := by
  by_contra hge
  exact (hm.fresh l (Nat.not_lt.mp hge)).2 hl

/-- The pointer holds no node that is neither installed nor stamped. -/
theorem MemInv.ne_word (hm : MemInv inst m) (hno : ¬ inst y) (hts : m.timeStamp y = none) :
    (m.v ()).2 ≠ y := by
  rintro rfl
  rcases hm.word with hinst | ⟨ptr, hptr, hne⟩
  · exact hno hinst
  · rw [← hptr] at hne
    exact hne hts

/-- A link in the pointer has been installed. -/
theorem MemInv.word_link (hm : MemInv inst m) {l : Nat} (hl : (m.v ()).2 = .indirect l) :
    inst (.indirect l) := by
  rcases hm.word with hinst | ⟨ptr, hptr, _⟩
  · rwa [hl] at hinst
  · rw [hl] at hptr
    cases hptr

/-- `done_stamp` or the clock changes. -/
theorem MemInv.setClock (hm : MemInv inst m) (s d : Nat) :
    MemInv inst { m with stamp := s, done := d } ∧ Ext inst m inst { m with stamp := s, done := d } :=
  ⟨⟨hm.null, hm.fresh, hm.word, hm.stamped, hm.value⟩,
    ⟨fun _ => id, fun _ hy hne => absurd hy hne, le_rfl, fun _ _ => rfl, fun _ => id⟩⟩

/-- An installed node gets a stamp. -/
theorem MemInv.setTimeStamp (hm : MemInv inst m) (hy : inst y) (t : Nat) :
    MemInv inst (m.setTimeStamp y t) ∧ Ext inst m inst (m.setTimeStamp y t) := by
  have hkeep : ∀ z, m.timeStamp z ≠ none → (m.setTimeStamp y t).timeStamp z ≠ none := by
    intro z hz
    rcases eq_or_ne z y with rfl | hne
    · simp [Memory.setTimeStamp]
    · simpa [Memory.setTimeStamp, Function.update_of_ne hne] using hz
  have hother : ∀ z, (m.setTimeStamp y t).timeStamp z = none → m.timeStamp z = none := by
    intro z hz
    by_contra hne
    exact hkeep z hne hz
  refine ⟨⟨hkeep _ hm.null, fun l hl => ?_, ?_, fun z hz hts => hm.stamped z hz (hother z hts),
    fun l hl => hkeep _ (hm.value l hl)⟩, ⟨hkeep, fun z hz hne => ?_, le_rfl, fun _ _ => rfl, fun _ => id⟩⟩
  · obtain ⟨hts, hno⟩ := hm.fresh l hl
    refine ⟨?_, hno⟩
    have hne : Versioned.indirect l ≠ y := fun heq => hno (heq ▸ hy)
    simpa [Memory.setTimeStamp, Function.update_of_ne hne] using hts
  · rcases hm.word with hinst | ⟨ptr, hptr, hne⟩
    · exact .inl hinst
    · exact .inr ⟨ptr, hptr, hkeep _ hne⟩
  · rcases eq_or_ne z y with rfl | hzy
    · exact hy
    · have hsame : (m.setTimeStamp y t).timeStamp z = m.timeStamp z := Function.update_of_ne hzy _ _
      rw [hsame] at hne
      exact absurd hz hne

/-- A link is replaced by its value. -/
theorem MemInv.shortcut (hm : MemInv inst m) {l : Nat} (hl : (m.v ()).2 = .indirect l)
    (hts : m.timeStamp (.indirect l) ≠ none) (tag : Nat) :
    MemInv inst (m.setWord () (tag, .direct (m.value l))) ∧
      Ext inst m inst (m.setWord () (tag, .direct (m.value l))) := by
  have hword : (m.setWord () (tag, .direct (m.value l))).v () = (tag, .direct (m.value l)) := by
    simp [Memory.setWord]
  have hvalue := hm.value l (hm.word_link hl)
  refine ⟨⟨hm.null, hm.fresh, .inr ⟨_, by rw [hword], hvalue⟩, fun y hy hnone => ?_, hm.value⟩,
    ⟨fun _ => id, fun _ hy hne => absurd hy hne, le_rfl, fun _ _ => rfl, fun _ => id⟩⟩
  have hy' := hm.stamped y hy hnone
  rw [hl] at hy'
  subst hy'
  exact absurd hnone hts

/-- `next_version` is written. -/
theorem MemInv.setNext (hm : MemInv inst m) (y z : Versioned) :
    MemInv inst (m.setNext y z) ∧ Ext inst m inst (m.setNext y z) :=
  ⟨⟨hm.null, hm.fresh, hm.word, hm.stamped, hm.value⟩,
    ⟨fun _ => id, fun _ hy hne => absurd hy hne, le_rfl, fun _ _ => rfl, fun _ => id⟩⟩

/-- A link is allocated. -/
theorem MemInv.newLink (hm : MemInv inst m) (z : Versioned) (ptr : Option Nat) :
    MemInv inst (m.newLink z ptr) ∧ Ext inst m inst (m.newLink z ptr) := by
  have hvalue : ∀ l, l < m.fresh → (m.newLink z ptr).value l = m.value l :=
    fun l hl => Function.update_of_ne hl.ne _ _
  refine ⟨⟨hm.null, fun l hl => hm.fresh l (Nat.le_of_succ_le hl), hm.word, hm.stamped,
    fun l hl => ?_⟩, ⟨fun _ => id, fun _ hy hne => absurd hy hne, Nat.le_succ _, hvalue, fun _ => id⟩⟩
  rw [hvalue l (hm.lt_fresh hl)]
  exact hm.value l hl

/-- A node is installed in place of one that has a stamp. -/
theorem MemInv.install (hm : MemInv inst m) (hnone : m.timeStamp y = none)
    (halloc : ∀ l, y = .indirect l → l < m.fresh)
    (hlink : ∀ l, y = .indirect l → m.timeStamp (.direct (m.value l)) ≠ none)
    (hold : m.timeStamp (m.v ()).2 ≠ none) (tag : Nat) :
    MemInv (fun z => inst z ∨ z = y) (m.setWord () (tag, y)) ∧
      Ext inst m (fun z => inst z ∨ z = y) (m.setWord () (tag, y)) := by
  have hword : (m.setWord () (tag, y)).v () = (tag, y) := by simp [Memory.setWord]
  refine ⟨⟨hm.null, fun l hl => ⟨(hm.fresh l hl).1, ?_⟩, ?_, ?_, ?_⟩,
    ⟨fun _ => id, fun _ hy hne => absurd hy hne, le_rfl, fun _ _ => rfl, fun _ => .inl⟩⟩
  · rintro (hinst | heq)
    · exact (hm.fresh l hl).2 hinst
    · exact absurd (halloc l heq.symm) (Nat.not_lt.mpr hl)
  · rw [hword]
    exact .inl (.inr rfl)
  · rintro z (hz | rfl) hts
    · rw [← hm.stamped z hz hts] at hts
      exact absurd hts hold
    · rw [hword]
  · rintro l (hl | heq)
    · exact hm.value l hl
    · exact hlink l heq.symm

end Memory

/-! ## What a thread knows -/

variable {ι : Type}

/-- What a thread in `set_stamp(y)` knows. -/
def SetStampOk (inst : Versioned → Prop) (m : Memory Unit) (y : Versioned) : SetStamp → Prop
  | .load => inst y ∨ m.timeStamp y ≠ none
  | .clock | .again _ | .swap _ => inst y

/-- What a thread in `shortcut` of link `l` knows. -/
def ShortcutOk (m : Memory Unit) (l : Nat) : Shortcut → Prop
  | .load => True
  | .test t => t ≠ none → m.timeStamp (.indirect l) ≠ none
  | .read => m.timeStamp (.indirect l) ≠ none
  | .swap w => w.2 = .indirect l ∧ m.timeStamp (.indirect l) ≠ none

/-- The call has not had an effect. -/
def Open (inst : Versioned → Prop) (h : List Event) (k : Call) : Prop :=
  .call k.op k.exp k.ptr ∈ h ∧ NoChange h k.op ∧ Hidden inst h k.op

/-- The object passed to `cas` belongs to the thread unless it has a stamp. -/
def Passed (owner : Nat → ι) (c : ι) (m : Memory Unit) (k : Call) : Prop :=
  ∀ o, k.ptr = some o → m.timeStamp (.direct (some o)) = none → owner o = c

/-- What is known of the `old_v` that a `cas` replaces: it has a stamp and the expected value. -/
def Old (inst : Versioned → Prop) (m : Memory Unit) (k : Call) (old : Versioned) : Prop :=
  m.timeStamp old ≠ none ∧ m.getPtr old = k.exp ∧ ∀ l, old = .indirect l → inst (.indirect l)

/-- The node `new` can be installed. -/
def Ready (owner : Nat → ι) (c : ι) (inst : Versioned → Prop) (m : Memory Unit) (h : List Event)
    (k : Call) (new : Versioned) : Prop :=
  Mine owner c h k.op new ∧ ¬ inst new ∧ m.timeStamp new = none ∧ m.getPtr new = k.ptr ∧
    ∀ l, new = .indirect l → m.timeStamp (.direct (m.value l)) ≠ none

/-- Unless the value has differed, the word is as `Q` says, or it was a link and holds its value. -/
def Calm (m : Memory Unit) (h : List Event) (k : Call) (old : Versioned)
    (Q : Nat × Versioned → Prop) : Prop :=
  Differed h k ∨ Q (m.v ()) ∨ ∃ l, old = .indirect l ∧ (m.v ()).2 = .direct (m.value l)

/-- A `cas` between reading `old` and installing `new`. -/
def Trying (owner : Nat → ι) (c : ι) (inst : Versioned → Prop) (m : Memory Unit) (h : List Event)
    (k : Call) (old new : Versioned) (Q : Nat × Versioned → Prop) : Prop :=
  Open inst h k ∧ k.exp ≠ k.ptr ∧ Old inst m k old ∧ Ready owner c inst m h k new ∧ Calm m h k old Q

/-- What is known in `set_stamp(y)` of what follows it. -/
def AfterOk (owner : Nat → ι) (c : ι) (inst : Versioned → Prop) (m : Memory Unit) (h : List Event)
    (y : Versioned) : After → Prop
  | .test k old => y = old ∧ Open inst h k ∧ Passed owner c m k ∧
      (∀ l, old = .indirect l → inst (.indirect l)) ∧ (m.getPtr old ≠ k.exp → Differed h k) ∧
      (m.getPtr old = k.exp → Calm m h k old fun w => w.2 = old)
  | .finish k new => y = new ∧ .call k.op k.exp k.ptr ∈ h ∧ Changed h k
  | .fail k => Open inst h k ∧ Differed h k
  | .load _ | .validate => True

/-- What a thread knows at its position. -/
def PcOk (owner : Nat → ι) (c : ι) (inst : Versioned → Prop) (m : Memory Unit) (h : List Event) :
    Pc → Prop
  | .idle | .load | .read | .validate => True
  | .setStamp y x k => SetStampOk inst m y x ∧ AfterOk owner c inst m h y k
  | .shortcut l x op => ShortcutOk m l x ∧ ∀ w, op = some w →
      ∃ k : Call, k.op = w ∧ .call k.op k.exp k.ptr ∈ h ∧ Changed h k
  | .cas k => Open inst h k ∧ Passed owner c m k
  | .useIndirect k old => Open inst h k ∧ k.exp ≠ k.ptr ∧ Old inst m k old ∧ Passed owner c m k ∧
      Calm m h k old fun w => w.2 = old
  | .newLink k old => Open inst h k ∧ k.exp ≠ k.ptr ∧ Old inst m k old ∧
      m.timeStamp (.direct k.ptr) ≠ none ∧ Calm m h k old fun w => w.2 = old
  | .setNext k old => Trying owner c inst m h k old (.direct k.ptr) fun w => w.2 = old
  | .camRead k old new => Trying owner c inst m h k old new fun w => w.2 = old
  | .camSwap k old new w => w.2 = old ∧ Trying owner c inst m h k old new (· = w)
  | .verify k old new => Trying owner c inst m h k old new (fun _ => False) ∨
      inst new ∧ .call k.op k.exp k.ptr ∈ h ∧ Changed h k
  | .verifyStamp k old new => Trying owner c inst m h k old new (fun _ => False) ∨
      inst new ∧ .call k.op k.exp k.ptr ∈ h ∧ Changed h k ∧ m.timeStamp new ≠ none
  | .retry k l new => Trying owner c inst m h k (.indirect l) new fun _ => False
  | .failed k => Open inst h k ∧ Differed h k

section Transport

variable {owner : Nat → ι} {c : ι} {inst inst' : Versioned → Prop} {m m' : Memory Unit}
  {h es : List Event} {k : Call} {y old new : Versioned} {Q : Nat × Versioned → Prop} {op : Nat}

/-- What a thread in `set_stamp` knows stays known. -/
theorem Ext.setStampOk {x : SetStamp} (hext : Ext inst m inst' m') (hx : SetStampOk inst m y x) :
    SetStampOk inst' m' y x := by
  match x, hx with
  | .load, hx => exact hx.imp (hext.inst y) (hext.timeStamp y)
  | .clock, hx | .again _, hx | .swap _, hx => exact hext.inst y hx

/-- What a thread in `shortcut` knows stays known. -/
theorem Ext.shortcutOk {l : Nat} {x : Shortcut} (hext : Ext inst m inst' m') (hx : ShortcutOk m l x) :
    ShortcutOk m' l x := by
  match x, hx with
  | .load, _ => trivial
  | .test t, hx => exact fun ht => hext.timeStamp _ (hx ht)
  | .read, hx => exact hext.timeStamp _ hx
  | .swap w, hx => exact ⟨hx.1, hext.timeStamp _ hx.2⟩

/-- The object behind an old word stays the same. -/
theorem Ext.getPtr (hext : Ext inst m inst' m') (hm : MemInv inst m)
    (hlink : ∀ l, y = .indirect l → inst (.indirect l)) : m'.getPtr y = m.getPtr y := by
  cases y with
  | direct ptr => rfl
  | indirect l => exact hext.value l (hm.lt_fresh (hlink l rfl))

/-- What is known of the old word stays known. -/
theorem Old.ext (hext : Ext inst m inst' m') (hm : MemInv inst m) (ho : Old inst m k old) :
    Old inst' m' k old := by
  obtain ⟨hts, hptr, hlink⟩ := ho
  exact ⟨hext.timeStamp old hts, by rw [hext.getPtr hm hlink, hptr],
    fun l hl => hext.inst _ (hlink l hl)⟩

/-- The object still belongs to the thread unless it has a stamp. -/
theorem Passed.ext (hext : Ext inst m inst' m') (hp : Passed owner c m k) : Passed owner c m' k := by
  intro o ho hnone
  refine hp o ho ?_
  by_contra hne
  exact hext.timeStamp _ hne hnone

/-- The call still has had no effect. -/
theorem Open.ext (hes : Silent es k.op)
    (hmine : ∀ y, Mine owner c h k.op y → inst' y → inst y) (ho : Open inst h k) :
    Open inst' (h ++ es) k := by
  obtain ⟨hcall, hno, hhid⟩ := ho
  refine ⟨List.mem_append_left _ hcall, hes.filter.trans hno, fun l hl hinst => ?_⟩
  have hold := hes.alloc hl
  exact hhid l hold (hmine _ hold hinst)

/-- The one effect of the call stays its only one. -/
theorem Changed.append (hes : Silent es k.op) (hc : Changed h k) : Changed (h ++ es) k := by
  obtain ⟨w, hw⟩ := hc
  exact ⟨w, hes.filter.trans hw⟩

/-- A node that is ready stays ready. -/
theorem Ready.ext (hext : Ext inst m inst' m') (halloc : ∀ l, .alloc k.op l ∈ h → l < m.fresh)
    (hmine : ∀ y, Mine owner c h k.op y → inst' y → inst y) (hr : Ready owner c inst m h k new) :
    Ready owner c inst' m' (h ++ es) k new := by
  obtain ⟨hme, hno, hts, hptr, hlink⟩ := hr
  refine ⟨?_, fun hinst => hno (hmine new hme hinst), ?_, ?_, ?_⟩
  · match new, hme with
    | .direct (some _), hme => exact hme
    | .indirect l, hme => exact List.mem_append_left es hme
  · by_contra hne
    exact hno (hext.written new hts hne)
  · match new, hme with
    | .direct (some _), _ => exact hptr
    | .indirect l, hme =>
        have hvalue := hext.value l (halloc l hme)
        exact hvalue.trans hptr
  · rintro l rfl
    rw [hext.value l (halloc l hme)]
    exact hext.timeStamp _ (hlink l rfl)

/-- As long as the value has not differed the word only changes by `shortcut`. -/
theorem Calm.ext (hext : Ext inst m inst' m') (hm : MemInv inst m) (hword : WordStep m m' es)
    (hcall : .call k.op k.exp k.ptr ∈ h) (hold : m.getPtr old = k.exp)
    (hlink : ∀ l, old = .indirect l → inst (.indirect l)) (hQ : ∀ w, Q w → w.2 = old)
    (hc : Calm m h k old Q) : Calm m' (h ++ es) k old Q := by
  have hvalue : ∀ l, old = .indirect l → m'.value l = m.value l :=
    fun l hl => hext.value l (hm.lt_fresh (hlink l hl))
  rcases hc with hd | hq | ⟨l, rfl, hl⟩
  · exact .inl (hd.append es)
  · have hwd := hQ _ hq
    rcases hword with heq | ⟨l, hl, hl'⟩ | ⟨hne, o, b, x, w, he⟩
    · rw [← heq] at hq
      exact .inr (.inl hq)
    · rw [hwd] at hl
      exact .inr (.inr ⟨l, hl, by rw [hl', hvalue l hl]⟩)
    · refine .inl (differed_of_step hcall he ?_)
      rwa [← hold, ← hwd]
  · rcases hword with heq | ⟨l', hl', _⟩ | ⟨hne, o, b, x, w, he⟩
    · exact .inr (.inr ⟨l, rfl, by rw [heq, hl, hvalue l rfl]⟩)
    · rw [hl] at hl'
      cases hl'
    · refine .inl (differed_of_step hcall he ?_)
      have hval : value m = k.exp := by
        rw [value, hl]
        exact hold
      rwa [← hval]

variable (hext : Ext inst m inst' m') (hm : MemInv inst m) (hword : WordStep m m' es)
include hext hm hword

/-- A `cas` goes on trying. -/
theorem Trying.ext (halloc : ∀ l, .alloc k.op l ∈ h → l < m.fresh) (hes : Silent es k.op)
    (hmine : ∀ y, Mine owner c h k.op y → inst' y → inst y) (hQ : ∀ w, Q w → w.2 = old)
    (ht : Trying owner c inst m h k old new Q) : Trying owner c inst' m' (h ++ es) k old new Q := by
  obtain ⟨hopen, hdiff, hold, hready, hcalm⟩ := ht
  exact ⟨hopen.ext hes hmine, hdiff, hold.ext hext hm, hready.ext hext halloc hmine,
    hcalm.ext hext hm hword hopen.1 hold.2.1 hold.2.2 hQ⟩

/-- What is known of what follows `set_stamp` stays known. -/
theorem AfterOk.ext {a : After} (hes : ∀ op, a.op = some op → Silent es op)
    (hmine : ∀ op y, a.op = some op → Mine owner c h op y → inst' y → inst y)
    (ha : AfterOk owner c inst m h y a) : AfterOk owner c inst' m' (h ++ es) y a := by
  match a, ha with
  | .test k old, ha =>
      obtain ⟨rfl, hopen, hpass, hlink, hdiff, hcalm⟩ := ha
      have hptr := hext.getPtr hm hlink
      refine ⟨rfl, hopen.ext (hes k.op rfl) fun z => hmine k.op z rfl, hpass.ext hext,
        fun l hl => hext.inst _ (hlink l hl), fun hne => ?_, fun heq => ?_⟩
      · rw [hptr] at hne
        exact (hdiff hne).append es
      · rw [hptr] at heq
        exact (hcalm heq).ext hext hm hword hopen.1 heq hlink fun _ => id
  | .finish k new, ha =>
      exact ⟨ha.1, List.mem_append_left _ ha.2.1, ha.2.2.append (hes k.op rfl)⟩
  | .fail k, ha =>
      exact ⟨ha.1.ext (hes k.op rfl) fun z => hmine k.op z rfl, ha.2.append es⟩
  | .load _, _ | .validate, _ => trivial

/-- What a thread knows stays known. -/
theorem PcOk.ext {pc : Pc} (halloc : ∀ op l, pc.op = some op → .alloc op l ∈ h → l < m.fresh)
    (hes : ∀ op, pc.op = some op → Silent es op)
    (hmine : ∀ op y, pc.op = some op → Mine owner c h op y → inst' y → inst y)
    (hpc : PcOk owner c inst m h pc) : PcOk owner c inst' m' (h ++ es) pc := by
  have htry : ∀ {k old new Q}, pc.op = some k.op → (∀ w, Q w → w.2 = old) →
      Trying owner c inst m h k old new Q → Trying owner c inst' m' (h ++ es) k old new Q :=
    fun hop hQ ht => ht.ext hext hm hword (fun l => halloc _ l hop) (hes _ hop)
      (fun z => hmine _ z hop) hQ
  cases pc with
  | idle | load | read | validate => trivial
  | setStamp y x k =>
      exact ⟨hext.setStampOk hpc.1, AfterOk.ext hext hm hword hes hmine hpc.2⟩
  | shortcut l x op =>
      refine ⟨hext.shortcutOk hpc.1, fun w hw => ?_⟩
      obtain ⟨k, hk, hcall, hch⟩ := hpc.2 w hw
      refine ⟨k, hk, List.mem_append_left _ hcall, hch.append (hes _ ?_)⟩
      rw [hk]
      exact hw
  | cas k => exact ⟨hpc.1.ext (hes k.op rfl) fun z => hmine k.op z rfl, hpc.2.ext hext⟩
  | useIndirect k old =>
      obtain ⟨hopen, hdiff, hold, hpass, hcalm⟩ := hpc
      exact ⟨hopen.ext (hes k.op rfl) fun z => hmine k.op z rfl, hdiff, hold.ext hext hm,
        hpass.ext hext, hcalm.ext hext hm hword hopen.1 hold.2.1 hold.2.2 fun _ => id⟩
  | newLink k old =>
      obtain ⟨hopen, hdiff, hold, hts, hcalm⟩ := hpc
      exact ⟨hopen.ext (hes k.op rfl) fun z => hmine k.op z rfl, hdiff, hold.ext hext hm,
        hext.timeStamp _ hts, hcalm.ext hext hm hword hopen.1 hold.2.1 hold.2.2 fun _ => id⟩
  | setNext k old => exact htry rfl (fun _ => id) hpc
  | camRead k old new => exact htry rfl (fun _ => id) hpc
  | camSwap k old new w =>
      refine ⟨hpc.1, htry rfl ?_ hpc.2⟩
      rintro w' rfl
      exact hpc.1
  | verify k old new =>
      exact hpc.imp (htry rfl fun _ => False.elim) fun hd =>
        ⟨hext.inst _ hd.1, List.mem_append_left _ hd.2.1, hd.2.2.append (hes k.op rfl)⟩
  | verifyStamp k old new =>
      exact hpc.imp (htry rfl fun _ => False.elim) fun hd =>
        ⟨hext.inst _ hd.1, List.mem_append_left _ hd.2.1, hd.2.2.1.append (hes k.op rfl),
          hext.timeStamp _ hd.2.2.2⟩
  | retry k l new => exact htry rfl (fun _ => False.elim) hpc
  | failed k => exact ⟨hpc.1.ext (hes k.op rfl) fun z => hmine k.op z rfl, hpc.2.append es⟩

end Transport

/-! ## The history -/

/-- What the history says. -/
structure HistInv (inst : Versioned → Prop) (m : Memory Unit) (h : List Event) (ops : Nat) :
    Prop where
  op_lt : ∀ e ∈ h, ∀ op, e.op = some op → op < ops
  short : ∀ o x y w, .step o true x y w ∈ h → x = y
  word : ∀ o b x y l, .step o b x y (.indirect l) ∈ h → inst (.indirect l)
  alloc : ∀ op l, .alloc op l ∈ h → l < m.fresh
  alloc_unique : ∀ op op' l, .alloc op l ∈ h → .alloc op' l ∈ h → op = op'
  call_unique : ∀ op x y x' y', .call op x y ∈ h → .call op x' y' ∈ h → x = x' ∧ y = y'
  ret_true : ∀ op, .ret op true ∈ h → ∃ k : Call, k.op = op ∧ .call k.op k.exp k.ptr ∈ h ∧
    (k.exp ≠ k.ptr → Changed h k)
  ret_false : ∀ op, .ret op false ∈ h → ∃ k : Call, k.op = op ∧ Open inst h k ∧
    ∃ o b x y w, [.call k.op k.exp k.ptr, .step o b x y w, .ret op false].Sublist h ∧ y ≠ k.exp

section History

variable {inst inst' : Versioned → Prop} {m m' : Memory Unit} {h : List Event} {ops : Nat}

/-- The memory changes; a new link in the pointer belongs to a call that has not returned. -/
theorem HistInv.ext (hist : HistInv inst m h ops) (hext : Ext inst m inst' m')
    (hnew : ∀ l, inst' (.indirect l) → inst (.indirect l) ∨
      ∃ op, .alloc op l ∈ h ∧ ∀ b, .ret op b ∉ h) : HistInv inst' m' h ops := by
  refine { hist with
    word := fun o b x y l he => hext.inst _ (hist.word o b x y l he)
    alloc := fun op l hl => (hist.alloc op l hl).trans_le hext.fresh
    ret_false := fun op hret => ?_ }
  obtain ⟨k, hk, ⟨hcall, hno, hhid⟩, hd⟩ := hist.ret_false op hret
  refine ⟨k, hk, ⟨hcall, hno, fun l hl hinst => ?_⟩, hd⟩
  rcases hnew l hinst with hold | ⟨op', hl', hlive⟩
  · exact hhid l hl hold
  · rw [hist.alloc_unique _ _ l hl' hl, hk] at hlive
    exact hlive false hret

/-- An event of a call that has not returned is added. -/
theorem HistInv.add (hist : HistInv inst m h ops) {e : Event}
    (hlive : ∀ op, e.op = some op → op < ops ∧ ∀ b, .ret op b ∉ h)
    (hshort : ∀ o x y w, e = .step o true x y w → x = y)
    (hword : ∀ o b x y l, e = .step o b x y (.indirect l) → inst (.indirect l))
    (halloc : ∀ op l, e = .alloc op l → l < m.fresh ∧ ∀ op', .alloc op' l ∉ h)
    (hcall : ∀ op x y, e = .call op x y → ∀ x' y', .call op x' y' ∉ h)
    (htrue : ∀ op, e = .ret op true → ∃ k : Call, k.op = op ∧ .call k.op k.exp k.ptr ∈ h ∧
      (k.exp ≠ k.ptr → Changed h k))
    (hfalse : ∀ op, e = .ret op false → ∃ k : Call, k.op = op ∧ Open inst h k ∧ Differed h k) :
    HistInv inst m (h ++ [e]) ops := by
  have hcases : ∀ {e'}, e' ∈ h ++ [e] → e' ∈ h ∨ e = e' := by
    intro e' he'
    rw [List.mem_append, List.mem_singleton] at he'
    exact he'.imp_right Eq.symm
  -- The event adds nothing to what is known of a call that has returned.
  have hsilent : ∀ {op b}, .ret op b ∈ h → Silent [e] op := by
    intro op b hret
    refine silent_of_op fun e' he' hop => ?_
    rw [List.mem_singleton.mp he'] at hop
    exact (hlive op hop).2 b hret
  have hopen : ∀ {k : Call}, Silent [e] k.op → Open inst h k → Open inst (h ++ [e]) k := by
    rintro k hes ⟨hcall, hno, hhid⟩
    exact ⟨List.mem_append_left _ hcall, hes.filter.trans hno, fun l hl => hhid l (hes.alloc hl)⟩
  have hsub : ∀ {k : Call}, Differed h k → ∃ o b x y w,
      [.call k.op k.exp k.ptr, .step o b x y w, e].Sublist (h ++ [e]) ∧ y ≠ k.exp := by
    rintro k ⟨o, b, x, y, w, hsub, hy⟩
    exact ⟨o, b, x, y, w, hsub.append (List.Sublist.refl [e]), hy⟩
  have hret_silent : ∀ op b, Silent [.ret op b] op := by
    intro op b
    refine ⟨fun e he => ?_, by simp⟩
    rw [List.mem_singleton.mp he]
    rfl
  refine ⟨?_, ?_, ?_, ?_, ?_, ?_, ?_, ?_⟩
  · intro e' he' op hop
    rcases hcases he' with hold | rfl
    · exact hist.op_lt e' hold op hop
    · exact (hlive op hop).1
  · intro o x y w he'
    rcases hcases he' with hold | heq
    · exact hist.short o x y w hold
    · exact hshort o x y w heq
  · intro o b x y l he'
    rcases hcases he' with hold | heq
    · exact hist.word o b x y l hold
    · exact hword o b x y l heq
  · intro op l he'
    rcases hcases he' with hold | heq
    · exact hist.alloc op l hold
    · exact (halloc op l heq).1
  · intro op op' l he he'
    rcases hcases he with hold | heq
    · rcases hcases he' with hold' | heq'
      · exact hist.alloc_unique op op' l hold hold'
      · exact absurd hold ((halloc op' l heq').2 op)
    · rcases hcases he' with hold' | heq'
      · exact absurd hold' ((halloc op l heq).2 op')
      · rw [heq] at heq'
        cases heq'
        rfl
  · intro op x y x' y' he he'
    rcases hcases he with hold | heq
    · rcases hcases he' with hold' | heq'
      · exact hist.call_unique op x y x' y' hold hold'
      · exact absurd hold (hcall op x' y' heq' x y)
    · rcases hcases he' with hold' | heq'
      · exact absurd hold' (hcall op x y heq x' y')
      · rw [heq] at heq'
        cases heq'
        exact ⟨rfl, rfl⟩
  · intro op he'
    rcases hcases he' with hold | rfl
    · obtain ⟨k, rfl, hk, hch⟩ := hist.ret_true op hold
      exact ⟨k, rfl, List.mem_append_left _ hk, fun hne => (hch hne).append (hsilent hold)⟩
    · obtain ⟨k, rfl, hk, hch⟩ := htrue op rfl
      exact ⟨k, rfl, List.mem_append_left _ hk, fun hne => (hch hne).append (hret_silent _ _)⟩
  · intro op he'
    rcases hcases he' with hold | rfl
    · obtain ⟨k, rfl, hk, o, b, x, y, w, hd, hy⟩ := hist.ret_false op hold
      exact ⟨k, rfl, hopen (hsilent hold) hk, o, b, x, y, w,
        hd.trans (List.sublist_append_left h [e]), hy⟩
    · obtain ⟨k, rfl, hk, hd⟩ := hfalse op rfl
      exact ⟨k, rfl, hopen (hret_silent _ _) hk, hsub hd⟩

end History

/-! ## The steps of a thread -/

/-- The node that a `cas` has installed and not yet stamped. -/
def Pc.Holds : Pc → Versioned → Prop
  | .verify _ _ new, y | .setStamp _ _ (.finish _ new), y => new = y
  | _, _ => False

/-- An installed object of the thread without a stamp is the one that it is installing. -/
def Quiet (owner : Nat → ι) (c : ι) (inst : Versioned → Prop) (m : Memory Unit) (pc : Pc) : Prop :=
  ∀ o, owner o = c → inst (.direct (some o)) → m.timeStamp (.direct (some o)) = none →
    pc.Holds (.direct (some o))

/-- What a step shows. -/
def shown (pc : Pc) (m m' : Memory Unit) : Event :=
  .step pc.op pc.short (value m) (value m') (m'.v ()).2

/-- What a step of thread `c` establishes. -/
structure StepOk (owner : Nat → ι) (c : ι) (inst : Versioned → Prop) (m : Memory Unit)
    (h : List Event) (ops : Nat) (pc : Pc) (inst' : Versioned → Prop) (m' : Memory Unit)
    (es : List Event) (pc' : Pc) : Prop where
  mem : MemInv inst' m'
  ext : Ext inst m inst' m'
  word : WordStep m m' es
  hist : HistInv inst' m' (h ++ es) ops
  known : PcOk owner c inst' m' (h ++ es) pc'
  quiet : Quiet owner c inst' m' pc'
  new : ∀ y, inst' y → inst y ∨ ∃ op, pc.op = some op ∧ Mine owner c h op y
  events : ∀ e ∈ es, e.op = none ∨ e.op = pc.op
  live : ∀ op, pc'.op = some op → pc.op = some op ∧ ∀ b, .ret op b ∉ es

section Steps

variable {owner : Nat → ι} {c : ι} {inst : Versioned → Prop} {m m' : Memory Unit} {h : List Event}
  {ops : Nat} {pc pc' : Pc}

/-- The thread holds no node any more that is not stamped. -/
theorem Quiet.ext (hext : Ext inst m inst m') (hquiet : Quiet owner c inst m pc)
    (hholds : ∀ y, m'.timeStamp y = none → pc.Holds y → pc'.Holds y) : Quiet owner c inst m' pc' := by
  intro o ho hinst hnone
  refine hholds _ hnone (hquiet o ho hinst ?_)
  by_contra hne
  exact hext.timeStamp _ hne hnone

/-- What is shared by all steps that install nothing: they keep the value. -/
structure Frame (inst : Versioned → Prop) (m m' : Memory Unit) : Prop where
  mem : MemInv inst m'
  ext : Ext inst m inst m'
  value : value m' = value m
  word : m'.v () = m.v () ∨ ∃ l, (m.v ()).2 = .indirect l ∧ (m'.v ()).2 = .direct (m.value l)

variable (hm : MemInv inst m) (hist : HistInv inst m h ops) (hpc : PcOk owner c inst m h pc)
  (hquiet : Quiet owner c inst m pc)
  (hlive : ∀ op, pc.op = some op → op < ops ∧ ∀ b, .ret op b ∉ h)

/-- The word is the same, so is the value. -/
theorem frame_of_word (hm : MemInv inst m) (hm' : MemInv inst m') (hext : Ext inst m inst m')
    (hv : m'.v () = m.v ()) : Frame inst m m' := by
  refine ⟨hm', hext, ?_, .inl hv⟩
  unfold value
  rw [hv]
  exact hext.getPtr hm fun l hl => hm.word_link hl

include hm in
/-- Nothing changes. -/
theorem frame_refl : Frame inst m m :=
  frame_of_word hm hm (Ext.refl inst m) rfl

include hm hist hpc hlive in
/-- A step that installs nothing shows that the value stays, and what the thread knows stays known. -/
theorem Frame.shows (hf : Frame inst m m') :
    HistInv inst m' (h ++ [shown pc m m']) ops ∧ PcOk owner c inst m' (h ++ [shown pc m m']) pc ∧
      WordStep m m' [shown pc m m'] := by
  have hword : WordStep m m' [shown pc m m'] := by
    rcases hf.word with heq | hl
    · exact .inl heq
    · exact .inr (.inl hl)
  have hsilent : ∀ op, Silent [shown pc m m'] op := by
    intro op
    refine ⟨fun e he => ?_, by simp [shown]⟩
    rw [List.mem_singleton.mp he, shown, hf.value]
    cases pc.op <;> simp [Event.changes]
  refine ⟨?_, PcOk.ext hf.ext hm hword (fun op l _ => hist.alloc op l) (fun op _ => hsilent op)
    (fun _ _ _ _ => id) hpc, hword⟩
  refine (hist.ext hf.ext fun l hl => .inl hl).add (fun op hop => hlive op hop) ?_ ?_ ?_ ?_ ?_ ?_
  · intro o x y w heq
    simp only [shown, Event.step.injEq] at heq
    rw [← heq.2.2.1, ← heq.2.2.2.1, hf.value]
  · intro o b x y l heq
    simp only [shown, Event.step.injEq] at heq
    exact hf.mem.word_link heq.2.2.2.2
  · rintro op l ⟨⟩
  · rintro op x y ⟨⟩
  · rintro op ⟨⟩
  · rintro op ⟨⟩

include hm hist hpc hlive in
/-- A step that installs nothing and does not return. -/
theorem Frame.stepOk (hf : Frame inst m m')
    (hpc' : HistInv inst m' (h ++ [shown pc m m']) ops →
      PcOk owner c inst m' (h ++ [shown pc m m']) pc → PcOk owner c inst m' (h ++ [shown pc m m']) pc')
    (hquiet' : Quiet owner c inst m' pc') (hop : ∀ op, pc'.op = some op → pc.op = some op) :
    StepOk owner c inst m h ops pc inst m' [shown pc m m'] pc' := by
  obtain ⟨hist', hold, hword⟩ := hf.shows hm hist hpc hlive
  refine ⟨hf.mem, hf.ext, hword, hist', hpc' hist' hold, hquiet', fun y hy => .inl hy, ?_,
    fun op ho => ⟨hop op ho, by simp [shown]⟩⟩
  intro e he
  rw [List.mem_singleton.mp he]
  exact .inr rfl

include hm hist hpc hlive in
/-- A step that returns from `cas`. -/
theorem Frame.stepOk_ret {op : Nat} {b : Bool} (hf : Frame inst m m') (hop : pc.op = some op)
    (hquiet' : Quiet owner c inst m' .idle)
    (htrue : PcOk owner c inst m' (h ++ [shown pc m m']) pc → b = true → ∃ k : Call, k.op = op ∧
      .call k.op k.exp k.ptr ∈ h ++ [shown pc m m'] ∧
      (k.exp ≠ k.ptr → Changed (h ++ [shown pc m m']) k))
    (hfalse : PcOk owner c inst m' (h ++ [shown pc m m']) pc → b = false → ∃ k : Call, k.op = op ∧
      Open inst (h ++ [shown pc m m']) k ∧ Differed (h ++ [shown pc m m']) k) :
    StepOk owner c inst m h ops pc inst m' [shown pc m m', .ret op b] .idle := by
  obtain ⟨hist', hold, hword⟩ := hf.shows hm hist hpc hlive
  have happ : h ++ [shown pc m m', .ret op b] = (h ++ [shown pc m m']) ++ [.ret op b] := by simp
  refine ⟨hf.mem, hf.ext, ?_, ?_, trivial, hquiet', fun y hy => .inl hy, ?_, by rintro _ ⟨⟩⟩
  · rcases hf.word with heq | hl
    · exact .inl heq
    · exact .inr (.inl hl)
  · rw [happ]
    refine hist'.add ?_ (by rintro _ _ _ _ ⟨⟩) (by rintro _ _ _ _ _ ⟨⟩) (by rintro _ _ ⟨⟩)
      (by rintro _ _ _ ⟨⟩) ?_ ?_
    · rintro _ ⟨⟩
      obtain ⟨hlt, hno⟩ := hlive op hop
      refine ⟨hlt, fun b' hmem => ?_⟩
      rw [List.mem_append, List.mem_singleton] at hmem
      rcases hmem with hmem | heq
      · exact hno b' hmem
      · cases heq
    · rintro _ ⟨⟩
      exact htrue hold rfl
    · rintro _ ⟨⟩
      exact hfalse hold rfl
  · intro e he
    rcases List.mem_cons.mp he with rfl | he
    · exact .inr rfl
    · rw [List.mem_singleton.mp he]
      exact .inr hop.symm

/-- A step of `set_stamp`; when it returns the node has a stamp. -/
theorem MemInv.setStamp_step {y : Versioned} {x : SetStamp} (hm : MemInv inst m)
    (hx : SetStampOk inst m y x) : Frame inst m (setStamp m y x).1 ∧
      (∀ x', (setStamp m y x).2 = some x' → SetStampOk inst (setStamp m y x).1 y x') ∧
      ((setStamp m y x).2 = none → (setStamp m y x).1.timeStamp y ≠ none) := by
  match x, hx with
  | .load, hx =>
      refine ⟨frame_refl hm, fun x' hx' => ?_, fun hret habs => ?_⟩
      · simp only [setStamp] at hx'
        split at hx'
        · rename_i hcond
          cases hx'
          exact hx.resolve_right (not_not_intro hcond.2)
        · cases hx'
      · have habs : m.timeStamp y = none := habs
        have hnull : y ≠ .null := by
          rintro rfl
          exact hm.null habs
        simp [setStamp, hnull, habs] at hret
  | .clock, hx =>
      refine ⟨frame_refl hm, ?_, by simp [setStamp]⟩
      rintro x' ⟨⟩
      exact hx
  | .again t, hx =>
      refine ⟨frame_refl hm, fun x' hx' => ?_, fun hret habs => ?_⟩
      · simp only [setStamp] at hx'
        split at hx'
        · cases hx'
          exact hx
        · cases hx'
      · have habs : m.timeStamp y = none := habs
        simp [setStamp, habs] at hret
  | .swap t, hx =>
      simp only [setStamp]
      split
      · obtain ⟨hm', hext⟩ := hm.setTimeStamp hx t
        refine ⟨frame_of_word hm hm' hext rfl, by simp, fun _ => ?_⟩
        simp [Memory.setTimeStamp]
      · rename_i hts
        exact ⟨frame_refl hm, by simp, fun _ => hts⟩

/-- A step of `shortcut`. It keeps the value. -/
theorem MemInv.shortcut_step {l : Nat} {x : Shortcut} (hm : MemInv inst m)
    (hx : ShortcutOk m l x) (tag : Nat) : Frame inst m (Hybrid.shortcut m () l tag x).1 ∧
      ∀ x', (Hybrid.shortcut m () l tag x).2 = some x' →
        ShortcutOk (Hybrid.shortcut m () l tag x).1 l x' := by
  match x, hx with
  | .load, _ =>
      refine ⟨frame_refl hm, ?_⟩
      rintro x' ⟨⟩
      exact id
  | .test none, _ => exact ⟨frame_refl hm, by simp [Hybrid.shortcut]⟩
  | .test (some t), hx =>
      refine ⟨frame_refl hm, fun x' hx' => ?_⟩
      simp only [Hybrid.shortcut] at hx'
      split at hx'
      · cases hx'
        exact hx (by simp)
      · cases hx'
  | .read, hx =>
      refine ⟨frame_refl hm, fun x' hx' => ?_⟩
      simp only [Hybrid.shortcut] at hx'
      split at hx'
      · rename_i hword
        cases hx'
        exact ⟨hword, hx⟩
      · cases hx'
  | .swap w, hx =>
      simp only [Hybrid.shortcut]
      split
      · rename_i hword
        have hl : (m.v ()).2 = .indirect l := by rw [hword, hx.1]
        obtain ⟨hm', hext⟩ := hm.shortcut hl hx.2 tag
        have hself : (m.setWord () (tag, .direct (m.value l))).v () = (tag, .direct (m.value l)) := by
          simp [Memory.setWord]
        refine ⟨⟨hm', hext, ?_, .inr ⟨l, hl, by rw [hself]⟩⟩, by simp⟩
        unfold Builds.value
        rw [hself, hl]
        rfl
      · exact ⟨frame_refl hm, by simp⟩

include hm hist in
/-- A step of `set_stamp`. -/
theorem step_setStamp {help : Bool} {tag : Nat} {y : Versioned} {x : SetStamp} {k : After}
    {al re : List Event} (hpc : PcOk owner c inst m h (.setStamp y x k))
    (hquiet : Quiet owner c inst m (.setStamp y x k))
    (hlive : ∀ op, k.op = some op → op < ops ∧ ∀ b, .ret op b ∉ h)
    (hstep : stepThread help m tag (.setStamp y x k) = some (m', al, re, pc')) :
    StepOk owner c inst m h ops (.setStamp y x k) inst m' (al ++ shown (.setStamp y x k) m m' :: re)
      pc' := by
  obtain ⟨hf, hnext, hret⟩ := hm.setStamp_step hpc.1
  simp only [stepThread] at hstep
  split at hstep
  · rename_i m₁ x' heq
    cases hstep
    rw [heq] at hf hnext
    refine hf.stepOk hm hist hpc hlive (fun _ hold => ⟨hnext x' rfl, hold.2⟩) (hquiet.ext hf.ext ?_)
      fun _ => id
    intro z _ hz
    cases k <;> exact hz
  · rename_i m₁ heq
    cases hstep
    rw [heq] at hf hret
    have hts := hret rfl
    -- The node that was held is the one that now has its stamp.
    have hquiet' : ∀ {pc'}, Quiet owner c inst m' pc' := by
      intro pc'
      refine hquiet.ext hf.ext fun z hnone hz => ?_
      cases k with
      | finish k new =>
          obtain rfl : new = z := hz
          rw [hpc.2.1] at hts
          exact absurd hnone hts
      | test | fail | load | validate => exact absurd hz id
    match k, hpc, hlive with
    | .test k old, hpc, hlive =>
        simp only [After.resume]
        split
        · rename_i hne
          refine hf.stepOk_ret hm hist hpc hlive rfl hquiet' (fun _ hb => by cases hb) fun hold _ => ?_
          obtain ⟨_, rfl, hopen, _, _, hdiff, _⟩ := hold
          exact ⟨k, rfl, hopen, hdiff hne⟩
        · rename_i heq
          rw [not_not] at heq
          split
          · rename_i hsame
            refine hf.stepOk_ret hm hist hpc hlive rfl hquiet' (fun hold _ => ?_) fun _ hb => by cases hb
            exact ⟨k, rfl, hold.2.2.1.1, fun hne => absurd hsame hne⟩
          · rename_i hne
            refine hf.stepOk hm hist hpc hlive (fun _ hold => ?_) hquiet' fun _ => id
            obtain ⟨_, rfl, hopen, hpass, hlink, _, hcalm⟩ := hold
            exact ⟨hopen, hne, ⟨hts, heq, hlink⟩, hpass, hcalm heq⟩
    | .finish k (.indirect l), hpc, hlive =>
        refine hf.stepOk hm hist hpc hlive (fun _ hold => ⟨trivial, ?_⟩) hquiet' fun _ => id
        rintro w ⟨⟩
        exact ⟨k, rfl, hold.2.2⟩
    | .finish k (.direct _), hpc, hlive =>
        refine hf.stepOk_ret hm hist hpc hlive rfl hquiet' (fun hold _ => ?_) fun _ hb => by cases hb
        exact ⟨k, rfl, hold.2.2.1, fun _ => hold.2.2.2⟩
    | .fail k, hpc, hlive =>
        refine hf.stepOk_ret hm hist hpc hlive rfl hquiet' (fun _ hb => by cases hb) fun hold _ => ?_
        exact ⟨k, rfl, hold.2⟩
    | .load (.indirect l), hpc, hlive =>
        exact hf.stepOk hm hist hpc hlive (fun _ _ => ⟨trivial, by rintro w ⟨⟩⟩) hquiet' fun _ => id
    | .load (.direct _), hpc, hlive =>
        exact hf.stepOk hm hist hpc hlive (fun _ _ => trivial) hquiet' fun _ => id
    | .validate, hpc, hlive =>
        exact hf.stepOk hm hist hpc hlive (fun _ _ => trivial) hquiet' fun _ => id

include hm hist in
/-- A step of `shortcut`. -/
theorem step_shortcut {help : Bool} {tag l : Nat} {x : Shortcut} {o : Option Nat}
    {al re : List Event} (hpc : PcOk owner c inst m h (.shortcut l x o))
    (hquiet : Quiet owner c inst m (.shortcut l x o))
    (hlive : ∀ op, o = some op → op < ops ∧ ∀ b, .ret op b ∉ h)
    (hstep : stepThread help m tag (.shortcut l x o) = some (m', al, re, pc')) :
    StepOk owner c inst m h ops (.shortcut l x o) inst m' (al ++ shown (.shortcut l x o) m m' :: re)
      pc' := by
  obtain ⟨hf, hnext⟩ := hm.shortcut_step hpc.1 tag
  simp only [stepThread] at hstep
  split at hstep
  · rename_i m₁ x' heq
    cases hstep
    rw [heq] at hf hnext
    exact hf.stepOk hm hist hpc hlive (fun _ hold => ⟨hnext x' rfl, hold.2⟩)
      (hquiet.ext hf.ext fun _ _ => id) fun _ => id
  · rename_i m₁ heq
    cases hstep
    rw [heq] at hf
    have hquiet' : Quiet owner c inst m' .idle := hquiet.ext hf.ext fun _ _ => id
    cases o with
    | none => exact hf.stepOk hm hist hpc hlive (fun _ _ => trivial) hquiet' fun _ => id
    | some w =>
        refine hf.stepOk_ret hm hist hpc hlive rfl hquiet' (fun hold _ => ?_) fun _ hb => by cases hb
        obtain ⟨k, rfl, hcall, hch⟩ := hold.2 w rfl
        exact ⟨k, rfl, hcall, fun _ => hch⟩

/-- What the pointer holds can be passed to `set_stamp`. -/
theorem setStampOk_word (hm : MemInv inst m) : SetStampOk inst m (m.v ()).2 .load := by
  rcases hm.word with hinst | ⟨ptr, hptr, hts⟩
  · exact .inl hinst
  · rw [hptr]
    exact .inr hts

/-- After an attempt that has failed the word holds the value of the old link, or the value has
differed. -/
theorem Trying.failed {k : Call} {old new : Versioned}
    (ht : Trying owner c inst m h k old new fun _ => False) :
    PcOk owner c inst m h (k.failed old new) := by
  cases old with
  | indirect l => exact ht
  | direct ptr =>
      obtain ⟨hopen, _, _, _, hd | hq | ⟨l, hl, _⟩⟩ := ht
      · exact ⟨hopen, hd⟩
      · exact hq.elim
      · cases hl

/-- A `cas` whose test of the word has failed. -/
theorem Trying.lost {k : Call} {old new : Versioned} {Q : Nat × Versioned → Prop}
    (ht : Trying owner c inst m h k old new Q) (hQ : ¬ Q (m.v ())) :
    Trying owner c inst m h k old new fun _ => False := by
  obtain ⟨hopen, hdiff, hold, hready, hd | hq | hl⟩ := ht
  · exact ⟨hopen, hdiff, hold, hready, .inl hd⟩
  · exact absurd hq hQ
  · exact ⟨hopen, hdiff, hold, hready, .inr (.inr hl)⟩

/-- The two builds after a lost attempt. -/
theorem Trying.next {k : Call} {old new : Versioned}
    (ht : Trying owner c inst m h k old new fun _ => False) (help : Bool) :
    PcOk owner c inst m h (if help then .verify k old new else k.failed old new) := by
  cases help with
  | true => exact .inl ht
  | false => exact ht.failed

/-- The call goes on. -/
theorem failed_op (k : Call) (old new : Versioned) : (k.failed old new).op = some k.op := by
  cases old <;> rfl

include hm hist in
/-- `cas` allocates its link. -/
theorem step_newLink {k : Call} {old : Versioned} (hpc : PcOk owner c inst m h (.newLink k old))
    (hquiet : Quiet owner c inst m (.newLink k old))
    (hlive : k.op < ops ∧ ∀ b, .ret k.op b ∉ h) :
    StepOk owner c inst m h ops (.newLink k old) inst (m.newLink old k.ptr)
      [.alloc k.op m.fresh, shown (.newLink k old) m (m.newLink old k.ptr)]
      (.camRead k old (.indirect m.fresh)) := by
  obtain ⟨hopen, hdiff, hold, hts, hcalm⟩ := hpc
  obtain ⟨hm', hext⟩ := hm.newLink old k.ptr
  have hf := frame_of_word hm hm' hext rfl
  have hfresh := hm.fresh m.fresh le_rfl
  have hvalue : (m.newLink old k.ptr).value m.fresh = k.ptr := Function.update_self ..
  have hnot : ∀ op, .alloc op m.fresh ∉ h := fun op hl => Nat.lt_irrefl _ (hist.alloc op _ hl)
  have hlive' : ∀ op, (Pc.camRead k old (.indirect m.fresh)).op = some op →
      op < ops ∧ ∀ b, .ret op b ∉ h ++ [.alloc k.op m.fresh] := by
    rintro _ ⟨⟩
    exact ⟨hlive.1, by simpa using hlive.2⟩
  have hist' : HistInv inst (m.newLink old k.ptr) (h ++ [.alloc k.op m.fresh]) ops := by
    refine (hist.ext hext fun l hl => .inl hl).add ?_ (by rintro _ _ _ _ ⟨⟩) (by rintro _ _ _ _ _ ⟨⟩)
      ?_ (by rintro _ _ _ ⟨⟩) (by rintro _ ⟨⟩) (by rintro _ ⟨⟩)
    · rintro _ ⟨⟩
      exact hlive
    · rintro _ _ ⟨⟩
      exact ⟨Nat.lt_succ_self _, hnot⟩
  have hready : PcOk owner c inst (m.newLink old k.ptr) (h ++ [.alloc k.op m.fresh])
      (.camRead k old (.indirect m.fresh)) := by
    refine ⟨⟨List.mem_append_left _ hopen.1, ?_, fun l hl => ?_⟩, hdiff, hold.ext hext hm,
      ⟨?_, hfresh.2, hfresh.1, hvalue, ?_⟩,
      hcalm.ext hext hm (.inl rfl) hopen.1 hold.2.1 hold.2.2 fun _ => id⟩
    · rw [NoChange, List.filter_append, hopen.2.1]
      rfl
    · rw [List.mem_append, List.mem_singleton] at hl
      rcases hl with hl | heq
      · exact hopen.2.2 l hl
      · cases heq
        exact hfresh.2
    · show Event.alloc k.op m.fresh ∈ h ++ [.alloc k.op m.fresh]
      simp
    · rintro _ ⟨⟩
      rw [hvalue]
      exact hts
  have hev : shown (.newLink k old) m (m.newLink old k.ptr) =
      shown (.camRead k old (.indirect m.fresh)) (m.newLink old k.ptr) (m.newLink old k.ptr) := by
    rw [shown, shown, hf.value]
    rfl
  obtain ⟨hist'', hpc'', _⟩ := (frame_refl hm').shows hm' hist' hready hlive'
  rw [← hev, List.append_assoc] at hist'' hpc''
  refine ⟨hm', hext, .inl rfl, hist'', hpc'', hquiet.ext hext fun _ _ => id, fun y hy => .inl hy, ?_, ?_⟩
  · intro e he
    rcases List.mem_cons.mp he with rfl | he
    · exact .inr rfl
    · rw [List.mem_singleton.mp he]
      exact .inr rfl
  · rintro _ ⟨⟩
    exact ⟨rfl, by simp [shown]⟩

include hm hist in
/-- `cas` installs its node. -/
theorem step_install {help : Bool} {tag : Nat} {k : Call} {old new : Versioned}
    (hpc : PcOk owner c inst m h (.camSwap k old new (m.v ())))
    (hquiet : Quiet owner c inst m (.camSwap k old new (m.v ())))
    (hlive : k.op < ops ∧ ∀ b, .ret k.op b ∉ h) :
    StepOk owner c inst m h ops (.camSwap k old new (m.v ())) (fun z => inst z ∨ z = new)
      (m.setWord () (tag, new))
      [shown (.camSwap k old new (m.v ())) m (m.setWord () (tag, new))]
      (if help then .verify k old new else k.succeeded new) := by
  obtain ⟨hw, hopen, hdiff, hold, ⟨hmine, hno, hnone, hptr, hlink⟩, _⟩ := hpc
  have hself : (m.setWord () (tag, new)).v () = (tag, new) := by simp [Memory.setWord]
  have hvalue : value m = k.exp := by
    rw [value, hw]
    exact hold.2.1
  have hvalue' : value (m.setWord () (tag, new)) = k.ptr := by
    rw [value, hself]
    exact hptr
  have halloc : ∀ l, new = .indirect l → .alloc k.op l ∈ h := by
    rintro l rfl
    exact hmine
  obtain ⟨hm', hext⟩ := hm.install hnone (fun l hl => hist.alloc k.op l (halloc l hl)) hlink
    (by rw [hw]; exact hold.1) tag
  have hev : shown (.camSwap k old new (m.v ())) m (m.setWord () (tag, new)) =
      .step (some k.op) false k.exp k.ptr new := by
    rw [shown, hvalue, hvalue', hself]
    rfl
  rw [hev]
  have hchanged : Changed (h ++ [.step (some k.op) false k.exp k.ptr new]) k := by
    refine ⟨new, ?_⟩
    rw [List.filter_append, hopen.2.1]
    simp [Event.changes, hdiff]
  have hcall : .call k.op k.exp k.ptr ∈ h ++ [.step (some k.op) false k.exp k.ptr new] :=
    List.mem_append_left _ hopen.1
  refine ⟨hm', hext, .inr (.inr ⟨?_, some k.op, false, k.exp, new, ?_⟩), ?_, ?_, ?_, ?_, ?_, ?_⟩
  · rw [hvalue, hvalue']
    exact Ne.symm hdiff
  · rw [hvalue']
    simp
  · refine (hist.ext hext ?_).add ?_ ?_ ?_ (by rintro _ _ ⟨⟩) (by rintro _ _ _ ⟨⟩) (by rintro _ ⟨⟩)
      (by rintro _ ⟨⟩)
    · rintro l (hl | heq)
      · exact .inl hl
      · exact .inr ⟨k.op, halloc l heq.symm, hlive.2⟩
    · rintro _ ⟨⟩
      exact hlive
    · rintro _ _ _ _ ⟨⟩
    · rintro _ _ _ _ l heq
      cases heq
      exact .inr rfl
  · cases help with
    | true => exact .inr ⟨.inr rfl, hcall, hchanged⟩
    | false => exact ⟨.inl (.inr rfl), rfl, hcall, hchanged⟩
  · rintro o ho (hinst | heq) hts
    · exact absurd (hquiet o ho hinst hts) id
    · cases help with
      | true => exact heq.symm
      | false => exact heq.symm
  · rintro y (hy | rfl)
    · exact .inl hy
    · exact .inr ⟨k.op, rfl, hmine⟩
  · intro e he
    rw [List.mem_singleton.mp he]
    exact .inr rfl
  · intro op hop
    have hop' : some k.op = some op := by
      cases help <;> exact hop
    exact ⟨hop', by simp⟩

include hm hist hquiet hlive hpc in
/-- Every step of a thread. -/
theorem stepThread_ok {help : Bool} {tag : Nat} {al re : List Event}
    (hstep : stepThread help m tag pc = some (m', al, re, pc')) :
    ∃ inst', StepOk owner c inst m h ops pc inst' m' (al ++ shown pc m m' :: re) pc' := by
  -- Steps that only read, and lead to a position that holds no node.
  have hstay : ∀ {pc'}, (PcOk owner c inst m (h ++ [shown pc m m]) pc →
      PcOk owner c inst m (h ++ [shown pc m m]) pc') → (∀ y, pc.Holds y → pc'.Holds y) →
      (∀ op, pc'.op = some op → pc.op = some op) →
      ∃ inst', StepOk owner c inst m h ops pc inst' m ([] ++ shown pc m m :: []) pc' :=
    fun hpc' hholds hop => ⟨inst, (frame_refl hm).stepOk hm hist hpc hlive (fun _ => hpc')
      (hquiet.ext (Ext.refl inst m) fun y _ => hholds y) hop⟩
  cases pc with
  | idle => cases hstep
  | setStamp y x k => exact ⟨inst, step_setStamp hm hist hpc hquiet hlive hstep⟩
  | shortcut l x o => exact ⟨inst, step_shortcut hm hist hpc hquiet hlive hstep⟩
  | cas k =>
      cases hstep
      refine hstay (fun hold => ⟨setStampOk_word hm, rfl, hold.1, hold.2,
        fun l hl => hl ▸ hm.word_link hl, fun hne => ?_, fun heq => .inr (.inl rfl)⟩) (fun _ => id)
        fun _ => id
      exact differed_of_step hpc.1.1 (List.mem_singleton.mpr rfl) hne
  | useIndirect k old =>
      simp only [stepThread] at hstep
      split at hstep
      · rename_i hcond
        cases hstep
        refine hstay (fun hold => ?_) (fun _ => id) fun _ => id
        obtain ⟨hopen, hdiff, hold, _, hcalm⟩ := hold
        refine ⟨hopen, hdiff, hold, ?_, hcalm⟩
        rcases hcond with hnull | hts
        · rw [hnull]
          exact hm.null
        · exact hts
      · rename_i hcond
        cases hstep
        rw [not_or, not_not] at hcond
        refine hstay (fun hold => ?_) (fun _ => id) fun _ => id
        obtain ⟨hopen, hdiff, hold, hpass, hcalm⟩ := hold
        obtain ⟨o, ho⟩ := Option.ne_none_iff_exists'.mp hcond.1
        rw [ho] at hcond
        have hown := hpass o ho hcond.2
        refine ⟨hopen, hdiff, hold, ⟨?_, ?_, ?_, rfl, by rintro _ ⟨⟩⟩, hcalm⟩
        · rw [ho]
          exact hown
        · rw [ho]
          exact fun hinst => hquiet o hown hinst hcond.2
        · rw [ho]
          exact hcond.2
  | newLink k old =>
      cases hstep
      exact ⟨inst, step_newLink hm hist hpc hquiet (hlive k.op rfl)⟩
  | setNext k old =>
      cases hstep
      obtain ⟨hm', hext⟩ := hm.setNext (.direct k.ptr) old
      exact ⟨inst, (frame_of_word hm hm' hext rfl).stepOk hm hist hpc hlive (fun _ hold => hold)
        (hquiet.ext hext fun _ _ => id) fun _ => id⟩
  | camRead k old new =>
      simp only [stepThread] at hstep
      split at hstep
      · rename_i heq
        cases hstep
        refine hstay (fun hold => ⟨heq, ?_⟩) (fun _ => id) fun _ => id
        obtain ⟨hopen, hdiff, hold, hready, _⟩ := hold
        exact ⟨hopen, hdiff, hold, hready, .inr (.inl rfl)⟩
      · rename_i hne
        cases hstep
        refine hstay (fun hold => (hold.lost hne).next help) (fun _ => False.elim) fun op hop => ?_
        cases help with
        | true => exact hop
        | false => exact (failed_op k old new).symm.trans hop
  | camSwap k old new w =>
      simp only [stepThread] at hstep
      split at hstep
      · rename_i heq
        cases hstep
        subst heq
        exact ⟨_, step_install hm hist hpc hquiet (hlive k.op rfl)⟩
      · rename_i hne
        cases hstep
        refine hstay (fun hold => (hold.2.lost hne).next help) (fun _ => False.elim) fun op hop => ?_
        cases help with
        | true => exact hop
        | false => exact (failed_op k old new).symm.trans hop
  | verify k old new =>
      simp only [stepThread] at hstep
      split at hstep
      · rename_i heq
        cases hstep
        refine hstay (fun hold => ?_) (fun _ => id) fun _ => id
        rcases hold with ht | ⟨hinst, hd⟩
        · obtain ⟨_, _, _, ⟨_, hno, hnone, _⟩, _⟩ := ht
          exact absurd heq (hm.ne_word hno hnone)
        · exact ⟨.inl hinst, rfl, hd⟩
      · rename_i hne
        cases hstep
        refine ⟨inst, (frame_refl hm).stepOk hm hist hpc hlive (fun _ hold => ?_) ?_ fun _ => id⟩
        · rcases hold with ht | ⟨hinst, hcall, hch⟩
          · exact .inl ht
          · exact .inr ⟨hinst, hcall, hch, fun hnone => hne (hm.stamped new hinst hnone)⟩
        · intro o ho hinst hnone
          obtain rfl : new = .direct (some o) := hquiet o ho hinst hnone
          exact absurd (hm.stamped _ hinst hnone) hne
  | verifyStamp k old new =>
      simp only [stepThread] at hstep
      split at hstep
      · rename_i hts
        cases hstep
        refine hstay (fun hold => ?_) (fun _ => False.elim) fun _ => id
        rcases hold with ht | ⟨hinst, hcall, hch, _⟩
        · obtain ⟨_, _, _, ⟨_, _, hnone, _⟩, _⟩ := ht
          exact absurd hnone hts
        · exact ⟨.inl hinst, rfl, hcall, hch⟩
      · rename_i hnone
        cases hstep
        rw [not_not] at hnone
        refine hstay (fun hold => ?_) (fun _ => False.elim) fun op hop =>
          (failed_op k old new).symm.trans hop
        rcases hold with ht | ⟨_, _, _, hts⟩
        · exact ht.failed
        · exact absurd hnone hts
  | retry k l new =>
      simp only [stepThread] at hstep
      split at hstep
      · rename_i heq
        cases hstep
        refine hstay (fun hold => ?_) (fun _ => id) fun _ => id
        obtain ⟨hopen, hdiff, ⟨_, hptr, hlink⟩, hready, _⟩ := hold
        exact ⟨hopen, hdiff, ⟨hm.value l (hlink l rfl), hptr, by rintro _ ⟨⟩⟩, hready,
          .inr (.inl heq)⟩
      · rename_i hne
        cases hstep
        refine hstay (fun hold => ?_) (fun _ => id) fun _ => id
        obtain ⟨hopen, _, _, _, hd | hq | ⟨l', hl', hw⟩⟩ := hold
        · exact ⟨hopen, hd⟩
        · exact hq.elim
        · cases hl'
          exact absurd hw hne
  | failed k =>
      cases hstep
      exact hstay (fun hold => ⟨setStampOk_word hm, hold⟩) (fun _ => id) fun _ => id
  | load =>
      cases hstep
      exact hstay (fun _ => ⟨setStampOk_word hm, trivial⟩) (fun _ => id) fun _ => id
  | read =>
      simp only [stepThread] at hstep
      split at hstep
      · cases hstep
        exact hstay (fun _ => ⟨trivial, by rintro _ ⟨⟩⟩) (fun _ => id) fun _ => id
      · cases hstep
        exact hstay (fun _ => trivial) (fun _ => id) fun _ => id
  | validate =>
      cases hstep
      exact hstay (fun _ => ⟨setStampOk_word hm, trivial⟩) (fun _ => id) fun _ => id

end Steps

/-! ## Runs -/

/-- The invariant of the system, for the nodes that have been installed. -/
structure Inv (owner : Nat → ι) (inst : Versioned → Prop) (h : List Event) (st : State ι) : Prop where
  mem : MemInv inst st.memory
  hist : HistInv inst st.memory h st.ops
  pcs : ∀ c, PcOk owner c inst st.memory h (st.threads c)
  quiet : ∀ c, Quiet owner c inst st.memory (st.threads c)
  live : ∀ c op, (st.threads c).op = some op → op < st.ops ∧ ∀ b, .ret op b ∉ h
  distinct : ∀ c c' op, (st.threads c).op = some op → (st.threads c').op = some op → c = c'

section Runs

variable {owner : Nat → ι} {inst : Versioned → Prop} {h : List Event} {st st' : State ι}

/-- No node belongs to two threads. -/
theorem Inv.mine_unique (hinv : Inv owner inst h st) {c c' : ι} {op op' : Nat} {y : Versioned}
    (hop : (st.threads c).op = some op) (hop' : (st.threads c').op = some op')
    (hy : Mine owner c h op y) (hy' : Mine owner c' h op' y) : c = c' := by
  match y, hy, hy' with
  | .direct (some o), hy, hy' => exact hy.symm.trans hy'
  | .indirect l, hy, hy' =>
      rw [hinv.hist.alloc_unique op op' l hy hy'] at hop
      exact hinv.distinct c c' op' hop hop'

/-- The memory changes without a step of a thread. -/
theorem Inv.setMemory (hinv : Inv owner inst h st) {m' : Memory Unit} (hm' : MemInv inst m')
    (hext : Ext inst st.memory inst m') (hv : m'.v () = st.memory.v ()) :
    Inv owner inst h { st with memory := m' } := by
  refine ⟨hm', hinv.hist.ext hext fun l hl => .inl hl, fun c => ?_,
    fun c => (hinv.quiet c).ext hext fun _ _ => id, hinv.live, hinv.distinct⟩
  have hword : WordStep st.memory m' [] := .inl hv
  have hpc := PcOk.ext hext hinv.mem hword (fun op l _ => hinv.hist.alloc op l)
    (fun op _ => ⟨by simp, by simp⟩) (fun _ _ _ _ => id) (hinv.pcs c)
  rwa [List.append_nil] at hpc

variable [DecidableEq ι]

/-- A step of a thread keeps the invariant. -/
theorem Inv.step (hinv : Inv owner inst h st) {c : ι} {inst' : Versioned → Prop} {m' : Memory Unit}
    {es : List Event} {pc' : Pc}
    (hok : StepOk owner c inst st.memory h st.ops (st.threads c) inst' m' es pc') :
    Inv owner inst' (h ++ es) ⟨m', Function.update st.threads c pc', st.ops⟩ := by
  have hself : Function.update st.threads c pc' c = pc' := Function.update_self ..
  have hother : ∀ c', c' ≠ c → Function.update st.threads c pc' c' = st.threads c' :=
    fun c' hne => Function.update_of_ne hne _ _
  -- The events are not those of another thread's call.
  have hforeign : ∀ {c' op}, c' ≠ c → (st.threads c').op = some op → ∀ e ∈ es, e.op ≠ some op := by
    intro c' op hne hop e he heq
    rcases hok.events e he with hnone | hpc
    · rw [hnone] at heq
      cases heq
    · rw [hpc] at heq
      exact hne (hinv.distinct c' c op hop heq)
  refine ⟨hok.mem, hok.hist, fun c' => ?_, fun c' => ?_, fun c' op hop => ?_, fun c₁ c₂ op h₁ h₂ => ?_⟩
  · rcases eq_or_ne c' c with rfl | hne
    · show PcOk _ _ _ _ _ (Function.update st.threads c' pc' c')
      rw [hself]
      exact hok.known
    · show PcOk _ _ _ _ _ (Function.update st.threads c pc' c')
      rw [hother c' hne]
      refine PcOk.ext hok.ext hinv.mem hok.word (fun op l _ => hinv.hist.alloc op l)
        (fun op hop => silent_of_op (hforeign hne hop)) (fun op y hop hy hinst => ?_) (hinv.pcs c')
      rcases hok.new y hinst with hold | ⟨op', hop', hy'⟩
      · exact hold
      · exact absurd (hinv.mine_unique hop hop' hy hy') hne
  · rcases eq_or_ne c' c with rfl | hne
    · show Quiet _ _ _ _ (Function.update st.threads c' pc' c')
      rw [hself]
      exact hok.quiet
    · show Quiet _ _ _ _ (Function.update st.threads c pc' c')
      rw [hother c' hne]
      intro o ho hinst hnone
      rcases hok.new _ hinst with hold | ⟨_, _, hmine⟩
      · refine hinv.quiet c' o ho hold ?_
        by_contra hts
        exact hok.ext.timeStamp _ hts hnone
      · exact absurd (ho.symm.trans hmine) hne
  · have hop : (Function.update st.threads c pc' c').op = some op := hop
    rcases eq_or_ne c' c with rfl | hne
    · rw [hself] at hop
      obtain ⟨hold, hno⟩ := hok.live op hop
      obtain ⟨hlt, hret⟩ := hinv.live c' op hold
      exact ⟨hlt, fun b hmem => (List.mem_append.mp hmem).elim (hret b) (hno b)⟩
    · rw [hother c' hne] at hop
      obtain ⟨hlt, hret⟩ := hinv.live c' op hop
      exact ⟨hlt, fun b hmem => (List.mem_append.mp hmem).elim (hret b)
        fun he => hforeign hne hop _ he rfl⟩
  · have hold : ∀ {c'}, (Function.update st.threads c pc' c').op = some op →
        (st.threads c').op = some op := by
      intro c' hop
      rcases eq_or_ne c' c with rfl | hne
      · rw [hself] at hop
        exact (hok.live op hop).1
      · rwa [hother c' hne] at hop
    exact hinv.distinct c₁ c₂ op (hold h₁) (hold h₂)

/-- A thread that is idle starts an operation that is not a `cas`. -/
theorem Inv.start (hinv : Inv owner inst h st) {c : ι} {pc : Pc} (hidle : st.threads c = .idle)
    (hpc : ∀ m, PcOk owner c inst m h pc) (hop : pc.op = none) :
    Inv owner inst h { st with threads := Function.update st.threads c pc } := by
  have hself : Function.update st.threads c pc c = pc := Function.update_self ..
  have hother : ∀ c', c' ≠ c → Function.update st.threads c pc c' = st.threads c' :=
    fun c' hne => Function.update_of_ne hne _ _
  have hold : ∀ {c' op}, (Function.update st.threads c pc c').op = some op →
      (st.threads c').op = some op := by
    intro c' op hop'
    rcases eq_or_ne c' c with rfl | hne
    · rw [hself, hop] at hop'
      cases hop'
    · rwa [hother c' hne] at hop'
  refine ⟨hinv.mem, hinv.hist, fun c' => ?_, fun c' => ?_, fun c' op hop' => hinv.live c' op (hold hop'),
    fun c₁ c₂ op h₁ h₂ => hinv.distinct c₁ c₂ op (hold h₁) (hold h₂)⟩
  · show PcOk _ _ _ _ _ (Function.update st.threads c pc c')
    rcases eq_or_ne c' c with rfl | hne
    · rw [hself]
      exact hpc _
    · rw [hother c' hne]
      exact hinv.pcs c'
  · show Quiet _ _ _ _ (Function.update st.threads c pc c')
    rcases eq_or_ne c' c with rfl | hne
    · rw [hself]
      intro o ho hinst hnone
      have habs := hinv.quiet c' o ho hinst hnone
      rw [hidle] at habs
      exact habs.elim
    · rw [hother c' hne]
      exact hinv.quiet c'

/-- A thread that is idle calls `cas`. -/
theorem Inv.call (hinv : Inv owner inst h st) {c : ι} {x y : Option Nat} (hidle : st.threads c = .idle)
    (hpass : Passed owner c st.memory ⟨st.ops, x, y⟩) :
    Inv owner inst (h ++ [.call st.ops x y])
      ⟨st.memory, Function.update st.threads c (.cas ⟨st.ops, x, y⟩), st.ops + 1⟩ := by
  have hself : Function.update st.threads c (.cas ⟨st.ops, x, y⟩) c = .cas ⟨st.ops, x, y⟩ :=
    Function.update_self ..
  have hother : ∀ c', c' ≠ c → Function.update st.threads c (.cas ⟨st.ops, x, y⟩) c' = st.threads c' :=
    fun c' hne => Function.update_of_ne hne _ _
  have hfresh : ∀ e ∈ h, e.op ≠ some st.ops :=
    fun e he hop => Nat.lt_irrefl _ (hinv.hist.op_lt e he _ hop)
  have hsilent : ∀ op, Silent [.call st.ops x y] op := by
    intro op
    refine ⟨fun e he => ?_, by simp⟩
    rw [List.mem_singleton.mp he]
    rfl
  have hist : HistInv inst st.memory h (st.ops + 1) := { hinv.hist with
    op_lt := fun e he op hop => (hinv.hist.op_lt e he op hop).trans (Nat.lt_succ_self _) }
  have hopen : Open inst (h ++ [.call st.ops x y]) ⟨st.ops, x, y⟩ := by
    refine ⟨by simp, ?_, fun l hl => absurd rfl (hfresh _ ((hsilent st.ops).alloc hl))⟩
    have hno := (silent_of_op hfresh).filter (h := [])
    exact (hsilent st.ops).filter.trans (by simpa using hno)
  have hlive : ∀ c' op, (Function.update st.threads c (.cas ⟨st.ops, x, y⟩) c').op = some op →
      c' = c ∧ op = st.ops ∨ c' ≠ c ∧ (st.threads c').op = some op := by
    intro c' op hop
    rcases eq_or_ne c' c with rfl | hne
    · rw [hself] at hop
      exact .inl ⟨rfl, (Option.some.inj hop).symm⟩
    · rw [hother c' hne] at hop
      exact .inr ⟨hne, hop⟩
  refine ⟨hinv.mem, hist.add ?_ (by rintro _ _ _ _ ⟨⟩) (by rintro _ _ _ _ _ ⟨⟩) (by rintro _ _ ⟨⟩) ?_
    (by rintro _ ⟨⟩) (by rintro _ ⟨⟩), fun c' => ?_, fun c' => ?_, fun c' op hop => ?_,
    fun c₁ c₂ op h₁ h₂ => ?_⟩
  · rintro _ ⟨⟩
    exact ⟨Nat.lt_succ_self _, fun b hb => hfresh _ hb rfl⟩
  · rintro _ _ _ ⟨⟩ x' y' hmem
    exact hfresh _ hmem rfl
  · show PcOk _ _ _ _ _ (Function.update st.threads c _ c')
    rcases eq_or_ne c' c with rfl | hne
    · rw [hself]
      exact ⟨hopen, hpass⟩
    · rw [hother c' hne]
      exact PcOk.ext (Ext.refl _ _) hinv.mem (.inl rfl) (fun op l _ => hinv.hist.alloc op l)
        (fun op _ => hsilent op) (fun _ _ _ _ => id) (hinv.pcs c')
  · show Quiet _ _ _ _ (Function.update st.threads c _ c')
    rcases eq_or_ne c' c with rfl | hne
    · rw [hself]
      intro o ho hinst hnone
      have habs := hinv.quiet c' o ho hinst hnone
      rw [hidle] at habs
      exact habs.elim
    · rw [hother c' hne]
      exact hinv.quiet c'
  · rcases hlive c' op hop with ⟨_, rfl⟩ | ⟨_, hold⟩
    · refine ⟨Nat.lt_succ_self _, fun b hb => ?_⟩
      rw [List.mem_append, List.mem_singleton] at hb
      rcases hb with hb | heq
      · exact hfresh _ hb rfl
      · cases heq
    · obtain ⟨hlt, hret⟩ := hinv.live c' op hold
      exact ⟨hlt.trans (Nat.lt_succ_self _), by simpa using hret⟩
  · rcases hlive c₁ op h₁ with ⟨rfl, rfl⟩ | ⟨_, hold₁⟩
    · rcases hlive c₂ _ h₂ with ⟨rfl, _⟩ | ⟨_, hold₂⟩
      · rfl
      · exact absurd (hinv.live c₂ _ hold₂).1 (Nat.lt_irrefl _)
    · rcases hlive c₂ op h₂ with ⟨rfl, rfl⟩ | ⟨_, hold₂⟩
      · exact absurd (hinv.live c₁ _ hold₁).1 (Nat.lt_irrefl _)
      · exact hinv.distinct c₁ c₂ op hold₁ hold₂

/-- An operation can be started by an idle thread only. -/
theorem start_eq_some {c : ι} {pc : Pc} (hstart : st.start c pc = some st') :
    st.threads c = .idle ∧ st' = { st with threads := Function.update st.threads c pc } := by
  unfold State.start at hstart
  split at hstart
  · rename_i hidle
    exact ⟨hidle, (Option.some.inj hstart).symm⟩
  · cases hstart

/-- Every action keeps the invariant. -/
theorem Inv.next {help : Bool} {a : Action ι} {es : List Event} (hinv : Inv owner inst h st)
    (hallowed : Allowed owner st a) (hnext : next help a st = some (es, st')) :
    ∃ inst', Inv owner inst' (h ++ es) st' := by
  have hnil : h ++ [] = h := List.append_nil h
  cases a with
  | step c tag =>
      simp only [Builds.next, Option.map_eq_some_iff] at hnext
      obtain ⟨⟨m', al, re, pc'⟩, hstep, heq⟩ := hnext
      cases heq
      obtain ⟨inst', hok⟩ := stepThread_ok hinv.mem hinv.hist (hinv.pcs c) (hinv.quiet c) (hinv.live c)
        hstep
      exact ⟨inst', hinv.step hok⟩
  | cas c x y =>
      simp only [Builds.next, Option.map_eq_some_iff] at hnext
      obtain ⟨st₁, hstart, heq⟩ := hnext
      obtain ⟨hidle, rfl⟩ := start_eq_some hstart
      cases heq
      refine ⟨inst, hinv.call hidle ?_⟩
      rintro o ho hnone
      obtain rfl : y = some o := ho
      exact hallowed hnone
  | load c | read c | validate c =>
      simp only [Builds.next, Option.map_eq_some_iff] at hnext
      obtain ⟨st₁, hstart, heq⟩ := hnext
      obtain ⟨hidle, rfl⟩ := start_eq_some hstart
      cases heq
      rw [hnil]
      exact ⟨inst, hinv.start hidle (fun _ => trivial) rfl⟩
  | raise d =>
      simp only [Builds.next] at hnext
      split at hnext
      · cases hnext
        rw [hnil]
        obtain ⟨hm', hext⟩ := hinv.mem.setClock st.memory.stamp d
        exact ⟨inst, hinv.setMemory hm' hext rfl⟩
      · cases hnext
  | clock t =>
      cases hnext
      rw [hnil]
      obtain ⟨hm', hext⟩ := hinv.mem.setClock t st.memory.done
      exact ⟨inst, hinv.setMemory hm' hext rfl⟩

omit [DecidableEq ι] in
/-- The invariant holds initially. -/
theorem inv_initial {init : Option Nat} {stamped : Nat → Bool} (tag : Unit → Nat)
    (older : Versioned → Versioned) (hinit : ∀ o, init = some o → stamped o = true) :
    Inv owner (fun y => y = .direct init) []
      (initial (.initial (fun _ => init) stamped tag older)) := by
  have hts : (Memory.initial (fun _ : Unit => init) stamped tag older).timeStamp (.direct init) ≠
      none := by
    cases init with
    | none => simp [Memory.initial]
    | some o => simp [Memory.initial, hinit o rfl]
  refine ⟨⟨by simp [initial, Memory.initial, Versioned.null], fun l _ => ⟨rfl, by simp⟩, .inl rfl, ?_, ?_⟩,
    ⟨by simp, by simp, by simp, by simp, by simp, by simp, by simp, by simp⟩, fun _ => trivial, ?_,
    by rintro _ _ ⟨⟩, by rintro _ _ _ ⟨⟩⟩
  · rintro y rfl hnone
    exact absurd hnone hts
  · rintro l ⟨⟩
  · rintro c o _ hinst hnone
    rw [hinst] at hnone
    exact absurd hnone hts

/-- `cas` on a pointer in either build. A step of `shortcut` keeps the value. A `cas(exp, ptr)` with
`exp ≠ ptr` that returns true has taken one step that changes the value, from `exp` to `ptr`; one that
returns false has taken none, the link that it allocated was never in the pointer, and between its call
and its return the value differed from `exp`. -/
theorem cas_linearizable {help : Bool} {init : Option Nat}
    (hexec : Exec (system help owner init) h st) :
    (∀ o x y w, .step o true x y w ∈ h → x = y) ∧
      ∀ op exp ptr, .call op exp ptr ∈ h →
        (exp ≠ ptr → .ret op true ∈ h →
          ∃ w, h.filter (Event.changes op) = [.step (some op) false exp ptr w]) ∧
        (.ret op false ∈ h → h.filter (Event.changes op) = [] ∧
          (∀ l, .alloc op l ∈ h → ∀ o b x y, .step o b x y (.indirect l) ∉ h) ∧
          ∃ o b x y w, [.call op exp ptr, .step o b x y w, .ret op false].Sublist h ∧ y ≠ exp) := by
  obtain ⟨inst, hinv⟩ : ∃ inst, Inv owner inst h st := by
    refine hexec.invariant (P := fun h st => ∃ inst, Inv owner inst h st) ?_ ?_
    · rintro _ ⟨stamped, tag, older, hinit, _, rfl⟩
      exact ⟨_, inv_initial tag older hinit⟩
    · rintro h st a es st' _ ⟨inst, hinv⟩ ⟨hallowed, hnext⟩
      exact hinv.next hallowed hnext
  refine ⟨hinv.hist.short, fun op exp ptr hcall => ⟨fun hne hret => ?_, fun hret => ?_⟩⟩
  · obtain ⟨k, rfl, hk, hch⟩ := hinv.hist.ret_true op hret
    obtain ⟨rfl, rfl⟩ := hinv.hist.call_unique k.op _ _ _ _ hcall hk
    exact hch hne
  · obtain ⟨k, rfl, ⟨hk, hno, hhid⟩, hd⟩ := hinv.hist.ret_false op hret
    obtain ⟨rfl, rfl⟩ := hinv.hist.call_unique k.op _ _ _ _ hcall hk
    exact ⟨hno, fun l hl o b x y hstep => hhid l hl (hinv.hist.word o b x y l hstep), hd⟩

/-- Whether an action is allowed in a given state is decidable. -/
instance (owner : Nat → ι) (st : State ι) (act : Action ι) : Decidable (Allowed owner st act) :=
  match act with
  | .cas _ _ (some _) => inferInstanceAs (Decidable (_ → _))
  | .cas _ _ none | .step _ _ | .load _ | .read _ | .validate _ | .raise _ | .clock _ =>
      inferInstanceAs (Decidable True)

end Runs

/-- A run with helping: thread 0 installs a link to object 2, which thread 1 stamps and replaces before
thread 0 looks whether it has been installed. Thread 2 has read the same old word and fails. -/
theorem cas_linearizable_run :
    ∃ h st, Exec (system true (fun _ => (0 : Fin 3)) (some 1)) h st ∧
      (.call 0 (some 1) (some 2) ∈ h ∧ .ret 0 true ∈ h ∧
        ∃ w, h.filter (Event.changes 0) = [.step (some 0) false (some 1) (some 2) w]) ∧
      .call 1 (some 1) (some 3) ∈ h ∧ .ret 1 false ∈ h ∧ h.filter (Event.changes 1) = [] := by
  have hrun : (run (fun a st => if Allowed (fun _ => (0 : Fin 3)) st a then next true a st else none)
      (List.flatten [[.cas 0 (some 1) (some 2)], List.replicate 4 (.step 0 0), [.cas 2 (some 1) (some 3)],
        List.replicate 5 (.step 2 0), List.replicate 2 (.step 0 0), [.load 1], List.replicate 9 (.step 1 0),
        List.replicate 5 (.step 2 0), List.replicate 6 (.step 0 0)])
      (initial (.initial (fun _ => some 1) (fun _ => true) (fun _ => 0) id))).any (fun (h, _) => decide
        ((.call 0 (some 1) (some 2) ∈ h ∧ .ret 0 true ∈ h) ∧
          .call 1 (some 1) (some 3) ∈ h ∧ .ret 1 false ∈ h)) = true := by
    decide +kernel
  obtain ⟨⟨h, st⟩, hsome, hfacts⟩ := (Option.any_eq_true _ _).mp hrun
  obtain ⟨⟨hcall, hret⟩, hcall', hret'⟩ := of_decide_eq_true hfacts
  have hexec : Exec (system true (fun _ => (0 : Fin 3)) (some 1)) h st :=
    exec_restrict_of_run _ ⟨fun _ => true, fun _ => 0, id, fun _ _ => rfl, by rintro ⟨⟩, rfl⟩ hsome
  exact ⟨h, st, hexec, ⟨hcall, hret, ((cas_linearizable hexec).2 0 _ _ hcall).1 (by decide) hret⟩,
    hcall', hret', (((cas_linearizable hexec).2 1 _ _ hcall').2 hret').1⟩

end Verlib.Hybrid.Builds
