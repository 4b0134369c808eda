import Verlib.Indirect.Chain
import Verlib.Indirect.LazyHistory

/-!
# The threads of the `LazyStamp` build

What a thread knows at its position. A `store` holds the lock, so the version that it found is the last one
and has a stamp; a `cas` knows its new link and that the link it wants to replace has a stamp; a reader knows
that it has not walked past the version that its `local_stamp` selects. `PcOk.step` says that every step
keeps the chain invariant, the invariant of the history and what the thread knows.
-/

namespace Verlib.Indirect.Lazy

open Interleaving

variable {P ι : Type} {G G' : Chains P} {m m' : Memory P} {h es : List (Event P)} {ops : Nat}
  {locked : P → Bool} {own own' : Nat → Option ι} {c : ι}

/-! ## What a thread knows -/

/-- The call has had no effect yet. -/
def NoEffect (h : List (Event P)) (op : Nat) : Prop :=
  ∀ p i, ¬ Effect h op p i

/-- Link `l` is version `i` of `p`, and the call has had no other effect. -/
structure OnlyAt (G : Chains P) (h : List (Event P)) (op : Nat) (p : P) (l i : Nat) : Prop where
  le_last : i ≤ G.last p
  ent : G.ent p i = l
  only : ∀ q j, Effect h op q j → q = p ∧ j = i

/-- The call has installed link `l`. -/
def Installed (G : Chains P) (h : List (Event P)) (k : Call P) (l : Nat) : Prop :=
  ∃ i, OnlyAt G h k.op k.p l i ∧ Effect h k.op k.p i

/-- Link `l` is a version of `p` that has a stamp. -/
def Old (G : Chains P) (m : Memory P) (p : P) (l : Nat) : Prop :=
  ∃ i ≤ G.last p, G.ent p i = l ∧ (G.versions m).stamp p i ≠ none

/-- A `store` that has the lock and has not yet had its effect. -/
structure Storing (locked : P → Bool) (G : Chains P) (m : Memory P) (h : List (Event P)) (k : Call P) : Prop where
  locked : locked k.p = true
  noEffect : NoEffect h k.op
  head : (G.versions m).stamp k.p (G.last k.p) ≠ none

/-- The stamps below which a run of the body stops. -/
def Reader.bound (r : Reader) : Nat :=
  if r.speculative then r.ls else r.ls + 1

/-- What a snapshot knows in a run of its body. -/
structure ReaderOk (G : Chains P) (m : Memory P) (h : List (Event P)) (r : Reader) (k : P → Nat) : Prop where
  counted : Counted (G.versions m) h r.s k r.ls
  zero : zeroStamp ≤ r.ls
  bound : r.bound ≤ m.stamp
  reads : ¬ (r.speculative = true ∧ r.aborted = true) →
    ReadsBelow (G.versions m) h r.s (!r.speculative) k r.ls r.bound
  second : r.speculative = true → ∀ p x, .read r.s true p x ∉ h
  unfinished : ∀ b, .result r.s b ∉ h

/-- What an aborted snapshot knows before the second run. -/
structure Pending (G : Chains P) (m : Memory P) (h : List (Event P)) (r : Reader) (k : P → Nat) : Prop where
  counted : Counted (G.versions m) h r.s k r.ls
  zero : zeroStamp ≤ r.ls
  le_clock : r.ls ≤ m.stamp
  first : r.speculative = false
  second : ∀ p x, .read r.s true p x ∉ h
  unfinished : ∀ b, .result r.s b ∉ h

/-- The reader has come to version `i` of `p`. -/
structure Walking (G : Chains P) (m : Memory P) (r : Reader) (k : P → Nat) (p : P) (i : Nat) : Prop where
  le_last : i ≤ G.last p
  above : (G.versions m).Above k r.ls r.bound p i

/-- What is known of the positions in `set_stamp(l)`. -/
def SetStampOk (G : Chains P) (m : Memory P) (l : Nat) (x : SetStamp) : Prop :=
  ∃ p i, i ≤ G.last p ∧ G.ent p i = l ∧
    match x with
    | .load | .clock => True
    | .again t | .swap t => G.born p i ≤ t ∧ t ≤ m.stamp

/-- What is known in `set_stamp(l)` of what follows it. -/
def AfterOk (locked : P → Bool) (G : Chains P) (m : Memory P) (h : List (Event P)) (l : Nat) :
    After P → Prop
  | .store k => locked k.p = true ∧ Installed G h k l ∧ l = G.ent k.p (G.last k.p)
  | .test k old => l = old ∧ locked k.p = false ∧ ∃ i, OnlyAt G h k.op k.p old i ∧
      (Effect h k.op k.p i ↔ k.exp = (G.versions m).value k.p i ∧ k.exp = k.ptr)
  | .finish k => Installed G h k l
  | .fail _ | .load => True
  | .walk r p head => l = head ∧ ∃ k, ReaderOk G m h r k ∧ ∃ i, G.ent p i = head ∧ Walking G m r k p i

/-- What a thread knows at its position. -/
def PcOk (locked : P → Bool) (own : Nat → Option ι) (c : ι) (G : Chains P) (m : Memory P)
    (h : List (Event P)) : Pc P → Prop
  | .idle | .load _ | .failed _ => True
  | .setStamp l x k => SetStampOk G m l x ∧ AfterOk locked G m h l k
  | .store k => Storing locked G m h k
  | .storeNew k old => Storing locked G m h k ∧ old = G.ent k.p (G.last k.p)
  | .storeLoad k new =>
      Storing locked G m h k ∧ Private own c G m new (G.ent k.p (G.last k.p)) k.ptr
  | .storeSwap k new w =>
      Storing locked G m h k ∧ Private own c G m new (G.ent k.p (G.last k.p)) k.ptr ∧ m.v k.p = w
  | .cas k => locked k.p = false ∧ NoEffect h k.op
  | .casNew k old => locked k.p = false ∧ NoEffect h k.op ∧ Old G m k.p old
  | .camRead k old new =>
      locked k.p = false ∧ NoEffect h k.op ∧ Old G m k.p old ∧ Private own c G m new old k.ptr
  | .camSwap k new w =>
      locked k.p = false ∧ NoEffect h k.op ∧ Old G m k.p w.2 ∧ Private own c G m new w.2 k.ptr
  | .verify k new | .verifyStamp k new => (∃ old, Private own c G m new old k.ptr) ∨ Installed G h k new
  | .getStamp s => (∀ b p x, .read s b p x ∉ h) ∧ ∀ b, .result s b ∉ h
  | .inside r | .read r _ => ∃ k, ReaderOk G m h r k
  | .walk r p head => ∃ k, ReaderOk G m h r k ∧ ∃ i, G.ent p i = head ∧ Walking G m r k p i ∧
      (G.versions m).stamp p i ≠ none
  | .follow r p head => ∃ k, ReaderOk G m h r k ∧ ∃ i, i < G.last p ∧ G.ent p (i + 1) = head ∧
      Walking G m r k p i
  | .test r p head => ∃ k, ReaderOk G m h r k ∧ ∃ i, G.ent p i = head ∧ Walking G m r k p i ∧
      (G.versions m).Within r.ls p i
  | .again r | .add r => ∃ k, Pending G m h r k

/-- The call or snapshot that follows `set_stamp`. -/
def After.op : After P → Option Nat
  | .store k | .test k _ | .finish k | .fail k => some k.op
  | .load => none
  | .walk r _ _ => some r.s

/-- The call or snapshot that a thread executes. -/
def Pc.op : Pc P → Option Nat
  | .idle | .load _ => none
  | .setStamp _ _ k => k.op
  | .store k | .storeNew k _ | .storeLoad k _ | .storeSwap k _ _ | .cas k | .casNew k _ | .camRead k _ _
  | .camSwap k _ _ | .verify k _ | .verifyStamp k _ | .failed k => some k.op
  | .getStamp s => some s
  | .inside r | .read r _ | .walk r _ _ | .follow r _ _ | .test r _ _ | .again r | .add r => some r.s

section Transport

variable (hext : Ext G m G' m')

/-- Other calls' events are no effects of a call. -/
theorem NoEffect.append {op : Nat} (hop : ∀ e ∈ es, e.id ≠ op) (hno : NoEffect h op) :
    NoEffect (h ++ es) op :=
  fun p i heff => hno p i ((effect_append_of_ne hop).mp heff)

/-- Other calls' events are not among the reads and results of a snapshot. -/
theorem not_mem_append {e : Event P} (hop : ∀ e' ∈ es, e'.id ≠ e.id) (hno : e ∉ h) : e ∉ h ++ es := by
  intro hmem
  rcases List.mem_append.mp hmem with hold | hnew
  · exact hno hold
  · exact hop e hnew rfl

include hext

/-- What the only effect of a call is stays as it was. -/
theorem OnlyAt.ext {op l i : Nat} {p : P} (hop : ∀ e ∈ es, e.id ≠ op) (ho : OnlyAt G h op p l i) :
    OnlyAt G' (h ++ es) op p l i :=
  ⟨ho.le_last.trans (hext.last p), (hext.ent p i ho.le_last).trans ho.ent,
    fun q j hj => ho.only q j ((effect_append_of_ne hop).mp hj)⟩

/-- An installed version stays installed. -/
theorem Installed.ext {k : Call P} {l : Nat} (hop : ∀ e ∈ es, e.id ≠ k.op) (hi : Installed G h k l) :
    Installed G' (h ++ es) k l := by
  obtain ⟨i, ho, heff⟩ := hi
  exact ⟨i, ho.ext hext hop, (effect_append_of_ne hop).mpr heff⟩

/-- A version with a stamp stays one. -/
theorem Old.ext {p : P} {l : Nat} (ho : Old G m p l) : Old G' m' p l := by
  obtain ⟨i, hi, hent, hs⟩ := ho
  exact ⟨i, hi.trans (hext.last p), (hext.ent p i hi).trans hent, hext.grows.ne_none hi hs⟩

/-- The lock keeps the last version of a pointer. -/
theorem Storing.ext {k : Call P} (hop : ∀ e ∈ es, e.id ≠ k.op) (hlast : G'.last k.p = G.last k.p)
    (hs : Storing locked G m h k) : Storing locked G' m' (h ++ es) k := by
  refine ⟨hs.locked, hs.noEffect.append hop, ?_⟩
  rw [hlast]
  exact hext.grows.ne_none le_rfl hs.head

/-- A reader does not lose its place. -/
theorem Walking.ext {r : Reader} {k : P → Nat} {p : P} {i : Nat} (hr : ReaderOk G m h r k)
    (hw : Walking G m r k p i) : Walking G' m' r k p i :=
  ⟨hw.le_last.trans (hext.last p), hext.grows.above (hr.counted.le_last p) hr.bound hw.above⟩

/-- What is known of the positions in `set_stamp` stays known. -/
theorem SetStampOk.ext {l : Nat} {x : SetStamp} (hx : SetStampOk G m l x) : SetStampOk G' m' l x := by
  obtain ⟨p, i, hi, hent, hx⟩ := hx
  refine ⟨p, i, hi.trans (hext.last p), (hext.ent p i hi).trans hent, ?_⟩
  have hborn : G'.born p i = G.born p i := hext.grows.born p i hi
  have hclock : m.stamp ≤ m'.stamp := hext.grows.clock
  match x, hx with
  | .load, _ | .clock, _ => trivial
  | .again t, hx | .swap t, hx => exact ⟨hborn.trans_le hx.1, hx.2.trans hclock⟩

variable (hlive : ∀ op p i, Effect es op p i → ∀ b, .ret op b ∉ h)
include hlive

/-- What a snapshot knows stays known. -/
theorem ReaderOk.ext {r : Reader} {k : P → Nat} (hop : ∀ e ∈ es, e.id ≠ r.s) (hr : ReaderOk G m h r k) :
    ReaderOk G' m' (h ++ es) r k where
  counted := hr.counted.grows hext.grows hlive fun hmem => hop _ hmem rfl
  zero := hr.zero
  bound := hr.bound.trans hext.grows.clock
  reads hno := (hr.reads hno).grows hext.grows hr.counted.le_last hr.bound fun _ _ hmem => hop _ hmem rfl
  second hs _ _ := not_mem_append hop (hr.second hs _ _)
  unfinished _ := not_mem_append hop (hr.unfinished _)

/-- What an aborted snapshot knows stays known. -/
theorem Pending.ext {r : Reader} {k : P → Nat} (hop : ∀ e ∈ es, e.id ≠ r.s) (hr : Pending G m h r k) :
    Pending G' m' (h ++ es) r k where
  counted := hr.counted.grows hext.grows hlive fun hmem => hop _ hmem rfl
  zero := hr.zero
  le_clock := hr.le_clock.trans hext.grows.clock
  first := hr.first
  second _ _ := not_mem_append hop (hr.second _ _)
  unfinished _ := not_mem_append hop (hr.unfinished _)

/-- What is known of what follows `set_stamp` stays known. -/
theorem AfterOk.ext {k : After P} {l : Nat} (hop : ∀ w, k.op = some w → ∀ e ∈ es, e.id ≠ w)
    (hlast : ∀ k', k = .store k' → G'.last k'.p = G.last k'.p) (hk : AfterOk locked G m h l k) :
    AfterOk locked G' m' (h ++ es) l k := by
  match k, hk with
  | .store k, hk =>
      refine ⟨hk.1, hk.2.1.ext hext (hop _ rfl), ?_⟩
      rw [hext.ent_last (hlast k rfl)]
      exact hk.2.2
  | .test k old, hk =>
      obtain ⟨hl, hlock, i, ho, heff⟩ := hk
      refine ⟨hl, hlock, i, ho.ext hext (hop _ rfl), ?_⟩
      rw [effect_append_of_ne (hop _ rfl), heff, hext.grows.value k.p i ho.le_last]
  | .finish k, hk => exact Installed.ext hext (hop _ rfl) hk
  | .fail _, _ | .load, _ => trivial
  | .walk r p head, hk =>
      obtain ⟨hl, k, hr, i, hent, hw⟩ := hk
      exact ⟨hl, k, hr.ext hext hlive (hop _ rfl), i, (hext.ent p i hw.le_last).trans hent, hw.ext hext hr⟩

/-- What a thread knows stays known when another thread moves. -/
theorem PcOk.ext {pc : Pc P} (hop : ∀ w, pc.op = some w → ∀ e ∈ es, e.id ≠ w)
    (hown : ∀ l, l < m.fresh → own' l = own l) (hout : ∀ l, own l = some c → G'.Inst l → G.Inst l)
    (hlast : ∀ p, pc.storing = some p → G'.last p = G.last p) (hpc : PcOk locked own c G m h pc) :
    PcOk locked own' c G' m' (h ++ es) pc := by
  match pc, hpc with
  | .idle, _ | .load _, _ | .failed _, _ => trivial
  | .setStamp l x k, hpc =>
      refine ⟨hpc.1.ext hext, hpc.2.ext hext hlive hop ?_⟩
      rintro k' rfl
      exact hlast k'.p rfl
  | .store k, hpc => exact Storing.ext hext (hop _ rfl) (hlast _ rfl) hpc
  | .storeNew k old, hpc =>
      refine ⟨hpc.1.ext hext (hop _ rfl) (hlast _ rfl), ?_⟩
      rw [hext.ent_last (hlast _ rfl)]
      exact hpc.2
  | .storeLoad k new, hpc =>
      refine ⟨hpc.1.ext hext (hop _ rfl) (hlast _ rfl), ?_⟩
      rw [hext.ent_last (hlast _ rfl)]
      exact hpc.2.ext hext hown hout
  | .storeSwap k new w, hpc =>
      refine ⟨hpc.1.ext hext (hop _ rfl) (hlast _ rfl), ?_, ?_⟩
      · rw [hext.ent_last (hlast _ rfl)]
        exact hpc.2.1.ext hext hown hout
      · rw [hext.word k.p (hlast _ rfl)]
        exact hpc.2.2
  | .cas k, hpc => exact ⟨hpc.1, hpc.2.append (hop _ rfl)⟩
  | .casNew k old, hpc => exact ⟨hpc.1, hpc.2.1.append (hop _ rfl), hpc.2.2.ext hext⟩
  | .camRead k old new, hpc =>
      exact ⟨hpc.1, hpc.2.1.append (hop _ rfl), hpc.2.2.1.ext hext, hpc.2.2.2.ext hext hown hout⟩
  | .camSwap k new w, hpc =>
      exact ⟨hpc.1, hpc.2.1.append (hop _ rfl), hpc.2.2.1.ext hext, hpc.2.2.2.ext hext hown hout⟩
  | .verify k new, hpc | .verifyStamp k new, hpc =>
      rcases hpc with ⟨old, hp⟩ | hi
      · exact .inl ⟨old, hp.ext hext hown hout⟩
      · exact .inr (hi.ext hext (hop _ rfl))
  | .getStamp s, hpc =>
      exact ⟨fun b p x => not_mem_append (hop _ rfl) (hpc.1 b p x),
        fun b => not_mem_append (hop _ rfl) (hpc.2 b)⟩
  | .inside r, hpc | .read r _, hpc =>
      obtain ⟨k, hr⟩ := hpc
      exact ⟨k, hr.ext hext hlive (hop _ rfl)⟩
  | .walk r p head, hpc =>
      obtain ⟨k, hr, i, hent, hw, hs⟩ := hpc
      exact ⟨k, hr.ext hext hlive (hop _ rfl), i, (hext.ent p i hw.le_last).trans hent, hw.ext hext hr,
        hext.grows.ne_none hw.le_last hs⟩
  | .follow r p head, hpc =>
      obtain ⟨k, hr, i, hi, hent, hw⟩ := hpc
      exact ⟨k, hr.ext hext hlive (hop _ rfl), i, hi.trans_le (hext.last p),
        (hext.ent p (i + 1) hi).trans hent, hw.ext hext hr⟩
  | .test r p head, hpc =>
      obtain ⟨k, hr, i, hent, hw, hs⟩ := hpc
      exact ⟨k, hr.ext hext hlive (hop _ rfl), i, (hext.ent p i hw.le_last).trans hent, hw.ext hext hr,
        hext.grows.within hw.le_last hs⟩
  | .again r, hpc | .add r, hpc =>
      obtain ⟨k, hr⟩ := hpc
      exact ⟨k, hr.ext hext hlive (hop _ rfl)⟩

end Transport

end Verlib.Indirect.Lazy
