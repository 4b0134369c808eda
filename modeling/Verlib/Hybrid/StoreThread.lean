import Verlib.Hybrid.Store
import Verlib.Hybrid.Update

/-!
# The threads of `store` and speculative snapshots

The lock of a pointer serialises its stores, so between them the last version has its stamp, and during
a store the word of the pointer changes under the worker only by a `shortcut`. A speculative execution
knows the numbers `k` of the last versions at its start: versions after these are not older than its
`local_stamp`, and, as long as no `shortcut` hides a version, links among them have not been replaced.
-/

namespace Verlib.Hybrid.Store

open Interleaving

variable {P : Type} {n : Nat} {G G' : Chains P} {m m' : Memory P} {a y : Versioned}
  {h es : List (Event P)} {ops ops' : Nat} {own own' : Versioned → Option (Fin n)} {t : Fin n}

/-! ## What the history says -/

/-- The call or the snapshot that an event belongs to. -/
def Event.id : Event P → Nat
  | .call op | .install op _ _ _ | .ret op => op
  | .read s _ _ | .consistent s => s

/-- Version `i` is the one that a speculative execution with `local_stamp` `ls` shows, which started when
the last versions were `k`. -/
def CutTo (G : Chains P) (m : Memory P) (k : P → Nat) (ls : Nat) (p : P) (i : Nat) : Prop :=
  i ≤ k p ∧ Within G m ls p i ∧
    ∀ j, i < j → j ≤ k p → ∃ t, m.timeStamp (G.ent p j) = some t ∧ ls < t

/-- What completed before a store that had its effect when the execution started, had its effect and its
stamp as well. -/
def Closed (G : Chains P) (m : Memory P) (h : List (Event P)) (ls : Nat) (k : P → Nat) : Prop :=
  (∀ p, k p ≤ G.last p) ∧
    ∀ op op' p q i j x x', Before h (.ret op) (.call op') → .install op p i x ∈ h →
      .install op' q j x' ∈ h → j ≤ k q → i ≤ k p ∧ Within G m ls p i

/-- The reads of snapshot `s` returned the values of the versions that it shows. -/
def Reads (G : Chains P) (m : Memory P) (h : List (Event P)) (s ls : Nat) (k : P → Nat) : Prop :=
  ∀ p x, .read s p x ∈ h → ∃ i, CutTo G m k ls p i ∧ m.getPtr (G.ent p i) = x

/-- What the history says about the chains. -/
structure HistInv (G : Chains P) (m : Memory P) (h : List (Event P)) (ops : Nat) : Prop where
  ids : ∀ e ∈ h, e.id < ops
  install : ∀ op p i x, .install op p i x ∈ h → 0 < i ∧ i ≤ G.last p ∧ m.getPtr (G.ent p i) = x
  installed : ∀ p i, 0 < i → i ≤ G.last p → ∃ op, .install op p i (m.getPtr (G.ent p i)) ∈ h
  ret : ∀ op, .ret op ∈ h → (∃ p i x, .install op p i x ∈ h) ∧
    ∀ p i x, .install op p i x ∈ h → m.timeStamp (G.ent p i) ≠ none
  consistent : ∀ s, .consistent s ∈ h →
    ∃ ls k, 1 ≤ ls ∧ Closed G m h ls k ∧ Reads G m h s ls k

/-- The events of a step: new versions are the last ones and belong to a call that has not returned, and
a call that starts has installed nothing. -/
structure EventsOk (G : Chains P) (h es : List (Event P)) : Prop where
  install : ∀ op p i x, .install op p i x ∈ es → G.last p < i ∧ .ret op ∉ h
  call : ∀ op, .call op ∈ es → ∀ p i x, .install op p i x ∉ h ++ es
  single : ∀ x y, ¬ Before es x y

section Transport

variable (hext : Ext a G m G' m') (hinv : ChainInv G m)
include hext

/-- The version that an execution shows stays the same. -/
theorem CutTo.ext {k : P → Nat} {ls i : Nat} {p : P} (hk : k p ≤ G.last p)
    (hc : CutTo G m k ls p i) : CutTo G' m' k ls p i := by
  refine ⟨hc.1, hext.within (hc.1.trans hk) hc.2.1, fun j hij hj => ?_⟩
  obtain ⟨s, hs, hlt⟩ := hc.2.2 j hij hj
  exact ⟨s, by rw [hext.ent p j (hj.trans hk), hext.timeStamp _ _ hs], hlt⟩

/-- What completed before a shown store stays shown. -/
theorem Closed.ext {k : P → Nat} {ls : Nat} (hes : EventsOk G h es) (hc : Closed G m h ls k) :
    Closed G' m' (h ++ es) ls k := by
  obtain ⟨hle, hclosed⟩ := hc
  refine ⟨fun p => (hle p).trans (hext.last p), ?_⟩
  intro op op' p q i j x x' hb hi hj hjk
  -- The later store is an old one: a new version lies beyond `k`, and a new call has installed nothing.
  have hj' : .install op' q j x' ∈ h := by
    rcases List.mem_append.mp hj with hold | hnew
    · exact hold
    · have hlt := (hes.install op' q j x' hnew).1
      have hkq := hle q
      omega
  have hb' : Before h (.ret op) (.call op') := by
    rcases before_append_iff.mp hb with hold | ⟨_, hnew⟩ | hnew
    · exact hold
    · exact absurd (List.mem_append_left _ hj') (hes.call op' hnew q j x')
    · exact absurd hnew (hes.single _ _)
  have hi' : .install op p i x ∈ h := by
    rcases List.mem_append.mp hi with hold | hnew
    · exact hold
    · exact absurd hb'.left_mem (hes.install op p i x hnew).2
  obtain ⟨hik, hw⟩ := hclosed op op' p q i j x x' hb' hi' hj' hjk
  exact ⟨hik, hext.within (hik.trans (hle p)) hw⟩

include hinv

/-- The object of a version does not change. -/
theorem Ext.getPtr_ent {p : P} {i : Nat} (hi : i ≤ G.last p) :
    m'.getPtr (G'.ent p i) = m.getPtr (G.ent p i) := by
  rw [hext.ent p i hi, hext.getPtr (hinv.allocated hi)]

/-- The reads of a snapshot stay right, if there is no new one. -/
theorem Reads.ext {k : P → Nat} {s ls : Nat} (hle : ∀ p, k p ≤ G.last p)
    (hes : ∀ p x, Event.read s p x ∉ es) (hr : Reads G m h s ls k) :
    Reads G' m' (h ++ es) s ls k := by
  intro p x hmem
  rcases List.mem_append.mp hmem with hold | hnew
  · obtain ⟨i, hc, hx⟩ := hr p x hold
    exact ⟨i, hc.ext hext (hle p), by rw [Ext.getPtr_ent hext hinv (hc.1.trans (hle p)), hx]⟩
  · exact absurd hnew (hes p x)

/-- A step keeps the invariant of the history. -/
theorem HistInv.step (hist : HistInv G m h ops) (hes : EventsOk G h es) (hops : ops ≤ ops')
    (hids : ∀ e ∈ es, e.id < ops')
    (hnew : ∀ op p i x, .install op p i x ∈ es →
      0 < i ∧ i ≤ G'.last p ∧ m'.getPtr (G'.ent p i) = x)
    (hall : ∀ p i, G.last p < i → i ≤ G'.last p →
      ∃ op, .install op p i (m'.getPtr (G'.ent p i)) ∈ es)
    (hret : ∀ op, .ret op ∈ es → (∃ p i x, .install op p i x ∈ h) ∧
      ∀ p i x, .install op p i x ∈ h ++ es → m'.timeStamp (G'.ent p i) ≠ none)
    (hread : ∀ s p x, .read s p x ∈ es → .consistent s ∉ h)
    (hcons : ∀ s, .consistent s ∈ es →
      ∃ ls k, 1 ≤ ls ∧ Closed G' m' (h ++ es) ls k ∧ Reads G' m' (h ++ es) s ls k) :
    HistInv G' m' (h ++ es) ops' := by
  refine ⟨?_, ?_, ?_, ?_, ?_⟩
  · intro e he
    rcases List.mem_append.mp he with hold | hn
    · exact (hist.ids e hold).trans_le hops
    · exact hids e hn
  · intro op p i x hmem
    rcases List.mem_append.mp hmem with hold | hn
    · obtain ⟨hpos, hi, hx⟩ := hist.install op p i x hold
      exact ⟨hpos, hi.trans (hext.last p), by rw [Ext.getPtr_ent hext hinv hi, hx]⟩
    · exact hnew op p i x hn
  · intro p i hpos hi
    rcases Nat.lt_or_ge (G.last p) i with hlt | hle
    · obtain ⟨op, hop⟩ := hall p i hlt hi
      exact ⟨op, List.mem_append_right _ hop⟩
    · obtain ⟨op, hop⟩ := hist.installed p i hpos hle
      rw [Ext.getPtr_ent hext hinv hle]
      exact ⟨op, List.mem_append_left _ hop⟩
  · intro op hmem
    rcases List.mem_append.mp hmem with hold | hn
    · obtain ⟨⟨p, i, x, hx⟩, hts⟩ := hist.ret op hold
      refine ⟨⟨p, i, x, List.mem_append_left _ hx⟩, fun p i x hi => ?_⟩
      rcases List.mem_append.mp hi with hi | hi
      · rw [hext.ent p i (hist.install op p i x hi).2.1]
        exact hext.ne_none (hts p i x hi)
      · exact absurd hold (hes.install op p i x hi).2
    · obtain ⟨⟨p, i, x, hx⟩, hts⟩ := hret op hn
      exact ⟨⟨p, i, x, List.mem_append_left _ hx⟩, hts⟩
  · intro s hmem
    rcases List.mem_append.mp hmem with hold | hn
    · obtain ⟨ls, k, hls, hclosed, hreads⟩ := hist.consistent s hold
      exact ⟨ls, k, hls, hclosed.ext hext hes,
        hreads.ext hext hinv hclosed.1 fun p x hr => hread s p x hr hold⟩
    · exact hcons s hn

end Transport

/-! ## What a worker knows -/

/-- What a speculative execution knows of the chains, with the numbers `k` of the last versions at its
start. -/
structure ReaderOk (G : Chains P) (m : Memory P) (h : List (Event P)) (r : Reader) (k : P → Nat) :
    Prop where
  pos : 1 ≤ r.ls
  le_stamp : r.ls ≤ m.stamp
  young : ∀ p i, k p < i → i ≤ G.last p → r.ls ≤ G.born p i
  short : ∀ p i l, i ≤ G.last p → G.ent p i = .indirect l → G.short l → i ≤ k p ∧
    ∃ t, m.timeStamp (.indirect l) = some t ∧ t ≤ r.ls
  closed : Closed G m h r.ls k
  reads : r.aborted = false → Reads G m h r.s r.ls k

/-- The last version of a pointer has its stamp. -/
def Stamped (G : Chains P) (m : Memory P) (p : P) : Prop :=
  m.timeStamp (G.ent p (G.last p)) ≠ none

/-- The pointer still holds what it held, or the link that it held has been replaced by its value. -/
def Holds (m : Memory P) (p : P) (old : Versioned) : Prop :=
  (m.v p).2 = old ∨ ∃ l, old = .indirect l ∧ (m.v p).2 = .direct (m.value l)

/-- The call has installed nothing yet. -/
def NoInstall (h : List (Event P)) (op : Nat) : Prop :=
  ∀ p i x, .install op p i x ∉ h

/-- The call has installed the last version. -/
def StoredLast (own : Versioned → Option (Fin n)) (t : Fin n) (G : Chains P) (h : List (Event P))
    (op : Nat) (p : P) : Prop :=
  own (G.ent p (G.last p)) = some t ∧ (∃ x, .install op p (G.last p) x ∈ h) ∧
    ∀ q j x, .install op q j x ∈ h → q = p ∧ j = G.last p

/-- The object passed to `store` belongs to the worker unless it has a stamp. -/
def Passed (own : Versioned → Option (Fin n)) (t : Fin n) (m : Memory P) (c : Call P) : Prop :=
  m.timeStamp (.direct c.ptr) = none → own (.direct c.ptr) = some t

/-- A `store` before the installation: the node is ready, and the last version has its stamp. -/
def Ready (own : Versioned → Option (Fin n)) (t : Fin n) (G : Chains P) (m : Memory P)
    (h : List (Event P)) (c : Call P) (old new : Versioned) : Prop :=
  NoInstall h c.op ∧ Stamped G m c.p ∧ Prepared own t G m c.p c.ptr old new

/-- A `store` after the installation. -/
def Stored (own : Versioned → Option (Fin n)) (t : Fin n) (G : Chains P) (h : List (Event P))
    (c : Call P) (new : Versioned) : Prop :=
  G.ent c.p (G.last c.p) = new ∧ StoredLast own t G h c.op c.p

/-- The walk of a speculative execution: it has not gone past the version that it shows. -/
def Walking (G : Chains P) (m : Memory P) (h : List (Event P)) (r : Reader) (p : P) (i : Nat) : Prop :=
  i ≤ G.last p ∧ ∃ k, ReaderOk G m h r k ∧
    ∀ j, i < j → j ≤ k p → ∃ t, m.timeStamp (G.ent p j) = some t ∧ r.ls < t

/-- What is known in `set_stamp(y)` of what follows it. -/
def AfterOk (own : Versioned → Option (Fin n)) (t : Fin n) (G : Chains P) (m : Memory P)
    (h : List (Event P)) (y : Versioned) : After P → Prop
  | .store c new => y = new ∧ Stored own t G h c new
  | .load _ _ => True
  | .walk r p head => y = head ∧
      (r.speculative = true → ∃ i, Walking G m h r p i ∧ Rep G m p i head)

/-- What a worker knows at its position. -/
def PcOk (own : Versioned → Option (Fin n)) (t : Fin n) (G : Chains P) (m : Memory P)
    (h : List (Event P)) : Pc P → Prop
  | .idle | .load _ => True
  | .setStamp y x k => SetStampOk G m y x ∧ AfterOk own t G m h y k
  | .shortcut p l x op => ShortcutOk G m l x ∧
      ∀ w, op = some w → Stamped G m p ∧ StoredLast own t G h w p
  | .store c => NoInstall h c.op ∧ Stamped G m c.p ∧ Passed own t m c
  | .useIndirect c old => NoInstall h c.op ∧ Stamped G m c.p ∧ Passed own t m c ∧
      Old G m c.p old ∧ Holds m c.p old
  | .newLink c old => NoInstall h c.op ∧ Stamped G m c.p ∧ m.timeStamp (.direct c.ptr) ≠ none ∧
      Old G m c.p old ∧ Holds m c.p old
  | .setNext c old => NoInstall h c.op ∧ Stamped G m c.p ∧ Private own t G m (.direct c.ptr) ∧
      Old G m c.p old ∧ Holds m c.p old
  | .camRead c old new false => Ready own t G m h c old new ∧ Holds m c.p old
  | .camSwap c old new false w => Ready own t G m h c old new ∧ w.2 = old ∧
      (m.v c.p = w ∨ ∃ l, old = .indirect l ∧ (m.v c.p).2 = .direct (m.value l))
  | .recheck c l new false => Ready own t G m h c (.indirect l) new ∧
      (m.v c.p).2 = .direct (m.value l)
  | .camRead c _ new true | .camSwap c _ new true _ | .recheck c _ new true => Stored own t G h c new
  | .getStamp s => ∀ p x, .read s p x ∉ h
  | .inside r | .read r _ => r.speculative = true → ∃ k, ReaderOk G m h r k
  | .walk r p head => r.speculative = true → m.timeStamp head ≠ none ∧
      ∃ i, Walking G m h r p i ∧ Rep G m p i head
  | .follow r p head => r.speculative = true → ∃ i, Walking G m h r p i ∧ i < G.last p ∧
      head = G.ent p (i + 1)
  | .test r p head => r.speculative = true → ∃ i, Walking G m h r p i ∧ Rep G m p i head ∧
      ∃ s, m.timeStamp head = some s ∧ s ≤ r.ls
  | .again r | .add r => r.speculative = false

/-- The call or snapshot that follows `set_stamp`. -/
def After.op : After P → Option Nat
  | .store c _ => some c.op
  | .load _ _ => none
  | .walk r _ _ => some r.s

/-- The call or snapshot that a worker executes. -/
def Pc.op : Pc P → Option Nat
  | .idle | .load _ => none
  | .setStamp _ _ k => k.op
  | .shortcut _ _ _ op => op
  | .store c | .useIndirect c _ | .newLink c _ | .setNext c _ | .camRead c _ _ _
  | .camSwap c _ _ _ _ | .recheck c _ _ _ => some c.op
  | .getStamp s => some s
  | .inside r | .read r _ | .walk r _ _ | .follow r _ _ | .test r _ _ | .again r | .add r => some r.s

/-! ## What stays known -/

/-- A step that leaves pointer `p` to the worker that stores into it: it installs nothing there, and
changes the word only by a `shortcut`. -/
structure Kept (G : Chains P) (m : Memory P) (G' : Chains P) (m' : Memory P) (p : P) : Prop where
  last : G'.last p = G.last p
  word : m'.v p = m.v p ∨ ∃ l, (m.v p).2 = .indirect l ∧ (m'.v p).2 = .direct (m.value l)

/-- An attempt starts from what the pointer held. -/
theorem Aim.wasHead {p : P} {old new : Versioned} (haim : Aim G m p old new) : WasHead G p old := by
  rcases haim with ⟨_, hold⟩ | ⟨l, rfl, _⟩
  · exact hold.2
  · rintro _ ⟨⟩

/-- Other calls' events install nothing for a call. -/
theorem NoInstall.append {op : Nat} (hop : ∀ e ∈ es, e.id ≠ op) (hno : NoInstall h op) :
    NoInstall (h ++ es) op := by
  intro p i x hmem
  rcases List.mem_append.mp hmem with hold | hnew
  · exact hno p i x hold
  · exact hop _ hnew rfl

section Transport

variable (hext : Ext a G m G' m')
include hext

/-- The last version keeps its stamp. -/
theorem Stamped.ext {p : P} (hlast : G'.last p = G.last p) (hs : Stamped G m p) :
    Stamped G' m' p := by
  unfold Stamped
  rw [hlast, hext.ent p _ le_rfl]
  exact hext.ne_none hs

/-- An object without a stamp belonged to the worker before. -/
theorem Passed.ext {c : Call P} (hown : ∀ y, m.Allocated y → own' y = own y)
    (hp : Passed own t m c) : Passed own' t m' c := by
  intro hnone
  rw [hown _ (by rintro _ ⟨⟩)]
  refine hp ?_
  by_contra hne
  exact hext.ne_none hne hnone

variable (hinv : ChainInv G m)
include hinv

/-- What a pointer holds changes by a `shortcut` only. -/
theorem Holds.ext {p : P} {old : Versioned} (hkept : Kept G m G' m' p) (hwas : WasHead G p old)
    (hh : Holds m p old) : Holds m' p old := by
  have hvalue : ∀ l, old = .indirect l → m'.value l = m.value l := by
    intro l hl
    obtain ⟨j, hj, hent⟩ := hwas l hl
    exact hext.value l (hinv.value p j l hj hent).1
  rcases hh with heq | ⟨l, hl, hv⟩
  · rcases hkept.word with hsame | ⟨l, hl, hv⟩
    · exact .inl (by rw [hsame, heq])
    · have hold : old = .indirect l := heq.symm.trans hl
      exact .inr ⟨l, hold, by rw [hv, hvalue l hold]⟩
  · rcases hkept.word with hsame | ⟨l', hl', _⟩
    · exact .inr ⟨l, hl, by rw [hsame, hv, hvalue l hl]⟩
    · rw [hv] at hl'
      cases hl'

/-- The last version is still the one that the call has installed. -/
theorem StoredLast.ext {op : Nat} {p : P} (hown : ∀ y, m.Allocated y → own' y = own y)
    (hlast : G'.last p = G.last p) (hop : ∀ e ∈ es, e.id ≠ op) (hs : StoredLast own t G h op p) :
    StoredLast own' t G' (h ++ es) op p := by
  obtain ⟨ho, ⟨x, hx⟩, honly⟩ := hs
  refine ⟨?_, ⟨x, ?_⟩, ?_⟩
  · rw [hlast, hext.ent p _ le_rfl, hown _ (hinv.allocated le_rfl), ho]
  · rw [hlast]
    exact List.mem_append_left _ hx
  · intro q j x hmem
    rw [hlast]
    rcases List.mem_append.mp hmem with hold | hnew
    · exact honly q j x hold
    · exact absurd rfl (hop _ hnew)

/-- A `store` stays past its installation. -/
theorem Stored.ext {c : Call P} {new : Versioned} (hown : ∀ y, m.Allocated y → own' y = own y)
    (hlast : G'.last c.p = G.last c.p) (hop : ∀ e ∈ es, e.id ≠ c.op) (hs : Stored own t G h c new) :
    Stored own' t G' (h ++ es) c new := by
  refine ⟨?_, hs.2.ext hext hinv hown hlast hop⟩
  rw [hlast, hext.ent c.p _ le_rfl]
  exact hs.1

/-- A speculative execution keeps what it knows, if no version is hidden from it. -/
theorem ReaderOk.ext {r : Reader} {k : P → Nat} (hinv' : ChainInv G' m') (hes : EventsOk G h es)
    (hop : ∀ e ∈ es, e.id ≠ r.s)
    (hshort : ∀ l, G'.short l → G.short l ∨ ∃ t, m.timeStamp (.indirect l) = some t ∧ t < r.ls)
    (hr : ReaderOk G m h r k) : ReaderOk G' m' (h ++ es) r k := by
  have hyoung : ∀ p i, k p < i → i ≤ G'.last p → r.ls ≤ G'.born p i := by
    intro p i hk hi
    rcases Nat.lt_or_ge (G.last p) i with hlt | hle
    · exact hr.le_stamp.trans (hext.new p i hlt hi).2.2
    · rw [hext.born p i hle]
      exact hr.young p i hk hle
  refine ⟨hr.pos, hr.le_stamp.trans hext.stamp, hyoung, ?_, hr.closed.ext hext hes, fun hab =>
    (hr.reads hab).ext hext hinv hr.closed.1 fun p x hmem => hop _ hmem rfl⟩
  intro p i l hi hent hl
  rcases hshort l hl with hold | ⟨s, hs, hlt⟩
  · rcases Nat.lt_or_ge (G.last p) i with hnew | hle
    · -- A link that has been replaced was a version before.
      obtain ⟨ha, hno, _⟩ := hext.new p i hnew hi
      rw [← ha, hent] at hno
      exact absurd (hinv.short l hold).1 hno
    · rw [hext.ent p i hle] at hent
      obtain ⟨hk, s, hs, hsle⟩ := hr.short p i l hle hent hold
      exact ⟨hk, s, hext.timeStamp _ _ hs, hsle⟩
  · have hs' := hext.timeStamp _ _ hs
    refine ⟨?_, s, hs', hlt.le⟩
    by_contra hk
    have hborn := hinv'.born_le_stamp p i s hi (by rw [hent, hs'])
    have hls := hyoung p i (by omega) hi
    omega

/-- The walk of a speculative execution has not gone past the version that it shows. -/
theorem Walking.ext {r : Reader} {p : P} {i : Nat} (hinv' : ChainInv G' m') (hes : EventsOk G h es)
    (hop : ∀ e ∈ es, e.id ≠ r.s)
    (hshort : ∀ l, G'.short l → G.short l ∨ ∃ t, m.timeStamp (.indirect l) = some t ∧ t < r.ls)
    (hw : Walking G m h r p i) : Walking G' m' (h ++ es) r p i := by
  obtain ⟨hi, k, hr, hpast⟩ := hw
  refine ⟨hi.trans (hext.last p), k, hr.ext hext hinv hinv' hes hop hshort, fun j hij hj => ?_⟩
  obtain ⟨s, hs, hlt⟩ := hpast j hij hj
  exact ⟨s, by rw [hext.ent p j (hj.trans (hr.closed.1 p)), hext.timeStamp _ _ hs], hlt⟩

variable (hown : ∀ y, m.Allocated y → own' y = own y)
  (hne : ∀ y, own y = some t → m.Allocated y → y ≠ a)
include hown

/-- What is known of what follows `set_stamp` stays known. -/
theorem AfterOk.ext {k : After P} (hinv' : ChainInv G' m') (hes : EventsOk G h es)
    (hop : ∀ w, k.op = some w → ∀ e ∈ es, e.id ≠ w)
    (hlast : ∀ p, (Pc.setStamp y .load k).storing = some p → G'.last p = G.last p)
    (hshort : ∀ l, G'.short l → G.short l ∨ ∀ ls, (Pc.setStamp y .load k).speculating = some ls →
      ∃ s, m.timeStamp (.indirect l) = some s ∧ s < ls)
    (hk : AfterOk own t G m h y k) : AfterOk own' t G' m' (h ++ es) y k := by
  match k, hk with
  | .store c new, hk => exact ⟨hk.1, hk.2.ext hext hinv hown (hlast c.p rfl) (hop c.op rfl)⟩
  | .load _ _, _ => trivial
  | .walk r p head, hk =>
      refine ⟨hk.1, fun hspec => ?_⟩
      obtain ⟨i, hw, hrep⟩ := hk.2 hspec
      refine ⟨i, hw.ext hext hinv hinv' hes (hop r.s rfl) ?_, hext.rep hinv hw.1 hrep⟩
      exact fun l hl => (hshort l hl).imp_right fun hall => hall r.ls (by simp [Pc.speculating, hspec])

include hne

/-- A `store` that is ready to install stays ready. -/
theorem Ready.ext {c : Call P} {old new : Versioned} (hlast : G'.last c.p = G.last c.p)
    (hop : ∀ e ∈ es, e.id ≠ c.op) (hr : Ready own t G m h c old new) :
    Ready own' t G' m' (h ++ es) c old new :=
  ⟨hr.1.append hop, hr.2.1.ext hext hlast, hr.2.2.ext hext hown hne hinv⟩

/-- What a worker knows stays known when another worker takes a step. -/
theorem PcOk.ext {pc : Pc P} (hinv' : ChainInv G' m') (hes : EventsOk G h es)
    (hop : ∀ w, pc.op = some w → ∀ e ∈ es, e.id ≠ w)
    (hkept : ∀ p, pc.storing = some p → Kept G m G' m' p)
    (hshort : ∀ l, G'.short l → G.short l ∨ ∀ ls, pc.speculating = some ls →
      ∃ s, m.timeStamp (.indirect l) = some s ∧ s < ls)
    (hpc : PcOk own t G m h pc) : PcOk own' t G' m' (h ++ es) pc := by
  have hreader : ∀ {r : Reader}, r.speculative = true → pc.speculating = some r.ls → ∀ l, G'.short l →
      G.short l ∨ ∃ s, m.timeStamp (.indirect l) = some s ∧ s < r.ls :=
    fun _ hls l hl => (hshort l hl).imp_right fun hall => hall _ hls
  match pc, hpc with
  | .idle, _ | .load _, _ => trivial
  | .setStamp y x k, hpc =>
      refine ⟨hext.setStampOk hpc.1, hpc.2.ext hext hinv hown hinv' hes hop ?_ ?_⟩
      · intro p hp
        refine (hkept p ?_).last
        cases k <;> exact hp
      · intro l hl
        refine (hshort l hl).imp_right fun hall ls hls => hall ls ?_
        cases k <;> exact hls
  | .shortcut p l x op, hpc =>
      refine ⟨hext.shortcutOk hpc.1, ?_⟩
      rintro w rfl
      obtain ⟨hs, hstored⟩ := hpc.2 w rfl
      have hlast := (hkept p rfl).last
      exact ⟨hs.ext hext hlast, hstored.ext hext hinv hown hlast (hop w rfl)⟩
  | .store c, hpc =>
      exact ⟨hpc.1.append (hop c.op rfl), hpc.2.1.ext hext (hkept c.p rfl).last, hpc.2.2.ext hext hown⟩
  | .useIndirect c old, hpc =>
      obtain ⟨hno, hs, hpass, hold, hh⟩ := hpc
      exact ⟨hno.append (hop c.op rfl), hs.ext hext (hkept c.p rfl).last, hpass.ext hext hown,
        hold.ext hext, hh.ext hext hinv (hkept c.p rfl) hold.2⟩
  | .newLink c old, hpc =>
      obtain ⟨hno, hs, hts, hold, hh⟩ := hpc
      exact ⟨hno.append (hop c.op rfl), hs.ext hext (hkept c.p rfl).last, hext.ne_none hts,
        hold.ext hext, hh.ext hext hinv (hkept c.p rfl) hold.2⟩
  | .setNext c old, hpc =>
      obtain ⟨hno, hs, hpriv, hold, hh⟩ := hpc
      exact ⟨hno.append (hop c.op rfl), hs.ext hext (hkept c.p rfl).last, hpriv.ext hext hown hne,
        hold.ext hext, hh.ext hext hinv (hkept c.p rfl) hold.2⟩
  | .camRead c old new false, hpc =>
      obtain ⟨hready, hh⟩ := hpc
      exact ⟨hready.ext hext hinv hown hne (hkept c.p rfl).last (hop c.op rfl),
        hh.ext hext hinv (hkept c.p rfl) (Aim.wasHead hready.2.2.2.2.2)⟩
  | .camSwap c old new false w, hpc =>
      obtain ⟨hready, hw, hword⟩ := hpc
      have hwas := Aim.wasHead hready.2.2.2.2.2
      refine ⟨hready.ext hext hinv hown hne (hkept c.p rfl).last (hop c.op rfl), hw, ?_⟩
      rcases hword with hsame | hl
      · rcases (hkept c.p rfl).word with hv | ⟨l, hl, hv⟩
        · exact .inl (hv.trans hsame)
        · have hold : old = .indirect l := by rw [← hl, hsame, hw]
          obtain ⟨j, hj, hent⟩ := hwas l hold
          exact .inr ⟨l, hold, by rw [hv, hext.value l (hinv.value _ j l hj hent).1]⟩
      · -- Once the link has been replaced the word stays.
        right
        have hh := Holds.ext hext hinv (hkept c.p rfl) hwas (.inr hl)
        obtain ⟨l, hold, hv⟩ := hl
        rcases hh with heq | hl'
        · rcases (hkept c.p rfl).word with hsame | ⟨l', hl', _⟩
          · rw [hsame, hv, hold] at heq
            cases heq
          · rw [hv] at hl'
            cases hl'
        · exact hl'
  | .recheck c l new false, hpc =>
      obtain ⟨hready, hv⟩ := hpc
      refine ⟨hready.ext hext hinv hown hne (hkept c.p rfl).last (hop c.op rfl), ?_⟩
      obtain ⟨j, hj, hent⟩ := Aim.wasHead hready.2.2.2.2.2 l rfl
      rw [hext.value l (hinv.value _ j l hj hent).1]
      rcases (hkept c.p rfl).word with hsame | ⟨l', hl', _⟩
      · rw [hsame, hv]
      · rw [hv] at hl'
        cases hl'
  | .camRead c _ new true, hpc | .camSwap c _ new true _, hpc | .recheck c _ new true, hpc =>
      exact Stored.ext hext hinv hown (hkept c.p rfl).last (hop c.op rfl) hpc
  | .getStamp s, hpc =>
      intro p x hmem
      rcases List.mem_append.mp hmem with hold | hnew
      · exact hpc p x hold
      · exact hop s rfl _ hnew rfl
  | .inside r, hpc | .read r _, hpc =>
      intro hspec
      obtain ⟨k, hr⟩ := hpc hspec
      exact ⟨k, hr.ext hext hinv hinv' hes (hop r.s rfl)
        (hreader hspec (by simp [Pc.speculating, hspec]))⟩
  | .walk r p head, hpc =>
      intro hspec
      obtain ⟨hts, i, hw, hrep⟩ := hpc hspec
      exact ⟨hext.ne_none hts, i, hw.ext hext hinv hinv' hes (hop r.s rfl)
        (hreader hspec (by simp [Pc.speculating, hspec])), hext.rep hinv hw.1 hrep⟩
  | .follow r p head, hpc =>
      intro hspec
      obtain ⟨i, hw, hi, hhead⟩ := hpc hspec
      exact ⟨i, hw.ext hext hinv hinv' hes (hop r.s rfl)
        (hreader hspec (by simp [Pc.speculating, hspec])), hi.trans_le (hext.last p),
        by rw [hext.ent p (i + 1) hi, hhead]⟩
  | .test r p head, hpc =>
      intro hspec
      obtain ⟨i, hw, hrep, s, hs, hle⟩ := hpc hspec
      exact ⟨i, hw.ext hext hinv hinv' hes (hop r.s rfl)
        (hreader hspec (by simp [Pc.speculating, hspec])), hext.rep hinv hw.1 hrep, s,
        hext.timeStamp _ _ hs, hle⟩
  | .again r, hpc | .add r, hpc => exact hpc

end Transport

end Verlib.Hybrid.Store
